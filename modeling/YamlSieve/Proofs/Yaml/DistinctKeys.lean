import YamlSieve.Proofs.Equality
import YamlSieve.Yaml.Document

/-!
# Keys of read documents

Where two keys of a mapping have the same text, the second binds the first one again. So no key
stands twice in a document that is read, at any depth.
-/

namespace YamlSieve

namespace Node

variable {es fs : List (String × Node)}

lemma map_fst_bind (key : String) (value : Node) (es : List (String × Node)) :
    (bind key value es).map Prod.fst =
      if key ∈ es.map Prod.fst then es.map Prod.fst else es.map Prod.fst ++ [key] := by
  induction es with
  | nil => rfl
  | cons e es ih =>
    obtain ⟨k, v⟩ := e
    by_cases hk : k = key
    · simp [bind, hk]
    · have hmem : key ∈ k :: es.map Prod.fst ↔ key ∈ es.map Prod.fst := by
        simp [Ne.symm hk]
      simp only [bind, if_neg hk, List.map_cons, ih, hmem]
      split_ifs <;> rfl

lemma lookup_cons_eq_ite (key : String) (e : String × Node) (es : List (String × Node)) :
    (e :: es).lookup key = if key = e.1 then some e.2 else es.lookup key := by
  rw [List.lookup_cons]
  by_cases hkey : key = e.1
  · rw [if_pos hkey, beq_iff_eq.mpr hkey]
  · rw [if_neg hkey, beq_false_of_ne hkey]

/-- Binding a key changes what is found under this key, and nothing else. -/
lemma lookup_bind (key : String) (value : Node) (es : List (String × Node)) (key' : String) :
    (bind key value es).lookup key' = if key' = key then some value else es.lookup key' := by
  induction es with
  | nil => rw [bind, lookup_cons_eq_ite]
  | cons e es ih =>
    obtain ⟨k, v⟩ := e
    rw [bind]
    by_cases hk : k = key
    · rw [if_pos hk, lookup_cons_eq_ite, lookup_cons_eq_ite, hk]
      split_ifs <;> rfl
    · rw [if_neg hk, lookup_cons_eq_ite, lookup_cons_eq_ite, ih]
      by_cases hkey : key' = k
      · rw [if_pos hkey, hkey, if_neg hk, if_pos rfl]
      · rw [if_neg hkey, if_neg hkey]

/-- Entries are determined by the order of their keys and by what is found under each key. -/
lemma eq_of_lookup (hnodup : (es.map Prod.fst).Nodup) (hkeys : es.map Prod.fst = fs.map Prod.fst)
    (h : ∀ key v w, es.lookup key = some v → fs.lookup key = some w → v = w) : es = fs := by
  induction es generalizing fs with
  | nil => exact (List.map_eq_nil_iff.mp hkeys.symm).symm
  | cons e es ih =>
    cases fs with
    | nil => cases hkeys
    | cons f fs =>
      obtain ⟨hkey, hkeys⟩ := List.cons.inj hkeys
      obtain ⟨hnew, hnodup⟩ := List.nodup_cons.mp hnodup
      simp only [lookup_cons_eq_ite] at h
      have hvalue : e.2 = f.2 := h e.1 e.2 f.2 (if_pos rfl) (if_pos hkey)
      rw [Prod.ext hkey hvalue, ih hnodup hkeys fun key v w hv hw => ?_]
      have hne : key ≠ e.1 := by
        rintro rfl
        exact hnew (List.mem_map.mpr ⟨_, mem_of_lookup hv, rfl⟩)
      exact h key v w (by rwa [if_neg hne]) (by rwa [if_neg (hkey ▸ hne)])

/-- Binding a key leaves the keys distinct. -/
lemma nodup_bind (h : (es.map Prod.fst).Nodup) (key : String) (value : Node) :
    ((bind key value es).map Prod.fst).Nodup := by
  rw [map_fst_bind]
  split_ifs with hkey
  · exact h
  · rw [← List.concat_eq_append]
    exact h.concat hkey

/-- The values after binding a key are the new one and old ones. -/
lemma eq_or_mem_of_mem_bind {key : String} {value : Node} {e : String × Node}
    (he : e ∈ bind key value es) : e.2 = value ∨ e ∈ es := by
  induction es with
  | nil =>
    obtain rfl := List.mem_singleton.mp he
    exact Or.inl rfl
  | cons f es ih =>
    rw [bind] at he
    split_ifs at he
    · rcases List.mem_cons.mp he with rfl | he
      · exact Or.inl rfl
      · exact Or.inr (List.mem_cons_of_mem f he)
    · rcases List.mem_cons.mp he with rfl | he
      · exact Or.inr List.mem_cons_self
      · exact (ih he).imp_right (List.mem_cons_of_mem f)

lemma hasDistinctKeys_bind {value : Node} (hes : (mapping es).hasDistinctKeys = true)
    (hvalue : value.hasDistinctKeys = true) (key : String) :
    (mapping (bind key value es)).hasDistinctKeys = true := by
  rw [hasDistinctKeys_mapping_iff] at hes ⊢
  refine ⟨nodup_bind hes.1 key value, fun e he => ?_⟩
  rcases eq_or_mem_of_mem_bind he with h | h
  · rwa [h]
  · exact hes.2 e h

end Node

namespace Yaml

namespace Value

mutual

theorem hasDistinctKeys_of_toNode : ∀ {value : Value} {node : Node}, toNode value = .ok node →
    node.hasDistinctKeys = true
  | .sequence items, node, h => by
    rw [toNode] at h
    split at h
    · next nodes hnodes =>
      obtain rfl := Except.ok.inj h
      exact Node.hasDistinctKeys_sequence_iff.mpr (hasDistinctKeys_of_itemNodes hnodes)
    · cases h
  | .mapping entries, node, h => by
    rw [toNode] at h
    split at h
    · next nodes hnodes =>
      obtain rfl := Except.ok.inj h
      exact hasDistinctKeys_of_entryNodes rfl hnodes
    · cases h
  | .real text, node, h => by
    rw [toNode] at h
    split at h <;> exact Except.ok.inj h ▸ rfl
  | .string _, node, h | .integer _, node, h | .boolean _, node, h | .null, node, h => by
    rw [toNode] at h
    exact Except.ok.inj h ▸ rfl
  | .aliasOf _, node, h | .invalid, node, h => by
    rw [toNode] at h
    cases h

theorem hasDistinctKeys_of_itemNodes : ∀ {items : List Value} {nodes : List Node},
    itemNodes items = .ok nodes → ∀ node ∈ nodes, node.hasDistinctKeys = true
  | [], nodes, h => by
    rw [itemNodes] at h
    obtain rfl := Except.ok.inj h
    exact List.forall_mem_nil _
  | item :: items, nodes, h => by
    rw [itemNodes] at h
    split at h
    · cases h
    · next node hnode =>
      split at h
      · cases h
      · next nodes hnodes =>
        obtain rfl := Except.ok.inj h
        exact List.forall_mem_cons.mpr
          ⟨hasDistinctKeys_of_toNode hnode, hasDistinctKeys_of_itemNodes hnodes⟩

/-- Binding more entries keeps the keys distinct. -/
theorem hasDistinctKeys_of_entryNodes : ∀ {entries : List (Value × Value)}
    {bound nodes : List (String × Node)}, (Node.mapping bound).hasDistinctKeys = true →
      entryNodes bound entries = .ok nodes → (Node.mapping nodes).hasDistinctKeys = true
  | [], bound, nodes, hbound, h => by
    rw [entryNodes] at h
    exact Except.ok.inj h ▸ hbound
  | (key, value) :: entries, bound, nodes, hbound, h => by
    rw [entryNodes] at h
    split at h
    · cases h
    · next text htext =>
      split at h
      · cases h
      · next node hnode =>
        refine hasDistinctKeys_of_entryNodes ?_ h
        exact Node.hasDistinctKeys_bind hbound (hasDistinctKeys_of_toNode hnode) text

end

end Value

/-- No key stands twice in a document that is read. -/
theorem hasDistinctKeys_of_parse {text : String} {documents : List Node}
    (h : parse text = .ok documents) : ∀ node ∈ documents, node.hasDistinctKeys = true := by
  rw [parse] at h
  split at h
  · cases h
  · exact Value.hasDistinctKeys_of_itemNodes h

end Yaml
end YamlSieve
