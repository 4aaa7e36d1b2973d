import YamlSieve.Proofs.Position
import YamlSieve.Proofs.Result

/-!
# Where results come from

A filter finds nothing that is not in the document. Its result is nothing, a subtree at some
position, or a sequence of subtrees whose positions follow each other in document order, with none
inside another. Steps and selections keep this (`Node.Found.step`, `Node.Found.select`), because
they replace each item of a sequence by a selection of its subtrees (`Node.Selection.flatMap`).
-/

namespace YamlSieve

open Node

/-! ### Places -/

/-- Each node is the subtree of the root at its position, and the positions follow each other. -/
structure Node.Located (root : Node) (places : List (List Nat × Node)) : Prop where
  at_eq : ∀ place ∈ places, root.at? place.1 = some place.2
  order : places.Pairwise fun x y => Precedes x.1 y.1

namespace Node.Located

variable {root node : Node} {p : List Nat} {places : List (List Nat × Node)}

/-- Places in the subtree at a position, as seen from the root. -/
def below (p : List Nat) (places : List (List Nat × Node)) : List (List Nat × Node) :=
  places.map fun place => (p ++ place.1, place.2)

@[simp] lemma map_snd_below : (below p places).map Prod.snd = places.map Prod.snd := by
  rw [below, List.map_map]
  rfl

lemma inside (hat : root.at? p = some node) (h : Located node places) :
    Located root (below p places) where
  at_eq place hplace := by
    obtain ⟨inner, hinner, rfl⟩ := List.mem_map.mp hplace
    rw [at?_append, hat, Option.bind_some]
    exact h.at_eq inner hinner
  order := by
    rw [below, List.pairwise_map]
    exact h.order.imp fun h => h.append_left p

lemma flatMap (h : Located root places) {inner : Node → List (List Nat × Node)}
    (hinner : ∀ node, Located node (inner node)) :
    Located root (places.flatMap fun place => below place.1 (inner place.2)) where
  at_eq place hplace := by
    obtain ⟨outer, houter, hplace⟩ := List.mem_flatMap.mp hplace
    exact ((hinner outer.2).inside (h.at_eq outer houter)).at_eq place hplace
  order := by
    -- places inside one node are in order there, and those inside two nodes as the nodes are
    rw [List.pairwise_flatMap]
    refine ⟨fun outer houter => ?_, h.order.imp fun h x hx y hy => ?_⟩
    · exact ((hinner outer.2).inside (h.at_eq outer houter)).order
    · obtain ⟨x, -, rfl⟩ := List.mem_map.mp hx
      obtain ⟨y, -, rfl⟩ := List.mem_map.mp hy
      exact h.append x.1 y.1

end Node.Located

/-! ### Selections -/

/-- The nodes are subtrees of the root at positions that follow each other in document order. -/
def Node.Selection (root : Node) (nodes : List Node) : Prop :=
  ∃ places, Located root places ∧ places.map Prod.snd = nodes

namespace Node.Selection

variable {root node : Node} {nodes : List Node} {p : List Nat}

lemma nil (root : Node) : Selection root [] := ⟨[], ⟨by simp, .nil⟩, rfl⟩

lemma singleton (hat : root.at? p = some node) : Selection root [node] :=
  ⟨[(p, node)], ⟨by simpa using hat, List.pairwise_singleton _ _⟩, rfl⟩

lemma items (nodes : List Node) : Selection (.sequence nodes) nodes := by
  refine ⟨nodes.mapIdx fun i node => ([i], node), ⟨fun place hplace => ?_, ?_⟩, ?_⟩
  · obtain ⟨i, hi, rfl⟩ := List.mem_mapIdx.mp hplace
    simp [hi]
  · rw [List.pairwise_iff_getElem]
    intro i j hi hj hij
    simpa using Precedes.head hij [] []
  · apply List.ext_getElem?
    intro i
    simp [Function.comp_def]

/-- A selection of a subtree is one of the whole. -/
lemma inside (hat : root.at? p = some node) (h : Selection node nodes) : Selection root nodes := by
  obtain ⟨places, hlocated, rfl⟩ := h
  exact ⟨_, hlocated.inside hat, Located.map_snd_below⟩

/-- Each node of a selection can be replaced by a selection of its own subtrees. -/
lemma flatMap {f : Node → List Node} (h : Selection root nodes)
    (hf : ∀ node, Selection node (f node)) : Selection root (nodes.flatMap f) := by
  obtain ⟨places, hlocated, rfl⟩ := h
  choose inner hinner hnodes using hf
  refine ⟨_, hlocated.flatMap hinner, ?_⟩
  rw [List.map_flatMap, List.flatMap_map]
  simp only [Located.map_snd_below, hnodes]

lemma filter (h : Selection root nodes) (keep : Node → Bool) :
    Selection root (nodes.filter keep) := by
  obtain ⟨places, ⟨hat, horder⟩, rfl⟩ := h
  refine ⟨places.filter fun place => keep place.2, ⟨fun place hplace => ?_, horder.filter _⟩, ?_⟩
  · exact hat place (List.mem_of_mem_filter hplace)
  · rw [List.filter_map]
    rfl

lemma exists_at? (h : Selection root nodes) (hnode : node ∈ nodes) :
    ∃ p, root.at? p = some node := by
  obtain ⟨places, hlocated, rfl⟩ := h
  obtain ⟨place, hplace, rfl⟩ := List.mem_map.mp hnode
  exact ⟨place.1, hlocated.at_eq place hplace⟩

/-- The positions of a selection, told apart from its nodes. -/
lemma exists_positions (h : Selection root nodes) :
    ∃ ps : List (List Nat), ps.map root.at? = nodes.map some ∧
      ps.Pairwise fun p q => p < q ∧ ¬p <+: q ∧ ¬q <+: p := by
  obtain ⟨places, hlocated, rfl⟩ := h
  refine ⟨places.map Prod.fst, ?_, ?_⟩
  · rw [List.map_map, List.map_map]
    exact List.map_congr_left hlocated.at_eq
  · rw [List.pairwise_map]
    exact hlocated.order.imp fun h => h.lt_and_not_prefix

lemma collected (key : String) (item : Node) : Selection item (item.collected key) := by
  rw [Node.collected]
  apply filter
  cases hchild : item.get? key with
  | none => exact nil item
  | some child =>
    obtain ⟨i, hat⟩ := exists_at?_of_get? hchild
    exact singleton hat

lemma flattened (key : String) (item : Node) : Selection item (item.flattened key) := by
  rw [Node.flattened]
  cases hchild : item.get? key with
  | none => exact nil item
  | some child =>
    obtain ⟨i, hat⟩ := exists_at?_of_get? hchild
    cases child with
    | sequence nodes => exact (items nodes).inside hat
    | _ => exact nil item

end Node.Selection

/-! ### What a filter can find -/

/-- What can be found in a document: nothing, a subtree, or a sequence of subtrees. -/
inductive Node.Found (root : Node) : Node → Prop
  | absent : Found root .absent
  | node {p : List Nat} {r : Node} (hat : root.at? p = some r) (hr : r.isSequence = false) :
      Found root r
  | sequence {nodes : List Node} (h : Selection root nodes) : Found root (.sequence nodes)

namespace Node.Found

variable {root r : Node} {p : List Nat}

lemma of_at? (hat : root.at? p = some r) : Found root r := by
  cases r with
  | sequence nodes => exact sequence ((Selection.items nodes).inside hat)
  | _ => exact node hat rfl

lemma child (hat : root.at? p = some r) (key : String) : Found root (r.child key) := by
  rw [← getD_get?]
  cases hchild : r.get? key with
  | none => exact absent
  | some child =>
    obtain ⟨i, hi⟩ := exists_at?_of_get? hchild
    have hchildAt : root.at? (p ++ [i]) = some child := by
      rw [at?_append, hat, Option.bind_some, hi]
    exact of_at? hchildAt

theorem step (h : Found root r) (step : PathStep) : Found root (step.eval r) := by
  cases h with
  | absent => cases step <;> exact absent
  | node hat hr =>
    cases r with
    | sequence nodes => cases hr
    | _ =>
      cases step with
      | key k | flattenKey k => exact child hat k
      | flatten => exact absent
  | sequence h =>
    cases step with
    | key k => exact sequence (h.flatMap (Selection.collected k))
    | flattenKey k => exact sequence (h.flatMap (Selection.flattened k))
    | flatten => exact sequence h

theorem select (h : Found root r) (predicate : Predicate) :
    Found root ((Item.select predicate).eval r) := by
  cases h with
  | absent => simpa [Item.eval] using absent
  | node hat hr =>
    cases r with
    | sequence nodes => cases hr
    | _ =>
      simp only [Item.eval]
      split_ifs
      · exact of_at? hat
      · exact absent
  | sequence h => exact sequence (h.filter predicate.accepts)

lemma path (h : Found root r) (steps : List PathStep) : Found root (PathStep.evalAll steps r) := by
  induction steps generalizing r with
  | nil => exact h
  | cons step steps ih => exact ih (h.step step)

theorem items (h : Found root r) (is : List Item) : Found root (Item.evalAll is r) := by
  induction is generalizing r with
  | nil => exact h
  | cons item is ih =>
    apply ih
    cases item with
    | path steps => exact h.path steps
    | select predicate => exact h.select predicate

/-- Nothing stands inside a result unless it stands in the document. -/
lemma at?_ne_absent (h : Found root r) (hroot : ∀ q, root.at? q ≠ some .absent) (hp : p ≠ []) :
    r.at? p ≠ some .absent := by
  cases p with
  | nil => exact absurd rfl hp
  | cons i p =>
    cases h with
    | absent => simp
    | @node q _ hat hr =>
      have hroot' := hroot (q ++ i :: p)
      rwa [at?_append, hat] at hroot'
    | @sequence nodes h =>
      intro hat
      rw [at?_sequence_cons, Option.bind_eq_some_iff] at hat
      obtain ⟨node, hnode, hat⟩ := hat
      obtain ⟨q, hq⟩ := h.exists_at? (List.mem_of_getElem? hnode)
      apply hroot (q ++ p)
      rw [at?_append, hq, Option.bind_some, hat]

end Node.Found

/-! ### Filters -/

namespace Filter

variable {text : String} {filter : Filter} {root r : Node}

/--
What an accepted filter finds is nothing, a subtree of the document, or a sequence of subtrees that
follow each other in the document, none of them inside another. It has an absent node inside of it
only if the document has one.
-/
theorem apply_provenance (hparse : parse text = .ok filter) (happly : filter.apply root = .ok r) :
    (r = .absent ∨ (r.isSequence = false ∧ ∃ p, root.at? p = some r) ∨
      ∃ (nodes : List Node) (ps : List (List Nat)), r = .sequence nodes ∧
        ps.map root.at? = nodes.map some ∧
        ps.Pairwise fun p q => p < q ∧ ¬p <+: q ∧ ¬q <+: p) ∧
      ((∀ p, root.at? p ≠ some .absent) → ∀ p ≠ [], r.at? p ≠ some .absent) := by
  obtain ⟨is, -, hr⟩ := (apply_eq_ok_iff hparse).mp happly
  have hfound : Found root r := hr ▸ (Found.of_at? root.at?_nil).items is
  refine ⟨?_, fun hroot p hp => hfound.at?_ne_absent hroot hp⟩
  cases hfound with
  | absent => exact Or.inl rfl
  | node hat hr => exact Or.inr (Or.inl ⟨hr, _, hat⟩)
  | sequence h =>
    obtain ⟨ps, hat, horder⟩ := h.exists_positions
    exact Or.inr (Or.inr ⟨_, ps, rfl, hat, horder⟩)

/-- The filter `'.a[] | select(. == x)'` finds equal texts at two positions. -/
theorem apply_select_provenance :
    let ts : List Token := [.delim '\'', .delim '.', .word "a", .delim '[', .delim ']', .delim '|',
      .word "select", .delim '(', .delim '.', .delim '=', .delim '=', .word "x", .delim ')',
      .delim '\'']
    let filter : Filter := ⟨"'.a[] | select(. == x)'", ts, Event.ofTokens ts, none⟩
    let x : Node := .string "x"
    let root : Node := .mapping [("a", .sequence [x, .null, x])]
    let r : Node := .sequence [x, x]
    parse "'.a[] | select(. == x)'" = .ok filter ∧ filter.apply root = .ok r ∧
      (∀ p, root.at? p ≠ some .absent) ∧ [[0, 0], [0, 2]].map root.at? = [x, x].map some ∧
      (r = .absent ∨ (r.isSequence = false ∧ ∃ p, root.at? p = some r) ∨
        ∃ (nodes : List Node) (ps : List (List Nat)), r = .sequence nodes ∧
          ps.map root.at? = nodes.map some ∧
          ps.Pairwise fun p q => p < q ∧ ¬p <+: q ∧ ¬q <+: p) ∧
      ∀ p ≠ [], r.at? p ≠ some .absent := by
  intro ts filter x root r
  have hparse : parse "'.a[] | select(. == x)'" = .ok filter := rfl
  have happly : filter.apply root = .ok r := rfl
  have hroot : ∀ p, root.at? p ≠ some .absent := by
    rintro (_ | ⟨_ | i, _ | ⟨_ | _ | _ | j, _ | ⟨k, p⟩⟩⟩) <;> simp [root, x, at?, children]
  obtain ⟨hresult, habsent⟩ := apply_provenance hparse happly
  exact ⟨hparse, happly, hroot, rfl, hresult, habsent hroot⟩

end Filter
end YamlSieve
