import Mathlib.Data.List.Induction
import YamlSieve.Proofs.Yaml.DistinctKeys
import YamlSieve.Proofs.Yaml.ReadValues

/-!
# Conversion of values

A stream of values has nodes unless there is a fault in it: an invalid value, an alias that was not
replaced, or a key that is no scalar. The error is that of the first fault in a walk through all
values, with each key in front of its value. Without a fault, nodes are what the values stand for
(`Value.Converts`): the keys of a mapping are the distinct texts of its keys in the order in which
they occur first, and each of them has the value of its last occurrence.
-/

namespace YamlSieve.Yaml.Value

open List (Forall₂)

/-! ### Places -/

/-- Strings, numbers, booleans and null are scalars. -/
def isScalar : Value → Bool
  | string _ | real _ | integer _ | boolean _ | null => true
  | sequence _ | mapping _ | aliasOf _ | invalid     => false

/-- A place in a tree of values: a value, or a key of a mapping. -/
inductive Place where
  | value (value : Value)
  | key (key : Value)

/-- What is wrong at a place. -/
def Place.fault? : Place → Option DocumentError
  | value invalid          => some .invalidValue
  | value (aliasOf anchor) => some (.unresolvedAlias anchor)
  | value _                => none
  | key k                  => if k.isScalar then none else some .unsupportedKey

mutual

/-- The places of a tree, depth first. Nothing inside of a key is a place. -/
def places : Value → List Place
  | sequence items  => .value (sequence items) :: itemPlaces items
  | mapping entries => .value (mapping entries) :: entryPlaces entries
  | value           => [.value value]

def itemPlaces : List Value → List Place
  | []            => []
  | item :: items => places item ++ itemPlaces items

def entryPlaces : List (Value × Value) → List Place
  | []                      => []
  | (key, value) :: entries => .key key :: places value ++ entryPlaces entries

end

/-! ### Faults -/

/-- The first fault in a row of places. -/
def fault? (row : List Place) : Option DocumentError := row.findSome? Place.fault?

/-- The error that an outcome is, if it is one. -/
def error? {α : Type} : Except DocumentError α → Option DocumentError
  | .ok _    => none
  | .error e => some e

lemma fault?_append (row row' : List Place) :
    fault? (row ++ row') = (fault? row).or (fault? row') :=
  List.findSome?_append

lemma isSome_keyText? (key : Value) : key.keyText?.isSome = key.isScalar := by
  cases key <;> rfl

mutual

/-- A value fails to have a node at the first fault in it. -/
theorem error?_toNode : ∀ value, error? (toNode value) = fault? (places value)
  | .sequence items => by
    have hitems := error?_itemNodes items
    rw [toNode, places]
    cases h : itemNodes items <;> rw [h] at hitems <;> exact hitems
  | .mapping entries => by
    have hentries := error?_entryNodes [] entries
    rw [toNode, places]
    cases h : entryNodes [] entries <;> rw [h] at hentries <;> exact hentries
  | .real text => by
    rw [toNode]
    cases readReal? text <;> rfl
  | .string _ | .integer _ | .boolean _ | .null | .aliasOf _ | .invalid => rfl

theorem error?_itemNodes : ∀ items, error? (itemNodes items) = fault? (itemPlaces items)
  | [] => rfl
  | item :: items => by
    have hitem := error?_toNode item
    have hitems := error?_itemNodes items
    rw [itemNodes, itemPlaces, fault?_append, ← hitem, ← hitems]
    cases toNode item with
    | error e => rfl
    | ok node => cases itemNodes items <;> rfl

theorem error?_entryNodes : ∀ bound entries,
    error? (entryNodes bound entries) = fault? (entryPlaces entries)
  | bound, [] => rfl
  | bound, (key, value) :: entries => by
    have hvalue := error?_toNode value
    have hkey : fault? [.key key] = if key.keyText?.isSome then none else some .unsupportedKey := by
      rw [isSome_keyText?, fault?, List.findSome?_singleton, Place.fault?]
    rw [entryNodes, entryPlaces, List.cons_append, ← List.singleton_append, fault?_append,
      fault?_append, hkey, ← hvalue]
    cases key.keyText? with
    | none => rfl
    | some text =>
      cases toNode value with
      | error e => rfl
      | ok node => exact error?_entryNodes (Node.bind text node bound) entries

end

/-! ### Conversion -/

/-- The texts of the keys of a mapping, as often as they occur. -/
def keyTexts (entries : List (Value × Value)) : List String :=
  entries.filterMap fun entry => entry.1.keyText?

/-- The value of the last entry whose key has the given text. -/
def lastValue? (text : String) (entries : List (Value × Value)) : Option Value :=
  (entries.reverse.find? fun entry => entry.1.keyText? = some text).map Prod.snd

/--
What a value stands for. The keys of a mapping are the distinct texts of the keys, in the order in
which they occur first, each with what the last value under this text stands for.
-/
inductive Converts : Value → Node → Prop
  | string (text : String) : Converts (.string text) (.string text)
  | real {text : String} {x : Binary64} (h : readReal? text = some x) :
      Converts (.real text) (.float x)
  | spelling {text : String} (h : readReal? text = none) : Converts (.real text) (.string text)
  | integer (i : Int64) : Converts (.integer i) (.integer i)
  | boolean (b : Bool) : Converts (.boolean b) (.boolean b)
  | null : Converts .null .null
  | sequence {items : List Value} {nodes : List Node} (h : Forall₂ Converts items nodes) :
      Converts (.sequence items) (.sequence nodes)
  | mapping {entries : List (Value × Value)} {nodes : List (String × Node)}
      (hkeys : nodes.map Prod.fst = (keyTexts entries).eraseDups)
      (hvalues : ∀ text value node, lastValue? text entries = some value →
        nodes.lookup text = some node → Converts value node) :
      Converts (.mapping entries) (.mapping nodes)

variable {entries : List (Value × Value)} {nodes : List (String × Node)} {key value : Value}
  {node : Node} {text : String}

lemma keyTexts_concat (h : key.keyText? = some text) :
    keyTexts (entries ++ [(key, value)]) = keyTexts entries ++ [text] := by
  simp [keyTexts, h]

lemma lastValue?_concat (h : key.keyText? = some text) (text' : String) :
    lastValue? text' (entries ++ [(key, value)]) =
      if text' = text then some value else lastValue? text' entries := by
  rw [lastValue?, List.reverse_append, List.reverse_singleton, List.singleton_append,
    List.find?_cons, h]
  by_cases htext : text' = text
  · simp [htext]
  · simp [htext, Ne.symm htext, lastValue?]

/-- One more entry binds the text of its key, in place of what it had before. -/
lemma Converts.bind (h : Converts (.mapping entries) (.mapping nodes))
    (hkey : key.keyText? = some text) (hvalue : Converts value node) :
    Converts (.mapping (entries ++ [(key, value)])) (.mapping (Node.bind text node nodes)) := by
  cases h with
  | mapping hkeys hvalues =>
    refine .mapping ?_ fun text' value' node' hlast hlookup => ?_
    · rw [Node.map_fst_bind, hkeys, keyTexts_concat hkey, List.eraseDups_append]
      by_cases hmem : text ∈ keyTexts entries
      · simp [hmem, List.removeAll]
      · simp [hmem, List.removeAll, List.eraseDups_cons]
    · rw [lastValue?_concat hkey] at hlast
      rw [Node.lookup_bind] at hlookup
      split_ifs at hlast hlookup with htext
      · cases hlast
        cases hlookup
        exact hvalue
      · exact hvalues text' value' node' hlast hlookup

mutual

/-- The node of a value is what it stands for. -/
theorem converts_of_toNode : ∀ {value : Value} {node : Node}, toNode value = .ok node →
    Converts value node
  | .sequence items, node, h => by
    rw [toNode] at h
    split at h
    · next nodes hnodes =>
      obtain rfl := Except.ok.inj h
      exact .sequence (converts_of_itemNodes hnodes)
    · cases h
  | .mapping entries, node, h => by
    rw [toNode] at h
    split at h
    · next nodes hnodes =>
      obtain rfl := Except.ok.inj h
      -- the entries are bound one after the other, beginning with none
      have hnothing : Converts (.mapping []) (.mapping []) := .mapping rfl fun _ _ _ h => by cases h
      exact converts_of_entryNodes hnothing hnodes
    · cases h
  | .real text, node, h => by
    rw [toNode] at h
    split at h
    · next hreal => exact Except.ok.inj h ▸ .real hreal
    · next hreal => exact Except.ok.inj h ▸ .spelling hreal
  | .string text, node, h => Except.ok.inj h ▸ .string text
  | .integer i, node, h => Except.ok.inj h ▸ .integer i
  | .boolean b, node, h => Except.ok.inj h ▸ .boolean b
  | .null, node, h => Except.ok.inj h ▸ .null
  | .aliasOf _, node, h | .invalid, node, h => by cases h

theorem converts_of_itemNodes : ∀ {items : List Value} {nodes : List Node},
    itemNodes items = .ok nodes → Forall₂ Converts items nodes
  | [], nodes, h => Except.ok.inj h ▸ .nil
  | item :: items, nodes, h => by
    rw [itemNodes] at h
    split at h
    · cases h
    · next node hnode =>
      split at h
      · cases h
      · next nodes hnodes =>
        obtain rfl := Except.ok.inj h
        exact .cons (converts_of_toNode hnode) (converts_of_itemNodes hnodes)

/-- What stands in front of some entries converts, and the entries are bound to it in turn. -/
theorem converts_of_entryNodes : ∀ {before entries : List (Value × Value)}
    {bound nodes : List (String × Node)}, Converts (.mapping before) (.mapping bound) →
      entryNodes bound entries = .ok nodes →
      Converts (.mapping (before ++ entries)) (.mapping nodes)
  | before, [], bound, nodes, hbound, h => by
    rw [entryNodes] at h
    obtain rfl := Except.ok.inj h
    rwa [List.append_nil]
  | before, (key, value) :: entries, bound, nodes, hbound, h => by
    rw [entryNodes] at h
    split at h
    · cases h
    · next text htext =>
      split at h
      · cases h
      · next node hnode =>
        rw [List.append_cons]
        exact converts_of_entryNodes (hbound.bind htext (converts_of_toNode hnode)) h

end

/-! ### Uniqueness -/

lemma nodup_eraseDups (texts : List String) : texts.eraseDups.Nodup := by
  induction texts using List.reverseRecOn with
  | nil => exact List.nodup_nil
  | append_singleton texts text ih =>
    rw [List.eraseDups_append]
    by_cases hmem : text ∈ texts
    · simpa [List.removeAll, hmem] using ih
    · have hconcat := ih.concat (mt List.mem_eraseDups.mp hmem)
      simpa [List.removeAll, hmem, List.eraseDups_cons] using hconcat

lemma exists_lastValue? (h : text ∈ keyTexts entries) :
    ∃ value, lastValue? text entries = some value := by
  obtain ⟨entry, hentry, htext⟩ := List.mem_filterMap.mp h
  have hfound : (entries.reverse.find? fun entry => entry.1.keyText? = some text).isSome :=
    List.find?_isSome.mpr ⟨entry, List.mem_reverse.mpr hentry, decide_eq_true htext⟩
  obtain ⟨last, hlast⟩ := Option.isSome_iff_exists.mp hfound
  exact ⟨last.2, by rw [lastValue?, hlast, Option.map_some]⟩

lemma mem_of_lastValue? (h : lastValue? text entries = some value) :
    ∃ entry ∈ entries, entry.2 = value := by
  obtain ⟨entry, hentry, hvalue⟩ := Option.map_eq_some_iff.mp h
  exact ⟨entry, List.mem_reverse.mp (List.mem_of_find?_eq_some hentry), hvalue⟩

/-- A value stands for one node only. -/
theorem Converts.unique {node' : Node} (h : Converts value node) (h' : Converts value node') :
    node = node' := by
  induction value using Value.induction generalizing node node' with
  | mapping entries ih =>
    cases h with
    | @mapping _ nodes hkeys hvalues =>
      cases h' with
      | @mapping _ nodes' hkeys' hvalues' =>
        have hnodup : (nodes.map Prod.fst).Nodup := hkeys ▸ nodup_eraseDups (keyTexts entries)
        -- both mappings have the same distinct keys, so it is enough to compare look-ups
        refine congrArg Node.mapping (Node.eq_of_lookup hnodup (hkeys.trans hkeys'.symm) ?_)
        intro text node node' hnode hnode'
        have htext : text ∈ nodes.map Prod.fst :=
          List.mem_map.mpr ⟨_, Node.mem_of_lookup hnode, rfl⟩
        rw [hkeys, List.mem_eraseDups] at htext
        obtain ⟨value, hlast⟩ := exists_lastValue? htext
        obtain ⟨entry, hentry, rfl⟩ := mem_of_lastValue? hlast
        exact ih entry hentry (hvalues text _ node hlast hnode) (hvalues' text _ node' hlast hnode')
  | sequence items ih =>
    cases h with
    | @sequence _ nodes h =>
      cases h' with
      | @sequence _ nodes' h' =>
        refine congrArg Node.sequence ?_
        obtain ⟨hlength, h⟩ := List.forall₂_iff_get.mp h
        obtain ⟨hlength', h'⟩ := List.forall₂_iff_get.mp h'
        refine List.ext_get (hlength.symm.trans hlength') fun i hi hi' => ?_
        have hitem : i < items.length := hlength ▸ hi
        exact ih _ (List.get_mem items ⟨i, hitem⟩) (h i hitem hi) (h' i hitem hi')
  | leaf value hmapping hsequence =>
    cases h <;> cases h' <;> simp_all

/-! ### Values of a text -/

/-- Whether a text can have what stands at a place: aliases are replaced, and numbers readable. -/
def Place.isSettled : Place → Bool
  | .value (.aliasOf _) => false
  | .value (.real text) => (readReal? text).isSome
  | _                   => true

/-- Whether this holds of all places in a value. -/
def IsSettled (value : Value) : Prop := ∀ place ∈ places value, place.isSettled = true

lemma mem_itemPlaces {place : Place} {items : List Value} :
    place ∈ itemPlaces items ↔ ∃ item ∈ items, place ∈ places item := by
  induction items with
  | nil => simp [itemPlaces]
  | cons item items ih => simp [itemPlaces, ih]

lemma mem_entryPlaces {place : Place} :
    place ∈ entryPlaces entries ↔
      ∃ entry ∈ entries, place = .key entry.1 ∨ place ∈ places entry.2 := by
  induction entries with
  | nil => simp [entryPlaces]
  | cons entry entries ih => simp [entryPlaces, ih, or_assoc]

/-- A value without values inside of it has a single place. -/
lemma isSettled_leaf (hplaces : places value = [.value value])
    (h : (Place.value value).isSettled = true) : IsSettled value := by
  rw [IsSettled, hplaces]
  exact List.forall_mem_singleton.mpr h

lemma isSettled_ofPlain (text : String) : IsSettled (ofPlain text) := by
  rw [ofPlain]
  split
  · exact isSettled_leaf rfl rfl
  · split_ifs with hnull hreal
    · exact isSettled_leaf rfl rfl
    · split
      · exact isSettled_leaf rfl rfl
      · exact isSettled_leaf rfl hreal
    · split <;> exact isSettled_leaf rfl rfl

lemma isSettled_ofTagged (tag : Tag) (text : String) : IsSettled (ofTagged tag text) := by
  rw [ofTagged]
  split_ifs with hhandle hbool hint hfloat hreal
  · exact isSettled_leaf rfl rfl
  · cases readBoolean? text <;> exact isSettled_leaf rfl rfl
  · cases Integer.readInt64? 10 text.toList <;> exact isSettled_leaf rfl rfl
  · exact isSettled_leaf rfl hreal
  all_goals exact isSettled_leaf rfl rfl

lemma isInherited_isSettled : IsInherited IsSettled where
  invalid := isSettled_leaf rfl rfl
  null := isSettled_leaf rfl rfl
  scalar tag plain text := by
    cases plain with
    | false => exact isSettled_leaf rfl rfl
    | true =>
      cases tag with
      | none => exact isSettled_ofPlain text
      | some tag => exact isSettled_ofTagged tag text
  sequence h := by
    intro place hplace
    rw [places] at hplace
    rcases List.mem_cons.mp hplace with rfl | hplace
    · rfl
    · obtain ⟨item, hitem, hplace⟩ := mem_itemPlaces.mp hplace
      exact h item hitem place hplace
  mapping h := by
    intro place hplace
    rw [places] at hplace
    rcases List.mem_cons.mp hplace with rfl | hplace
    · rfl
    · obtain ⟨entry, hentry, rfl | hplace⟩ := mem_entryPlaces.mp hplace
      · rfl
      · exact h entry hentry place hplace

/-! ### Streams -/

variable {documents : List Value}

lemma fault?_eq_none_iff {row : List Place} :
    fault? row = none ↔ ∀ place ∈ row, place.fault? = none :=
  List.findSome?_eq_none_iff

lemma error?_eq_none_iff {α : Type} {outcome : Except DocumentError α} :
    error? outcome = none ↔ ∃ a, outcome = .ok a := by
  cases outcome <;> simp [error?]

lemma error?_eq_some_iff {α : Type} {outcome : Except DocumentError α} {e : DocumentError} :
    error? outcome = some e ↔ outcome = .error e := by
  cases outcome <;> simp [error?]

lemma exists_toNodes_iff : (∃ nodes, toNodes documents = .ok nodes) ↔
    ∀ place ∈ itemPlaces documents, place.fault? = none := by
  rw [← error?_eq_none_iff, toNodes, error?_itemNodes, fault?_eq_none_iff]

/--
A stream of values has nodes if and only if no place in it has a fault, and these are what the
values stand for, one for each document. Otherwise the error is that of the first place with a
fault, where a key stands in front of its value. In the values of a text no alias is left, and every
floating point number can be read.
-/
theorem toNodes_eq_ok_iff (documents : List Value) :
    ((∃ nodes, toNodes documents = .ok nodes) ↔
        ∀ place ∈ itemPlaces documents, place.fault? = none) ∧
      (∀ nodes, toNodes documents = .ok nodes ↔
        (∀ place ∈ itemPlaces documents, place.fault? = none) ∧
          Forall₂ Converts documents nodes) ∧
      (∀ e, toNodes documents = .error e ↔ ∃ before place after,
        itemPlaces documents = before ++ place :: after ∧ place.fault? = some e ∧
          ∀ earlier ∈ before, earlier.fault? = none) ∧
      ∀ text, ofText text = .ok documents → Yaml.parse text = toNodes documents ∧
        ∀ place ∈ itemPlaces documents, place.isSettled = true := by
  refine ⟨exists_toNodes_iff, fun nodes => ⟨fun h => ?_, fun ⟨hsound, h⟩ => ?_⟩, fun e => ?_,
    fun text h => ⟨?_, fun place hplace => ?_⟩⟩
  · exact ⟨exists_toNodes_iff.mp ⟨nodes, h⟩, converts_of_itemNodes h⟩
  · obtain ⟨nodes', h'⟩ := exists_toNodes_iff.mpr hsound
    rw [h', List.right_unique_forall₂' (fun _ _ _ h h' => h.unique h') (converts_of_itemNodes h') h]
  · rw [← error?_eq_some_iff, toNodes, error?_itemNodes, fault?, List.findSome?_eq_some_iff]
  · rw [Yaml.parse, h]
  · obtain ⟨value, hvalue, hplace⟩ := mem_itemPlaces.mp hplace
    exact of_ofText isInherited_isSettled h value hvalue place hplace

/-- The first place stays, and the last value; the key `1` and the text `"1"` are the same key. -/
example : toNode (.mapping [(.integer 1, .null), (.null, .null), (.string "1", .boolean true)]) =
    .ok (.mapping [("1", .boolean true), ("null", .null)]) := by
  decide +kernel

end YamlSieve.Yaml.Value
