import Mathlib.Data.List.Forall2
import Mathlib.Data.List.Nodup
import Mathlib.Data.List.Perm.Subperm
import YamlSieve.Node

/-!
# Equal nodes

Mappings are equal whatever the order of their entries is. As long as no key stands twice in a
mapping, this means that every key has equal values in both or none in either of them
(`Node.lookup_of_sameEntries`). The same holds of mappings in which nothing but the order of the
entries differs (`Node.Reordered`).
-/

namespace YamlSieve

open List (Forall₂)

/-! ### Equal numbers -/

namespace Binary64

variable {x y : Binary64}

/-- Equal numbers have one place in the order of numbers. -/
lemma same_iff : x.same y = true ↔ ∃ i, x.place = some i ∧ y.place = some i := by
  rw [same, order]
  cases x.place with
  | none => simp
  | some i =>
    cases y.place with
    | none => simp
    | some j =>
      have heq := compareOfLessAndEq_eq_eq Int.le_refl @Int.not_le (x := i) (y := j)
      rw [beq_iff_eq, Option.some.injEq, heq]
      constructor
      · rintro rfl
        exact ⟨i, rfl, rfl⟩
      · rintro ⟨_, ⟨⟩, ⟨⟩⟩
        rfl

/-- The place of a number tells its magnitude and, unless it is zero, its sign. -/
lemma eq_of_place {negative : Bool} {rank : Fin (infinityRank + 1)} {i : Int}
    (h : (number negative rank).place = some i) :
    rank.val = i.natAbs ∧ (i ≠ 0 → negative = decide (i < 0)) := by
  cases negative with
  | false =>
    obtain rfl : (rank.val : Int) = i := Option.some.inj h
    exact ⟨rfl, fun _ => by simp⟩
  | true =>
    obtain rfl : -(rank.val : Int) = i := Option.some.inj h
    exact ⟨by omega, fun hi => (decide_eq_true (by omega)).symm⟩

/-- No two numbers are equal but the zeros with either sign. -/
lemma eq_or_zeros_of_same (h : x.same y = true) :
    x = y ∨ ∃ negative, x = number negative 0 ∧ y = number (!negative) 0 := by
  obtain ⟨i, hx, hy⟩ := same_iff.mp h
  cases x with
  | nan => cases hx
  | number negative rank =>
    cases y with
    | nan => cases hy
    | number negative' rank' =>
      obtain ⟨hrank, hsign⟩ := eq_of_place hx
      obtain ⟨hrank', hsign'⟩ := eq_of_place hy
      obtain rfl : rank = rank' := Fin.ext (hrank.trans hrank'.symm)
      by_cases hi : i = 0
      · obtain rfl : rank = 0 := Fin.ext (by rw [hrank, hi]; rfl)
        by_cases hsigns : negative' = negative
        · exact Or.inl (by rw [hsigns])
        · exact Or.inr ⟨negative, rfl, by rw [Bool.eq_not_of_ne hsigns]⟩
      · rw [hsign hi, hsign' hi]
        exact Or.inl rfl

end Binary64

namespace Node

/-! ### Distinct keys -/

mutual

/-- Whether no key stands twice in any of the mappings of a tree. -/
def hasDistinctKeys : Node → Bool
  | mapping es  => (es.map Prod.fst).Nodup && entriesHaveDistinctKeys es
  | sequence xs => itemsHaveDistinctKeys xs
  | _           => true

def entriesHaveDistinctKeys : List (String × Node) → Bool
  | []           => true
  | (_, v) :: es => hasDistinctKeys v && entriesHaveDistinctKeys es

def itemsHaveDistinctKeys : List Node → Bool
  | []      => true
  | x :: xs => hasDistinctKeys x && itemsHaveDistinctKeys xs

end

variable {x y v : Node} {es fs : List (String × Node)} {xs ys : List Node} {key : String}

lemma entriesHaveDistinctKeys_iff :
    entriesHaveDistinctKeys es = true ↔ ∀ e ∈ es, e.2.hasDistinctKeys = true := by
  induction es with
  | nil => simp [entriesHaveDistinctKeys]
  | cons e es ih => simp [entriesHaveDistinctKeys, ih]

lemma hasDistinctKeys_sequence_iff :
    (sequence xs).hasDistinctKeys = true ↔ ∀ x ∈ xs, x.hasDistinctKeys = true := by
  rw [hasDistinctKeys]
  induction xs with
  | nil => simp [itemsHaveDistinctKeys]
  | cons x xs ih => simp [itemsHaveDistinctKeys, ih]

lemma hasDistinctKeys_mapping_iff :
    (mapping es).hasDistinctKeys = true ↔
      (es.map Prod.fst).Nodup ∧ ∀ e ∈ es, e.2.hasDistinctKeys = true := by
  rw [hasDistinctKeys, Bool.and_eq_true, entriesHaveDistinctKeys_iff, decide_eq_true_iff]

/-! ### Look-ups -/

lemma lookup_eq_none_iff : es.lookup key = none ↔ key ∉ es.map Prod.fst := by
  rw [List.lookup_eq_none_iff, List.mem_map]
  simp only [bne_iff_ne]
  constructor
  · rintro h ⟨e, he, rfl⟩
    exact h e he rfl
  · rintro h e he rfl
    exact h ⟨e, he, rfl⟩

lemma mem_of_lookup (h : es.lookup key = some v) : (key, v) ∈ es := by
  obtain ⟨es₁, es₂, rfl, -⟩ := List.lookup_eq_some_iff.mp h
  simp

lemma lookup_eq_some_iff_mem (hkeys : (es.map Prod.fst).Nodup) :
    es.lookup key = some v ↔ (key, v) ∈ es := by
  refine ⟨mem_of_lookup, fun hmem => ?_⟩
  obtain ⟨es₁, es₂, rfl⟩ := List.append_of_mem hmem
  rw [List.map_append, List.map_cons, List.nodup_middle, List.nodup_cons] at hkeys
  refine List.lookup_eq_some_iff.mpr ⟨es₁, es₂, rfl, fun e he => bne_iff_ne.mpr fun hkey => ?_⟩
  exact hkeys.1 (List.mem_append_left _ (List.mem_map.mpr ⟨e, he, hkey.symm⟩))

/-- The order of entries does not matter for looking up distinct keys. -/
lemma lookup_eq_of_perm (hkeys : (es.map Prod.fst).Nodup) (h : es.Perm fs) (key : String) :
    es.lookup key = fs.lookup key := by
  apply Option.ext
  intro v
  rw [lookup_eq_some_iff_mem hkeys, lookup_eq_some_iff_mem ((h.map Prod.fst).nodup_iff.mp hkeys)]
  exact h.mem_iff

/-! ### Equality -/

lemma sameItems_iff : sameItems xs ys = true ↔ Forall₂ (fun x y => x.same y = true) xs ys := by
  induction xs generalizing ys with
  | nil => cases ys <;> simp [sameItems]
  | cons x xs ih => cases ys <;> simp [sameItems, ih]

lemma sameEntries_iff :
    sameEntries es fs = true ↔ ∀ e ∈ es, ∃ w, fs.lookup e.1 = some w ∧ e.2.same w = true := by
  induction es with
  | nil => simp [sameEntries]
  | cons e es ih =>
    rw [sameEntries, Bool.and_eq_true, ih, List.forall_mem_cons]
    refine and_congr_left' ?_
    cases fs.lookup e.1 <;> simp

/-- Equal nodes are mappings, sequences or floats with equal contents, or one and the same. -/
lemma same_cases (h : x.same y = true) :
    (∃ es fs, x = mapping es ∧ y = mapping fs ∧ es.length = fs.length ∧
        sameEntries es fs = true) ∨
      (∃ xs ys, x = sequence xs ∧ y = sequence ys ∧ Forall₂ (fun x y => x.same y = true) xs ys) ∨
      (∃ u v, x = float u ∧ y = float v ∧ u.same v = true) ∨
      x = y ∧ x.isMapping = false ∧ x.isSequence = false := by
  cases x <;> cases y <;> simp_all [same, sameItems_iff, isMapping, isSequence]

/--
Mappings with as many entries, where each entry of the one has an equal entry in the other, have the
same keys. There is no further key in the other one, as there is no room for it.
-/
lemma keys_perm_of_sameEntries (hkeys : (es.map Prod.fst).Nodup) (hlength : es.length = fs.length)
    (h : sameEntries es fs = true) : (es.map Prod.fst).Perm (fs.map Prod.fst) := by
  rw [sameEntries_iff] at h
  have hsubset : es.map Prod.fst ⊆ fs.map Prod.fst := by
    intro k hk
    obtain ⟨e, he, rfl⟩ := List.mem_map.mp hk
    obtain ⟨w, hw, -⟩ := h e he
    exact List.mem_map.mpr ⟨_, mem_of_lookup hw, rfl⟩
  exact (hkeys.subperm hsubset).perm_of_length_le (by simp [hlength])

/-- Such mappings have equal values under every key. -/
theorem lookup_of_sameEntries (hkeys : (es.map Prod.fst).Nodup) (hlength : es.length = fs.length)
    (h : sameEntries es fs = true) (key : String) :
    Option.Rel (fun v w => v.same w = true) (es.lookup key) (fs.lookup key) := by
  cases hv : es.lookup key with
  | some v =>
    obtain ⟨w, hw, hsame⟩ := sameEntries_iff.mp h (key, v) (mem_of_lookup hv)
    rw [hw]
    exact .some hsame
  | none =>
    have hperm := keys_perm_of_sameEntries hkeys hlength h
    rw [lookup_eq_none_iff, hperm.mem_iff, ← lookup_eq_none_iff] at hv
    rw [hv]
    exact .none

/-! ### Reordered entries -/

/-- The nodes differ in the order of the entries of mappings, at any depth, and in nothing else. -/
inductive Reordered : Node → Node → Prop
  | refl (x : Node) : Reordered x x
  | sequence {xs ys : List Node} (h : Forall₂ Reordered xs ys) :
      Reordered (.sequence xs) (.sequence ys)
  | mapping {es fs gs : List (String × Node)} (hkeys : es.map Prod.fst = fs.map Prod.fst)
      (hvalues : Forall₂ Reordered (es.map Prod.snd) (fs.map Prod.snd)) (hperm : fs.Perm gs) :
      Reordered (.mapping es) (.mapping gs)

/-- Entries with related values under the same keys are looked up alike. -/
lemma lookup_of_forall₂ {R : Node → Node → Prop} (hkeys : es.map Prod.fst = fs.map Prod.fst)
    (h : Forall₂ R (es.map Prod.snd) (fs.map Prod.snd)) (key : String) :
    Option.Rel R (es.lookup key) (fs.lookup key) := by
  induction es generalizing fs with
  | nil =>
    obtain rfl := List.map_eq_nil_iff.mp hkeys.symm
    exact .none
  | cons e es ih =>
    obtain ⟨k, v⟩ := e
    cases fs with
    | nil => cases hkeys
    | cons f fs =>
      obtain ⟨l, w⟩ := f
      obtain ⟨rfl, hrest⟩ : k = l ∧ es.map Prod.fst = fs.map Prod.fst := List.cons.inj hkeys
      obtain ⟨hvalue, hvalues⟩ := List.forall₂_cons.mp h
      rw [List.lookup_cons, List.lookup_cons]
      cases key == k with
      | true => exact .some hvalue
      | false => exact ih hrest hvalues

end Node
end YamlSieve
