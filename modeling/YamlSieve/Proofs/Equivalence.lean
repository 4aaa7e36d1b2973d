import YamlSieve.Proofs.Equality

/-!
# Equality as an equivalence

Equality of nodes is symmetric and transitive. Only NaN stands in the way of reflexivity: a node is
equal to itself, and to what arises from it by reordering entries, unless a NaN stands in it
somewhere (`Node.same_equivalence`).

Mappings are compared from the left side alone. That the right side has no entry of its own follows
from the number of entries, as long as no key stands twice (`Node.keys_perm_of_sameEntries`).
-/

namespace YamlSieve

open List (Forall₂)

namespace Binary64

variable {x y z : Binary64}

lemma same_symm (h : x.same y = true) : y.same x = true := by
  obtain ⟨i, hx, hy⟩ := same_iff.mp h
  exact same_iff.mpr ⟨i, hy, hx⟩

lemma same_trans (hxy : x.same y = true) (hyz : y.same z = true) : x.same z = true := by
  obtain ⟨i, hx, hy⟩ := same_iff.mp hxy
  obtain ⟨j, hy', hz⟩ := same_iff.mp hyz
  obtain rfl := Option.some.inj (hy.symm.trans hy')
  exact same_iff.mpr ⟨i, hx, hz⟩

/-- Every number has a place in the order, and NaN has none. -/
lemma same_self_iff : x.same x = true ↔ x ≠ nan := by
  rw [same_iff]
  cases x with
  | nan => simp [place]
  | number negative rank => cases negative <;> simp [place]

end Binary64

namespace Node

/-! ### Floats in a tree -/

mutual

/-- Whether a float with the given property stands anywhere in a tree. -/
def holdsFloatWith (p : Binary64 → Bool) : Node → Bool
  | mapping es  => entriesHoldFloatWith p es
  | sequence xs => itemsHoldFloatWith p xs
  | float x     => p x
  | _           => false

def entriesHoldFloatWith (p : Binary64 → Bool) : List (String × Node) → Bool
  | []           => false
  | (_, v) :: es => holdsFloatWith p v || entriesHoldFloatWith p es

def itemsHoldFloatWith (p : Binary64 → Bool) : List Node → Bool
  | []      => false
  | x :: xs => holdsFloatWith p x || itemsHoldFloatWith p xs

end

def holdsFloat (x : Node) : Bool := x.holdsFloatWith fun _ => true

def holdsNan (x : Node) : Bool := x.holdsFloatWith (· = .nan)

variable {x y z : Node} {es : List (String × Node)} {xs : List Node} {p : Binary64 → Bool}

lemma holdsFloatWith_mapping_iff :
    (mapping es).holdsFloatWith p = false ↔ ∀ e ∈ es, e.2.holdsFloatWith p = false := by
  rw [holdsFloatWith]
  induction es with
  | nil => simp [entriesHoldFloatWith]
  | cons e es ih => simp [entriesHoldFloatWith, ih]

lemma holdsFloatWith_sequence_iff :
    (sequence xs).holdsFloatWith p = false ↔ ∀ x ∈ xs, x.holdsFloatWith p = false := by
  rw [holdsFloatWith]
  induction xs with
  | nil => simp [itemsHoldFloatWith]
  | cons x xs ih => simp [itemsHoldFloatWith, ih]

/-! ### Inversion -/

lemma same_mapping_iff :
    (mapping es).same y = true ↔ ∃ fs, y = mapping fs ∧ es.length = fs.length ∧
      ∀ e ∈ es, ∃ w, fs.lookup e.1 = some w ∧ e.2.same w = true := by
  cases y <;> simp [same, sameEntries_iff]

lemma same_sequence_iff :
    (sequence xs).same y = true ↔
      ∃ ys, y = sequence ys ∧ Forall₂ (fun x y => x.same y = true) xs ys := by
  cases y <;> simp [same, sameItems_iff]

/-- A node without children is equal to floats with the same value, or to itself alone. -/
lemma same_leaf (hmapping : x.isMapping = false) (hsequence : x.isSequence = false)
    (h : x.same y = true) : (∃ u v, x = float u ∧ y = float v ∧ u.same v = true) ∨ x = y := by
  rcases same_cases h with ⟨es, fs, rfl, -⟩ | ⟨xs, ys, rfl, -⟩ | h | ⟨h, -⟩
  · cases hmapping
  · cases hsequence
  · exact Or.inl h
  · exact Or.inr h

/-! ### Laws -/

/-- Each entry on the right has an equal one on the left, as the keys are the same. -/
theorem same_symm (hx : x.hasDistinctKeys = true) (h : x.same y = true) : y.same x = true := by
  induction x using Node.induction generalizing y with
  | mapping es ih =>
    obtain ⟨hkeys, hvalues⟩ := hasDistinctKeys_mapping_iff.mp hx
    obtain ⟨fs, rfl, hlength, hentries⟩ := same_mapping_iff.mp h
    have hperm := keys_perm_of_sameEntries hkeys hlength (sameEntries_iff.mpr hentries)
    refine same_mapping_iff.mpr ⟨es, rfl, hlength.symm, fun f hf => ?_⟩
    obtain ⟨e, he, hkey⟩ := List.mem_map.mp (hperm.mem_iff.mpr (List.mem_map_of_mem hf))
    obtain ⟨w, hw, hsame⟩ := hentries e he
    rw [hkey, (lookup_eq_some_iff_mem (hperm.nodup_iff.mp hkeys)).mpr hf] at hw
    obtain rfl := Option.some.inj hw
    rw [← hkey, (lookup_eq_some_iff_mem hkeys).mpr he]
    exact ⟨e.2, rfl, ih e he (hvalues e he) hsame⟩
  | sequence xs ih =>
    have hvalues := hasDistinctKeys_sequence_iff.mp hx
    obtain ⟨ys, rfl, hitems⟩ := same_sequence_iff.mp h
    refine same_sequence_iff.mpr ⟨xs, rfl, ?_⟩
    have hsymm : ∀ x ∈ xs, ∀ y, x.same y = true → y.same x = true :=
      fun x hx y h => ih x hx (hvalues x hx) h
    exact (((List.forall₂_and_left _ _).mpr ⟨hsymm, hitems⟩).imp fun x y h => h.1 y h.2).flip
  | leaf x hmapping hsequence =>
    rcases same_leaf hmapping hsequence h with ⟨u, v, rfl, rfl, h⟩ | rfl
    · exact Binary64.same_symm h
    · exact h

theorem same_trans (hxy : x.same y = true) (hyz : y.same z = true) : x.same z = true := by
  induction x using Node.induction generalizing y z with
  | mapping es ih =>
    obtain ⟨fs, rfl, hlength, hentries⟩ := same_mapping_iff.mp hxy
    obtain ⟨gs, rfl, hlength', hentries'⟩ := same_mapping_iff.mp hyz
    refine same_mapping_iff.mpr ⟨gs, rfl, hlength.trans hlength', fun e he => ?_⟩
    obtain ⟨v, hv, hsame⟩ := hentries e he
    obtain ⟨w, hw, hsame'⟩ := hentries' _ (mem_of_lookup hv)
    exact ⟨w, hw, ih e he hsame hsame'⟩
  | sequence xs ih =>
    obtain ⟨ys, rfl, hitems⟩ := same_sequence_iff.mp hxy
    obtain ⟨zs, rfl, hitems'⟩ := same_sequence_iff.mp hyz
    obtain ⟨hlength, hitems⟩ := List.forall₂_iff_get.mp hitems
    obtain ⟨hlength', hitems'⟩ := List.forall₂_iff_get.mp hitems'
    refine same_sequence_iff.mpr ⟨zs, rfl, List.forall₂_iff_get.mpr ?_⟩
    refine ⟨hlength.trans hlength', fun i hx hz => ?_⟩
    exact ih _ (List.get_mem xs ⟨i, hx⟩) (hitems i hx (hlength ▸ hx)) (hitems' i _ hz)
  | leaf x hmapping hsequence =>
    rcases same_leaf hmapping hsequence hxy with ⟨u, v, rfl, rfl, h⟩ | rfl
    · rcases same_leaf (x := float v) rfl rfl hyz with ⟨_, w, ⟨⟩, rfl, h'⟩ | rfl
      · exact Binary64.same_trans h h'
      · exact h
    · exact hyz

/-- A node is equal to itself unless a NaN stands in it. -/
theorem same_self_iff (hx : x.hasDistinctKeys = true) : x.same x = true ↔ x.holdsNan = false := by
  induction x using Node.induction with
  | mapping es ih =>
    obtain ⟨hkeys, hvalues⟩ := hasDistinctKeys_mapping_iff.mp hx
    rw [same_mapping_iff, holdsNan, holdsFloatWith_mapping_iff]
    constructor
    · rintro ⟨_, ⟨⟩, -, hentries⟩ e he
      obtain ⟨w, hw, hsame⟩ := hentries e he
      rw [(lookup_eq_some_iff_mem hkeys).mpr he] at hw
      obtain rfl := Option.some.inj hw
      exact (ih e he (hvalues e he)).mp hsame
    · refine fun hnan => ⟨es, rfl, rfl, fun e he => ⟨e.2, ?_, ?_⟩⟩
      · exact (lookup_eq_some_iff_mem hkeys).mpr he
      · exact (ih e he (hvalues e he)).mpr (hnan e he)
  | sequence xs ih =>
    have hvalues := hasDistinctKeys_sequence_iff.mp hx
    rw [same, sameItems_iff, List.forall₂_same, holdsNan, holdsFloatWith_sequence_iff]
    exact forall₂_congr fun x hx => ih x hx (hvalues x hx)
  | leaf x hmapping hsequence =>
    cases x with
    | mapping es => cases hmapping
    | sequence xs => cases hsequence
    | float u => simp [same, holdsNan, holdsFloatWith, Binary64.same_self_iff]
    | _ => simp [same, holdsNan, holdsFloatWith]

/-- Reordering entries leaves a node equal to what it was, unless a NaN stands in it. -/
theorem same_of_reordered (hx : x.hasDistinctKeys = true) (hnan : x.holdsNan = false)
    (h : x.Reordered y) : x.same y = true := by
  induction x using Node.induction generalizing y with
  | mapping es ih =>
    obtain ⟨hkeys, hvalues⟩ := hasDistinctKeys_mapping_iff.mp hx
    cases h with
    | refl => exact (same_self_iff hx).mpr hnan
    | @mapping _ fs gs hsame hreordered hperm =>
      have hlength : es.length = gs.length := by
        rw [← hperm.length_eq, ← List.length_map Prod.fst, hsame, List.length_map]
      refine same_mapping_iff.mpr ⟨gs, rfl, hlength, fun e he => ?_⟩
      -- distinct keys make look-ups blind to the order, and sameness only looks up
      have hlookup := lookup_of_forall₂ hsame hreordered e.1
      rw [(lookup_eq_some_iff_mem hkeys).mpr he, lookup_eq_of_perm (hsame ▸ hkeys) hperm] at hlookup
      generalize gs.lookup e.1 = w at hlookup ⊢
      cases hlookup with
      | some h => exact ⟨_, rfl, ih e he (hvalues e he) (holdsFloatWith_mapping_iff.mp hnan e he) h⟩
  | sequence xs ih =>
    have hvalues := hasDistinctKeys_sequence_iff.mp hx
    cases h with
    | refl => exact (same_self_iff hx).mpr hnan
    | sequence h =>
      refine same_sequence_iff.mpr ⟨_, rfl, ?_⟩
      have hsame : ∀ x ∈ xs, ∀ y, x.Reordered y → x.same y = true :=
        fun x hx y h => ih x hx (hvalues x hx) (holdsFloatWith_sequence_iff.mp hnan x hx) h
      exact ((List.forall₂_and_left _ _).mpr ⟨hsame, h⟩).imp fun x y h => h.1 y h.2
  | leaf x hmapping hsequence =>
    cases h with
    | refl => exact (same_self_iff hx).mpr hnan
    | sequence => cases hsequence
    | mapping => cases hmapping

/--
Equality of nodes with distinct keys is an equivalence but for NaN. It is symmetric and transitive,
a node is equal to itself if and only if no NaN stands in it, and such a node is equal to every node
that arises from it by reordering the entries of mappings at any depth.
-/
theorem same_equivalence (hx : x.hasDistinctKeys = true) :
    (x.same y = true → y.same x = true) ∧
      (x.same y = true → y.same z = true → x.same z = true) ∧
      (x.same x = true ↔ x.holdsNan = false) ∧
      (x.holdsNan = false → x.Reordered y → x.same y = true) :=
  ⟨same_symm hx, same_trans, same_self_iff hx, same_of_reordered hx⟩

/-- Entries are reordered at two levels, then a zero changes its sign; NaN differs from itself. -/
theorem same_equivalence_nested :
    let zero (negative : Bool) : Node := .float (.number negative 0)
    let u : Node := .sequence [.integer 1, .mapping [("c", .null), ("d", .string "s")]]
    let v : Node := .sequence [.integer 1, .mapping [("d", .string "s"), ("c", .null)]]
    let x : Node := .mapping [("a", zero false), ("b", u)]
    let y : Node := .mapping [("b", v), ("a", zero false)]
    let z : Node := .mapping [("b", v), ("a", zero true)]
    let n : Node := .sequence [.float .nan]
    x.hasDistinctKeys = true ∧ x.holdsNan = false ∧ x.Reordered y ∧ y.same z = true ∧
      n.hasDistinctKeys = true ∧ n.holdsNan = true ∧
      x.same x = true ∧ x.same y = true ∧ y.same x = true ∧ x.same z = true ∧
      ¬n.same n = true := by
  intro zero u v x y z n
  have hx : x.hasDistinctKeys = true := by decide +kernel
  have hn : n.hasDistinctKeys = true := by decide +kernel
  have hnan : x.holdsNan = false := by decide +kernel
  have hnan' : n.holdsNan = true := by decide +kernel
  have hyz : y.same z = true := by decide +kernel
  have huv : u.Reordered v := by
    refine .sequence (.cons (.refl _) (.cons ?_ .nil))
    exact .mapping rfl (List.forall₂_same.mpr fun w _ => .refl w) (.swap _ _ [])
  have hvalues : Forall₂ Reordered [zero false, u] [zero false, v] :=
    .cons (.refl _) (.cons huv .nil)
  have hreordered : x.Reordered y :=
    @Reordered.mapping _ [("a", zero false), ("b", v)] _ rfl hvalues (.swap _ _ [])
  obtain ⟨hsymm, htrans, hself, hsame⟩ := same_equivalence (y := y) (z := z) hx
  have hxy := hsame hnan hreordered
  refine ⟨hx, hnan, hreordered, hyz, hn, hnan', hself.mpr hnan, hxy, hsymm hxy, htrans hxy hyz, ?_⟩
  rw [(same_equivalence (y := n) (z := n) hn).2.2.1, hnan']
  simp

end Node
end YamlSieve
