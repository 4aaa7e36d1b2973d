import Mathlib.Order.Defs.LinearOrder
import YamlSieve.Filter.Comparison

/-!
# Operands of comparisons

A text is compared as the number that it spells or, where it spells none, as itself. An operator
holds of two texts if it relates these operands (`Comparison.holds_iff`): equality of texts is
equality of operands, and numbers alone have an order.
-/

namespace YamlSieve

/-- What a text is compared as: a number, by its place in the order of numbers, or a text. -/
inductive Operand where
  | number (place : Int)
  | text (text : String)
deriving DecidableEq, Repr

namespace Operand

/-- The operand that a text stands for. -/
def of (text : String) : Operand :=
  match (Comparison.number? text).bind Binary64.place with
  | some place => number place
  | none       => .text text

/-- Numbers are ordered by their places; no text is below or above anything. -/
inductive Below : Operand → Operand → Prop
  | number {i j : Int} (h : i < j) : Below (number i) (number j)

/-- The order of numbers that includes equal ones; it does not hold of equal texts. -/
inductive AtMost : Operand → Operand → Prop
  | number {i j : Int} (h : i ≤ j) : AtMost (number i) (number j)

instance : LT Operand := ⟨Below⟩

instance : LE Operand := ⟨AtMost⟩

variable {x y z : Operand} {i j : Int}

lemma number_lt_number_iff : number i < number j ↔ i < j :=
  ⟨fun ⟨h⟩ => h, .number⟩

lemma number_le_number_iff : number i ≤ number j ↔ i ≤ j :=
  ⟨fun ⟨h⟩ => h, .number⟩

lemma lt_trans (hxy : x < y) (hyz : y < z) : x < z := by
  obtain ⟨hij⟩ := hxy
  obtain ⟨hjk⟩ := hyz
  exact .number (Int.lt_trans hij hjk)

lemma lt_irrefl (x : Operand) : ¬x < x := by
  rintro ⟨h⟩
  exact Int.lt_irrefl _ h

lemma ne_of_lt (h : x < y) : x ≠ y := by
  rintro rfl
  exact lt_irrefl x h

lemma lt_asymm (h : x < y) : ¬y < x :=
  fun h' => lt_irrefl x (lt_trans h h')

end Operand

namespace Comparison

/-! ### Relations of operands -/

/-- The relation that an operator stands for, on whatever has an order. -/
def Relates {α : Type*} [LT α] [LE α] : Comparison → α → α → Prop
  | equal,          x, y => x = y
  | notEqual,       x, y => x ≠ y
  | greater,        x, y => y < x
  | greaterOrEqual, x, y => y ≤ x
  | less,           x, y => x < y
  | lessOrEqual,    x, y => x ≤ y
  | invalid,        _, _ => False

/-- The operator asks for the order of its operands. -/
def IsOrdering (operator : Comparison) : Prop :=
  operator = greater ∨ operator = greaterOrEqual ∨ operator = less ∨ operator = lessOrEqual

lemma relates_number_iff (operator : Comparison) (i j : Int) :
    operator.Relates (Operand.number i) (.number j) ↔ operator.Relates i j := by
  have hinj : Operand.number i = .number j ↔ i = j := iff_of_eq (Operand.number.injEq i j)
  cases operator with
  | equal => exact hinj
  | notEqual => exact not_congr hinj
  | greater | less => exact Operand.number_lt_number_iff
  | greaterOrEqual | lessOrEqual => exact Operand.number_le_number_iff
  | invalid => exact Iff.rfl

/-- An operator does not tell two pairs of numbers apart that are in the same order. -/
lemma relates_congr {i j i' j' : Int} (hlt : i < j ↔ i' < j') (hgt : j < i ↔ j' < i')
    (operator : Comparison) : operator.Relates i j ↔ operator.Relates i' j' := by
  cases operator <;> simp only [Relates] <;> omega

lemma exists_numbers_of_relates {operator : Comparison} {x y : Operand}
    (hoperator : operator.IsOrdering) (h : operator.Relates x y) :
    ∃ i j, x = .number i ∧ y = .number j := by
  rcases hoperator with rfl | rfl | rfl | rfl <;> obtain ⟨-⟩ := h <;> exact ⟨_, _, rfl, rfl⟩

/-- An operator accepts the order of two whole numbers if it relates them. -/
lemma accepts_iff (operator : Comparison) (i j : Int) :
    operator.accepts (compareOfLessAndEq i j) = true ↔ operator.Relates i j := by
  have hlt := compareOfLessAndEq_eq_lt (x := i) (y := j)
  have heq := compareOfLessAndEq_eq_eq Int.le_refl @Int.not_le (x := i) (y := j)
  have hgt := compareOfLessAndEq_eq_gt Int.le_antisymm Int.le_total @Int.not_le (x := i) (y := j)
  cases operator <;> simp [accepts, Relates, hlt, heq, hgt]

/-! ### Operands of texts -/

variable {a b : String}

/-- The number that a text spells has a place, since it is finite. -/
lemma exists_place {x : Binary64} (h : number? a = some x) : ∃ i, x.place = some i := by
  rw [number?] at h
  split_ifs at h
  obtain ⟨-, hfinite⟩ := Option.filter_eq_some_iff.mp h
  cases x with
  | nan => cases hfinite
  | number negative rank => cases negative <;> exact ⟨_, rfl⟩

lemma number?_isSome_iff : (number? a).isSome = true ↔ ∃ i, Operand.of a = .number i := by
  rw [Operand.of]
  cases h : number? a with
  | none => simp
  | some x =>
    obtain ⟨i, hi⟩ := exists_place h
    simp [hi]

lemma of_eq_text (h : number? a = none) : Operand.of a = .text a := by
  rw [Operand.of, h]
  rfl

/-- A text that spells no number is the same operand as itself alone. -/
lemma of_eq_of_iff (h : number? a = none ∨ number? b = none) :
    Operand.of a = Operand.of b ↔ a = b := by
  refine ⟨fun heq => ?_, fun heq => heq ▸ rfl⟩
  have hnumber : (number? a).isSome = (number? b).isSome := by
    rw [Bool.eq_iff_iff, number?_isSome_iff, number?_isSome_iff, heq]
  have hnone : number? a = none ∧ number? b = none := by
    rcases h with h | h <;> simp_all
  rw [of_eq_text hnone.1, of_eq_text hnone.2] at heq
  exact Operand.text.inj heq

lemma holds_of_text (operator : Comparison) (h : number? a = none ∨ number? b = none) :
    operator.holds a b = true ↔ operator = equal ∧ a = b ∨ operator = notEqual ∧ a ≠ b := by
  unfold holds
  cases ha : number? a with
  | none => cases operator <;> simp
  | some x =>
    cases hb : number? b with
    | none => cases operator <;> simp
    | some y => simp [ha, hb] at h

lemma holds_of_number {x y : Binary64} {i j : Int} (operator : Comparison)
    (ha : number? a = some x) (hb : number? b = some y) (hx : x.place = some i)
    (hy : y.place = some j) : operator.holds a b = operator.accepts (compareOfLessAndEq i j) := by
  simp [holds, ha, hb, Binary64.order, hx, hy]

/-- An operator holds of two texts if it relates the operands that they stand for. -/
theorem holds_iff (operator : Comparison) (a b : String) :
    operator.holds a b = true ↔ operator.Relates (Operand.of a) (Operand.of b) := by
  by_cases htext : number? a = none ∨ number? b = none
  · have hunordered : operator.IsOrdering → ¬operator.Relates (Operand.of a) (Operand.of b) := by
      intro hoperator h
      obtain ⟨i, j, hi, hj⟩ := exists_numbers_of_relates hoperator h
      rcases htext with htext | htext
      · rw [of_eq_text htext] at hi
        cases hi
      · rw [of_eq_text htext] at hj
        cases hj
    rw [holds_of_text operator htext]
    cases operator with
    | equal | notEqual => simp [Relates, of_eq_of_iff htext]
    | invalid => simp [Relates]
    | _ => simpa using hunordered (by simp [IsOrdering])
  · obtain ⟨⟨x, hx⟩, y, hy⟩ : (∃ x, number? a = some x) ∧ ∃ y, number? b = some y := by
      simpa [not_or, Option.ne_none_iff_exists'] using htext
    obtain ⟨i, hi⟩ := exists_place hx
    obtain ⟨j, hj⟩ := exists_place hy
    have ha : Operand.of a = .number i := by simp [Operand.of, hx, hi]
    have hb : Operand.of b = .number j := by simp [Operand.of, hy, hj]
    rw [holds_of_number operator hx hy hi hj, accepts_iff, ha, hb, relates_number_iff]

/-! ### Laws of comparison -/

lemma equivalence_holds_equal : Equivalence fun a b => equal.holds a b = true := by
  simp only [holds_iff]
  exact ⟨fun _ => rfl, Eq.symm, Eq.trans⟩

lemma holds_notEqual (a b : String) : notEqual.holds a b = !equal.holds a b := by
  rw [Bool.eq_iff_iff, Bool.not_eq_true', ← Bool.not_eq_true, holds_iff, holds_iff]
  exact Iff.rfl

lemma holds_greater (a b : String) : greater.holds a b = less.holds b a := by
  rw [Bool.eq_iff_iff, holds_iff, holds_iff]
  exact Iff.rfl

lemma holds_greaterOrEqual (a b : String) : greaterOrEqual.holds a b = lessOrEqual.holds b a := by
  rw [Bool.eq_iff_iff, holds_iff, holds_iff]
  exact Iff.rfl

lemma holds_invalid (a b : String) : invalid.holds a b = false := by
  rw [← Bool.not_eq_true, holds_iff]
  exact not_false

lemma holds_less_trans {c : String} (hab : less.holds a b = true) (hbc : less.holds b c = true) :
    less.holds a c = true := by
  rw [holds_iff] at *
  exact Operand.lt_trans hab hbc

/-- A text is not less than another one that it is equal to or greater than. -/
lemma holds_less_exclusive (h : less.holds a b = true) :
    equal.holds a b = false ∧ greater.holds a b = false := by
  rw [holds_iff] at h
  rw [← Bool.not_eq_true, ← Bool.not_eq_true, holds_iff, holds_iff]
  exact ⟨Operand.ne_of_lt h, Operand.lt_asymm h⟩

/-- Texts that spell no number have no order. -/
lemma holds_ordering_of_text {operator : Comparison} (hoperator : operator.IsOrdering)
    (h : number? a = none ∨ number? b = none) : operator.holds a b = false := by
  rw [← Bool.not_eq_true, holds_of_text operator h]
  rcases hoperator with rfl | rfl | rfl | rfl <;> simp

/-- The order of numbers is total. -/
lemma holds_of_numbers (ha : (number? a).isSome = true) (hb : (number? b).isSome = true) :
    (less.holds a b = true ∨ equal.holds a b = true ∨ greater.holds a b = true) ∧
      greaterOrEqual.holds a b = (greater.holds a b || equal.holds a b) := by
  obtain ⟨i, hi⟩ := number?_isSome_iff.mp ha
  obtain ⟨j, hj⟩ := number?_isSome_iff.mp hb
  have hholds : ∀ operator : Comparison, operator.holds a b = true ↔ operator.Relates i j := by
    intro operator
    rw [holds_iff, hi, hj, relates_number_iff]
  constructor
  · rw [hholds, hholds, hholds]
    exact Int.lt_trichotomy i j
  · rw [Bool.eq_iff_iff, Bool.or_eq_true, hholds, hholds, hholds]
    simp only [Relates]
    omega

/-- No operator tells two texts apart that compare equal. -/
lemma holds_congr (h : equal.holds a b = true) (operator : Comparison) (c : String) :
    operator.holds c a = operator.holds c b ∧ operator.holds a c = operator.holds b c := by
  have hoperand : Operand.of a = Operand.of b := (holds_iff equal a b).mp h
  constructor
  · rw [Bool.eq_iff_iff, holds_iff, holds_iff, hoperand]
  · rw [Bool.eq_iff_iff, holds_iff, holds_iff, hoperand]

end Comparison
end YamlSieve
