import YamlSieve.Proofs.Composition
import YamlSieve.Proofs.Number.WholeNumber
import YamlSieve.Proofs.Operand

/-!
# Comparison of integers

Integers are compared through binary64: each is taken for the nearest number whose significand has
at most 53 binary places (`Comparison.holds_text_iff`). The comparison is exact if one of the two
lies between -2 ^ 53 and 2 ^ 53, and it never reverses the order of integers, but it takes large
neighbours for equal. All of this holds of the selection of items by an integer key as well
(`Comparison.holds_integers`).
-/

namespace YamlSieve

open Binary64 (IsRepresentable rounded)

/-! ### Texts of integers -/

namespace Integer

lemma isBlank_of_isDigit {c : Char} (h : c.isDigit) : Text.isBlank c = false := by
  rw [Char.isDigit, Bool.and_eq_true, decide_eq_true_eq, decide_eq_true_eq] at h
  have hlow : 48 ≤ c.toNat := h.1
  have hhigh : c.toNat ≤ 57 := h.2
  simp [Text.isBlank, Text.blankRanges]
  omega

lemma isBlank_of_mem_text {i : Int64} {c : Char} (h : c ∈ (text i).toList) :
    Text.isBlank c = false := by
  rcases Yaml.Value.isDigit_or_sign_of_mem_text h with hc | rfl
  · exact isBlank_of_isDigit hc
  · decide

lemma quote_notMem_text (i : Int64) : '"' ∉ (text i).toList := by
  intro h
  rcases Yaml.Value.isDigit_or_sign_of_mem_text h with hc | hc <;> exact absurd hc (by decide)

lemma any_isDigit_text (i : Int64) : (text i).toList.any Char.isDigit = true := by
  have hany : ∀ n, (Nat.toDigits 10 n).any Char.isDigit = true := by
    intro n
    obtain ⟨c, cs, hcs, hc⟩ := exists_toDigits n
    rw [hcs, List.any_cons, hc, Bool.true_or]
  rw [text, toString_toList]
  split
  · exact hany _
  · rw [List.any_cons, hany, Bool.or_true]

end Integer

namespace Comparison

/-- An integer is compared as the number nearest to it. -/
lemma operand_text (i : Int64) :
    Operand.of (Integer.text i) = .number (Binary64.wholePlace i.toInt) := by
  have hlow := i.le_toInt
  have hhigh := i.toInt_lt
  have hsize : i.toInt.natAbs < 2 ^ 64 := by omega
  have hnumber : number? (Integer.text i) =
      some (.ofRatio (i.toInt < 0) i.toInt.natAbs 1) := by
    rw [number?, if_pos (Integer.any_isDigit_text i),
      Text.trim_of_no_blank fun c hc => Integer.isBlank_of_mem_text hc, Integer.binary64_text]
    exact Option.filter_some_pos (Binary64.isFinite_ofRatio hsize)
  rw [Operand.of, hnumber, Option.bind_some, Binary64.place_ofRatio hsize]

/-- Two integers compare as the nearest numbers of 53 binary places. -/
theorem holds_text_iff (operator : Comparison) (i j : Int64) :
    operator.holds (Integer.text i) (Integer.text j) = true ↔
      operator.Relates (rounded i.toInt) (rounded j.toInt) := by
  rw [holds_iff, operand_text, operand_text, relates_number_iff]
  exact relates_congr (Binary64.wholePlace_lt_iff _ _) (Binary64.wholePlace_lt_iff _ _) operator

/-- Rounding does not tell integers apart that are close, if one of them is small. -/
lemma relates_rounded_iff {i j : Int} (h : i.natAbs < 2 ^ 53 ∨ j.natAbs < 2 ^ 53)
    (operator : Comparison) :
    operator.Relates (rounded i) (rounded j) ↔ operator.Relates i j :=
  relates_congr (Binary64.rounded_lt_rounded_iff h) (Binary64.rounded_lt_rounded_iff h.symm)
    operator

end Comparison

/-! ### Selection by an integer key -/

/-- A predicate on an integer key compares the integer. -/
lemma Predicate.accepts_key_integer {item : Node} {key : String} {i : Int64}
    (h : item.get? key = some (.integer i)) (operator : Comparison) (literal : String) :
    accepts ⟨[.key key], operator, literal⟩ item = operator.holds (Integer.text i) literal := by
  have heval : PathStep.evalAll [.key key] item = .integer i := by
    cases item with
    | mapping entries =>
      show ((Node.mapping entries).get? key).getD .absent = _
      rw [h]
      rfl
    | _ => cases h
  rw [accepts, heval]
  rfl

namespace Filter

/-- The expression that selects the items with a given integer under the key `id`. -/
def selectId (j : Int64) : String := "'select(.id == \"" ++ Integer.text j ++ "\")'"

lemma evaluate_selectId (j : Int64) (root : Node) :
    evaluate (selectId j) root =
      .ok ((Item.select ⟨[.key "id"], .equal, Integer.text j⟩).eval root) := by
  let argument : List Token :=
    [.delim '.', .word "id", .delim '=', .delim '=', .word (Integer.text j)]
  have hspelled : Predicate.Spelled ⟨[.key "id"], .equal, Integer.text j⟩ argument :=
    ⟨by simp, [.delim '.', .word "id"], rfl, rfl⟩
  have htext : selectId j =
      "'" ++ ("select(.id == " ++ "\"" ++ Integer.text j ++ "\"" ++ ")") ++ "'" := by
    rw [selectId, ← String.toList_inj]
    simp
  have hbefore : Token.tokenize? "select(.id == " =
      some [.word "select", .delim '(', .delim '.', .word "id", .delim '=', .delim '='] := rfl
  have hbehind : Token.tokenize? ")" = some [.delim ')'] := rfl
  have htokens := Token.tokenize?_word hbefore (Integer.quote_notMem_text j) hbehind
  rw [htext, evaluate_quoted_eq_ok_iff htokens (by simp)]
  exact ⟨[_], .last (.select hspelled []), rfl⟩

/-- Of items with an integer under `id`, those are selected whose integer compares equal. -/
lemma evaluate_selectId_sequence {items : List Node} {id : Node → Int64}
    (hid : ∀ item ∈ items, item.get? "id" = some (.integer (id item))) (j : Int64) :
    evaluate (selectId j) (.sequence items) = .ok (.sequence (items.filter fun item =>
      Comparison.equal.holds (Integer.text (id item)) (Integer.text j))) := by
  rw [evaluate_selectId, Item.eval]
  congr 2
  exact List.filter_congr fun item hitem => Predicate.accepts_key_integer (hid item hitem) _ _

end Filter

/-! ### Exactness -/

namespace Comparison

/-- Two integers that differ and are taken for equal, in a comparison and in a selection. -/
theorem holds_equal_neighbours :
    let i : Int64 := 9007199254740993
    let j : Int64 := 9007199254740992
    let root : Node := .sequence [.mapping [("id", .integer i)]]
    i ≠ j ∧ equal.holds (Integer.text i) (Integer.text j) = true ∧
      Filter.evaluate (Filter.selectId j) root = .ok root := by
  intro i j root
  have hrounded : rounded i.toInt = rounded j.toInt := by decide +kernel
  have hequal : equal.holds (Integer.text i) (Integer.text j) = true :=
    (holds_text_iff equal i j).mpr hrounded
  refine ⟨by decide, hequal, ?_⟩
  rw [Filter.evaluate_selectId, Item.eval, List.filter_cons_of_pos, List.filter_nil]
  rw [Predicate.accepts_key_integer rfl]
  exact hequal

/--
Two integers compare as the nearest numbers whose significands have at most 53 binary places; this
is exact if one of them is between -2 ^ 53 and 2 ^ 53, and it never reverses their order. Of items
with an integer under `id`, those are selected whose integer is nearest to the same number as the
given one, and these have the given integer itself if that is between -2 ^ 53 and 2 ^ 53.
-/
theorem holds_integers :
    (∀ (operator : Comparison) (i j : Int64),
      (operator.holds (Integer.text i) (Integer.text j) = true ↔
          operator.Relates (rounded i.toInt) (rounded j.toInt)) ∧
        (i.toInt.natAbs < 2 ^ 53 ∨ j.toInt.natAbs < 2 ^ 53 →
          (operator.holds (Integer.text i) (Integer.text j) = true ↔
            operator.Relates i.toInt j.toInt))) ∧
      (∀ i : Int, IsRepresentable (rounded i) ∧
        ∀ r, IsRepresentable r → (i - rounded i).natAbs ≤ (i - r).natAbs) ∧
      (∀ i j : Int64, i ≤ j → lessOrEqual.holds (Integer.text i) (Integer.text j) = true) ∧
      ∀ (items : List Node) (id : Node → Int64),
        (∀ item ∈ items, item.get? "id" = some (.integer (id item))) → ∀ j : Int64,
          Filter.evaluate (Filter.selectId j) (.sequence items) =
              .ok (.sequence (items.filter fun item =>
                rounded (id item).toInt = rounded j.toInt)) ∧
            (j.toInt.natAbs < 2 ^ 53 → Filter.evaluate (Filter.selectId j) (.sequence items) =
              .ok (.sequence (items.filter fun item => id item = j))) := by
  have hexact : ∀ (operator : Comparison) (i j : Int64),
      i.toInt.natAbs < 2 ^ 53 ∨ j.toInt.natAbs < 2 ^ 53 →
        (operator.holds (Integer.text i) (Integer.text j) = true ↔
          operator.Relates i.toInt j.toInt) := by
    intro operator i j hsmall
    rw [holds_text_iff, relates_rounded_iff hsmall]
  refine ⟨fun operator i j => ⟨holds_text_iff operator i j, hexact operator i j⟩, fun i => ?_,
    fun i j hle => ?_, fun items id hid j => ⟨?_, fun hsmall => ?_⟩⟩
  · exact ⟨Binary64.isRepresentable_rounded i, fun r => Binary64.rounded_nearest i⟩
  · rw [holds_text_iff]
    exact Binary64.rounded_le_rounded (Int64.le_iff_toInt_le.mp hle)
  · rw [Filter.evaluate_selectId_sequence hid]
    congr 3
    funext item
    rw [Bool.eq_iff_iff, holds_text_iff, decide_eq_true_iff]
    rfl
  · rw [Filter.evaluate_selectId_sequence hid]
    congr 3
    funext item
    rw [Bool.eq_iff_iff, hexact equal _ _ (Or.inr hsmall), decide_eq_true_iff]
    exact Int64.toInt_inj

end Comparison
end YamlSieve
