import YamlSieve.Proofs.Number.WholeNumber
import YamlSieve.Yaml.Document
import YamlSieve.Yaml.Style

/-!
# Strings that are taken for other scalars

The writer of strings and the reader of plain scalars agree on null, on booleans, on finite numbers
and on almost all integers. What is left are the integers with a sign behind a prefix or behind
another sign, and the numerals too large for a finite number: exactly these are read as something
else than the string that is written (`Yaml.Style.staysString_iff`, `Yaml.Style.staysKey_iff`).
-/

namespace YamlSieve

/-! ### Integers are finite numbers -/

namespace Integer

lemma isDigit_of_digit? {c : Char} {d : Nat} (h : digit? 10 c = some d) : c.isDigit := by
  by_contra hc
  have hdecimal : ('0' ≤ c && c ≤ '9') = false := by
    rw [← Bool.not_eq_true, Bool.and_eq_true, decide_eq_true_eq, decide_eq_true_eq]
    rintro ⟨hlow, hhigh⟩
    exact hc (Bool.and_eq_true_iff.mpr ⟨decide_eq_true hlow, decide_eq_true hhigh⟩)
  simp only [digit?, hdecimal, Bool.false_eq_true, if_false] at h
  split at h
  · simp [Option.filter] at h
  · split at h
    · simp [Option.filter] at h
    · cases h

lemma isDigit_of_readDigits? {n m : Nat} {cs : List Char} (h : readDigits? 10 n cs = some m) :
    ∀ c ∈ cs, c.isDigit := by
  induction cs generalizing n with
  | nil => exact List.forall_mem_nil _
  | cons c cs ih =>
    rw [readDigits?] at h
    split at h
    · rename_i d hd
      exact List.forall_mem_cons.mpr ⟨isDigit_of_digit? hd, ih h⟩
    · cases h

/-- What is read as a number is a row of digits that spells it. -/
lemma readNat?_eq_some {n : Nat} {cs : List Char} (h : readNat? 10 cs = some n) :
    cs ≠ [] ∧ (∀ c ∈ cs, c.isDigit) ∧ Decimal.ofDigits cs = n := by
  cases cs with
  | nil => cases h
  | cons c cs =>
    have hdigits := isDigit_of_readDigits? h
    rw [readNat?, readDigits?_eq hdigits] at h
    exact ⟨List.cons_ne_nil c cs, hdigits, by rw [Decimal.ofDigits_eq]; exact Option.some.inj h⟩

lemma natAbs_of_toInt64? {i : Int} {value : Int64} (h : toInt64? i = some value) :
    i.natAbs < 2 ^ 64 := by
  rw [toInt64?] at h
  split at h
  · omega
  · cases h

/-- What is read as an integer is a number of 64 binary places, perhaps after a sign. -/
lemma readInt64?_eq_some {base : Nat} {cs : List Char} {value : Int64}
    (h : readInt64? base cs = some value) :
    ∃ n < 2 ^ 64, (∃ ds, cs = '-' :: ds ∧ readNat? base ds = some n) ∨
      (∃ ds, cs = '+' :: ds ∧ readNat? base ds = some n) ∨ readNat? base cs = some n := by
  have hnat {ds : List Char} {f : Int → Int} {i : Int} (hf : ∀ j, (f j).natAbs = j.natAbs)
      (hi : ((readNat? base ds).bind fun n => some (n : Int)).map f = some i)
      (hvalue : toInt64? i = some value) : ∃ n < 2 ^ 64, readNat? base ds = some n := by
    obtain ⟨j, hj, rfl⟩ := Option.map_eq_some_iff.mp hi
    obtain ⟨n, hn, hcast⟩ := Option.bind_eq_some_iff.mp hj
    cases hcast
    have hlt := natAbs_of_toInt64? hvalue
    rw [hf] at hlt
    exact ⟨n, hlt, hn⟩
  obtain ⟨i, hi, hvalue⟩ := Option.bind_eq_some_iff.mp h
  unfold read? at hi
  split at hi
  · obtain ⟨n, hlt, hn⟩ := hnat Int.natAbs_neg hi hvalue
    exact ⟨n, hlt, Or.inl ⟨_, rfl, hn⟩⟩
  · obtain ⟨n, hlt, hn⟩ := hnat (fun _ => rfl) hi hvalue
    exact ⟨n, hlt, Or.inr (Or.inl ⟨_, rfl, hn⟩)⟩
  · obtain ⟨n, hlt, hn⟩ := hnat (fun _ => rfl) hi hvalue
    exact ⟨n, hlt, Or.inr (Or.inr hn)⟩

/-- Whether a text starts with a sign. -/
def startsSigned : List Char → Bool
  | c :: _ => c = '-' || c = '+'
  | []     => false

lemma exists_readNat?_of_unsigned {base : Nat} {cs : List Char} {value : Int64}
    (h : readInt64? base cs = some value) (hsign : startsSigned cs = false) :
    ∃ n < 2 ^ 64, readNat? base cs = some n := by
  obtain ⟨n, hn, ⟨ds, rfl, -⟩ | ⟨ds, rfl, -⟩ | hnat⟩ := readInt64?_eq_some h
  · exact Bool.noConfusion (show true = false from hsign)
  · exact Bool.noConfusion (show true = false from hsign)
  · exact ⟨n, hn, hnat⟩

end Integer

namespace Decimal

/-- A row of digits is read as a finite number, if it spells an integer of 64 binary places. -/
lemma isFinite_of_readNat? {n : Nat} {cs : List Char} (h : Integer.readNat? 10 cs = some n)
    (hn : n < 2 ^ 64) (negative : Bool) :
    (readUnsigned? negative cs).any Binary64.isFinite := by
  obtain ⟨hne, hdigits, rfl⟩ := Integer.readNat?_eq_some h
  rw [readUnsigned?_digits hne hdigits hn, Option.any_some]
  exact Binary64.isFinite_ofRatio hn

/-- A row of digits is a numeral without a sign. -/
lemma read?_of_readNat? {n : Nat} {cs : List Char} (h : Integer.readNat? 10 cs = some n) :
    Binary64.read? cs = readUnsigned? false cs := by
  obtain ⟨hne, hdigits, -⟩ := Integer.readNat?_eq_some h
  obtain ⟨c, cs, rfl⟩ := List.exists_cons_of_ne_nil hne
  have hc := hdigits c List.mem_cons_self
  exact (read?_signText hc false).trans (readUnsigned?_of_isDigit hc).symm

end Decimal

namespace Yaml.Style

/-! ### Ambiguous texts -/

/-- The value that a string is read as in its style. -/
def readValue (text : String) : Value :=
  Value.ofScalar none (ofText text = plain) text

/-- Whether a text is a sign in front of the digits of a 64-bit integer. -/
def isSignedInteger (base : Nat) (cs : List Char) : Bool :=
  Integer.startsSigned cs && (Integer.readInt64? base cs).isSome

/-- Whether a text spells an integer with a sign behind its prefix or behind another sign. -/
def isLateSigned : List Char → Bool
  | '0' :: 'x' :: cs => isSignedInteger 16 cs
  | '0' :: 'o' :: cs => isSignedInteger 8 cs
  | '+' :: cs        => isSignedInteger 10 cs
  | _                => false

/-- Whether a text spells a number that is too large for a finite one. -/
def isOverflowing (cs : List Char) : Bool :=
  cs.any Char.isDigit && (Binary64.read? cs).any (!·.isFinite)

lemma isAmbiguous_of_plain {text : String} (h : ofText text = plain) :
    isAmbiguous text = false := by
  rw [ofText] at h
  split at h
  · split at h <;> cases h
  · split at h
    · rename_i hplain
      rw [Bool.and_eq_true, Bool.not_eq_true'] at hplain
      exact hplain.1
    · split at h <;> cases h

/-- A number behind the prefix of its base is ambiguous. -/
lemma isBasedNumber_of_readNat? {c : Char} {base n bound : Nat} {cs : List Char}
    (hbase : base? c = some base) (h : Integer.readNat? base cs = some n) (hn : n ≤ bound) :
    isBasedNumber bound ('0' :: c :: cs) := by
  simp only [isBasedNumber, hbase, Option.bind_some, h, Option.any_some, decide_eq_true hn]

/-- A number with a sign is all that is left where a number without one is ruled out. -/
lemma isSome_readInt64? {base : Nat} {cs : List Char}
    (h : ∀ n < 2 ^ 64, Integer.readNat? base cs ≠ some n) :
    (Integer.readInt64? base cs).isSome = isSignedInteger base cs := by
  rw [isSignedInteger]
  cases hsign : Integer.startsSigned cs with
  | true => rw [Bool.true_and]
  | false =>
    rw [Bool.false_and]
    cases hread : Integer.readInt64? base cs with
    | none => rfl
    | some value =>
      obtain ⟨n, hn, hnat⟩ := Integer.exists_readNat?_of_unsigned hread hsign
      exact absurd hnat (h n hn)

/-- Of the texts that are not ambiguous, those with a late sign are read as integers. -/
lemma isSome_readInteger? {text : String} (h : isAmbiguous text = false) :
    (Value.readInteger? text).isSome = isLateSigned text.toList := by
  simp only [isAmbiguous, Bool.or_eq_false_iff] at h
  obtain ⟨⟨-, hbased⟩, hfinite⟩ := h
  rw [Value.readInteger?]
  generalize text.toList = cs at hbased hfinite ⊢
  have hbound {n : Nat} (hn : n < 2 ^ 64) : n ≤ Nat.pow 2 128 - 1 :=
    Nat.le_trans (Nat.le_of_lt hn) (by decide)
  split
  · exact isSome_readInt64? fun n hn hnat =>
      absurd (isBasedNumber_of_readNat? rfl hnat (hbound hn)) (Bool.eq_false_iff.mp hbased)
  · exact isSome_readInt64? fun n hn hnat =>
      absurd (isBasedNumber_of_readNat? rfl hnat (hbound hn)) (Bool.eq_false_iff.mp hbased)
  · exact isSome_readInt64? fun n hn hnat =>
      absurd (Decimal.isFinite_of_readNat? hnat hn false) (Bool.eq_false_iff.mp hfinite)
  · rename_i hhex hoctal hplus
    have hlate : isLateSigned cs = false := by
      unfold isLateSigned
      split
      · exact absurd rfl (hhex _)
      · exact absurd rfl (hoctal _)
      · exact absurd rfl (hplus _)
      · rfl
    rw [hlate]
    cases hread : Integer.readInt64? 10 cs with
    | none => rfl
    | some value =>
      -- without a plus this is a number that the writer knows
      obtain ⟨n, hn, ⟨ds, rfl, hnat⟩ | ⟨ds, rfl, -⟩ | hnat⟩ := Integer.readInt64?_eq_some hread
      · exact absurd (Decimal.isFinite_of_readNat? hnat hn true) (Bool.eq_false_iff.mp hfinite)
      · exact absurd rfl (hplus ds)
      · rw [Decimal.read?_of_readNat? hnat] at hfinite
        exact absurd (Decimal.isFinite_of_readNat? hnat hn false) (Bool.eq_false_iff.mp hfinite)

/-- Of the texts that are not ambiguous, those that overflow are read as real numbers. -/
lemma isSome_readReal? {text : String} (h : isAmbiguous text = false) :
    (Value.readReal? text).isSome = isOverflowing text.toList := by
  simp only [isAmbiguous, Bool.or_eq_false_iff, decide_eq_false_iff_not, List.mem_cons,
    List.not_mem_nil, or_false, not_or] at h
  obtain ⟨⟨⟨hspecial, -⟩, -⟩, hfinite⟩ := h
  simp only [Value.readReal?, List.mem_cons, List.not_mem_nil, hspecial, or_false, if_false,
    isOverflowing]
  cases text.toList.any Char.isDigit with
  | false => rfl
  | true =>
    cases hread : Binary64.read? text.toList with
    | none => rfl
    | some value =>
      rw [hread, Option.any_some] at hfinite
      simp [hfinite]

/-- A string that is written plain is read as a number or as a string, and as nothing else. -/
lemma readValue_of_plain {text : String} (h : ofText text = plain) :
    readValue text = match Value.readInteger? text with
      | some i => .integer i
      | none   => if isOverflowing text.toList then .real text else .string text := by
  have hambiguous := isAmbiguous_of_plain h
  have hspecial := hambiguous
  simp only [isAmbiguous, Bool.or_eq_false_iff, decide_eq_false_iff_not, List.mem_cons,
    List.not_mem_nil, or_false, not_or] at hspecial
  obtain ⟨⟨⟨hspecial, -⟩, -⟩, -⟩ := hspecial
  have hboolean : Value.readBoolean? text = none := by simp [Value.readBoolean?, hspecial]
  have hnull : text ∉ ["", "~", "null"] := by simp [hspecial]
  rw [readValue, decide_eq_true h, ← isSome_readReal? hambiguous]
  cases hread : Value.readInteger? text with
  | some i => simp only [Value.ofScalar, Value.ofPlain, hread]
  | none => simp only [Value.ofScalar, Value.ofPlain, hread, hnull, if_false, hboolean]

lemma readValue_of_ne_plain {text : String} (h : ofText text ≠ plain) :
    readValue text = .string text := by
  rw [readValue, decide_eq_false h]
  rfl

/-! ### Strings that come back -/

/-- Whether a string is read as this string: it is quoted, or the reader takes it for no number. -/
def staysString (text : String) : Bool :=
  !(ofText text = plain && (isLateSigned text.toList || isOverflowing text.toList))

/-- Whether a string is read as this key. A number that overflows keeps its spelling as a key. -/
def staysKey (text : String) : Bool := !(ofText text = plain && isLateSigned text.toList)

/-- The digits of an integer hold no late sign. -/
lemma isLateSigned_text (i : Int64) : isLateSigned (Integer.text i).toList = false := by
  have hchar {c : Char} (hc : c ∈ (Integer.text i).toList) : c.isDigit ∨ c = '-' :=
    Value.isDigit_or_sign_of_mem_text hc
  unfold isLateSigned
  split
  · next htext => exact absurd (hchar (c := 'x') (by simp [htext])) (by decide)
  · next htext => exact absurd (hchar (c := 'o') (by simp [htext])) (by decide)
  · next htext => exact absurd (hchar (c := '+') (by simp [htext])) (by decide)
  · rfl

theorem staysString_iff {text : String} : staysString text ↔ readValue text = .string text := by
  by_cases hplain : ofText text = plain
  · rw [readValue_of_plain hplain, staysString, decide_eq_true hplain,
      ← isSome_readInteger? (isAmbiguous_of_plain hplain)]
    cases Value.readInteger? text with
    | some i => simp
    | none => cases isOverflowing text.toList <;> simp
  · simp [staysString, hplain, readValue_of_ne_plain hplain]

theorem staysKey_iff {text : String} : staysKey text ↔ (readValue text).keyText? = some text := by
  by_cases hplain : ofText text = plain
  · have hlate := isSome_readInteger? (isAmbiguous_of_plain hplain)
    rw [readValue_of_plain hplain, staysKey, decide_eq_true hplain, Bool.true_and]
    cases hread : Value.readInteger? text with
    | some i =>
      rw [hread, Option.isSome_some] at hlate
      -- the digits of the integer are another text than the one with the sign
      have hne : Integer.text i ≠ text := fun heq => by
        rw [← heq, isLateSigned_text] at hlate
        cases hlate
      simpa [← hlate, Value.keyText?] using hne
    | none =>
      rw [hread, Option.isSome_none] at hlate
      cases isOverflowing text.toList <;> simp [← hlate, Value.keyText?]
  · simp [staysKey, hplain, readValue_of_ne_plain hplain, Value.keyText?]

end Yaml.Style
end YamlSieve
