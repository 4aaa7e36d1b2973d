import YamlSieve.Proofs.Number.Rounding
import YamlSieve.Yaml.Value
import YamlSieve.Number.Layout

/-!
# Numerals

The text that a number is written as is read as this number: by the readers of numbers, and as a
plain scalar.
-/

namespace YamlSieve

/-! ### Rows of digits -/

namespace Integer

lemma digit?_of_isDigit {c : Char} (h : c.isDigit) : digit? 10 c = some (c.toNat - '0'.toNat) := by
  have hc : '0' ≤ c ∧ c ≤ '9' := by
    simp only [Char.isDigit, ge_iff_le, Bool.and_eq_true, decide_eq_true_eq] at h
    exact h
  have hlow : '0'.toNat ≤ c.toNat := hc.1
  have hhigh : c.toNat ≤ '9'.toNat := hc.2
  have hlt : c.toNat - '0'.toNat < 10 := by
    rw [show '0'.toNat = 48 from rfl, show '9'.toNat = 57 from rfl] at *
    omega
  simp only [digit?, hc, decide_true, Bool.and_self, if_true, Option.filter, hlt]

/-- A row of decimal digits is read as the number that it spells. -/
lemma readDigits?_eq {cs : List Char} (h : ∀ c ∈ cs, c.isDigit) (n : Nat) :
    readDigits? 10 n cs = some (Nat.ofDigitChars 10 cs n) := by
  induction cs generalizing n with
  | nil => rfl
  | cons c cs ih =>
    rw [readDigits?, digit?_of_isDigit (h c List.mem_cons_self), Nat.ofDigitChars_cons]
    exact ih (fun d hd => h d (List.mem_cons_of_mem c hd)) _

/-- A row of characters with one that is no digit spells no number. -/
lemma readDigits?_eq_none {base : Nat} {cs : List Char} {c : Char} (hc : c ∈ cs)
    (h : digit? base c = none) (n : Nat) : readDigits? base n cs = none := by
  induction cs generalizing n with
  | nil => nomatch hc
  | cons d ds ih =>
    rw [readDigits?]
    rcases List.mem_cons.mp hc with rfl | hmem
    · rw [h]
    · cases digit? base d with
      | none => rfl
      | some k => exact ih hmem _

lemma readNat?_toDigits (n : Nat) : readNat? 10 (Nat.toDigits 10 n) = some n := by
  have hdigits : ∀ c ∈ Nat.toDigits 10 n, c.isDigit := fun c hc =>
    Nat.isDigit_of_mem_toDigits (by decide) (by decide) hc
  have hread := readDigits?_eq hdigits 0
  rw [Nat.ofDigitChars_ten_toDigits] at hread
  cases hcs : Nat.toDigits 10 n with
  | nil => exact absurd hcs Nat.toDigits_ne_nil
  | cons c cs => rw [readNat?, ← hcs, hread]

/-- The characters of an integer: digits, after a sign if it is negative. -/
lemma toString_toList (i : Int) :
    (toString i).toList = if 0 ≤ i then Nat.toDigits 10 i.toNat
      else '-' :: Nat.toDigits 10 (-i).toNat := by
  rw [Int.toString_eq_repr, Int.repr_eq_if]
  split <;> simp [Nat.repr_eq_ofList_toDigits]

lemma toInt64?_toInt (i : Int64) : toInt64? i.toInt = some i := by
  have hlow := i.le_toInt
  have hhigh := i.toInt_lt
  rw [toInt64?, if_pos (by omega), Int64.ofInt_toInt]

lemma read?_of_isDigit {base : Nat} {c : Char} {cs : List Char} (h : c.isDigit) :
    read? base (c :: cs) = (readNat? base (c :: cs)).map Int.ofNat := by
  unfold read?
  split
  · rename_i heq
    cases heq
    exact absurd h (by decide)
  · rename_i heq
    cases heq
    exact absurd h (by decide)
  · cases readNat? base (c :: cs) <;> rfl

lemma isDigit_toDigits {n : Nat} {c : Char} (h : c ∈ Nat.toDigits 10 n) : c.isDigit :=
  Nat.isDigit_of_mem_toDigits (by decide) (by decide) h

lemma exists_toDigits (n : Nat) : ∃ c cs, Nat.toDigits 10 n = c :: cs ∧ c.isDigit := by
  cases h : Nat.toDigits 10 n with
  | nil => exact absurd h Nat.toDigits_ne_nil
  | cons c cs => exact ⟨c, cs, rfl, isDigit_toDigits (n := n) (by rw [h]; exact List.mem_cons_self)⟩

/-- The text of an integer is read as this integer. -/
lemma readInt64?_text (i : Int64) : readInt64? 10 (text i).toList = some i := by
  rw [readInt64?, text, toString_toList]
  split
  · rename_i hsign
    obtain ⟨c, cs, hcs, hc⟩ := exists_toDigits i.toInt.toNat
    have hread := readNat?_toDigits i.toInt.toNat
    rw [hcs] at hread
    rw [hcs, read?_of_isDigit hc, hread]
    have : Int.ofNat i.toInt.toNat = i.toInt := Int.toNat_of_nonneg hsign
    rw [Option.map_some, this, Option.bind_some, toInt64?_toInt]
  · rename_i hsign
    have : -((-i.toInt).toNat : Int) = i.toInt := by omega
    rw [read?, readNat?_toDigits]
    simp only [Option.bind_eq_bind, Option.bind_some, Option.pure_def, Option.map_some, this,
      toInt64?_toInt]

end Integer

namespace Decimal

/-! ### Reading decimals -/

lemma ofDigits_eq (cs : List Char) : ofDigits cs = Nat.ofDigitChars 10 cs 0 :=
  Nat.ofDigitChars_eq_foldl.symm

lemma ofDigits_toDigits (n : Nat) : ofDigits (toDigits n) = n := by
  rw [ofDigits_eq, toDigits, Nat.ofDigitChars_ten_toDigits]

lemma ofDigits_append_zeros (cs : List Char) (n : Nat) :
    ofDigits (cs ++ List.replicate n '0') = ofDigits cs * 10 ^ n := by
  rw [ofDigits_eq, ofDigits_eq, Nat.ofDigitChars_append, Nat.ofDigitChars_replicate_zero, mul_comm]

lemma ofDigits_zeros_append (cs : List Char) (n : Nat) :
    ofDigits (List.replicate n '0' ++ cs) = ofDigits cs := by
  rw [ofDigits_eq, ofDigits_eq, Nat.ofDigitChars_append, Nat.ofDigitChars_replicate_zero, mul_zero]

/-- A row of digits ends in front of a character that is none. -/
lemma takeWhile_digits {cs rest : List Char} (h : ∀ c ∈ cs, c.isDigit)
    (hrest : rest.head?.any Char.isDigit = false) :
    (cs ++ rest).takeWhile Char.isDigit = cs ∧ (cs ++ rest).dropWhile Char.isDigit = rest := by
  rw [List.takeWhile_append_of_pos h, List.dropWhile_append_of_pos h]
  cases rest with
  | nil => simp
  | cons c cs =>
    have hc : c.isDigit = false := by simpa using hrest
    simp [hc]

lemma read?_point {whole fraction rest : List Char} (hne : whole ≠ [])
    (hwhole : ∀ c ∈ whole, c.isDigit) (hfraction : ∀ c ∈ fraction, c.isDigit)
    (hrest : rest.head?.any Char.isDigit = false) :
    read? (whole ++ '.' :: (fraction ++ rest)) = (readExponent? rest).map fun e =>
      ⟨ofDigits (whole ++ fraction), e - fraction.length⟩ := by
  have hpoint : ('.' :: (fraction ++ rest)).head?.any Char.isDigit = false := rfl
  obtain ⟨htake, hdrop⟩ := takeWhile_digits hwhole hpoint
  obtain ⟨htake', hdrop'⟩ := takeWhile_digits hfraction hrest
  simp only [read?, htake, hdrop, htake', hdrop']
  rw [if_neg (by simp [hne])]

lemma read?_whole {whole rest : List Char} (hne : whole ≠ [])
    (hwhole : ∀ c ∈ whole, c.isDigit) (hrest : rest.head?.any Char.isDigit = false)
    (hpoint : rest.head? ≠ some '.') :
    read? (whole ++ rest) = (readExponent? rest).map fun e => ⟨ofDigits whole, e⟩ := by
  obtain ⟨htake, hdrop⟩ := takeWhile_digits hwhole hrest
  simp only [read?, htake, hdrop]
  split
  · exact absurd rfl hpoint
  · simp [hne]

def exponentText (k : Int) : List Char := 'e' :: (toString k).toList

lemma head_exponentText (k : Int) : (exponentText k).head?.any Char.isDigit = false := rfl

lemma all_isDigit_toDigits (n : Nat) : (Nat.toDigits 10 n).all Char.isDigit :=
  List.all_eq_true.mpr fun _ hc => Integer.isDigit_toDigits hc

lemma readExponent?_minus (n : Nat) :
    readExponent? ('e' :: '-' :: Nat.toDigits 10 n) = some (-min (n : Int) exponentBound) := by
  have hvalue : ofDigits (Nat.toDigits 10 n) = n := ofDigits_toDigits n
  simp only [readExponent?, decide_true, Bool.true_or, if_true, all_isDigit_toDigits, hvalue]
  rw [if_neg (by simp [Nat.toDigits_ne_nil])]

lemma readExponent?_digits (n : Nat) :
    readExponent? ('e' :: Nat.toDigits 10 n) = some (min (n : Int) exponentBound) := by
  have hvalue : ofDigits (Nat.toDigits 10 n) = n := ofDigits_toDigits n
  have hall := all_isDigit_toDigits n
  obtain ⟨c, cs, hcs, hc⟩ := Integer.exists_toDigits n
  rw [hcs] at hvalue hall ⊢
  simp only [readExponent?, decide_true, Bool.true_or, if_true]
  split
  · rename_i heq
    cases heq
    exact absurd hc (by decide)
  · rename_i heq
    cases heq
    exact absurd hc (by decide)
  · simp [hall, hvalue]

lemma readExponent?_exponentText {k : Int} (hk : k.natAbs ≤ exponentBound) :
    readExponent? (exponentText k) = some k := by
  rw [exponentText, Integer.toString_toList]
  split
  · rw [readExponent?_digits, min_eq_left (by omega), Int.toNat_of_nonneg ‹_›]
  · rw [readExponent?_minus, min_eq_left (by omega), Int.toNat_of_nonneg (by omega), neg_neg]

/-! ### Written decimals -/

/--
The text of a decimal, cut into the digits in front of the point, those after it, and the
exponent.
-/
inductive Spells (d : Decimal) : List Char → Prop where
  | positional {whole fraction : List Char} (hne : whole ≠ [])
      (hwhole : ∀ c ∈ whole, c.isDigit) (hfraction : ∀ c ∈ fraction, c.isDigit)
      (e : Nat) (hdigits : ofDigits (whole ++ fraction) = d.digits * 10 ^ e)
      (hexponent : d.exponent - e = -fraction.length) (he : e = 0 ∨ e ≤ d.exponent + 1) :
      Spells d (whole ++ '.' :: fraction)
  | fractional {whole fraction : List Char} (k : Int) (hne : whole ≠ [])
      (hwhole : ∀ c ∈ whole, c.isDigit) (hfraction : ∀ c ∈ fraction, c.isDigit)
      (hdigits : ofDigits (whole ++ fraction) = d.digits)
      (hexponent : d.exponent = k - fraction.length)
      (hk : k = d.exponent + (toDigits d.digits).length - 1) :
      Spells d (whole ++ '.' :: (fraction ++ exponentText k))
  | whole {whole : List Char} (hne : whole ≠ [])
      (hwhole : ∀ c ∈ whole, c.isDigit) (hdigits : ofDigits whole = d.digits)
      (hk : d.exponent = d.exponent + (toDigits d.digits).length - 1) :
      Spells d (whole ++ exponentText d.exponent)

lemma isDigit_replicate_zero {n : Nat} {c : Char} (h : c ∈ List.replicate n '0') : c.isDigit := by
  rw [(List.mem_replicate.mp h).2]
  decide

lemma isDigit_of_mem_toDigits {n : Nat} : ∀ c ∈ toDigits n, c.isDigit :=
  fun _ hc => Integer.isDigit_toDigits hc

/-- A whole number: its digits, as many zeros as its exponent says, and a zero after the point. -/
lemma spells_whole {d : Decimal} (h : 0 ≤ d.exponent) :
    d.Spells (toDigits d.digits ++ List.replicate d.exponent.toNat '0' ++ '.' :: ['0']) := by
  have hwhole : ∀ c ∈ toDigits d.digits ++ List.replicate d.exponent.toNat '0', c.isDigit :=
    List.forall_mem_append.mpr ⟨isDigit_of_mem_toDigits, fun c => isDigit_replicate_zero⟩
  have hzeros : List.replicate d.exponent.toNat '0' ++ ['0'] =
      List.replicate (d.exponent.toNat + 1) '0' := by
    rw [List.replicate_succ']
  refine .positional (fun hnil => Nat.toDigits_ne_nil (List.append_eq_nil_iff.mp hnil).1) hwhole
    (List.forall_mem_singleton.mpr rfl) (d.exponent.toNat + 1) ?_ ?_ ?_
  · rw [List.append_assoc, hzeros, ofDigits_append_zeros, ofDigits_toDigits]
  · simp
    omega
  · omega

/-- Digits behind the point, with zeros in front of them if there are too few. -/
lemma spells_fraction {d : Decimal} (h : d.exponent < 0) {padded : List Char} {places : Nat}
    (hplaces : (places : Int) = -d.exponent)
    (hpadded : padded =
      List.replicate (places + 1 - (toDigits d.digits).length) '0' ++ toDigits d.digits) :
    d.Spells
      (padded.take (padded.length - places) ++ '.' :: padded.drop (padded.length - places)) := by
  have hlength : places + 1 ≤ padded.length := by
    rw [hpadded, List.length_append, List.length_replicate]
    omega
  have hall : ∀ c ∈ padded, c.isDigit := by
    rw [hpadded]
    exact List.forall_mem_append.mpr ⟨fun c => isDigit_replicate_zero, isDigit_of_mem_toDigits⟩
  refine .positional ?_ (fun c hc => hall c (List.mem_of_mem_take hc))
    (fun c hc => hall c (List.mem_of_mem_drop hc)) 0 ?_ ?_ (Or.inl rfl)
  · intro hnil
    have := congrArg List.length hnil
    rw [List.length_take, List.length_nil] at this
    omega
  · rw [List.take_append_drop, hpadded, ofDigits_zeros_append, ofDigits_toDigits, pow_zero, mul_one]
  · rw [List.length_drop]
    omega

/-- One digit, the others after a point, and the exponent of the first. -/
lemma spells_scientific {d : Decimal} {leading : Int}
    (h : d.exponent + (toDigits d.digits).length - 1 = leading) :
    d.Spells (Layout.yaml.scientificText (toDigits d.digits) leading).toList := by
  have hvalue := ofDigits_toDigits d.digits
  have hdigits := isDigit_of_mem_toDigits (n := d.digits)
  have hmark : (if leading < 0 then "e" else Layout.yaml.exponentMark) = "e" := by
    split <;> rfl
  rw [Layout.scientificText]
  simp only [hmark, String.toList_append, String.toList_ofList]
  cases hds : toDigits d.digits with
  | nil => exact absurd hds Nat.toDigits_ne_nil
  | cons c cs =>
    have hlength : (toDigits d.digits).length = cs.length + 1 := by rw [hds, List.length_cons]
    rw [hds] at hdigits hvalue
    rw [hlength] at h
    -- a single digit is written without a point, and then the exponent is that of the numeral
    cases cs with
    | nil =>
      obtain rfl : d.exponent = leading := by simpa using h
      exact .whole (List.cons_ne_nil c []) hdigits hvalue (by rw [hlength]; simp)
    | cons c' cs =>
      obtain ⟨hfirst, hrest⟩ := List.forall_mem_cons.mp hdigits
      rw [List.append_assoc]
      show d.Spells ([c] ++ '.' :: ((c' :: cs) ++ exponentText leading))
      refine .fractional leading (List.cons_ne_nil c []) (List.forall_mem_singleton.mpr hfirst)
        hrest hvalue ?_ ?_
      · rw [List.length_cons] at h ⊢
        omega
      · rw [hlength]
        exact h.symm

lemma spells_decimalText (d : Decimal) : d.Spells (Layout.yaml.decimalText d).toList := by
  simp only [Layout.decimalText]
  split
  · rw [Layout.positionalText]
    split
    · rename_i hexp
      rw [String.toList_append, String.toList_ofList]
      exact spells_whole hexp
    · rename_i hexp
      simp only [String.toList_append, String.toList_ofList]
      have hpoint : ".".toList = ['.'] := rfl
      rw [hpoint, List.append_assoc, List.singleton_append]
      exact spells_fraction (by omega) (by omega) rfl
  · exact spells_scientific rfl

/-- A decimal is read from its text, perhaps with more digits. -/
lemma read?_of_spells {d : Decimal} {cs : List Char} {x : Nat} (h : d.Spells cs) (hd : d.Denotes x)
    (hsize : (d.exponent + (toDigits d.digits).length - 1).natAbs ≤ exponentBound) :
    ∃ d', read? cs = some d' ∧ d'.Denotes x := by
  obtain ⟨e, he, hx⟩ := hd
  cases h with
  | positional hne hwhole hfraction f hdigits hexponent hf =>
    have hend : ([] : List Char).head?.any Char.isDigit = false := rfl
    have hread := read?_point hne hwhole hfraction hend
    rw [List.append_nil] at hread
    refine ⟨_, hread, e - f, ?_, ?_⟩
    · simp only
      omega
    · simp only
      rw [hdigits, mul_assoc, ← pow_add, Nat.add_sub_cancel' (by omega), hx]
  | fractional k hne hwhole hfraction hdigits hexponent hk =>
    have hread := read?_point hne hwhole hfraction (head_exponentText k)
    rw [readExponent?_exponentText (by omega)] at hread
    exact ⟨_, hread, e, by simp only; omega, by rw [hdigits, hx]⟩
  | whole hne hwhole hdigits hk =>
    have hpoint : (exponentText d.exponent).head? ≠ some '.' := by simp [exponentText]
    have hread := read?_whole hne hwhole (head_exponentText d.exponent) hpoint
    rw [readExponent?_exponentText (by omega)] at hread
    exact ⟨_, hread, e, he, by rw [hdigits, hx]⟩

/-- The characters of a written decimal. -/
def isDecimalChar (c : Char) : Bool := c.isDigit || c = '.' || c = 'e' || c = '-'

lemma isDecimalChar_of_isDigit {c : Char} (h : c.isDigit) : isDecimalChar c := by
  rw [isDecimalChar, h]
  rfl

lemma isDecimalChar_of_mem_exponentText {k : Int} :
    ∀ c ∈ exponentText k, isDecimalChar c := by
  have hdigits (n : Nat) : ∀ c ∈ Nat.toDigits 10 n, isDecimalChar c :=
    fun c hc => isDecimalChar_of_isDigit (Integer.isDigit_toDigits hc)
  rw [exponentText, Integer.toString_toList]
  split
  · exact List.forall_mem_cons.mpr ⟨rfl, hdigits _⟩
  · exact List.forall_mem_cons.mpr ⟨rfl, List.forall_mem_cons.mpr ⟨rfl, hdigits _⟩⟩

lemma Spells.isDecimalChar {d : Decimal} {cs : List Char} (h : d.Spells cs) :
    ∀ c ∈ cs, isDecimalChar c := by
  have hdigits {cs : List Char} (h : ∀ c ∈ cs, c.isDigit) : ∀ c ∈ cs, Decimal.isDecimalChar c :=
    fun c hc => isDecimalChar_of_isDigit (h c hc)
  cases h with
  | positional hne hwhole hfraction =>
    exact List.forall_mem_append.mpr ⟨hdigits hwhole,
      List.forall_mem_cons.mpr ⟨rfl, hdigits hfraction⟩⟩
  | fractional k hne hwhole hfraction =>
    exact List.forall_mem_append.mpr ⟨hdigits hwhole, List.forall_mem_cons.mpr ⟨rfl,
      List.forall_mem_append.mpr ⟨hdigits hfraction, isDecimalChar_of_mem_exponentText⟩⟩⟩
  | whole hne hwhole =>
    exact List.forall_mem_append.mpr ⟨hdigits hwhole, isDecimalChar_of_mem_exponentText⟩

/-- A written decimal has a point or an exponent, so it does not spell an integer. -/
lemma Spells.point_or_exponent {d : Decimal} {cs : List Char} (h : d.Spells cs) :
    ∃ c ∈ cs, c = '.' ∨ c = 'e' := by
  cases h with
  | positional => exact ⟨'.', by simp, Or.inl rfl⟩
  | fractional => exact ⟨'.', by simp, Or.inl rfl⟩
  | whole => exact ⟨'e', by simp [exponentText], Or.inr rfl⟩

lemma Spells.exists_cons {d : Decimal} {cs : List Char} (h : d.Spells cs) :
    ∃ c ds, cs = c :: ds ∧ c.isDigit := by
  have key {whole rest : List Char} (hne : whole ≠ []) (hwhole : ∀ c ∈ whole, c.isDigit) :
      ∃ c ds, whole ++ rest = c :: ds ∧ c.isDigit := by
    cases whole with
    | nil => exact absurd rfl hne
    | cons c whole => exact ⟨c, whole ++ rest, rfl, hwhole c List.mem_cons_self⟩
  cases h with
  | positional hne hwhole => exact key hne hwhole
  | fractional _ hne hwhole => exact key hne hwhole
  | whole hne hwhole => exact key hne hwhole

lemma toLower_of_isDigit {c : Char} (h : c.isDigit) : c.toLower = c := by
  simp only [Char.isDigit, Bool.and_eq_true, decide_eq_true_eq] at h
  unfold Char.toLower
  rw [dif_neg]
  rintro ⟨h1, -⟩
  exact absurd (UInt32.le_trans h1 h.2) (by decide)

lemma readUnsigned?_of_isDigit {negative : Bool} {c : Char} {cs : List Char} (h : c.isDigit) :
    readUnsigned? negative (c :: cs) = (read? (c :: cs)).map (toBinary64 negative) := by
  have hi : c ≠ 'i' := by rintro rfl; exact absurd h (by decide)
  have hn : c ≠ 'n' := by rintro rfl; exact absurd h (by decide)
  simp only [readUnsigned?, infinityWords, List.map_cons, toLower_of_isDigit h, List.mem_cons,
    List.cons.injEq, hi, hn, false_and, List.not_mem_nil, or_self, if_false]

def signText (negative : Bool) : List Char := if negative then ['-'] else []

lemma read?_signText {c : Char} {cs : List Char} (h : c.isDigit) (negative : Bool) :
    Binary64.read? (signText negative ++ c :: cs) =
      (read? (c :: cs)).map (toBinary64 negative) := by
  cases negative with
  | true => exact readUnsigned?_of_isDigit h
  | false =>
    rw [← readUnsigned?_of_isDigit h]
    have hminus : c ≠ '-' := by rintro rfl; exact absurd h (by decide)
    have hplus : c ≠ '+' := by rintro rfl; exact absurd h (by decide)
    simp [signText, Binary64.read?, hminus, hplus]

lemma zero_denotes : (shortest .toEven 0).Denotes 0 := by
  obtain ⟨e, he⟩ : ∃ e : Nat, (e : Int) = 1075 := ⟨1075, rfl⟩
  exact ⟨e, by rw [he]; rfl, Nat.zero_mul _⟩

/-- The text of the shortest decimal of a magnitude reads back as this magnitude. -/
lemma map_toBinary64_of_spells {rank : Nat} {cs : List Char}
    (h : (shortest .toEven rank).Spells cs) (hlt : rank < Binary64.infinityRank + 1)
    (hne : rank ≠ Binary64.infinityRank) (negative : Bool) :
    (read? cs).map (toBinary64 negative) = some (.number negative ⟨rank, hlt⟩) := by
  have hvalue : Binary64.ofRank negative rank = .number negative ⟨rank, hlt⟩ := by
    simp only [Binary64.ofRank, Nat.min_eq_left (Nat.le_of_lt_succ hlt)]
  rw [← hvalue]
  obtain rfl | hpos := Nat.eq_zero_or_pos rank
  · obtain ⟨d, hd, e, -, hzero⟩ := read?_of_spells h zero_denotes (by decide)
    have hdigits : d.digits = 0 := by
      rcases Nat.mul_eq_zero.mp hzero with h | h
      · exact h
      · exact absurd h (Nat.pow_pos (by decide)).ne'
    rw [hd, Option.map_some, toBinary64, hdigits]
    rfl
  · have hfinite : rank < Binary64.infinityRank := by omega
    obtain ⟨x, hx, hreads⟩ := shortest_denotes .toEven hpos
    obtain ⟨-, hlow, hhigh⟩ := size_of_readsAs hx hreads hpos hfinite
    obtain ⟨d, hd, hdx⟩ := read?_of_spells h hx (by rw [exponentBound]; omega)
    rw [hd, Option.map_some, toBinary64_eq hdx hreads hpos hfinite]

/-- A written decimal is no row of digits. -/
lemma readNat?_of_spells {d : Decimal} {cs : List Char} (h : d.Spells cs) :
    Integer.readNat? 10 cs = none := by
  obtain ⟨a, ha, hpoint⟩ := h.point_or_exponent
  have hdigit : Integer.digit? 10 a = none := by
    rcases hpoint with rfl | rfl <;> decide
  cases cs with
  | nil => rfl
  | cons c cs => exact Integer.readDigits?_eq_none ha hdigit 0

lemma readInt64?_of_spells {d : Decimal} {c : Char} {cs : List Char} (h : d.Spells (c :: cs))
    (hc : c.isDigit) (negative : Bool) :
    Integer.readInt64? 10 (signText negative ++ c :: cs) = none := by
  have hnat := readNat?_of_spells h
  cases negative with
  | true => simp [signText, Integer.readInt64?, Integer.read?, hnat]
  | false =>
    rw [signText, if_neg (by decide), List.nil_append, Integer.readInt64?,
      Integer.read?_of_isDigit hc, hnat]
    rfl

end Decimal

namespace Yaml.Value

/-- Without letters a text has no prefix of another base. -/
lemma readInteger?_of_head {text : String} (h : ∀ c ∈ text.toList, c ≠ 'x' ∧ c ≠ 'o')
    (hsign : text.toList.head? ≠ some '+') :
    readInteger? text = Integer.readInt64? 10 text.toList := by
  unfold readInteger?
  split
  · rename_i cs heq
    exact absurd rfl (h 'x' (by simp [heq])).1
  · rename_i cs heq
    exact absurd rfl (h 'o' (by simp [heq])).2
  · rename_i cs heq
    exact absurd (by rw [heq]; rfl) hsign
  · rfl

lemma isDigit_or_sign_of_mem_text {i : Int64} {c : Char} (h : c ∈ (Integer.text i).toList) :
    c.isDigit ∨ c = '-' := by
  rw [Integer.text, Integer.toString_toList] at h
  split at h
  · exact Or.inl (Integer.isDigit_toDigits h)
  · rcases List.mem_cons.mp h with rfl | hmem
    · exact Or.inr rfl
    · exact Or.inl (Integer.isDigit_toDigits hmem)

/-- An integer that is written plain is read as this integer. -/
theorem ofPlain_integer (i : Int64) : ofPlain (Integer.text i) = integer i := by
  have hchars : ∀ c ∈ (Integer.text i).toList, c ≠ 'x' ∧ c ≠ 'o' ∧ c ≠ '+' := by
    intro c hc
    rcases isDigit_or_sign_of_mem_text hc with hd | rfl
    · refine ⟨?_, ?_, ?_⟩ <;> rintro rfl <;> exact absurd hd (by decide)
    · decide
  have hread : readInteger? (Integer.text i) = some i := by
    rw [readInteger?_of_head (fun c hc => ⟨(hchars c hc).1, (hchars c hc).2.1⟩),
      Integer.readInt64?_text]
    intro hhead
    exact (hchars '+' (List.mem_of_mem_head? hhead)).2.2 rfl
  rw [ofPlain, hread]

/-! ### Floating point numbers -/

/-- Whether a text starts with a digit, perhaps after a minus sign. -/
def startsDigit : List Char → Bool
  | '-' :: c :: _ => c.isDigit
  | c :: _        => c.isDigit
  | []            => false

lemma startsDigit_signText (negative : Bool) {c : Char} (h : c.isDigit) (cs : List Char) :
    startsDigit (Decimal.signText negative ++ c :: cs) := by
  have hminus : c ≠ '-' := by rintro rfl; exact absurd h (by decide)
  cases negative <;> simp [Decimal.signText, startsDigit, h, hminus]

lemma notMem_of_startsDigit {text : String} {words : List String} (h : startsDigit text.toList)
    (hwords : words.all fun word => !startsDigit word.toList) : text ∉ words := by
  intro hmem
  have := List.all_eq_true.mp hwords text hmem
  rw [h] at this
  exact absurd this (by decide)

lemma readReal?_of_startsDigit {text : String} (h : startsDigit text.toList) :
    readReal? text = Binary64.read? text.toList := by
  have hany : text.toList.any Char.isDigit := by
    unfold startsDigit at h
    split at h <;> simp_all
  rw [readReal?, if_neg (notMem_of_startsDigit h (by decide)),
    if_neg (notMem_of_startsDigit h (by decide)), if_neg (notMem_of_startsDigit h (by decide)),
    if_pos hany]

/-- The text of a finite number is a sign and a written decimal. -/
lemma text_number (negative : Bool) {rank : Fin (Binary64.infinityRank + 1)}
    (h : rank.val ≠ Binary64.infinityRank) :
    ∃ c cs, (Layout.yaml.text (.number negative rank)).toList =
        Decimal.signText negative ++ c :: cs ∧ c.isDigit ∧
      (Decimal.shortest .toEven rank.val).Spells (c :: cs) := by
  have hspells := Decimal.spells_decimalText (Decimal.shortest .toEven rank.val)
  obtain ⟨c, cs, hcs, hc⟩ := hspells.exists_cons
  refine ⟨c, cs, ?_, hc, hcs ▸ hspells⟩
  rw [Layout.text, if_neg h, String.toList_append, ← hcs]
  cases negative <;> rfl

/-- A number other than NaN is read from its text. -/
theorem readReal?_text (negative : Bool) (rank : Fin (Binary64.infinityRank + 1)) :
    readReal? (Layout.yaml.text (.number negative rank)) = some (.number negative rank) := by
  by_cases hinf : rank.val = Binary64.infinityRank
  · have hrank : rank = ⟨Binary64.infinityRank, by decide⟩ := Fin.ext hinf
    rw [hrank]
    cases negative <;> decide
  · obtain ⟨c, cs, htext, hc, hspells⟩ := text_number negative hinf
    rw [readReal?_of_startsDigit (htext ▸ startsDigit_signText negative hc cs), htext,
      Decimal.read?_signText hc]
    exact Decimal.map_toBinary64_of_spells hspells rank.isLt hinf negative

lemma isDecimalChar_of_mem_text (negative : Bool) {d : Decimal} {cs : List Char}
    (h : d.Spells cs) : ∀ c ∈ Decimal.signText negative ++ cs, Decimal.isDecimalChar c := by
  refine List.forall_mem_append.mpr ⟨?_, h.isDecimalChar⟩
  cases negative with
  | true => exact List.forall_mem_singleton.mpr rfl
  | false => exact List.forall_mem_nil _

/-- A floating point number that is written plain is read as this number. -/
theorem ofPlain_float {value : Binary64} (h : value ≠ .nan) :
    ofPlain (Layout.yaml.text value) = real (Layout.yaml.text value) := by
  cases value with
  | nan => exact absurd rfl h
  | number negative rank =>
    have hreal := readReal?_text negative rank
    by_cases hinf : rank.val = Binary64.infinityRank
    · have hrank : rank = ⟨Binary64.infinityRank, by decide⟩ := Fin.ext hinf
      rw [hrank]
      cases negative <;> rfl
    · obtain ⟨c, cs, htext, hc, hspells⟩ := text_number negative hinf
      have hdigit := htext ▸ startsDigit_signText negative hc cs
      have hchars := htext ▸ isDecimalChar_of_mem_text negative hspells
      have hinteger : readInteger? (Layout.yaml.text (.number negative rank)) = none := by
        rw [readInteger?_of_head, htext, Decimal.readInt64?_of_spells hspells hc]
        · intro a ha
          have := hchars a ha
          constructor <;> rintro rfl <;> exact absurd this (by decide)
        · intro hhead
          have := hchars '+' (List.mem_of_mem_head? hhead)
          exact absurd this (by decide)
      rw [ofPlain, hinteger, readBoolean?]
      simp only
      rw [if_neg (notMem_of_startsDigit hdigit (by decide)),
        if_neg (notMem_of_startsDigit hdigit (by decide)),
        if_neg (notMem_of_startsDigit hdigit (by decide))]
      simp only [hreal, Option.isSome_some, if_true]

end Yaml.Value
end YamlSieve
