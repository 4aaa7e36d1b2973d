import YamlSieve.Proofs.Number.Numeral

/-!
# Whole numbers in binary64

A whole number stands in binary64 for the nearest one whose significand has at most 53 binary
places (`Binary64.units_nearestRank`). This is the number itself up to `2 ^ 53`, and the order of
numbers is never reversed (`Binary64.rounded_le_rounded`), but neighbours above are taken together.
-/

namespace YamlSieve

namespace Binary64

/-! ### Rounding quotients -/

lemma divideToEven_le (num den : Nat) : divideToEven num den ≤ num / den + 1 := by
  simp only [divideToEven]
  split <;> omega

lemma le_divideToEven (num den : Nat) : num / den ≤ divideToEven num den := by
  simp only [divideToEven]
  split <;> omega

/-- A quotient is rounded by one half at most. -/
lemma divideToEven_near (num : Nat) {den : Nat} (hden : 0 < den) :
    2 * (den * divideToEven num den) ≤ 2 * num + den ∧
      2 * num ≤ 2 * (den * divideToEven num den) + den := by
  obtain ⟨d, r, rfl, hr⟩ : ∃ d r, num = den * d + r ∧ r < den :=
    ⟨num / den, num % den, (Nat.div_add_mod num den).symm, Nat.mod_lt _ hden⟩
  rw [divideToEven_mul_add hr]
  split_ifs with hlt heq
  · omega
  · rcases Nat.mod_two_eq_zero_or_one d with hd | hd <;> rw [hd, mul_add] <;> omega
  · rw [mul_add]
    omega

/-- No multiple of the divisor is nearer than the rounded one. -/
lemma divideToEven_nearest {num den : Nat} (hden : 0 < den) (t : Int) :
    (num - den * divideToEven num den : Int).natAbs ≤ (num - den * t).natAbs := by
  obtain ⟨hlow, hhigh⟩ := divideToEven_near num hden
  generalize divideToEven num den = q at *
  zify at hlow hhigh
  have hstep : ∀ a b : Int, a < b → den * a + den ≤ den * b := by
    intro a b hab
    have := Int.mul_le_mul_of_nonneg_left (Int.add_one_le_of_lt hab) (Int.natCast_nonneg den)
    rwa [Int.mul_add, Int.mul_one] at this
  rcases Int.lt_trichotomy t q with hlt | rfl | hgt
  · have := hstep t q hlt
    omega
  · exact le_rfl
  · have := hstep q t hgt
    omega

lemma divideToEven_mul_right (num den : Nat) {c : Nat} (hc : 0 < c) :
    divideToEven (num * c) (den * c) = divideToEven num den := by
  have hlt : ∀ a b : Nat, a * c < b * c ↔ a < b := fun a b => Nat.mul_lt_mul_right hc
  have heq : ∀ a b : Nat, a * c = b * c ↔ a = b := fun a b => Nat.mul_left_inj hc.ne'
  simp only [divideToEven, Nat.mul_div_mul_right _ _ hc, Nat.mul_mod_mul_right, ← mul_assoc,
    compareOfLessAndEq, hlt, heq]

lemma divideToEven_mul_self (n : Nat) {den : Nat} (hden : 0 < den) :
    divideToEven (n * den) den = n := by
  refine divideToEven_eq hden ?_ ?_ fun _ => ⟨?_, ?_⟩ <;> rw [mul_comm den] <;> omega

/-! ### The nearest number of 53 binary places -/

/-- The whole number has a significand of at most 53 binary places. -/
def IsRepresentable (r : Int) : Prop := ∃ (m : Int) (e : Nat), m.natAbs ≤ 2 ^ 53 ∧ r = m * 2 ^ e

/-- The number of at most 53 binary places that is nearest; a tie goes to the even significand. -/
def roundedNat (n : Nat) : Nat :=
  divideToEven n (2 ^ (n.log2 - 52)) * 2 ^ (n.log2 - 52)

/-- The same with a sign. -/
def rounded (i : Int) : Int := if i < 0 then -roundedNat i.natAbs else roundedNat i.natAbs

lemma roundedNat_of_lt {n : Nat} (h : n < 2 ^ 53) : roundedNat n = n := by
  have hshift : n.log2 - 52 = 0 := by
    by_cases hzero : n = 0
    · rw [hzero]
      rfl
    · have := (Nat.log2_lt hzero).mpr h
      omega
  have hone := divideToEven_mul_self n Nat.one_pos
  rw [mul_one] at hone
  rw [roundedNat, hshift, pow_zero, mul_one, hone]

/-- A number of more than 53 binary places is rounded to a multiple of a power of two. -/
lemma exists_roundedNat {n : Nat} (h : 2 ^ 53 ≤ n) :
    ∃ s q, 2 ^ 52 ≤ q ∧ q ≤ 2 ^ 53 ∧ n.log2 = s + 52 ∧ q = divideToEven n (2 ^ s) ∧
      roundedNat n = q * 2 ^ s ∧ 2 ^ 52 * 2 ^ s ≤ n ∧
      2 * (2 ^ s * q) ≤ 2 * n + 2 ^ s ∧ 2 * n ≤ 2 * (2 ^ s * q) + 2 ^ s := by
  have hn : n ≠ 0 := by omega
  have hlog : 53 ≤ n.log2 := (Nat.le_log2 hn).mpr h
  obtain ⟨s, hs⟩ : ∃ s, n.log2 = s + 52 := ⟨n.log2 - 52, by omega⟩
  have hlow : 2 ^ 52 * 2 ^ s ≤ n := by
    rw [← pow_add, add_comm, ← hs]
    exact Nat.log2_self_le hn
  have hhigh : n < 2 ^ s * 2 ^ 53 := by
    have hlt : n < 2 ^ (n.log2 + 1) := Nat.lt_log2_self
    rwa [hs, add_assoc, pow_add] at hlt
  have hpos : 0 < 2 ^ s := by positivity
  have hdiv : 2 ^ 52 ≤ n / 2 ^ s := (Nat.le_div_iff_mul_le hpos).mpr hlow
  have hdiv' : n / 2 ^ s < 2 ^ 53 := Nat.div_lt_of_lt_mul hhigh
  have hle := divideToEven_le n (2 ^ s)
  have hge := le_divideToEven n (2 ^ s)
  obtain ⟨hnear, hnear'⟩ := divideToEven_near n hpos
  refine ⟨s, divideToEven n (2 ^ s), by omega, by omega, hs, rfl, ?_, hlow, hnear, hnear'⟩
  rw [roundedNat, hs, Nat.add_sub_cancel]

/-! ### Order of rounded numbers -/

lemma IsRepresentable.neg {r : Int} (h : IsRepresentable r) : IsRepresentable (-r) := by
  obtain ⟨m, e, hm, rfl⟩ := h
  exact ⟨-m, e, by rwa [Int.natAbs_neg], by ring⟩

lemma isRepresentable_of_natAbs_le {i : Int} (h : i.natAbs ≤ 2 ^ 53) : IsRepresentable i :=
  ⟨i, 0, h, by ring⟩

lemma isRepresentable_roundedNat (n : Nat) : IsRepresentable (roundedNat n) := by
  by_cases h : n < 2 ^ 53
  · rw [roundedNat_of_lt h]
    exact isRepresentable_of_natAbs_le h.le
  · obtain ⟨s, q, -, hq, -, -, hrounded, -⟩ := exists_roundedNat (Nat.le_of_not_lt h)
    exact ⟨q, s, hq, by rw [hrounded]; push_cast; rfl⟩

lemma isRepresentable_rounded (i : Int) : IsRepresentable (rounded i) := by
  rw [rounded]
  split_ifs
  · exact (isRepresentable_roundedNat _).neg
  · exact isRepresentable_roundedNat _

/-- No number of at most 53 binary places is nearer than the rounded one. -/
lemma roundedNat_nearest (n : Nat) {r : Int} (hr : IsRepresentable r) :
    (n - roundedNat n : Int).natAbs ≤ (n - r).natAbs := by
  by_cases h : n < 2 ^ 53
  · rw [roundedNat_of_lt h, Int.sub_self]
    exact Nat.zero_le _
  · obtain ⟨s, q, -, -, -, hq, hrounded, hlow, -⟩ := exists_roundedNat (Nat.le_of_not_lt h)
    have hgrid : ∀ t : Int, (n - roundedNat n : Int).natAbs ≤ (n - (2 ^ s : Nat) * t).natAbs := by
      intro t
      rw [hrounded, hq, mul_comm _ (2 ^ s)]
      exact divideToEven_nearest (by positivity) t
    obtain ⟨m, e, hm, rfl⟩ := hr
    by_cases he : s ≤ e
    · obtain ⟨f, rfl⟩ := Nat.exists_eq_add_of_le he
      have hmultiple : m * 2 ^ (s + f) = (2 ^ s : Nat) * (m * 2 ^ f) := by
        push_cast
        ring
      rw [hmultiple]
      exact hgrid _
    · -- what is no multiple of the unit lies below the least multiple with so many places
      have hsize : m * 2 ^ e ≤ ((2 ^ s * 2 ^ 52 : Nat) : Int) := by
        obtain ⟨f, rfl⟩ : ∃ f, s = e + 1 + f := ⟨s - e - 1, by omega⟩
        calc m * 2 ^ e ≤ 2 ^ 53 * 2 ^ e :=
              Int.mul_le_mul_of_nonneg_right (by omega) (by positivity)
          _ ≤ 2 ^ 53 * 2 ^ e * 2 ^ f := le_mul_of_one_le_right (by positivity) (by
              exact_mod_cast Nat.one_le_two_pow)
          _ = ((2 ^ (e + 1 + f) * 2 ^ 52 : Nat) : Int) := by
              push_cast
              ring
      have hleast := hgrid (2 ^ 52 : Nat)
      rw [← Nat.cast_mul] at hleast
      rw [mul_comm] at hlow
      generalize 2 ^ s * 2 ^ 52 = least at hsize hleast hlow
      omega

/-- A whole number is rounded to the nearest one of at most 53 binary places. -/
theorem rounded_nearest (i : Int) {r : Int} (hr : IsRepresentable r) :
    (i - rounded i).natAbs ≤ (i - r).natAbs := by
  rw [rounded]
  split_ifs with hi
  · have := roundedNat_nearest i.natAbs hr.neg
    omega
  · have := roundedNat_nearest i.natAbs hr
    omega

lemma rounded_of_isRepresentable {i : Int} (h : IsRepresentable i) : rounded i = i := by
  have := rounded_nearest i h
  omega

/-- Rounding does not reverse the order of two numbers. -/
theorem rounded_le_rounded {i j : Int} (h : i ≤ j) : rounded i ≤ rounded j := by
  by_contra hlt
  have hne : i ≠ j := by
    rintro rfl
    exact hlt le_rfl
  have hi := rounded_nearest i (isRepresentable_rounded j)
  have hj := rounded_nearest j (isRepresentable_rounded i)
  omega

/-- A number that is less than 2 ^ 53 in size stays in order with every other one. -/
lemma rounded_lt_rounded_iff {i j : Int} (h : i.natAbs < 2 ^ 53 ∨ j.natAbs < 2 ^ 53) :
    rounded i < rounded j ↔ i < j := by
  have hfix : ∀ k : Int, k.natAbs ≤ 2 ^ 53 → rounded k = k :=
    fun k hk => rounded_of_isRepresentable (isRepresentable_of_natAbs_le hk)
  -- beyond the bound a number is rounded to the bound at least
  have hbeyond : ∀ k : Int,
      (2 ^ 53 ≤ k → 2 ^ 53 ≤ rounded k) ∧ (k ≤ -2 ^ 53 → rounded k ≤ -2 ^ 53) := by
    intro k
    have hupper := hfix (2 ^ 53) (by decide)
    have hlower := hfix (-2 ^ 53) (by decide)
    exact ⟨fun hk => hupper ▸ rounded_le_rounded hk, fun hk => hlower ▸ rounded_le_rounded hk⟩
  have hi := hfix i
  have hj := hfix j
  have hi' := hbeyond i
  have hj' := hbeyond j
  omega

/-! ### Ranks of whole numbers -/

/-- A significand of 53 places that was rounded up to 54 is the first of the next shift. -/
lemma units_significand {s m : Nat} (hm : m ≤ 2 ^ 53) (h : s = 0 ∨ 2 ^ 52 ≤ m) :
    units (s * 2 ^ 52 + m) = m * 2 ^ s := by
  rcases hm.lt_or_eq with hm | rfl
  · exact units_rank hm h
  · have hnext : s * 2 ^ 52 + 2 ^ 53 = (s + 1) * 2 ^ 52 + 2 ^ 52 := by ring
    rw [hnext, units_rank (by norm_num) (Or.inr le_rfl)]
    ring

lemma log2_mul_two_pow {n : Nat} (h : n ≠ 0) (e : Nat) : (n * 2 ^ e).log2 = n.log2 + e := by
  rw [Nat.log2_eq_iff (Nat.mul_ne_zero h (by positivity)), pow_add, add_right_comm, pow_add]
  exact ⟨Nat.mul_le_mul_right _ (Nat.log2_self_le h),
    Nat.mul_lt_mul_of_pos_right Nat.lt_log2_self (by positivity)⟩

/-- The magnitude nearest to a whole number is the rounded number. -/
theorem units_nearestRank (n : Nat) : units (nearestRank n 1) = roundedNat n * 2 ^ 1074 := by
  -- the power is kept out of sight: nothing depends on it but that it makes room for the places
  obtain ⟨e, he⟩ : ∃ e, e = 1074 := ⟨_, rfl⟩
  have hroom : 52 ≤ e := by omega
  simp only [nearestRank, Nat.div_one, Nat.one_mul, Nat.pow_eq, ← he]
  by_cases hzero : n = 0
  · subst hzero
    rw [zero_mul, roundedNat_of_lt (by decide), zero_mul]
    rfl
  rw [log2_mul_two_pow hzero]
  by_cases hsmall : n < 2 ^ 53
  · rw [roundedNat_of_lt hsmall]
    have hlog : n.log2 < 53 := (Nat.log2_lt hzero).mpr hsmall
    have hlow : 2 ^ n.log2 ≤ n := Nat.log2_self_le hzero
    have hhigh : n < 2 ^ (n.log2 + 1) := Nat.lt_log2_self
    generalize n.log2 = l at *
    obtain ⟨f, hf⟩ : ∃ f, l + f = 52 := ⟨52 - l, by omega⟩
    obtain ⟨k, rfl⟩ : ∃ k, e = f + k := Nat.exists_eq_add_of_le (by omega)
    have hplaces : 2 ^ 52 ≤ n * 2 ^ f ∧ n * 2 ^ f ≤ 2 ^ 53 := by
      have hlow' := Nat.mul_le_mul_right (2 ^ f) hlow
      have hhigh' := Nat.mul_le_mul_right (2 ^ f) hhigh.le
      rw [← pow_add, hf] at hlow'
      rw [← pow_add, add_right_comm, hf] at hhigh'
      exact ⟨hlow', hhigh'⟩
    have hshift : l + (f + k) - 52 = k := by omega
    rw [hshift, pow_add, ← mul_assoc, divideToEven_mul_self _ (by positivity),
      units_significand hplaces.2 (Or.inr hplaces.1)]
  · obtain ⟨s, q, hq, hq', hs, hdiv, hrounded, -⟩ := exists_roundedNat (Nat.le_of_not_lt hsmall)
    have hshift : n.log2 + e - 52 = s + e := by omega
    rw [hshift, pow_add, divideToEven_mul_right _ _ (by positivity), ← hdiv, hrounded,
      units_significand hq' (Or.inr hq)]
    ring

/-! ### Places of whole numbers -/

lemma nearestRank_zero : nearestRank 0 1 = 0 := by
  obtain ⟨e, he⟩ : ∃ e, e = 1074 := ⟨_, rfl⟩
  simp only [nearestRank, ← he, zero_mul]
  rfl

/-- The ranks of whole numbers are in the order of the rounded numbers. -/
lemma nearestRank_le_iff (m n : Nat) :
    nearestRank m 1 ≤ nearestRank n 1 ↔ roundedNat m ≤ roundedNat n := by
  rw [← (strictMono_nat_of_lt_succ units_lt_succ).le_iff_le, units_nearestRank, units_nearestRank]
  exact Nat.mul_le_mul_right_iff (by positivity)

/-- The place of the number nearest to a whole number. -/
def wholePlace (i : Int) : Int :=
  if i < 0 then -nearestRank i.natAbs 1 else nearestRank i.natAbs 1

lemma wholePlace_lt_iff (i j : Int) : wholePlace i < wholePlace j ↔ rounded i < rounded j := by
  have hzero : roundedNat 0 = 0 := roundedNat_of_lt (by decide)
  have hij := nearestRank_le_iff i.natAbs j.natAbs
  have hji := nearestRank_le_iff j.natAbs i.natAbs
  have hi := nearestRank_le_iff i.natAbs 0
  have hj := nearestRank_le_iff j.natAbs 0
  rw [nearestRank_zero, hzero] at hi hj
  simp only [wholePlace, rounded]
  split_ifs <;> omega

/-- A whole number of 64 binary places is finite. -/
lemma nearestRank_lt {num : Nat} (h : num < 2 ^ 64) : nearestRank num 1 < infinityRank := by
  obtain ⟨e, he⟩ : ∃ e, e = 1074 := ⟨_, rfl⟩
  simp only [nearestRank, Nat.div_one, Nat.one_mul, ← he]
  have hx : num * Nat.pow 2 e < 2 ^ (64 + e) := by
    rw [pow_add]
    exact Nat.mul_lt_mul_of_pos_right h (Nat.pow_pos (by decide))
  generalize num * Nat.pow 2 e = x at hx
  have hlog : x.log2 < 64 + e ∨ x = 0 := by
    by_cases hzero : x = 0
    · exact Or.inr hzero
    · exact Or.inl ((Nat.log2_lt hzero).mpr hx)
  have hshift : x.log2 - 52 ≤ 1085 := by
    rcases hlog with hlog | rfl
    · omega
    · exact Nat.zero_le _
  have hsize : x < 2 ^ (x.log2 - 52) * 2 ^ 53 := by
    rw [← pow_add]
    exact lt_of_lt_of_le Nat.lt_log2_self (Nat.pow_le_pow_right (by decide) (by omega))
  generalize x.log2 - 52 = k at hshift hsize
  have hle := divideToEven_le x (2 ^ k)
  have hdiv : x / 2 ^ k < 2 ^ 53 := Nat.div_lt_of_lt_mul hsize
  simp only [infinityRank, Nat.pow_eq]
  omega

lemma isFinite_ofRank {negative : Bool} {rank : Nat} (h : rank < infinityRank) :
    (ofRank negative rank).isFinite := by
  rw [ofRank, isFinite]
  exact decide_eq_true (lt_of_le_of_lt (Nat.min_le_left _ _) h)

lemma isFinite_ofRatio {negative : Bool} {num : Nat} (h : num < 2 ^ 64) :
    (ofRatio negative num 1).isFinite :=
  isFinite_ofRank (nearestRank_lt h)

lemma place_ofRatio {i : Int} (h : i.natAbs < 2 ^ 64) :
    (ofRatio (i < 0) i.natAbs 1).place = some (wholePlace i) := by
  have hmin : min (nearestRank i.natAbs 1) infinityRank = nearestRank i.natAbs 1 :=
    Nat.min_eq_left (nearestRank_lt h).le
  rw [ofRatio, ofRank, wholePlace]
  split_ifs with hi
  · simp only [hi, decide_true, place, hmin]
  · simp only [hi, decide_false, place, hmin]

end Binary64

/-! ### Reading whole numbers -/

namespace Decimal

/-- A row of digits is read as the value nearest to the number that it spells. -/
lemma readUnsigned?_digits {cs : List Char} (hne : cs ≠ []) (hdigits : ∀ c ∈ cs, c.isDigit)
    (h : ofDigits cs < 2 ^ 64) (negative : Bool) :
    readUnsigned? negative cs = some (.ofRatio negative (ofDigits cs) 1) := by
  have hread : read? cs = some ⟨ofDigits cs, 0⟩ := by
    have hpoint : ([] : List Char).head? ≠ some '.' := by simp
    have := read?_whole hne hdigits (rfl : ([] : List Char).head?.any Char.isDigit = false) hpoint
    rw [List.append_nil] at this
    exact this
  obtain ⟨c, cs, rfl⟩ := List.exists_cons_of_ne_nil hne
  rw [readUnsigned?_of_isDigit (hdigits c List.mem_cons_self), hread, Option.map_some, toBinary64]
  generalize ofDigits (c :: cs) = n at h
  have hlength : (toDigits n).length ≤ 20 :=
    (Nat.length_toDigits_le_iff (by decide) (by decide)).mpr (by omega)
  by_cases hzero : n = 0
  · rw [if_pos (by simp [hzero]), hzero, Binary64.ofRatio, Binary64.nearestRank_zero]
  · rw [if_neg (by simp [hzero]), if_neg (by simp only; omega), if_pos (Int.le_refl 0)]
    simp only [Int.toNat_zero, Nat.pow_eq, pow_zero, mul_one]

end Decimal

namespace Integer

/-- The text of an integer is read as the value nearest to it. -/
lemma binary64_text (i : Int64) :
    Binary64.read? (text i).toList = some (.ofRatio (i.toInt < 0) i.toInt.natAbs 1) := by
  have hlow := i.le_toInt
  have hhigh := i.toInt_lt
  generalize hn : i.toInt.natAbs = n
  obtain ⟨c, cs, hcs, hc⟩ := exists_toDigits n
  have hsize : Decimal.ofDigits (Decimal.toDigits n) < 2 ^ 64 := by
    rw [Decimal.ofDigits_toDigits]
    omega
  have hread : Decimal.readUnsigned? (i.toInt < 0) (Decimal.toDigits n) =
      some (.ofRatio (i.toInt < 0) (Decimal.ofDigits (Decimal.toDigits n)) 1) :=
    Decimal.readUnsigned?_digits Nat.toDigits_ne_nil (fun _ => isDigit_toDigits) hsize _
  rw [Decimal.ofDigits_toDigits, Decimal.toDigits, hcs] at hread
  rw [← hread, Decimal.readUnsigned?_of_isDigit hc, ← Decimal.read?_signText hc]
  have hdigits : ∀ j : Int, j.toNat = n → Nat.toDigits 10 j.toNat = c :: cs := fun j hj => hj ▸ hcs
  rw [text, toString_toList]
  by_cases hsign : i.toInt < 0
  · rw [if_neg (by omega), hdigits _ (by omega), decide_eq_true hsign]
    rfl
  · rw [if_pos (by omega), hdigits _ (by omega), decide_eq_false hsign]
    rfl

end Integer
end YamlSieve
