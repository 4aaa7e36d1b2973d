import YamlSieve.Number.Decimal
import Mathlib.Tactic.Linarith
import Mathlib.Tactic.Ring
import Mathlib.Data.Nat.Log

/-!
# Rounding intervals

A decimal that lies between the midpoints to the neighbours of a magnitude is rounded to this
magnitude; the shortest decimal that is searched for does so.
-/

namespace YamlSieve

namespace Binary64

/-! ### Ranks and units -/

lemma shift_rank {s m : Nat} (hm : m < 2 ^ 53) (h : s = 0 ∨ 2 ^ 52 ≤ m) :
    shift (s * 2 ^ 52 + m) = s := by
  simp only [shift, Nat.pow_eq]
  omega

lemma units_rank {s m : Nat} (hm : m < 2 ^ 53) (h : s = 0 ∨ 2 ^ 52 ≤ m) :
    units (s * 2 ^ 52 + m) = m * 2 ^ s := by
  rw [units, shift_rank hm h]
  simp only [Nat.pow_eq]
  rw [Nat.add_sub_cancel_left]

/-- Every rank is a shift and a significand. -/
lemma exists_significand (rank : Nat) :
    ∃ s m, rank = s * 2 ^ 52 + m ∧ m < 2 ^ 53 ∧ (s = 0 ∨ 2 ^ 52 ≤ m) := by
  refine ⟨shift rank, rank - shift rank * 2 ^ 52, ?_⟩
  simp only [shift, Nat.pow_eq]
  omega

/-- Two neighbouring magnitudes are one unit of their shift apart. -/
lemma units_succ (rank : Nat) : units (rank + 1) = units rank + 2 ^ shift rank := by
  obtain ⟨s, m, rfl, hm, h⟩ := exists_significand rank
  rw [shift_rank hm h, units_rank hm h]
  by_cases hlast : m + 1 < 2 ^ 53
  · rw [add_assoc, units_rank hlast (by omega)]
    ring
  · have hm' : m = 2 ^ 53 - 1 := by omega
    have hnext : s * 2 ^ 52 + m + 1 = (s + 1) * 2 ^ 52 + 2 ^ 52 := by omega
    rw [hnext, units_rank (by norm_num) (Or.inr le_rfl), hm', pow_succ]
    ring

lemma units_lt_succ (rank : Nat) : units rank < units (rank + 1) := by
  rw [units_succ]
  exact Nat.lt_add_of_pos_right (by positivity)

/-! ### Rounding -/

/-- The remainder of a division says which way the quotient is rounded. -/
lemma divideToEven_mul_add {den d r : Nat} (hr : r < den) :
    divideToEven (den * d + r) den =
      if 2 * r < den then d else if 2 * r = den then d + d % 2 else d + 1 := by
  have hden : 0 < den := by omega
  have hdiv : (den * d + r) / den = d := by
    rw [Nat.mul_add_div hden, Nat.div_eq_of_lt hr, add_zero]
  have hmod : (den * d + r) % den = r := by
    rw [Nat.mul_add_mod, Nat.mod_eq_of_lt hr]
  simp only [divideToEven, hdiv, hmod, compareOfLessAndEq]
  split_ifs <;> rfl

/-- The quotient is rounded to a number that it is at most one half away from. -/
lemma divideToEven_eq {num den q : Nat} (hden : 0 < den)
    (low : 2 * (den * q) ≤ 2 * num + den) (high : 2 * num ≤ 2 * (den * q) + den)
    (odd : q % 2 = 1 → 2 * (den * q) ≠ 2 * num + den ∧ 2 * num ≠ 2 * (den * q) + den) :
    divideToEven num den = q := by
  obtain ⟨d, r, rfl, hr⟩ : ∃ d r, num = den * d + r ∧ r < den :=
    ⟨num / den, num % den, (Nat.div_add_mod num den).symm, Nat.mod_lt _ hden⟩
  have hdq : d ≤ q := by
    by_contra hn
    have : den * (q + 1) ≤ den * d := Nat.mul_le_mul_left _ (by omega)
    rw [mul_add, mul_one] at this
    omega
  have hqd : q ≤ d + 1 := by
    by_contra hn
    have : den * (d + 2) ≤ den * q := Nat.mul_le_mul_left _ (by omega)
    rw [mul_add] at this
    omega
  rw [divideToEven_mul_add hr]
  obtain rfl | rfl : q = d ∨ q = d + 1 := by omega
  · split_ifs <;> omega
  · simp only [mul_add, mul_one] at low high odd
    split_ifs <;> omega

/-- A quotient between two powers of two fixes the shift. -/
lemma log2_div_sub {num den s : Nat} (hden : 0 < den) (low : s = 0 ∨ den * 2 ^ (s + 52) ≤ num)
    (high : num < den * 2 ^ (s + 53)) : Nat.log2 (num / den) - 52 = s := by
  have hlt : num / den < 2 ^ (s + 53) := Nat.div_lt_of_lt_mul high
  have hlog : num / den ≠ 0 → (num / den).log2 < s + 53 := fun h => (Nat.log2_lt h).mpr hlt
  obtain rfl | low := low
  · by_cases h : num / den = 0
    · simp [h]
    · have := hlog h
      omega
  · have hle : 2 ^ (s + 52) ≤ num / den := by
      rw [Nat.le_div_iff_mul_le hden, mul_comm]
      exact low
    have h : num / den ≠ 0 := (lt_of_lt_of_le (by positivity) hle).ne'
    have := hlog h
    have := (Nat.le_log2 h).mpr hle
    omega

/-- Rounding to a magnitude whose lower neighbour has the same shift. -/
lemma round_inside {x den s m : Nat} (hden : 0 < den) (hm : m < 2 ^ 53) (hs : s = 0 ∨ 2 ^ 52 < m)
    (low : 2 * (den * 2 ^ s * m) ≤ 2 * x + den * 2 ^ s)
    (high : 2 * x ≤ 2 * (den * 2 ^ s * m) + den * 2 ^ s)
    (odd : m % 2 = 1 → 2 * (den * 2 ^ s * m) ≠ 2 * x + den * 2 ^ s ∧
      2 * x ≠ 2 * (den * 2 ^ s * m) + den * 2 ^ s) :
    Nat.log2 (x / den) - 52 = s ∧ divideToEven x (den * 2 ^ s) = m := by
  have hD : 0 < den * 2 ^ s := by positivity
  refine ⟨log2_div_sub hden ?_ ?_, divideToEven_eq hD low high odd⟩
  · refine hs.imp_right fun hlt => ?_
    have : den * 2 ^ s * (2 ^ 52 + 1) ≤ den * 2 ^ s * m := Nat.mul_le_mul_left _ (by omega)
    rw [pow_add, ← mul_assoc]
    linarith
  · have : den * 2 ^ s * m ≤ den * 2 ^ s * (2 ^ 53 - 1) := Nat.mul_le_mul_left _ (by omega)
    rw [pow_add, ← mul_assoc]
    omega

/-- Rounding to the least magnitude of a shift, which is the end of the shift before. -/
lemma round_at_power {x den t : Nat} (hden : 0 < den)
    (low : (2 ^ 54 - 1) * (den * 2 ^ t) ≤ 2 * x) (high : 2 * x ≤ (2 ^ 54 + 2) * (den * 2 ^ t)) :
    let k := Nat.log2 (x / den) - 52
    k * 2 ^ 52 + divideToEven x (den * 2 ^ k) = (t + 1) * 2 ^ 52 + 2 ^ 52 := by
  have hD : 0 < den * 2 ^ t := by positivity
  by_cases hx : x < den * 2 ^ t * 2 ^ 53
  · -- the quotient is rounded up to the end of the shift before
    have hk : Nat.log2 (x / den) - 52 = t := by
      refine log2_div_sub hden (Or.inr ?_) ?_ <;> rw [pow_add, ← mul_assoc] <;> omega
    have hround : divideToEven x (den * 2 ^ t) = 2 ^ 53 :=
      divideToEven_eq hD (by omega) (by omega) (by omega)
    simp only [hk, hround]
    omega
  · have hk : Nat.log2 (x / den) - 52 = t + 1 := by
      refine log2_div_sub hden (Or.inr ?_) ?_ <;>
        rw [pow_add, pow_succ, ← mul_assoc, ← mul_assoc] <;> omega
    have hround : divideToEven x (den * 2 ^ (t + 1)) = 2 ^ 52 := by
      rw [pow_succ, ← mul_assoc]
      exact divideToEven_eq (by omega) (by omega) (by omega) (by omega)
    simp only [hk, hround]

/--
The rank of a quotient is that of a magnitude whose rounding interval it lies in: between the
midpoints to the neighbours, which belong to the interval of an even rank.
-/
theorem nearestRank_eq {num den rank x : Nat} (hden : 0 < den) (hrank : 0 < rank)
    (hx : num * Nat.pow 2 1074 = x)
    (low : (units (rank - 1) + units rank) * den ≤ 2 * x)
    (high : 2 * x ≤ (units rank + units (rank + 1)) * den)
    (odd : rank % 2 = 1 → (units (rank - 1) + units rank) * den ≠ 2 * x ∧
      2 * x ≠ (units rank + units (rank + 1)) * den) :
    nearestRank num den = rank := by
  rw [nearestRank, hx]
  simp only [Nat.pow_eq]
  obtain ⟨s, m, rfl, hm, hs⟩ := exists_significand rank
  rw [units_succ, shift_rank hm hs, units_rank hm hs] at high odd
  rw [units_rank hm hs] at low
  -- above the least significand of a binade both gaps are `2 ^ s`; at it the lower one is half
  by_cases hin : s = 0 ∨ 2 ^ 52 < m
  · have hpred : s * 2 ^ 52 + m - 1 = s * 2 ^ 52 + (m - 1) := by omega
    rw [hpred, units_rank (by omega) (by omega)] at low odd
    have hm1 : (m - 1) * 2 ^ s = m * 2 ^ s - 2 ^ s := by rw [Nat.sub_mul, one_mul]
    have hle : 2 ^ s ≤ m * 2 ^ s := Nat.le_mul_of_pos_left _ (by omega)
    have hlow : (m * 2 ^ s - 2 ^ s + m * 2 ^ s) * den + den * 2 ^ s = 2 * (den * 2 ^ s * m) := by
      have : m * 2 ^ s - 2 ^ s + m * 2 ^ s + 2 ^ s = 2 * (m * 2 ^ s) := by omega
      rw [mul_comm den, ← add_mul, this]
      ring
    have hhigh : (m * 2 ^ s + (m * 2 ^ s + 2 ^ s)) * den =
        2 * (den * 2 ^ s * m) + den * 2 ^ s := by ring
    rw [hm1] at low odd
    obtain ⟨hk, hround⟩ := round_inside (x := x) hden hm hin (by omega) (by omega) fun h => by
      have := odd (by omega)
      omega
    rw [hk, hround]
  · obtain ⟨t, rfl⟩ : ∃ t, s = t + 1 := ⟨s - 1, by omega⟩
    obtain rfl : m = 2 ^ 52 := by omega
    have hpred : (t + 1) * 2 ^ 52 + 2 ^ 52 - 1 = t * 2 ^ 52 + (2 ^ 53 - 1) := by omega
    rw [hpred, units_rank (by omega) (by omega)] at low
    refine round_at_power hden (le_trans (le_of_eq ?_) low) (le_trans high (le_of_eq ?_)) <;>
      rw [pow_succ] <;> ring

/-- Magnitudes have the order of their ranks. -/
lemma units_le_units {i j : Nat} (h : i ≤ j) : units i ≤ units j :=
  monotone_nat_of_le_succ (fun rank => (units_lt_succ rank).le) h

end Binary64

namespace Decimal

open Binary64 (units)

/-! ### Rounding intervals of decimals -/

/-- The whole number `x` stands for the value of a decimal, in units of 10 ^ -1075. -/
def Denotes (d : Decimal) (x : Nat) : Prop :=
  ∃ e : Nat, d.exponent = e - 1075 ∧ d.digits * 10 ^ e = x

/-- A number of units of 10 ^ -1075 reads back as the magnitude with the given rank. -/
structure ReadsAs (rank x : Nat) : Prop where
  low  : (units (rank - 1) + units rank) * Nat.pow 5 1075 ≤ x
  high : x ≤ (units rank + units (rank + 1)) * Nat.pow 5 1075
  odd  : rank % 2 = 1 → (units (rank - 1) + units rank) * Nat.pow 5 1075 ≠ x ∧
    x ≠ (units rank + units (rank + 1)) * Nat.pow 5 1075

lemma nearestRank_of_readsAs {num den rank x : Nat} (h : ReadsAs rank x) (hrank : 0 < rank)
    (hden : 0 < den) (hx : x * den = num * Nat.pow 10 1075) :
    Binary64.nearestRank num den = rank := by
  have hpow : Nat.pow 10 1075 = 2 * Nat.pow 2 1074 * Nat.pow 5 1075 := by decide +kernel
  have hfive : 0 < Nat.pow 5 1075 := by decide +kernel
  obtain ⟨low, high, odd⟩ := h
  -- the power is kept out of sight: it is only cancelled
  generalize Nat.pow 5 1075 = five at *
  rw [hpow] at hx
  have hx' : x * den = 2 * (num * Nat.pow 2 1074) * five := by rw [hx]; ring
  have key (a : Nat) : a * five * den = a * den * five := by ring
  refine Binary64.nearestRank_eq hden hrank rfl ?_ ?_ fun hodd => ?_
  · refine Nat.le_of_mul_le_mul_right ?_ hfive
    rw [← hx', ← key]
    exact Nat.mul_le_mul_right den low
  · refine Nat.le_of_mul_le_mul_right ?_ hfive
    rw [← hx', ← key]
    exact Nat.mul_le_mul_right den high
  · obtain ⟨hlow, hhigh⟩ := odd hodd
    constructor
    · intro heq
      refine hlow (Nat.eq_of_mul_eq_mul_right hden ?_)
      rw [key, heq, hx']
    · intro heq
      refine hhigh (Nat.eq_of_mul_eq_mul_right hden ?_)
      rw [key, ← heq, hx']

/-- A number of `n` digits lies between two powers of ten. -/
lemma toDigits_bounds {n : Nat} (h : 0 < n) :
    10 ^ ((toDigits n).length - 1) ≤ n ∧ n < 10 ^ (toDigits n).length := by
  have hlength : 0 < (toDigits n).length := Nat.length_toDigits_pos
  refine ⟨?_, (Nat.length_toDigits_le_iff (by decide) hlength).mp le_rfl⟩
  by_cases hone : (toDigits n).length - 1 = 0
  · rw [hone]
    exact h
  · by_contra hlt
    have hshort := (Nat.length_toDigits_le_iff (b := 10) (by decide) (Nat.pos_of_ne_zero hone)).mpr
      (Nat.lt_of_not_le hlt)
    unfold toDigits at hshort hlength
    omega

/-- A magnitude that is neither zero nor infinite, in units of 10 ^ -1075. -/
lemma bounds_of_readsAs {rank x : Nat} (h : ReadsAs rank x) (hrank : 0 < rank)
    (hfinite : rank < Binary64.infinityRank) : 10 ^ 750 ≤ x ∧ x < 10 ^ 1385 := by
  constructor
  · have hfive : 10 ^ 750 ≤ Nat.pow 5 1075 := by decide +kernel
    have hpos : 0 < units (rank - 1) + units rank := by
      have := Binary64.units_lt_succ (rank - 1)
      rw [Nat.sub_add_cancel hrank] at this
      omega
    exact le_trans (le_trans hfive (Nat.le_mul_of_pos_left _ hpos)) h.low
  · have hbound : 2 * units Binary64.infinityRank * Nat.pow 5 1075 < 10 ^ 1385 := by
      decide +kernel
    have h1 := Binary64.units_le_units hfinite.le
    have h2 : units (rank + 1) ≤ units Binary64.infinityRank :=
      Binary64.units_le_units (Nat.succ_le_of_lt hfinite)
    exact lt_of_le_of_lt (le_trans h.high (Nat.mul_le_mul_right _ (by omega))) hbound

/-- The first digit of a finite magnitude is never so far from the point that it is cut off. -/
lemma size_of_readsAs {d : Decimal} {rank x : Nat} (hd : d.Denotes x) (hx : ReadsAs rank x)
    (hrank : 0 < rank) (hfinite : rank < Binary64.infinityRank) :
    0 < d.digits ∧ -330 ≤ (toDigits d.digits).length + d.exponent ∧
      (toDigits d.digits).length + d.exponent ≤ 311 := by
  obtain ⟨e, he, rfl⟩ := hd
  obtain ⟨hlow, hhigh⟩ := bounds_of_readsAs hx hrank hfinite
  have hdigits : 0 < d.digits := by
    refine Nat.pos_of_ne_zero fun h => ?_
    rw [h, zero_mul] at hlow
    exact absurd (lt_of_lt_of_le (Nat.pow_pos (by decide)) hlow) (lt_irrefl 0)
  have hlength : 0 < (toDigits d.digits).length := Nat.length_toDigits_pos
  obtain ⟨hlong, hshort⟩ := toDigits_bounds hdigits
  generalize (toDigits d.digits).length = len at *
  have h1 : 750 < len + e := by
    refine (pow_lt_pow_iff_right₀ (a := 10) (by decide)).mp (lt_of_le_of_lt hlow ?_)
    rw [pow_add]
    exact Nat.mul_lt_mul_of_pos_right hshort (by positivity)
  have h2 : len - 1 + e < 1385 := by
    refine (pow_lt_pow_iff_right₀ (a := 10) (by decide)).mp (lt_of_le_of_lt ?_ hhigh)
    rw [pow_add]
    exact Nat.mul_le_mul_right _ hlong
  omega

/-- A decimal in the rounding interval of a magnitude reads back as it. -/
theorem toBinary64_eq {d : Decimal} {rank x : Nat} (hd : d.Denotes x) (hx : ReadsAs rank x)
    (hrank : 0 < rank) (hfinite : rank < Binary64.infinityRank) (negative : Bool) :
    toBinary64 negative d = .ofRank negative rank := by
  obtain ⟨hdigits, hlow, hhigh⟩ := size_of_readsAs hd hx hrank hfinite
  obtain ⟨e, he, rfl⟩ := hd
  rw [toBinary64, if_neg (by simp; omega), if_neg (by omega)]
  split
  · rename_i hexp
    obtain ⟨n, hn⟩ : ∃ n, n = 1075 := ⟨_, rfl⟩
    obtain ⟨f, rfl⟩ : ∃ f, e = f + n := ⟨e - 1075, by omega⟩
    have hf : d.exponent.toNat = f := by omega
    rw [Binary64.ofRatio, hf, nearestRank_of_readsAs hx hrank Nat.one_pos]
    rw [← hn, mul_one, pow_add, ← mul_assoc, Nat.pow_eq, Nat.pow_eq]
  · rename_i hexp
    obtain ⟨f, hf⟩ : ∃ f : Nat, e + f = 1075 := ⟨1075 - e, by omega⟩
    have hf' : (-d.exponent).toNat = f := by omega
    have hden : 0 < Nat.pow 10 f := Nat.pow_pos (by decide)
    rw [Binary64.ofRatio, hf', nearestRank_of_readsAs hx hrank hden]
    rw [← hf, mul_assoc, Nat.pow_eq, Nat.pow_eq, ← pow_add]

/-! ### The shortest decimal -/

lemma nearer_eq (tie : Tie) (value step d : Nat) :
    nearer tie value step d = d ∨ nearer tie value step d = d + 1 := by
  unfold nearer
  split <;> omega

lemma shortestFrom_denotes (tie : Tie) {value : Nat} {reads : Nat → Bool} (size n fuel : Nat)
    (h : reads value) :
    ∃ x, (shortestFrom tie value reads size n fuel).Denotes x ∧ reads x := by
  induction fuel generalizing n with
  | zero => exact ⟨value, ⟨0, by simp [shortestFrom]⟩, h⟩
  | succ fuel ih =>
    simp only [shortestFrom, Nat.pow_eq]
    split
    · rename_i hdown hup
      obtain heq | heq := nearer_eq tie value (10 ^ (size - n)) (value / 10 ^ (size - n))
      · exact ⟨_, ⟨_, rfl, by rw [heq]⟩, hdown⟩
      · exact ⟨_, ⟨_, rfl, by rw [heq]⟩, hup⟩
    · rename_i hdown hup
      exact ⟨_, ⟨_, rfl, rfl⟩, hdown⟩
    · rename_i hdown hup
      exact ⟨_, ⟨_, rfl, rfl⟩, hup⟩
    · exact ih (n + 1)

lemma stripZeros_denotes {d : Decimal} {x : Nat} (fuel : Nat) (h : d.Denotes x) :
    (stripZeros d fuel).Denotes x := by
  induction fuel generalizing d with
  | zero => exact h
  | succ fuel ih =>
    rw [stripZeros]
    split
    · rename_i hzero
      simp only [ne_eq, decide_not, Bool.and_eq_true, decide_eq_true_eq] at hzero
      obtain ⟨e, he, hx⟩ := h
      refine ih ⟨e + 1, by simp only [he]; push_cast; ring, ?_⟩
      rw [← hx, pow_succ, mul_comm (10 ^ e), ← mul_assoc]
      congr 1
      simp only
      omega
    · exact h

/-- The test of `shortest` for the rounding interval of a magnitude. -/
def readsBack (rank x : Nat) : Bool :=
  let low := (units (rank - 1) + units rank) * Nat.pow 5 1075
  let high := (units rank + units (rank + 1)) * Nat.pow 5 1075
  (low < x && x < high) || (rank % 2 = 0 && (x = low || x = high))

/-- The shortest decimal of a magnitude lies in its rounding interval. -/
theorem shortest_denotes (tie : Tie) {rank : Nat} (hrank : 0 < rank) :
    ∃ x, (shortest tie rank).Denotes x ∧ ReadsAs rank x := by
  have hpred := Binary64.units_lt_succ (rank - 1)
  rw [Nat.sub_add_cancel hrank] at hpred
  have hsucc := Binary64.units_lt_succ rank
  have hfive : 0 < Nat.pow 5 1075 := by decide +kernel
  have hlow : (units (rank - 1) + units rank) * Nat.pow 5 1075 <
      2 * units rank * Nat.pow 5 1075 := Nat.mul_lt_mul_of_pos_right (by omega) hfive
  have hhigh : 2 * units rank * Nat.pow 5 1075 <
      (units rank + units (rank + 1)) * Nat.pow 5 1075 :=
    Nat.mul_lt_mul_of_pos_right (by omega) hfive
  -- the magnitude itself is in its interval, so some number of digits is found
  have hreads : readsBack rank (2 * units rank * Nat.pow 5 1075) := by
    rw [readsBack, Bool.or_eq_true, Bool.and_eq_true]
    exact Or.inl ⟨decide_eq_true hlow, decide_eq_true hhigh⟩
  rw [shortest, if_neg hrank.ne']
  obtain ⟨x, hd, hx⟩ := shortestFrom_denotes tie
    (toDigits (2 * units rank * Nat.pow 5 1075)).length 1 17 hreads
  refine ⟨x, stripZeros_denotes 20 hd, ?_⟩
  rw [readsBack, Bool.or_eq_true, Bool.and_eq_true, Bool.and_eq_true, Bool.or_eq_true] at hx
  simp only [decide_eq_true_eq] at hx
  constructor <;> omega

end Decimal
end YamlSieve
