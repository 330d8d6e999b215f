import ActionGraph.Number.Literal
import Mathlib.Order.Monotone.Basic
import Mathlib.Tactic.Linarith
import Mathlib.Tactic.Ring
-- Which value of the format an integer becomes, and that comparing two values of the format compares
-- the numbers they stand for.
namespace ActionGraph.Binary64

-- Every finite value is a whole number of the least positive one, 2 ^ -1074.
def grid (magnitude : Nat) : Nat :=
  let fraction := magnitude % 2 ^ fractionBits
  let exponent := magnitude / 2 ^ fractionBits
  if exponent = 0 then fraction else (fraction + 2 ^ fractionBits) * 2 ^ (exponent - 1)

def units (x : Binary64) : Int :=
  if x.isNegative then -(grid x.magnitude : Int) else grid x.magnitude

theorem grid_decodes (x : Binary64) :
    grid x.magnitude = x.significand * 2 ^ (x.exponent + 1074).toNat := by
  have moves : (x.exponent + 1074).toNat = x.magnitude / 2 ^ fractionBits - 1 := by
    rw [exponent, Nat.pow_eq]
    omega
  rw [grid, significand, moves, Nat.pow_eq]
  by_cases least : x.magnitude / 2 ^ fractionBits = 0
  · rw [if_pos least, if_pos least, least]
    exact (Nat.mul_one (x.magnitude % 2 ^ fractionBits)).symm
  · rw [if_neg least, if_neg least]

theorem grid_low (inside : f < 2 ^ fractionBits) : grid f = f := by
  rw [grid, Nat.div_eq_of_lt inside, Nat.mod_eq_of_lt inside, if_pos rfl]

theorem grid_high (e : Nat) (inside : f < 2 ^ fractionBits) :
    grid ((e + 1) * 2 ^ fractionBits + f) = (f + 2 ^ fractionBits) * 2 ^ e := by
  have wide := Nat.two_pow_pos fractionBits
  have fraction : ((e + 1) * 2 ^ fractionBits + f) % 2 ^ fractionBits = f := by
    rw [Nat.mul_add_mod_self_right, Nat.mod_eq_of_lt inside]
  have exponent : ((e + 1) * 2 ^ fractionBits + f) / 2 ^ fractionBits = e + 1 := by
    rw [Nat.add_comm, Nat.add_mul_div_right _ _ wide, Nat.div_eq_of_lt inside, Nat.zero_add]
  rw [grid, fraction, exponent, if_neg (Nat.succ_ne_zero e), Nat.add_sub_cancel]

theorem grid_carried (e : Nat) (low : 2 ^ fractionBits ≤ m) (high : m ≤ 2 * 2 ^ fractionBits) :
    grid (e * 2 ^ fractionBits + m) = m * 2 ^ e := by
  by_cases carried : m = 2 * 2 ^ fractionBits
  · have shape : e * 2 ^ fractionBits + m = (e + 2) * 2 ^ fractionBits + 0 := by
      rw [carried]
      ring
    rw [shape, grid_high (e + 1) (Nat.two_pow_pos fractionBits), Nat.pow_succ, carried]
    ring
  · obtain ⟨f, rfl⟩ := Nat.exists_eq_add_of_le low
    have inside : f < 2 ^ fractionBits := by omega
    have shape : e * 2 ^ fractionBits + (2 ^ fractionBits + f) =
        (e + 1) * 2 ^ fractionBits + f := by ring
    rw [shape, grid_high e inside, Nat.add_comm]

theorem grid_succ (g : Nat) : grid g < grid (g + 1) := by
  have inside := Nat.mod_lt g (Nat.two_pow_pos fractionBits)
  have parts := Nat.div_add_mod' g (2 ^ fractionBits)
  generalize g / 2 ^ fractionBits = e at parts
  generalize g % 2 ^ fractionBits = f at parts inside
  subst parts
  cases e with
  | zero =>
    simp only [Nat.zero_mul, Nat.zero_add]
    by_cases more : f + 1 < 2 ^ fractionBits
    · rw [grid_low inside, grid_low more]
      exact Nat.lt_succ_self f
    · have full : f + 1 = (0 + 1) * 2 ^ fractionBits + 0 := by omega
      rw [full, grid_low inside, grid_high 0 (Nat.two_pow_pos fractionBits)]
      exact Nat.lt_of_lt_of_le inside (Nat.le_of_eq (by rw [Nat.zero_add]; exact (Nat.mul_one _).symm))
  | succ e =>
    have low : 2 ^ fractionBits ≤ 2 ^ fractionBits + f := Nat.le_add_right ..
    have shape : (e + 1) * 2 ^ fractionBits + f = e * 2 ^ fractionBits + (2 ^ fractionBits + f) := by
      ring
    rw [shape, Nat.add_assoc, grid_carried e low (by omega), grid_carried e (by omega) (by omega)]
    exact Nat.mul_lt_mul_of_pos_right (Nat.lt_succ_self _) (Nat.two_pow_pos e)

theorem grid_ascends : StrictMono grid := strictMono_nat_of_lt_succ grid_succ

theorem compare_alike {a b c d : Int} (below : a < b ↔ c < d) (above : b < a ↔ d < c) :
    compare a b = compare c d := by
  have level : a = b ↔ c = d := by omega
  simp only [compare, compareOfLessAndEq, below, level]

theorem signed_lt_iff (x y : Binary64) :
    (if x.isNegative then -(x.magnitude : Int) else x.magnitude) <
      (if y.isNegative then -(y.magnitude : Int) else y.magnitude) ↔ x.units < y.units := by
  have zero : grid 0 = 0 := grid_low (Nat.two_pow_pos fractionBits)
  have above := grid_ascends.lt_iff_lt (a := x.magnitude) (b := y.magnitude)
  have below := grid_ascends.lt_iff_lt (a := y.magnitude) (b := x.magnitude)
  have left := grid_ascends.lt_iff_lt (a := 0) (b := x.magnitude)
  have right := grid_ascends.lt_iff_lt (a := 0) (b := y.magnitude)
  rw [zero] at left right
  rw [units, units]
  cases x.isNegative <;> cases y.isNegative <;> simp only [if_true, if_false, Bool.false_eq_true] <;>
    omega

theorem compare?_units {x y : Binary64} (left : x.isNaN = false) (right : y.isNaN = false) :
    compare? x y = some (compare x.units y.units) := by
  simp only [compare?, rank?, left, right, Bool.false_eq_true, if_false]
  exact congrArg some (compare_alike (signed_lt_iff x y) (signed_lt_iff y x))

theorem ofMagnitude_bits (negative : Bool) (small : m < signWeight) :
    (ofMagnitude negative m).bits.toNat = m + if negative then signWeight else 0 := by
  have top : signWeight + signWeight = UInt64.size := by decide
  rw [ofMagnitude, UInt64.toNat_ofNat']
  apply Nat.mod_eq_of_lt
  change _ < UInt64.size
  split <;> omega

theorem ofMagnitude_magnitude (negative : Bool) (small : m < signWeight) :
    (ofMagnitude negative m).magnitude = m := by
  rw [magnitude, ofMagnitude_bits negative small]
  cases negative with
  | false => exact Nat.mod_eq_of_lt small
  | true => rw [if_pos rfl, Nat.add_mod_right, Nat.mod_eq_of_lt small]

theorem ofMagnitude_isNegative (negative : Bool) (small : m < signWeight) :
    (ofMagnitude negative m).isNegative = negative := by
  rw [isNegative, ofMagnitude_bits negative small]
  cases negative with
  | false => exact decide_eq_false (by simpa using small)
  | true => exact decide_eq_true (by simp)

theorem infiniteMagnitude_small : infiniteMagnitude < signWeight := by decide

theorem ofMagnitude_isNaN (negative : Bool) (bounded : m ≤ infiniteMagnitude) :
    (ofMagnitude negative m).isNaN = false := by
  rw [isNaN, ofMagnitude_magnitude negative (Nat.lt_of_le_of_lt bounded infiniteMagnitude_small)]
  exact decide_eq_false (Nat.not_lt.mpr bounded)

theorem infinity_isNaN (negative : Bool) : (infinity negative).isNaN = false :=
  ofMagnitude_isNaN negative (Nat.le_refl _)

theorem nan_isNaN (negative : Bool) : (nan negative).isNaN = true := by
  cases negative <;> decide

theorem nearest_isNaN (negative : Bool) (num den : Nat) : (nearest negative num den).isNaN = false := by
  rw [nearest]
  split
  · exact ofMagnitude_isNaN negative (Nat.zero_le _)
  · exact ofMagnitude_isNaN negative (Nat.min_le_right _ _)

theorem ofInt_isNaN (n : Int) : (ofInt n).isNaN = false := nearest_isNaN ..

theorem ofDecimal_isNaN (negative : Bool) (digits : Nat) (exponent : Int) :
    (ofDecimal negative digits exponent).isNaN = false := by
  rw [ofDecimal]
  split
  · exact ofMagnitude_isNaN negative (Nat.zero_le _)
  split
  · exact infinity_isNaN negative
  split <;> exact nearest_isNaN ..

theorem roundDiv_cases (num den : Nat) :
    roundDiv num den = num / den ∨ roundDiv num den = num / den + 1 := by
  rw [roundDiv]
  split
  · exact .inr rfl
  · exact .inl rfl

theorem roundDiv_half (num : Nat) (pos : 0 < den) :
    2 * num ≤ 2 * (roundDiv num den * den) + den ∧ 2 * (roundDiv num den * den) ≤ 2 * num + den ∧
      ((2 * num = 2 * (roundDiv num den * den) + den ∨ 2 * (roundDiv num den * den) = 2 * num + den) →
        roundDiv num den % 2 = 0) := by
  have parts := Nat.div_add_mod' num den
  have inside := Nat.mod_lt num pos
  rw [roundDiv]
  generalize num / den = q at *
  generalize num % den = r at *
  split
  · have next := Nat.add_one_mul q den
    omega
  · omega

theorem le_roundDiv (pos : 0 < den) (low : m * den ≤ num) : m ≤ roundDiv num den := by
  have quotient := (Nat.le_div_iff_mul_le pos).mpr low
  have cases := roundDiv_cases num den
  omega

theorem roundDiv_le (pos : 0 < den) (high : num < m * den) : roundDiv num den ≤ m := by
  have quotient := (Nat.div_lt_iff_lt_mul pos).mpr high
  have cases := roundDiv_cases num den
  omega

theorem roundDiv_one (num : Nat) : roundDiv num 1 = num := by
  have half := roundDiv_half num Nat.one_pos
  omega

def spacing (n : Int) : Nat := 2 ^ (n.natAbs.log2 - fractionBits)

-- The format has an integer if nothing but zeros follows its first fifty-three bits.
def Fits (n : Int) : Prop := (spacing n : Int) ∣ n

-- To the nearest integer that the format has, and of two such to the one that ends in an even bit.
structure Rounds (n m : Int) : Prop where
  fits : Fits m
  nearest : ∀ k, Fits k → (n - m).natAbs ≤ (n - k).natAbs
  even : ∀ k, Fits k → k ≠ m → (n - k).natAbs = (n - m).natAbs → (2 * spacing m : Int) ∣ m

def roundNat (n : Nat) : Nat :=
  let step := 2 ^ (n.log2 - fractionBits)
  roundDiv n step * step

def rounded (n : Int) : Int := if n < 0 then -(roundNat n.natAbs : Int) else roundNat n.natAbs

theorem roundNat_exact (small : n.log2 ≤ fractionBits) : roundNat n = n := by
  have one : 2 ^ (n.log2 - fractionBits) = 1 := by
    rw [Nat.sub_eq_zero_of_le small]
    rfl
  simp only [roundNat, one, roundDiv_one, Nat.mul_one]

theorem roundNat_range (large : fractionBits ≤ n.log2) :
    2 ^ fractionBits ≤ roundDiv n (2 ^ (n.log2 - fractionBits)) ∧
      roundDiv n (2 ^ (n.log2 - fractionBits)) ≤ 2 * 2 ^ fractionBits := by
  have pos : n ≠ 0 := by
    rintro rfl
    exact absurd large (by decide)
  have split : n.log2 = fractionBits + (n.log2 - fractionBits) := by omega
  constructor
  · apply le_roundDiv (Nat.two_pow_pos _)
    rw [← Nat.pow_add, ← split]
    exact Nat.log2_self_le pos
  · apply roundDiv_le (Nat.two_pow_pos _)
    rw [Nat.mul_assoc, ← Nat.pow_add, ← split, ← Nat.pow_succ']
    exact Nat.lt_log2_self

theorem fitExponent_natural (pos : n ≠ 0) : fitExponent n 1 = n.log2 - 52 := by
  have guess : max ((n.log2 : Int) - (Nat.log2 1 : Nat) - 53) (-1074) = n.log2 - 53 := by
    rw [show Nat.log2 1 = 0 by decide]
    omega
  have low := Nat.log2_self_le pos
  have full : 2 ^ 53 ≤ (scaled n 1 (n.log2 - 53)).1 / (scaled n 1 (n.log2 - 53)).2 := by
    simp only [scaled, Nat.pow_eq]
    split
    · have split : n.log2 = 53 + (n.log2 - 53 : Int).toNat := by omega
      rw [Nat.one_mul, Nat.le_div_iff_mul_le (Nat.two_pow_pos _), ← Nat.pow_add, ← split]
      exact low
    · have split : 53 = n.log2 + (-(n.log2 - 53 : Int)).toNat := by omega
      rw [Nat.div_one]
      calc 2 ^ 53 = 2 ^ n.log2 * 2 ^ (-(n.log2 - 53 : Int)).toNat := by rw [← Nat.pow_add, ← split]
        _ ≤ n * 2 ^ (-(n.log2 - 53 : Int)).toNat := Nat.mul_le_mul_right _ low
  simp only [fitExponent, guess, Nat.pow_eq, if_pos full]
  omega

theorem scaled_large (large : fractionBits ≤ n.log2) :
    scaled n 1 (n.log2 - 52) = (n, 2 ^ (n.log2 - fractionBits)) := by
  have places : (n.log2 - 52 : Int).toNat = n.log2 - fractionBits := by
    rw [fractionBits] at *
    omega
  rw [scaled, if_pos (by rw [fractionBits] at large; omega), places, Nat.one_mul, Nat.pow_eq]

theorem scaled_small (less : n.log2 < fractionBits) :
    scaled n 1 (n.log2 - 52) = (n * 2 ^ (fractionBits - n.log2), 1) := by
  have places : (-(n.log2 - 52 : Int)).toNat = fractionBits - n.log2 := by
    rw [fractionBits] at *
    omega
  rw [scaled, if_neg (by rw [fractionBits] at less; omega), places, Nat.pow_eq]

def significandOf (n : Nat) : Nat :=
  roundDiv (scaled n 1 (n.log2 - 52)).1 (scaled n 1 (n.log2 - 52)).2

theorem significandOf_parts (pos : n ≠ 0) :
    2 ^ fractionBits ≤ significandOf n ∧ significandOf n ≤ 2 * 2 ^ fractionBits ∧
      significandOf n * 2 ^ n.log2 = roundNat n * 2 ^ fractionBits := by
  by_cases large : fractionBits ≤ n.log2
  · have split : n.log2 = (n.log2 - fractionBits) + fractionBits := by omega
    rw [significandOf, scaled_large large]
    refine ⟨(roundNat_range large).1, (roundNat_range large).2, ?_⟩
    calc roundDiv n (2 ^ (n.log2 - fractionBits)) * 2 ^ n.log2
        = roundDiv n (2 ^ (n.log2 - fractionBits)) *
            (2 ^ (n.log2 - fractionBits) * 2 ^ fractionBits) := by rw [← Nat.pow_add, ← split]
      _ = roundNat n * 2 ^ fractionBits := (Nat.mul_assoc ..).symm
  · have less : n.log2 < fractionBits := by omega
    have split : fractionBits = n.log2 + (fractionBits - n.log2) := by omega
    have whole : 2 ^ fractionBits = 2 ^ n.log2 * 2 ^ (fractionBits - n.log2) := by
      rw [← Nat.pow_add, ← split]
    have low := Nat.log2_self_le pos
    have high : n < 2 * 2 ^ n.log2 := Nat.pow_succ' ▸ Nat.lt_log2_self
    rw [significandOf, scaled_small less, roundDiv_one, roundNat_exact (Nat.le_of_lt less), whole]
    refine ⟨Nat.mul_le_mul_right _ low, ?_, by ring⟩
    calc n * 2 ^ (fractionBits - n.log2)
        ≤ 2 * 2 ^ n.log2 * 2 ^ (fractionBits - n.log2) := Nat.mul_le_mul_right _ (Nat.le_of_lt high)
      _ = 2 * (2 ^ n.log2 * 2 ^ (fractionBits - n.log2)) := by ring

theorem significandOf_scaled (pos : n ≠ 0) (e : Nat) :
    significandOf n * 2 ^ (n.log2 + e) = roundNat n * 2 ^ (fractionBits + e) := by
  rw [Nat.pow_add, Nat.pow_add, ← Nat.mul_assoc, ← Nat.mul_assoc, (significandOf_parts pos).2.2]

theorem nearest_natural (negative : Bool) (pos : n ≠ 0) (small : n.log2 ≤ 63) :
    nearest negative n 1 =
      ofMagnitude negative ((n.log2 + 1022) * 2 ^ fractionBits + significandOf n) := by
  have high := (significandOf_parts pos).2.1
  have exponent : ((n.log2 : Int) - 52 + 1074).toNat = n.log2 + 1022 := by omega
  have finite : (n.log2 + 1022) * 2 ^ fractionBits + significandOf n ≤ infiniteMagnitude := by
    have most : (n.log2 + 1022) * 2 ^ fractionBits ≤ (63 + 1022) * 2 ^ fractionBits :=
      Nat.mul_le_mul_right _ (by omega)
    rw [infiniteMagnitude, Nat.pow_eq]
    omega
  simp only [nearest, if_neg pos, fitExponent_natural pos, exponent]
  exact congrArg _ (Nat.min_eq_left finite)

theorem ofMagnitude_units (negative : Bool) (small : m < signWeight) :
    (ofMagnitude negative m).units = if negative then -(grid m : Int) else grid m := by
  rw [units, ofMagnitude_isNegative negative small, ofMagnitude_magnitude negative small]

theorem nearest_units (negative : Bool) (small : n < 2 ^ 64) :
    (nearest negative n 1).units =
      if negative then -((roundNat n * 2 ^ (fractionBits + 1022) : Nat) : Int)
      else (roundNat n * 2 ^ (fractionBits + 1022) : Nat) := by
  by_cases zero : n = 0
  · subst zero
    rw [nearest, if_pos rfl, Binary64.zero, ofMagnitude_units negative (by decide),
      grid_low (Nat.two_pow_pos fractionBits), roundNat_exact (by decide), Nat.zero_mul]
  · have bits : n.log2 ≤ 63 := Nat.lt_succ_iff.mp ((Nat.log2_lt zero).mpr small)
    obtain ⟨low, high, _⟩ := significandOf_parts zero
    have bounded : (n.log2 + 1022) * 2 ^ fractionBits ≤ (63 + 1022) * 2 ^ fractionBits :=
      Nat.mul_le_mul_right _ (by omega)
    have top : (63 + 1022) * 2 ^ fractionBits + 2 * 2 ^ fractionBits < signWeight := by decide
    have whole : grid ((n.log2 + 1022) * 2 ^ fractionBits + significandOf n) =
        roundNat n * 2 ^ (fractionBits + 1022) :=
      (grid_carried _ low high).trans (significandOf_scaled zero 1022)
    rw [nearest_natural negative zero bits, ofMagnitude_units negative (by omega), whole]

theorem ofInt_units (small : n.natAbs < 2 ^ 64) :
    (ofInt n).units = rounded n * (2 ^ (fractionBits + 1022) : Nat) := by
  rw [ofInt, nearest_units _ small, rounded]
  simp only [decide_eq_true_eq]
  split
  · rw [Nat.cast_mul, Int.neg_mul]
  · rw [Nat.cast_mul]

theorem compare?_ofInt (left : a.natAbs < 2 ^ 64) (right : b.natAbs < 2 ^ 64) :
    compare? (ofInt a) (ofInt b) = some (compare (rounded a) (rounded b)) := by
  have pos : (0 : Int) < (2 ^ (fractionBits + 1022) : Nat) :=
    Int.natCast_pos.mpr (Nat.two_pow_pos _)
  rw [compare?_units (ofInt_isNaN a) (ofInt_isNaN b), ofInt_units left, ofInt_units right]
  exact congrArg some (compare_alike (Int.mul_lt_mul_right pos) (Int.mul_lt_mul_right pos))

theorem fits_of_small (small : n.natAbs.log2 ≤ fractionBits) : Fits n := by
  have one : spacing n = 1 := by
    rw [spacing, Nat.sub_eq_zero_of_le small]
    rfl
  rw [Fits, one]
  exact Int.one_dvd n

theorem spacing_of_parts (e : Nat) (low : 2 ^ fractionBits ≤ m) (high : m < 2 * 2 ^ fractionBits) :
    spacing (m * 2 ^ e : Nat) = 2 ^ e := by
  have pos : m * 2 ^ e ≠ 0 :=
    Nat.mul_ne_zero (Nat.ne_of_gt (Nat.lt_of_lt_of_le (Nat.two_pow_pos _) low)) (Nat.ne_of_gt (Nat.two_pow_pos e))
  have bits : (m * 2 ^ e).log2 = fractionBits + e := by
    apply (Nat.log2_eq_iff pos).mpr
    rw [Nat.pow_succ, Nat.pow_add]
    constructor
    · exact Nat.mul_le_mul_right _ low
    · calc m * 2 ^ e < 2 * 2 ^ fractionBits * 2 ^ e := Nat.mul_lt_mul_of_pos_right high (Nat.two_pow_pos e)
        _ = 2 ^ fractionBits * 2 ^ e * 2 := by ring
  rw [spacing, Int.natAbs_natCast, bits, Nat.add_sub_cancel_left]

theorem fits_of_parts (e : Nat) (low : 2 ^ fractionBits ≤ m) (high : m < 2 * 2 ^ fractionBits) :
    Fits (m * 2 ^ e : Nat) ∧
      (m % 2 = 0 → (2 * spacing (m * 2 ^ e : Nat) : Int) ∣ (m * 2 ^ e : Nat)) := by
  rw [Fits, spacing_of_parts e low high]
  refine ⟨⟨m, by push_cast; ring⟩, fun even => ?_⟩
  obtain ⟨half, rfl⟩ := Nat.dvd_of_mod_eq_zero even
  exact ⟨half, by push_cast; ring⟩

theorem fits_of_carried (e : Nat) (low : 2 ^ fractionBits ≤ m) (high : m ≤ 2 * 2 ^ fractionBits) :
    Fits (m * 2 ^ e : Nat) ∧
      (m % 2 = 0 → (2 * spacing (m * 2 ^ e : Nat) : Int) ∣ (m * 2 ^ e : Nat)) := by
  by_cases carried : m = 2 * 2 ^ fractionBits
  · have shape : m * 2 ^ e = 2 ^ fractionBits * 2 ^ (e + 1) := by
      rw [carried, Nat.pow_succ]
      ring
    have wide := Nat.two_pow_pos fractionBits
    obtain ⟨fits, even⟩ := fits_of_parts (e + 1) (Nat.le_refl (2 ^ fractionBits)) (by omega)
    rw [shape]
    exact ⟨fits, fun _ => even (by decide)⟩
  · exact fits_of_parts e low (by omega)

theorem Fits.multiple (fits : Fits k) (large : (2 ^ b : Nat) ≤ k) :
    ∃ j, k = j * (2 ^ (b - fractionBits) : Nat) := by
  have size : 2 ^ b ≤ k.natAbs := by omega
  have pos : k.natAbs ≠ 0 := Nat.ne_of_gt (Nat.lt_of_lt_of_le (Nat.two_pow_pos b) size)
  have bits : b ≤ k.natAbs.log2 := (Nat.le_log2 pos).mpr size
  have wider : k.natAbs.log2 - fractionBits =
      (k.natAbs.log2 - b - (fractionBits - b)) + (b - fractionBits) := by omega
  have whole : ((2 ^ (b - fractionBits) : Nat) : Int) ∣ k := by
    refine Int.dvd_trans (Int.natCast_dvd_natCast.mpr ?_) fits
    rw [spacing, wider, Nat.pow_add]
    exact Nat.dvd_mul_left ..
  obtain ⟨j, shape⟩ := whole
  exact ⟨j, shape.trans (Int.mul_comm ..)⟩

-- No multiple of the step is nearer than the one that the division rounds to.
theorem roundDiv_nearest (num : Nat) (pos : 0 < den) (j : Int) :
    ((num : Int) - (roundDiv num den * den : Nat)).natAbs ≤ ((num : Int) - j * den).natAbs ∧
      (j * den ≠ (roundDiv num den * den : Nat) →
        ((num : Int) - j * den).natAbs = ((num : Int) - (roundDiv num den * den : Nat)).natAbs →
        roundDiv num den % 2 = 0) := by
  obtain ⟨below, above, tie⟩ := roundDiv_half num pos
  have apart : j * den = (roundDiv num den * den : Nat) ∨
      j * den + den ≤ (roundDiv num den * den : Nat) ∨
      (roundDiv num den * den : Nat) + den ≤ j * den := by
    rcases Int.lt_trichotomy j (roundDiv num den) with less | same | more
    · refine .inr (.inl ?_)
      have := Int.mul_le_mul_of_nonneg_right (Int.add_one_le_iff.mpr less) (Int.natCast_nonneg den)
      push_cast
      linarith
    · exact .inl (by rw [same]; push_cast; rfl)
    · refine .inr (.inr ?_)
      have := Int.mul_le_mul_of_nonneg_right (Int.add_one_le_iff.mpr more) (Int.natCast_nonneg den)
      push_cast
      linarith
  generalize roundDiv num den * den = near at *
  generalize j * (den : Int) = other at *
  constructor
  · omega
  · intro differs level
    exact tie (by omega)

theorem roundNat_rounds (n : Nat) : Rounds n (roundNat n) := by
  by_cases large : fractionBits ≤ n.log2
  · obtain ⟨low, high⟩ := roundNat_range large
    have step := Nat.two_pow_pos (n.log2 - fractionBits)
    obtain ⟨fits, even⟩ := fits_of_carried (n.log2 - fractionBits) low high
    have least : 2 ^ n.log2 ≤ n := Nat.log2_self_le (by rintro rfl; exact absurd large (by decide))
    have split : 2 ^ n.log2 = 2 ^ fractionBits * 2 ^ (n.log2 - fractionBits) := by
      rw [← Nat.pow_add]
      congr 1
      omega
    have bottom := (roundDiv_nearest n step (2 ^ fractionBits : Nat)).1
    rw [← Int.natCast_mul, ← split] at bottom
    -- Below the power of two the format is finer, but nothing there is nearer than the power itself.
    refine ⟨fits, fun k has => ?_, fun k has differs level => even ?_⟩
    · by_cases size : (2 ^ n.log2 : Nat) ≤ k
      · obtain ⟨j, rfl⟩ := has.multiple size
        exact (roundDiv_nearest n step j).1
      · exact Nat.le_trans bottom (by omega)
    · by_cases size : (2 ^ n.log2 : Nat) ≤ k
      · obtain ⟨j, rfl⟩ := has.multiple size
        exact (roundDiv_nearest n step j).2 differs level
      · change _ = ((n : Int) - (roundDiv n _ * _ : Nat)).natAbs at level
        omega
  · have small : n.log2 ≤ fractionBits := by omega
    rw [roundNat_exact small]
    refine ⟨fits_of_small small, fun k _ => by omega, fun k _ differs level => ?_⟩
    omega

theorem fits_neg : Fits (-n) ↔ Fits n := by
  rw [Fits, Fits, spacing, Int.natAbs_neg, ← spacing, Int.dvd_neg]

theorem Rounds.neg (rounds : Rounds n m) : Rounds (-n) (-m) where
  fits := fits_neg.mpr rounds.fits
  nearest k fits := by
    have near := rounds.nearest (-k) (fits_neg.mpr fits)
    omega
  even k fits differs level := by
    have even := rounds.even (-k) (fits_neg.mpr fits) (by omega) (by omega)
    rw [spacing, Int.natAbs_neg, ← spacing]
    exact Int.dvd_neg.mpr even

theorem rounded_rounds (n : Int) : Rounds n (rounded n) := by
  rw [rounded]
  split
  · have turned := (roundNat_rounds n.natAbs).neg
    rwa [show -(n.natAbs : Int) = n by omega] at turned
  · have same := roundNat_rounds n.natAbs
    rwa [show (n.natAbs : Int) = n by omega] at same

theorem fits_of_le (small : n.natAbs ≤ 2 ^ 53) : Fits n := by
  by_cases edge : n.natAbs = 2 ^ 53
  · have power : Fits (2 * 2 ^ fractionBits * 2 ^ 0 : Nat) :=
      (fits_of_carried 0 (by decide) (Nat.le_refl _)).1
    rw [show 2 * 2 ^ fractionBits * 2 ^ 0 = 2 ^ 53 by decide, ← edge] at power
    rcases Int.natAbs_eq n with same | turned
    · rwa [← same] at power
    · rw [turned]
      exact fits_neg.mpr power
  · apply fits_of_small
    by_cases zero : n.natAbs = 0
    · rw [zero]
      decide
    · exact Nat.lt_succ_iff.mp ((Nat.log2_lt zero).mpr (Nat.lt_of_le_of_ne small edge))

theorem Rounds.mono (left : Rounds a x) (right : Rounds b y) (less : a < b) : x ≤ y := by
  have nearLeft := left.nearest y right.fits
  have nearRight := right.nearest x left.fits
  omega

theorem Rounds.exact (rounds : Rounds n m) (fits : Fits n) : m = n := by
  have near := rounds.nearest n fits
  omega

end ActionGraph.Binary64
