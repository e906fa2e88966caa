import CompilerBackend.Decimal.Double
import Mathlib
/-!
# Which numbers read back as a double

A decimal is read as the double in whose interval it lies. `Rounds` says so over the rational
numbers, in quarters of the gap between neighbours, and `holds_iff` says that the exact integer
comparison of the search decides it.

- `Rounds.lt`: numbers that read as different doubles are in the order of the doubles.
- `Rounds.unique`: so a number reads as one double only. Where two intervals touch, one of the
  mantissas is odd and its interval is open.
-/

namespace CompilerBackend.Decimal

/-! ## Powers with an integer exponent -/

theorem cast_twoPow (n : ℕ) : (twoPow n : ℚ) = 2 ^ n := by
  show ((2 ^ n : ℕ) : ℚ) = 2 ^ n
  exact Nat.cast_pow 2 n

theorem cast_tenPow (n : ℕ) : (tenPow n : ℚ) = 10 ^ n := by
  show ((10 ^ n : ℕ) : ℚ) = 10 ^ n
  exact Nat.cast_pow 10 n

/-- A power is its numerator over its denominator, one of which is `1`. -/
theorem zpow_mul_pow_toNat {b : ℚ} (hb : b ≠ 0) (z : ℤ) :
    b ^ z * b ^ (-z).toNat = b ^ z.toNat := by
  rw [← zpow_natCast, ← zpow_natCast, ← zpow_add₀ hb]
  congr 1
  omega

theorem unitDen_pos (p : ℤ) : (0 : ℚ) < unitDen p := by
  rw [unitDen, cast_tenPow]
  positivity

theorem unitNum_eq (p : ℤ) : (unitNum p : ℚ) = 10 ^ p * unitDen p := by
  rw [unitNum, unitDen, cast_tenPow, cast_tenPow, zpow_mul_pow_toNat (by norm_num)]

/-! ## The numbers of an interval -/

/-- The numbers of an interval; its ends belong to it when it is closed. -/
structure Interval.Contains (i : Interval) (x : ℚ) : Prop where
  low : (i.low : ℚ) ≤ x * i.scale
  high : x * i.scale ≤ i.high
  inner : i.closed = false → (i.low : ℚ) < x * i.scale ∧ x * i.scale < i.high

/-- A multiple of a power of ten as a fraction of natural numbers. -/
theorem scaled_eq (a s : ℕ) (p : ℤ) :
    (a * 10 ^ p : ℚ) * s = (a * unitNum p * s : ℕ) / unitDen p := by
  rw [eq_div_iff (unitDen_pos p).ne']
  push_cast
  rw [unitNum_eq]
  ring

/-- The search compares exactly. -/
theorem Interval.holds_iff (i : Interval) (a : ℕ) (p : ℤ) :
    i.holds a p = true ↔ i.Contains (a * 10 ^ p) := by
  have hden := unitDen_pos p
  have hlow : (i.low : ℚ) ≤ (a * 10 ^ p : ℚ) * i.scale ↔
      i.low * unitDen p ≤ a * unitNum p * i.scale := by
    rw [scaled_eq, le_div_iff₀ hden]
    exact_mod_cast Iff.rfl
  have hhigh : (a * 10 ^ p : ℚ) * i.scale ≤ i.high ↔
      a * unitNum p * i.scale ≤ i.high * unitDen p := by
    rw [scaled_eq, div_le_iff₀ hden]
    exact_mod_cast Iff.rfl
  have hlow' : (i.low : ℚ) < (a * 10 ^ p : ℚ) * i.scale ↔
      i.low * unitDen p < a * unitNum p * i.scale := by
    rw [scaled_eq, lt_div_iff₀ hden]
    exact_mod_cast Iff.rfl
  have hhigh' : (a * 10 ^ p : ℚ) * i.scale < i.high ↔
      a * unitNum p * i.scale < i.high * unitDen p := by
    rw [scaled_eq, div_lt_iff₀ hden]
    exact_mod_cast Iff.rfl
  unfold Interval.holds
  cases hc : i.closed with
  | true =>
      simp only [if_true, Bool.and_eq_true, decide_eq_true_eq]
      rw [← hlow, ← hhigh]
      constructor
      · rintro ⟨hl, hh⟩
        exact ⟨hl, hh, fun hopen => absurd (hc.symm.trans hopen) (by decide)⟩
      · intro h
        exact ⟨h.low, h.high⟩
  | false =>
      simp only [Bool.false_eq_true, if_false, Bool.and_eq_true, decide_eq_true_eq]
      rw [← hlow', ← hhigh']
      constructor
      · rintro ⟨hl, hh⟩
        exact ⟨hl.le, hh.le, fun _ => ⟨hl, hh⟩⟩
      · intro h
        exact h.inner hc

/-! ## Doubles -/

def intervalOf (m : ℕ) (q : ℤ) : Interval :=
  Interval.ofBinary m q (m == hiddenBit && q != -1074)

/-- The lower end of the interval of a double, in quarters of the gap above it. -/
def lowQuarters (m : ℕ) (q : ℤ) : ℕ :=
  4 * m - if (m == hiddenBit && q != -1074) = true then 1 else 2

def quarter (q : ℤ) : ℚ := 2 ^ (q - 2)

theorem quarter_pos (q : ℤ) : 0 < quarter q := zpow_pos (by norm_num) _

theorem four_quarters (q : ℤ) : 4 * quarter q = 2 ^ q := by
  rw [quarter, zpow_sub₀ (by norm_num)]
  ring

/-- The number `x` is read as the double `m · 2 ^ q`. -/
structure Rounds (x : ℚ) (m : ℕ) (q : ℤ) : Prop where
  low : (lowQuarters m q : ℚ) * quarter q ≤ x
  high : x ≤ (4 * m + 2 : ℕ) * quarter q
  inner : m % 2 = 1 → (lowQuarters m q : ℚ) * quarter q < x ∧ x < (4 * m + 2 : ℕ) * quarter q

theorem scale_pos (m : ℕ) (q : ℤ) : (0 : ℚ) < (intervalOf m q).scale := by
  show (0 : ℚ) < twoPow (2 - q).toNat
  rw [cast_twoPow]
  positivity

/-- The unit of an interval over its scale is a quarter of the gap. -/
theorem up_eq (m : ℕ) (q : ℤ) :
    (twoPow (q - 2).toNat : ℚ) = quarter q * (intervalOf m q).scale := by
  show (twoPow (q - 2).toNat : ℚ) = quarter q * twoPow (2 - q).toNat
  rw [cast_twoPow, cast_twoPow, quarter, ← neg_sub q 2, zpow_mul_pow_toNat (by norm_num)]

theorem low_intervalOf (m : ℕ) (q : ℤ) :
    ((intervalOf m q).low : ℚ) = lowQuarters m q * quarter q * (intervalOf m q).scale := by
  show ((lowQuarters m q * twoPow (q - 2).toNat : ℕ) : ℚ) = _
  rw [Nat.cast_mul, up_eq m q, mul_assoc]

theorem value_intervalOf (m : ℕ) (q : ℤ) :
    ((intervalOf m q).value : ℚ) = m * 2 ^ q * (intervalOf m q).scale := by
  show ((4 * m * twoPow (q - 2).toNat : ℕ) : ℚ) = _
  rw [Nat.cast_mul, up_eq m q, ← four_quarters]
  push_cast
  ring

theorem high_intervalOf (m : ℕ) (q : ℤ) :
    ((intervalOf m q).high : ℚ) = (4 * m + 2 : ℕ) * quarter q * (intervalOf m q).scale := by
  show (((4 * m + 2) * twoPow (q - 2).toNat : ℕ) : ℚ) = _
  rw [Nat.cast_mul, up_eq m q, mul_assoc]

theorem contains_intervalOf {m : ℕ} {q : ℤ} {x : ℚ} :
    (intervalOf m q).Contains x ↔ Rounds x m q := by
  have hscale := scale_pos m q
  have hopen : (intervalOf m q).closed = false ↔ m % 2 = 1 := by
    show (m % 2 == 0) = false ↔ m % 2 = 1
    rw [beq_eq_false_iff_ne]
    omega
  constructor
  · rintro ⟨hl, hh, hi⟩
    rw [low_intervalOf] at hl hi
    rw [high_intervalOf] at hh hi
    rw [hopen] at hi
    exact ⟨le_of_mul_le_mul_right hl hscale, le_of_mul_le_mul_right hh hscale, fun hm =>
      ⟨lt_of_mul_lt_mul_right (hi hm).1 hscale.le, lt_of_mul_lt_mul_right (hi hm).2 hscale.le⟩⟩
  · rintro ⟨hl, hh, hi⟩
    constructor
    · rw [low_intervalOf]
      exact mul_le_mul_of_nonneg_right hl hscale.le
    · rw [high_intervalOf]
      exact mul_le_mul_of_nonneg_right hh hscale.le
    · intro hc
      rw [low_intervalOf, high_intervalOf]
      exact ⟨mul_lt_mul_of_pos_right (hi (hopen.mp hc)).1 hscale,
        mul_lt_mul_of_pos_right (hi (hopen.mp hc)).2 hscale⟩

/-- The mantissa and the exponent of a finite double: no bit of the mantissa is missing in front
except at the smallest exponent. -/
structure Canonical (m : ℕ) (q : ℤ) : Prop where
  lt : m < 2 * hiddenBit
  least : -1074 ≤ q
  full : q = -1074 ∨ hiddenBit ≤ m

theorem hiddenBit_eq : hiddenBit = 4503599627370496 := rfl

theorem lowQuarters_ge (m : ℕ) (q : ℤ) : 4 * m - 2 ≤ lowQuarters m q := by
  unfold lowQuarters
  split_ifs <;> omega

/-- Above the smallest exponent the lower end is that of a full mantissa. -/
theorem Canonical.lowQuarters_ge_full {m : ℕ} {q : ℤ} (h : Canonical m q) (hq : q ≠ -1074) :
    4 * hiddenBit - 1 ≤ lowQuarters m q := by
  have hfull := h.full.resolve_left hq
  unfold lowQuarters
  split_ifs with hnarrow
  · omega
  · -- a mantissa with more than its leading bit
    have hne : m ≠ hiddenBit := by
      intro heq
      apply hnarrow
      rw [heq, beq_self_eq_true, Bool.true_and, bne_iff_ne]
      exact hq
    omega

/-- What reads as a double lies below what reads as a greater one. -/
theorem Rounds.lt {m m' : ℕ} {q q' : ℤ} {x y : ℚ} (hx : Rounds x m q) (hy : Rounds y m' q')
    (h : Canonical m q) (h' : Canonical m' q') (hlt : q < q' ∨ q = q' ∧ m < m') : x < y := by
  have hpos := quarter_pos q
  rcases hlt with hq | ⟨rfl, hm⟩
  · -- the gap is at least twice as wide
    have hwide : 2 * quarter q ≤ quarter q' := by
      rw [quarter, quarter, ← zpow_one_add₀ (by norm_num)]
      exact zpow_le_zpow_right₀ (by norm_num) (by omega)
    have hlow : (4 * hiddenBit - 1 : ℕ) * (2 * quarter q) ≤ y := by
      calc ((4 * hiddenBit - 1 : ℕ) : ℚ) * (2 * quarter q)
          ≤ lowQuarters m' q' * quarter q' := by
            refine mul_le_mul ?_ hwide (by linarith) (Nat.cast_nonneg _)
            exact_mod_cast h'.lowQuarters_ge_full (by have := h.least; omega)
        _ ≤ y := hy.low
    have hm := h.lt
    rcases Nat.mod_two_eq_zero_or_one m with heven | hodd
    · have hn : 4 * m + 2 < (4 * hiddenBit - 1) * 2 := by rw [hiddenBit_eq] at hm ⊢; omega
      have hn' : ((4 * m + 2 : ℕ) : ℚ) * quarter q < (4 * hiddenBit - 1 : ℕ) * 2 * quarter q :=
        mul_lt_mul_of_pos_right (by exact_mod_cast hn) hpos
      linarith [hx.high]
    · have hn : 4 * m + 2 ≤ (4 * hiddenBit - 1) * 2 := by rw [hiddenBit_eq] at hm ⊢; omega
      have hn' : ((4 * m + 2 : ℕ) : ℚ) * quarter q ≤ (4 * hiddenBit - 1 : ℕ) * 2 * quarter q :=
        mul_le_mul_of_nonneg_right (by exact_mod_cast hn) hpos.le
      linarith [(hx.inner hodd).2]
  · have hge := lowQuarters_ge m' q
    have hstep : ((4 * m + 2 : ℕ) : ℚ) * quarter q ≤ lowQuarters m' q * quarter q :=
      mul_le_mul_of_nonneg_right (by exact_mod_cast (by omega : 4 * m + 2 ≤ lowQuarters m' q))
        hpos.le
    by_cases hodd : m % 2 = 1
    · linarith [(hx.inner hodd).2, hy.low]
    · by_cases hodd' : m' % 2 = 1
      · linarith [hx.high, (hy.inner hodd').1]
      · -- two even mantissas are no neighbours
        have hfar : ((4 * m + 2 : ℕ) : ℚ) * quarter q < lowQuarters m' q * quarter q :=
          mul_lt_mul_of_pos_right
            (by exact_mod_cast (by omega : 4 * m + 2 < lowQuarters m' q)) hpos
        linarith [hx.high, hy.low]

/-- A number reads as one double only. -/
theorem Rounds.unique {m m' : ℕ} {q q' : ℤ} {x : ℚ} (hx : Rounds x m q) (hx' : Rounds x m' q')
    (h : Canonical m q) (h' : Canonical m' q') : m = m' ∧ q = q' := by
  rcases lt_trichotomy q q' with hq | hq | hq
  · exact absurd (hx.lt hx' h h' (Or.inl hq)) (lt_irrefl x)
  · rcases lt_trichotomy m m' with hm | hm | hm
    · exact absurd (hx.lt hx' h h' (Or.inr ⟨hq, hm⟩)) (lt_irrefl x)
    · exact ⟨hm, hq⟩
    · exact absurd (hx'.lt hx h' h (Or.inr ⟨hq.symm, hm⟩)) (lt_irrefl x)
  · exact absurd (hx'.lt hx h' h (Or.inl hq)) (lt_irrefl x)

end CompilerBackend.Decimal
