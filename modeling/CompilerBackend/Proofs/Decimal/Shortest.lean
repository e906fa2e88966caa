import CompilerBackend.Proofs.Decimal.Rounding
import Mathlib
/-!
# The shortest decimal reads back

The search walks from the grid of the leading digit to finer grids and stops at the first one with
a number in the interval. On the grid of the seventeenth digit the multiples next to a double are
closer to it than the ends of its interval, so the search never runs out: `onGrid?_isSome`.

- `rounds_shortestOf`: the shortest decimal of a double reads as the double.
- `exponent_shortestOf_nonneg`: from `10 ^ 16` on it is a whole number.
-/

namespace CompilerBackend.Decimal

/-! ## The leading digit -/

theorem shortfall_spec {n x y : ℕ} (h : y ≤ 10 ^ n * x) : y ≤ 10 ^ shortfall n x y * x := by
  induction n generalizing x with
  | zero => exact h
  | succ n ih =>
      unfold shortfall
      split_ifs with hle
      · rwa [pow_zero, one_mul]
      · have hnext : y ≤ 10 ^ n * (10 * x) := by rwa [← mul_assoc, ← pow_succ]
        have hspec := ih hnext
        rwa [← mul_assoc, ← pow_succ] at hspec

theorem pow_le_of_length_toDigits {n : ℕ} (hn : 0 < n) :
    10 ^ ((Nat.toDigits 10 n).length - 1) ≤ n := by
  by_contra hlt
  by_cases hk : 0 < (Nat.toDigits 10 n).length - 1
  · have hlen := (Nat.length_toDigits_le_iff (by decide) hk).mpr (Nat.lt_of_not_le hlt)
    omega
  · rw [Nat.eq_zero_of_not_pos hk] at hlt
    exact hlt hn

/-- The unit of the leading digit is not above the number. -/
theorem zpow_magnitude_le {x y : ℕ} (hx : 0 < x) (hy : 0 < y) :
    (10 : ℚ) ^ magnitude x y ≤ x / y := by
  have hyq : (0 : ℚ) < y := by exact_mod_cast hy
  unfold magnitude
  split_ifs with hle
  · have hq : 0 < x / y := Nat.div_pos hle hy
    have hpos : 0 < (Nat.toDigits 10 (x / y)).length := Nat.length_toDigits_pos
    have hexp : ((Nat.toDigits 10 (x / y)).length : ℤ) - 1 =
        ((Nat.toDigits 10 (x / y)).length - 1 : ℕ) := by omega
    rw [hexp, zpow_natCast]
    calc (10 : ℚ) ^ ((Nat.toDigits 10 (x / y)).length - 1)
        ≤ (x / y : ℕ) := by exact_mod_cast pow_le_of_length_toDigits hq
      _ ≤ x / y := Nat.cast_div_le
  · have hfuel : y ≤ 10 ^ (Nat.toDigits 10 y).length * x := by
      have hlt := (Nat.length_toDigits_le_iff (b := 10) (n := y) (by decide)
        Nat.length_toDigits_pos).mp (le_refl _)
      exact hlt.le.trans (Nat.le_mul_of_pos_right _ hx)
    have hspec := shortfall_spec hfuel
    rw [zpow_neg, zpow_natCast, inv_le_iff_one_le_mul₀ (by positivity), div_mul_eq_mul_div,
      one_le_div hyq, mul_comm]
    exact_mod_cast hspec

theorem sixteen_le_magnitude {x y : ℕ} (hy : 0 < y) (h : 10 ^ 16 * y ≤ x) :
    16 ≤ magnitude x y := by
  have hle : y ≤ x := le_trans (by omega) h
  have hq : 10 ^ 16 ≤ x / y := (Nat.le_div_iff_mul_le hy).mpr h
  have hlen : ¬ (Nat.toDigits 10 (x / y)).length ≤ 16 := by
    rw [Nat.length_toDigits_le_iff (by decide) (by decide)]
    omega
  rw [magnitude, if_pos hle]
  omega

/-! ## One grid -/

/-- A double lies between a multiple of the unit and the next one. -/
theorem floor_spec (m : ℕ) (q p : ℤ) :
    ((intervalOf m q).floor p : ℚ) * 10 ^ p ≤ m * 2 ^ q ∧
      (m * 2 ^ q : ℚ) < ((intervalOf m q).floor p + 1 : ℕ) * 10 ^ p := by
  have hden := unitDen_pos p
  have hscale := scale_pos m q
  have hunit : (0 : ℚ) < unitNum p := by
    rw [unitNum_eq]
    positivity
  have hfloor : ((intervalOf m q).floor p : ℕ) = ⌊(m * 2 ^ q / 10 ^ p : ℚ)⌋₊ := by
    rw [Interval.floor, ← Nat.floor_div_eq_div (K := ℚ)]
    congr 1
    push_cast
    rw [value_intervalOf, unitNum_eq]
    field_simp
  have hten : (0 : ℚ) < 10 ^ p := by positivity
  rw [hfloor]
  constructor
  · rw [← le_div_iff₀ hten]
    exact Nat.floor_le (by positivity)
  · rw [← div_lt_iff₀ hten, Nat.cast_succ]
    exact Nat.lt_floor_add_one _

theorem Interval.holds_onGrid? {i : Interval} {p : ℤ} {a : ℕ} (h : i.onGrid? p = some a) :
    i.holds a p = true := by
  unfold Interval.onGrid? at h
  dsimp only at h
  split at h
  next h0 h1 =>
      split_ifs at h
      · rwa [← Option.some.inj h]
      · rwa [← Option.some.inj h]
  next h0 _ => rwa [← Option.some.inj h]
  next _ h1 => rwa [← Option.some.inj h]
  next => exact absurd h.symm (Option.some_ne_none a)

theorem Interval.onGrid?_isSome_of_holds {i : Interval} {p : ℤ}
    (h : i.holds (i.floor p) p = true ∨ i.holds (i.floor p + 1) p = true) :
    (i.onGrid? p).isSome = true := by
  unfold Interval.onGrid?
  dsimp only
  split
  next => split_ifs <;> rfl
  next => rfl
  next => rfl
  next h0 h1 =>
      rw [h0, h1] at h
      exact absurd h (by decide)

/-- What lies less than two quarters above a double, or less than the lower end below it, reads as
the double. -/
theorem Rounds.of_near {m : ℕ} {q : ℤ} {x : ℚ}
    (hlow : (lowQuarters m q : ℚ) * quarter q < x) (hhigh : x < (4 * m + 2 : ℕ) * quarter q) :
    Rounds x m q :=
  ⟨hlow.le, hhigh.le, fun _ => ⟨hlow, hhigh⟩⟩

theorem lowQuarters_lt {m : ℕ} (hm : 0 < m) (q : ℤ) : lowQuarters m q < 4 * m := by
  unfold lowQuarters
  split_ifs <;> omega

/-- Sixteen places behind the leading digit one of the multiples next to a double reads as it. -/
theorem onGrid?_isSome {m : ℕ} {q p : ℤ} (h : Canonical m q) (hm : 0 < m)
    (hp : (10 : ℚ) ^ p * 10 ^ 16 ≤ m * 2 ^ q) : ((intervalOf m q).onGrid? p).isSome = true := by
  have hpos := quarter_pos q
  obtain ⟨hbelow, habove⟩ := floor_spec m q p
  rw [← four_quarters] at hp hbelow habove
  have hlt : (lowQuarters m q : ℚ) * quarter q < 4 * m * quarter q :=
    mul_lt_mul_of_pos_right (by exact_mod_cast lowQuarters_lt hm q) hpos
  -- the interval is wider than the unit
  have hwide : (10 : ℚ) ^ p < ((4 * m + 2 : ℕ) - lowQuarters m q) * quarter q := by
    have hgap : 4 * m < 10 ^ 16 * (4 * m + 2 - lowQuarters m q) := by
      have hlow := lowQuarters_lt hm q
      have hmax := h.lt
      unfold lowQuarters at hlow ⊢
      split_ifs at hlow ⊢ with hnarrow
      · rw [Bool.and_eq_true, beq_iff_eq] at hnarrow
        rw [hnarrow.1, hiddenBit_eq]
        decide
      · rw [hiddenBit_eq] at hmax
        omega
    have hgap' : (4 * m : ℚ) < 10 ^ 16 * ((4 * m + 2 : ℕ) - lowQuarters m q) := by
      rw [← Nat.cast_sub (by have := lowQuarters_lt hm q; omega)]
      exact_mod_cast hgap
    nlinarith
  apply Interval.onGrid?_isSome_of_holds
  rw [Interval.holds_iff, Interval.holds_iff, contains_intervalOf, contains_intervalOf]
  by_cases hfloor : (lowQuarters m q : ℚ) * quarter q < (intervalOf m q).floor p * 10 ^ p
  · left
    refine Rounds.of_near hfloor ?_
    push_cast
    nlinarith
  · right
    refine Rounds.of_near ?_ ?_
    · push_cast at habove ⊢
      linarith
    · push_cast at habove hwide ⊢
      linarith

/-! ## The search -/

/-- A search that meets a hit gives a number of the interval, on no finer grid than the hit. -/
theorem Interval.search_spec {i : Interval} {n j : ℕ} {p : ℤ} (hj : j < n)
    (h : (i.onGrid? (p - j)).isSome = true) :
    i.holds (i.search n p).1 (i.search n p).2 = true ∧ p - j ≤ (i.search n p).2 := by
  induction n generalizing p j with
  | zero => exact absurd hj (Nat.not_lt_zero j)
  | succ n ih =>
      unfold Interval.search
      cases hgrid : i.onGrid? p with
      | some a => exact ⟨i.holds_onGrid? hgrid, by show p - j ≤ p; omega⟩
      | none =>
          cases j with
          | zero =>
              rw [Nat.cast_zero, sub_zero, hgrid] at h
              exact Bool.noConfusion h
          | succ j =>
              have hnext : p - (j + 1 : ℕ) = p - 1 - j := by omega
              rw [hnext] at h ⊢
              exact ih (Nat.lt_of_succ_lt_succ hj) h

/-! ## Zeros at the end -/

def Digits.value (d : Digits) : ℚ := d.digits * 10 ^ d.exponent

theorem Digits.stripped_spec (n : ℕ) (d : Digits) :
    (d.stripped n).value = d.value ∧ d.exponent ≤ (d.stripped n).exponent := by
  induction n generalizing d with
  | zero => exact ⟨rfl, le_refl _⟩
  | succ n ih =>
      unfold Digits.stripped
      split_ifs with hzero
      · obtain ⟨hvalue, hexp⟩ := ih ⟨d.digits / 10, d.exponent + 1⟩
        refine ⟨?_, by have : d.exponent + 1 ≤ _ := hexp; omega⟩
        have hten : ((d.digits / 10 : ℕ) : ℚ) * 10 = d.digits := by
          exact_mod_cast Nat.div_mul_cancel (Nat.dvd_of_mod_eq_zero hzero)
        rw [hvalue, Digits.value, Digits.value, ← hten, zpow_add_one₀ (by norm_num)]
        ring
      · exact ⟨rfl, le_refl _⟩

/-! ## The shortest decimal -/

theorem shortestOf_eq (m : ℕ) (q : ℤ) : shortestOf m q = Digits.stripped 17
    ⟨((intervalOf m q).search 17 (magnitude (intervalOf m q).value (intervalOf m q).scale)).1,
      ((intervalOf m q).search 17 (magnitude (intervalOf m q).value (intervalOf m q).scale)).2⟩ :=
  rfl

/-- What the search finds for a double: a decimal that reads as the double, with at most sixteen
places behind its leading digit. -/
theorem shortestOf_spec {m : ℕ} {q : ℤ} (h : Canonical m q) (hm : 0 < m) :
    Rounds (shortestOf m q).value m q ∧
      magnitude (intervalOf m q).value (intervalOf m q).scale - 16 ≤
        (shortestOf m q).exponent := by
  have hscale := scale_pos m q
  have hvalue : (0 : ℚ) < (intervalOf m q).value := by
    rw [value_intervalOf]
    positivity
  have hunit : (10 : ℚ) ^ (magnitude (intervalOf m q).value (intervalOf m q).scale - (16 : ℕ)) *
      10 ^ 16 ≤ m * 2 ^ q := by
    have hlead := zpow_magnitude_le (by exact_mod_cast hvalue) (by exact_mod_cast hscale)
    rw [value_intervalOf, mul_div_cancel_right₀ _ hscale.ne'] at hlead
    rwa [zpow_sub₀ (by norm_num), zpow_natCast, div_mul_cancel₀ _ (by norm_num)]
  obtain ⟨hholds, hexp⟩ := Interval.search_spec (by decide : 16 < 17) (onGrid?_isSome h hm hunit)
  rw [Interval.holds_iff, contains_intervalOf] at hholds
  rw [shortestOf_eq]
  obtain ⟨hsame, hmore⟩ := Digits.stripped_spec 17
    ⟨((intervalOf m q).search 17 (magnitude (intervalOf m q).value (intervalOf m q).scale)).1,
      ((intervalOf m q).search 17 (magnitude (intervalOf m q).value (intervalOf m q).scale)).2⟩
  rw [hsame]
  exact ⟨hholds, hexp.trans hmore⟩

/-- **The shortest decimal reads back.** -/
theorem rounds_shortestOf {m : ℕ} {q : ℤ} (h : Canonical m q) (hm : 0 < m) :
    Rounds (shortestOf m q).value m q := (shortestOf_spec h hm).1

theorem digits_shortestOf_pos {m : ℕ} {q : ℤ} (h : Canonical m q) (hm : 0 < m) :
    0 < (shortestOf m q).digits := by
  apply Nat.pos_of_ne_zero
  intro hzero
  have hlow := (rounds_shortestOf h hm).low
  have hge := lowQuarters_ge m q
  have hpos : (0 : ℚ) < lowQuarters m q * quarter q :=
    mul_pos (by exact_mod_cast (by omega : 0 < lowQuarters m q)) (quarter_pos q)
  rw [Digits.value, hzero, Nat.cast_zero, zero_mul] at hlow
  linarith

/-- From `10 ^ 16` on no place is left behind the point. -/
theorem exponent_shortestOf_nonneg {m : ℕ} {q : ℤ} (h : Canonical m q)
    (hlarge : (10 : ℚ) ^ 16 ≤ m * 2 ^ q) : 0 ≤ (shortestOf m q).exponent := by
  have hscale := scale_pos m q
  have hm : 0 < m := by
    apply Nat.pos_of_ne_zero
    rintro rfl
    norm_num at hlarge
  have hnat : 10 ^ 16 * (intervalOf m q).scale ≤ (intervalOf m q).value := by
    have hcast : (10 : ℚ) ^ 16 * (intervalOf m q).scale ≤ (intervalOf m q).value := by
      rw [value_intervalOf]
      exact mul_le_mul_of_nonneg_right hlarge hscale.le
    exact_mod_cast hcast
  have hmag := sixteen_le_magnitude (by exact_mod_cast hscale) hnat
  have hexp := (shortestOf_spec h hm).2
  omega

end CompilerBackend.Decimal
