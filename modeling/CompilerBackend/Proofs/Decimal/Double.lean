import CompilerBackend.Proofs.Decimal.Spelling
import Mathlib
/-!
# A text is the text of one double

`Spells` lists how a double is written: by a decimal that reads as the double, with a point or with
an exponent, behind its sign. A text spells one double only, and both literals spell theirs, with
one exception: from `10 ^ 16` on, the literal of the compiled language for a whole number is the
literal of an integer.

- `Spells.unique`: no text spells two doubles.
- `spells_targetLiteral`, `spells_literal`: the literals spell.
- `literal_of_asInteger?`: the exception.
-/

namespace CompilerBackend.Decimal

/-! ## Bits -/

/-- The double with a sign, a stored exponent and a fraction. -/
def ofFields (negative : Bool) (e f : ℕ) : Double :=
  if e = 2047 then if f = 0 then .infinity negative else .nan
  else if e = 0 then .finite negative f (-1074)
  else .finite negative (hiddenBit + f) ((e : ℤ) - 1075)

theorem exists_fields (bits : UInt64) : ∃ negative e f, e < 2048 ∧ f < hiddenBit ∧
    bits.toNat = ((if negative = true then 2048 else 0) + e) * hiddenBit + f ∧
    Double.ofBits bits = ofFields negative e f := by
  have hn := bits.toNat_lt
  have hsign : twoPow 63 = 9223372036854775808 := rfl
  refine ⟨bits.toNat / twoPow 63 == 1, bits.toNat / hiddenBit % 2048, bits.toNat % hiddenBit,
    ?_, ?_, ?_, rfl⟩
  · omega
  · exact Nat.mod_lt _ (by decide)
  · rw [hiddenBit_eq, hsign]
    simp only [beq_iff_eq]
    split_ifs <;> omega

theorem Canonical.of_fields {negative s : Bool} {e f m : ℕ} {q : ℤ} (hf : f < hiddenBit)
    (h : ofFields negative e f = .finite s m q) : Canonical m q := by
  unfold ofFields at h
  split_ifs at h with hmax hinf hzero
  · obtain ⟨-, rfl, rfl⟩ := Double.finite.inj h
    exact ⟨by omega, le_refl _, Or.inl rfl⟩
  · obtain ⟨-, rfl, rfl⟩ := Double.finite.inj h
    exact ⟨by omega, by omega, Or.inr (by omega)⟩

theorem canonical_ofBits {bits : UInt64} {negative : Bool} {m : ℕ} {q : ℤ}
    (h : Double.ofBits bits = .finite negative m q) : Canonical m q := by
  obtain ⟨s, e, f, -, hf, -, heq⟩ := exists_fields bits
  exact Canonical.of_fields hf (heq.symm.trans h)

theorem ofFields_inj {s s' : Bool} {e e' f f' : ℕ} (hf : f < hiddenBit) (hf' : f' < hiddenBit)
    (h : ofFields s e f = ofFields s' e' f') (hnum : ofFields s e f ≠ .nan) :
    s = s' ∧ e = e' ∧ f = f' := by
  unfold ofFields at h hnum
  split_ifs at h hnum
  all_goals first
    | exact absurd rfl hnum
    | exact Double.noConfusion h
    | exact ⟨Double.infinity.inj h, by omega, by omega⟩
    | (obtain ⟨hs, hm, hq⟩ := Double.finite.inj h
       exact ⟨hs, by omega, by omega⟩)

/-- Only the bits of a not-a-number cannot be read back. -/
theorem ofBits_inj {a b : UInt64} (h : Double.ofBits a = Double.ofBits b)
    (hnum : Double.ofBits a ≠ .nan) : a = b := by
  obtain ⟨s, e, f, -, hf, hbits, heq⟩ := exists_fields a
  obtain ⟨s', e', f', -, hf', hbits', heq'⟩ := exists_fields b
  rw [heq, heq'] at h
  rw [heq] at hnum
  obtain ⟨rfl, rfl, rfl⟩ := ofFields_inj hf hf' h hnum
  exact UInt64.toNat_inj.mp (hbits.trans hbits'.symm)

/-! ## Whole numbers -/

theorem natCast_of_wholeOf? {m n : ℕ} {q : ℤ} (h : wholeOf? m q = some n) :
    (n : ℚ) = m * 2 ^ q := by
  unfold wholeOf? at h
  split_ifs at h with hq hdvd
  · rw [← Option.some.inj h, Nat.cast_mul, cast_twoPow, ← zpow_natCast, Int.toNat_of_nonneg hq]
  · have hneg : q = -((-q).toNat : ℤ) := by omega
    have hmul : n * twoPow (-q).toNat = m := by
      rw [← Option.some.inj h]
      exact Nat.div_mul_cancel (Nat.dvd_of_mod_eq_zero hdvd)
    rw [← hmul, Nat.cast_mul, cast_twoPow, hneg, zpow_neg, zpow_natCast, neg_neg,
      Int.toNat_natCast]
    field_simp

theorem Rounds.self (m : ℕ) (q : ℤ) : Rounds (m * 2 ^ q) m q := by
  have hpos := quarter_pos q
  rw [← four_quarters]
  constructor
  · have hle : lowQuarters m q ≤ 4 * m := Nat.sub_le _ _
    have hle' : (lowQuarters m q : ℚ) ≤ 4 * m := by exact_mod_cast hle
    nlinarith
  · push_cast
    nlinarith
  · intro hodd
    have hlt : (lowQuarters m q : ℚ) < 4 * m := by
      exact_mod_cast lowQuarters_lt (by omega : 0 < m) q
    push_cast
    constructor
    · nlinarith
    · nlinarith

/-- No natural number reads as a double that is not whole: between two doubles with places behind
the point there is none. -/
theorem Rounds.ne_natCast {m : ℕ} {q : ℤ} {x : ℚ} (hx : Rounds x m q)
    (h : wholeOf? m q = none) (n : ℕ) : x ≠ n := by
  rintro rfl
  have hpos := quarter_pos q
  unfold wholeOf? at h
  split_ifs at h with hq hdvd
  -- the number in units of the double
  have hunits : (n : ℚ) = (4 * (n * twoPow (-q).toNat) : ℕ) * quarter q := by
    have hneg : q = -((-q).toNat : ℤ) := by omega
    have hpow : (2 : ℚ) ^ q * 2 ^ (-q).toNat = 1 := by
      rw [zpow_mul_pow_toNat (by norm_num), Int.toNat_of_nonpos (by omega), pow_zero]
    push_cast
    rw [cast_twoPow]
    calc (n : ℚ) = n * (2 ^ q * 2 ^ (-q).toNat) := by rw [hpow, mul_one]
      _ = 4 * (n * 2 ^ (-q).toNat) * quarter q := by rw [← four_quarters]; ring
  have hlow := hx.low
  have hhigh := hx.high
  rw [hunits] at hlow hhigh
  have hlow' : lowQuarters m q ≤ 4 * (n * twoPow (-q).toNat) := by
    exact_mod_cast le_of_mul_le_mul_right hlow hpos
  have hhigh' : 4 * (n * twoPow (-q).toNat) ≤ 4 * m + 2 := by
    exact_mod_cast le_of_mul_le_mul_right hhigh hpos
  have hge := lowQuarters_ge m q
  apply hdvd
  rw [show m = n * twoPow (-q).toNat by omega]
  exact Nat.mul_mod_left _ _

/-! ## Signs -/

/-- A sign can be cancelled in front of texts that do not begin with one. -/
theorem signText_append_inj {s s' : Bool} {x y : String} (hx : x.toList.head? ≠ some '-')
    (hy : y.toList.head? ≠ some '-') (h : signText s ++ x = signText s' ++ y) :
    s = s' ∧ x = y := by
  have hminus : ∀ z : String, (signText true ++ z).toList.head? = some '-' := by
    intro z
    rw [String.toList_append]
    rfl
  have hplain : ∀ z : String, signText false ++ z = z := fun z => String.empty_append
  cases s <;> cases s'
  · rw [hplain, hplain] at h
    exact ⟨rfl, h⟩
  · rw [hplain] at h
    exact absurd (by rw [h, hminus]) hx
  · rw [hplain] at h
    exact absurd (by rw [← h, hminus]) hy
  · exact ⟨rfl, String.append_right_inj _ |>.mp h⟩

/-! ## Texts of a double -/

/-- The text of a double behind its sign. -/
inductive SpellsUnsigned (negative : Bool) (s : String) : Double → Prop
  | nan (h : s = "NaN") (hsign : negative = false) : SpellsUnsigned negative s .nan
  | infinity (h : s = "inf") : SpellsUnsigned negative s (.infinity negative)
  | pointed {x : ℚ} {m : ℕ} {q : ℤ} (h : Pointed s x) (hx : Rounds x m q) (hc : Canonical m q) :
      SpellsUnsigned negative s (.finite negative m q)
  | scientific {d : Digits} {m : ℕ} {q : ℤ} (h : s = d.scientific) (hx : Rounds d.value m q)
      (hc : Canonical m q) : SpellsUnsigned negative s (.finite negative m q)

def Spells (s : String) (d : Double) : Prop :=
  ∃ negative body, s = signText negative ++ body ∧ SpellsUnsigned negative body d

namespace SpellsUnsigned

variable {negative : Bool} {s : String} {d d' : Double}

/-- Every number is written with a digit first. -/
theorem begins {n : Bool} {m : ℕ} {q : ℤ} (h : SpellsUnsigned negative s (.finite n m q)) :
    BeginsWithDigit s := by
  cases h with
  | pointed h hx hc => exact h.begins
  | scientific h hx hc => rw [h]; exact begins_scientific _

theorem head_ne (h : SpellsUnsigned negative s d) : s.toList.head? ≠ some '-' := by
  cases d with
  | nan => cases h with | nan h _ => rw [h]; decide
  | infinity n => cases h with | infinity h => rw [h]; decide
  | finite n m q =>
      obtain ⟨c, hc, hdigit⟩ := h.begins
      rw [hc, Ne, Option.some.injEq]
      rintro rfl
      exact absurd hdigit (by decide)

/-- Texts with a point have no exponent. -/
theorem pointed_ne_scientific {x : ℚ} (h : Pointed s x) (e : Digits) : s ≠ e.scientific := by
  rintro rfl
  rcases h.mem (exponent_mem_scientific e) with hdigit | hpoint
  · exact absurd hdigit (by decide)
  · exact absurd hpoint (by decide)

theorem unique (h : SpellsUnsigned negative s d) (h' : SpellsUnsigned negative s d') : d = d' := by
  have word : ∀ {t : String} {n : Bool} {m : ℕ} {q : ℤ}, s = t →
      SpellsUnsigned negative s (.finite n m q) → ¬ BeginsWithDigit t → False := by
    intro t n m q ht hs hbegins
    exact hbegins (ht ▸ hs.begins)
  have hnan : ¬ BeginsWithDigit "NaN" := by
    rintro ⟨c, hc, hdigit⟩
    rw [← Option.some.inj hc] at hdigit
    exact absurd hdigit (by decide)
  have hinf : ¬ BeginsWithDigit "inf" := by
    rintro ⟨c, hc, hdigit⟩
    rw [← Option.some.inj hc] at hdigit
    exact absurd hdigit (by decide)
  cases d with
  | nan =>
      cases h with
      | nan h _ =>
      cases d' with
      | nan => rfl
      | infinity n => cases h' with | infinity h' => exact absurd (h.symm.trans h') (by decide)
      | finite n m q => exact (word h h' hnan).elim
  | infinity n =>
      cases h with
      | infinity h =>
      cases d' with
      | nan => cases h' with | nan h' _ => exact absurd (h.symm.trans h') (by decide)
      | infinity n' => cases h'; rfl
      | finite n m q => exact (word h h' hinf).elim
  | finite n m q =>
      cases d' with
      | nan => cases h' with | nan h' _ => exact (word h' h hnan).elim
      | infinity n' => cases h' with | infinity h' => exact (word h' h hinf).elim
      | finite n' m' q' =>
          cases h with
          | pointed h hx hc =>
              cases h' with
              | pointed h' hx' hc' =>
                  rw [h.unique h'] at hx
                  obtain ⟨rfl, rfl⟩ := hx.unique hx' hc hc'
                  rfl
              | scientific h' _ _ => exact absurd h' (pointed_ne_scientific h _)
          | scientific h hx hc =>
              cases h' with
              | pointed h' _ _ => exact absurd h (pointed_ne_scientific h' _)
              | scientific h' hx' hc' =>
                  rw [scientific_inj (h.symm.trans h')] at hx
                  obtain ⟨rfl, rfl⟩ := hx.unique hx' hc hc'
                  rfl

end SpellsUnsigned

/-- **A text spells one double.** -/
theorem Spells.unique {s : String} {d d' : Double} (h : Spells s d) (h' : Spells s d') :
    d = d' := by
  obtain ⟨n, body, rfl, hbody⟩ := h
  obtain ⟨n', body', hs, hbody'⟩ := h'
  obtain ⟨rfl, rfl⟩ := signText_append_inj hbody.head_ne hbody'.head_ne hs
  exact hbody.unique hbody'

/-- A text of a double begins with a sign or a digit, if it is not a name. -/
theorem Spells.head {s : String} {d : Double} (h : Spells s d) :
    s = "NaN" ∨ ∃ c, s.toList.head? = some c ∧ (c.isDigit = true ∨ c = '-' ∨ c = 'i') := by
  obtain ⟨n, body, rfl, hbody⟩ := h
  cases n with
  | true =>
      right
      refine ⟨'-', ?_, Or.inr (Or.inl rfl)⟩
      rw [String.toList_append]
      rfl
  | false =>
      have hplain : signText false ++ body = body := String.empty_append
      rw [hplain]
      cases d with
      | nan => cases hbody with | nan h _ => exact Or.inl h
      | infinity n => cases hbody with | infinity h => exact Or.inr ⟨'i', by rw [h]; rfl, by simp⟩
      | finite n m q =>
          obtain ⟨c, hc, hdigit⟩ := hbody.begins
          exact Or.inr ⟨c, hc, Or.inl hdigit⟩

def doubleMarks : List Char := ['-', '.', 'e', 'N', 'a', 'i', 'n', 'f']

theorem Spells.mem {s : String} {d : Double} (h : Spells s d) {c : Char} (hc : c ∈ s.toList) :
    c.isDigit = true ∨ c ∈ doubleMarks := by
  obtain ⟨n, body, rfl, hbody⟩ := h
  rw [String.toList_append, List.mem_append] at hc
  rcases hc with hc | hc
  · right
    cases n with
    | true => rw [List.mem_singleton.mp hc]; decide
    | false => exact absurd hc List.not_mem_nil
  · cases d with
    | nan =>
        cases hbody with
        | nan h _ =>
            right
            rw [h] at hc
            have hsub : ['N', 'a', 'N'] ⊆ doubleMarks := by simp [doubleMarks]
            exact hsub hc
    | infinity n =>
        cases hbody with
        | infinity h =>
            right
            rw [h] at hc
            have hsub : ['i', 'n', 'f'] ⊆ doubleMarks := by simp [doubleMarks]
            exact hsub hc
    | finite n m q =>
        cases hbody with
        | pointed h hx _ =>
            apply (h.mem hc).imp_right
            rintro rfl
            decide
        | scientific h hx _ =>
            rw [h] at hc
            apply (mem_scientific hc).imp_right
            rintro (rfl | rfl | rfl)
            all_goals decide

/-- A text of a double is not the text of an integer. -/
theorem Spells.exists_notNumeral {s : String} {d : Double} (h : Spells s d) :
    ∃ c ∈ s.toList, c.isDigit = false ∧ c ≠ '-' := by
  obtain ⟨n, body, rfl, hbody⟩ := h
  rw [String.toList_append]
  cases d with
  | nan =>
      cases hbody with
      | nan h _ =>
          rw [h]
          exact ⟨'N', List.mem_append_right _ (by decide), rfl, by decide⟩
  | infinity n =>
      cases hbody with
      | infinity h =>
          rw [h]
          exact ⟨'i', List.mem_append_right _ (by decide), rfl, by decide⟩
  | finite n m q =>
      cases hbody with
      | pointed h _ _ => exact ⟨'.', List.mem_append_right _ h.point_mem, rfl, by decide⟩
      | scientific h _ _ =>
          rw [h]
          exact ⟨'e', List.mem_append_right _ (exponent_mem_scientific _), rfl, by decide⟩

/-! ## The literals -/

theorem spells_targetLiteral (bits : UInt64) :
    Spells (Double.ofBits bits).targetLiteral (Double.ofBits bits) := by
  cases hd : Double.ofBits bits with
  | nan => exact ⟨false, "NaN", rfl, .nan rfl rfl⟩
  | infinity n => exact ⟨n, "inf", rfl, .infinity rfl⟩
  | finite n m q =>
      have hc := canonical_ofBits hd
      unfold Double.targetLiteral
      dsimp only
      split_ifs with hzero hexp
      · subst hzero
        refine ⟨n, "0.0", rfl, .pointed (pointed_natural 0) ?_ hc⟩
        simpa using Rounds.self 0 q
      · exact ⟨n, _, rfl, .scientific rfl (rounds_shortestOf hc (Nat.pos_of_ne_zero hzero)) hc⟩
      · exact ⟨n, _, rfl, .pointed (pointed_positional (Or.inr rfl))
          (rounds_shortestOf hc (Nat.pos_of_ne_zero hzero)) hc⟩

/-- The integer whose literal is that of a double: a whole number from `10 ^ 16` on has no point,
and its digits are those of the shortest decimal, with zeros behind them. -/
def Double.asInteger? : Double → Option ℤ
  | .finite negative m q =>
      match wholeOf? m q with
      | some n =>
          if n < tenPow 16 then none
          else some (signed negative
            ((shortestOf m q).digits * tenPow (shortestOf m q).exponent.toNat))
      | none => none
  | _ => none

theorem spells_literal {bits : UInt64} (h : (Double.ofBits bits).asInteger? = none) :
    Spells (Double.ofBits bits).literal (Double.ofBits bits) := by
  cases hd : Double.ofBits bits with
  | nan => exact ⟨false, "NaN", rfl, .nan rfl rfl⟩
  | infinity n => exact ⟨n, "inf", rfl, .infinity rfl⟩
  | finite n m q =>
      have hc := canonical_ofBits hd
      rw [hd] at h
      unfold Double.asInteger? at h
      unfold Double.literal
      cases hwhole : wholeOf? m q with
      | some k =>
          simp only [hwhole] at h ⊢
          split_ifs at h ⊢ with hsmall
          refine ⟨n, naturalText k ++ ".0", String.append_assoc .., .pointed (pointed_natural k) ?_ hc⟩
          rw [natCast_of_wholeOf? hwhole]
          exact Rounds.self m q
      | none =>
          have hm : 0 < m := by
            apply Nat.pos_of_ne_zero
            rintro rfl
            unfold wholeOf? at hwhole
            split_ifs at hwhole with hq hdvd
            exact hdvd (Nat.zero_mod _)
          have hround := rounds_shortestOf hc hm
          have hexp : (shortestOf m q).exponent < 0 := by
            by_contra hnonneg
            rw [Digits.value_eq_natCast (not_lt.mp hnonneg)] at hround
            exact hround.ne_natCast hwhole _ rfl
          simp only [hwhole]
          exact ⟨n, _, rfl, .pointed (pointed_positional (Or.inl hexp)) hround hc⟩

/-- **A large whole number has the literal of an integer.** -/
theorem literal_of_asInteger? {bits : UInt64} {i : ℤ}
    (h : (Double.ofBits bits).asInteger? = some i) :
    (Double.ofBits bits).literal = toString i := by
  cases hd : Double.ofBits bits with
  | nan => rw [hd] at h; exact absurd h.symm (Option.some_ne_none i)
  | infinity n => rw [hd] at h; exact absurd h.symm (Option.some_ne_none i)
  | finite n m q =>
      have hc := canonical_ofBits hd
      rw [hd] at h
      unfold Double.asInteger? at h
      unfold Double.literal
      cases hwhole : wholeOf? m q with
      | none => simp only [hwhole, reduceCtorEq] at h
      | some k =>
          simp only [hwhole] at h ⊢
          split_ifs at h ⊢ with hsmall
          have hlarge : (10 : ℚ) ^ 16 ≤ m * 2 ^ q := by
            rw [← natCast_of_wholeOf? hwhole, ← cast_tenPow]
            exact_mod_cast not_lt.mp hsmall
          have hm : 0 < m := by
            apply Nat.pos_of_ne_zero
            rintro rfl
            norm_num at hlarge
          have hexp := exponent_shortestOf_nonneg hc hlarge
          have hdigits := digits_shortestOf_pos hc hm
          rw [positional_natural hdigits hexp, ← Option.some.inj h, toString_signed]
          exact Nat.mul_pos hdigits (Nat.pow_pos (by decide))

end CompilerBackend.Decimal
