import CompilerBackend.Proofs.Decimal.Shortest
import CompilerBackend.Proofs.Text.Quoted
import Mathlib
/-!
# Reading a decimal

A decimal with a point stands for its digits over as many tens as it has places, whatever zeros
it carries; one with an exponent is written from its digits and its exponent only. So equal texts
stand for equal numbers.

- `pointed_positional`, `pointed_natural`: what the positional texts stand for.
- `scientific_inj`: an exponent leaves nothing open.
-/

namespace CompilerBackend.Decimal

/-! ## Digits -/

def AllDigits (cs : List Char) : Prop := ∀ c ∈ cs, c.isDigit = true

theorem AllDigits.append {a b : List Char} (ha : AllDigits a) (hb : AllDigits b) :
    AllDigits (a ++ b) := by
  intro c hc
  exact (List.mem_append.mp hc).elim (ha c) (hb c)

theorem AllDigits.notMem {cs : List Char} (h : AllDigits cs) {c : Char}
    (hc : c.isDigit = false) : c ∉ cs := by
  intro hmem
  rw [h c hmem] at hc
  exact Bool.noConfusion hc

theorem allDigits_toDigits (n : ℕ) : AllDigits (Nat.toDigits 10 n) :=
  fun _ hc => Nat.isDigit_of_mem_toDigits (by decide) (by decide) hc

theorem allDigits_zeros (n : ℕ) : AllDigits (zeros n) := by
  intro c hc
  rw [List.eq_of_mem_replicate hc]
  rfl

theorem toDigits_inj {m n : ℕ} (h : Nat.toDigits 10 m = Nat.toDigits 10 n) : m = n := by
  rw [← Nat.ofDigitChars_ten_toDigits (n := m), h, Nat.ofDigitChars_ten_toDigits]

def BeginsWithDigit (s : String) : Prop := ∃ c, s.toList.head? = some c ∧ c.isDigit = true

/-! ## Texts with a point -/

/-- A text of digits with a point in it, which stands for `x`. -/
def Pointed (s : String) (x : ℚ) : Prop :=
  ∃ whole places, s.toList = whole ++ '.' :: places ∧ whole ≠ [] ∧ AllDigits whole ∧
    AllDigits places ∧ x = Nat.ofDigitChars 10 (whole ++ places) 0 / 10 ^ places.length

theorem Pointed.unique {s : String} {x y : ℚ} (hx : Pointed s x) (hy : Pointed s y) : x = y := by
  obtain ⟨a, b, hs, -, ha, hb, rfl⟩ := hx
  obtain ⟨a', b', hs', -, -, -, rfl⟩ := hy
  rw [hs, List.append_cons_inj_of_notMem (ha.notMem rfl) (hb.notMem rfl)] at hs'
  rw [hs'.1, hs'.2.2]

/-- The digits in front of and behind the point, and no other characters. -/
theorem Pointed.mem {s : String} {x : ℚ} (h : Pointed s x) {c : Char} (hc : c ∈ s.toList) :
    c.isDigit = true ∨ c = '.' := by
  obtain ⟨a, b, hs, -, ha, hb, -⟩ := h
  rw [hs, List.mem_append, List.mem_cons] at hc
  rcases hc with hc | hc | hc
  · exact Or.inl (ha c hc)
  · exact Or.inr hc
  · exact Or.inl (hb c hc)

theorem Pointed.point_mem {s : String} {x : ℚ} (h : Pointed s x) : '.' ∈ s.toList := by
  obtain ⟨a, b, hs, -⟩ := h
  rw [hs]
  exact List.mem_append_right a List.mem_cons_self

theorem Pointed.begins {s : String} {x : ℚ} (h : Pointed s x) : BeginsWithDigit s := by
  obtain ⟨a, b, hs, hne, ha, -⟩ := h
  obtain ⟨c, cs, rfl⟩ := List.exists_cons_of_ne_nil hne
  exact ⟨c, by rw [hs]; rfl, ha c List.mem_cons_self⟩

theorem ofDigitChars_zeros (n : ℕ) (cs : List Char) :
    Nat.ofDigitChars 10 (zeros n ++ cs) 0 = Nat.ofDigitChars 10 cs 0 := by
  rw [zeros, Nat.ofDigitChars_append, Nat.ofDigitChars_replicate_zero, mul_zero]

/-- A whole number with one place. -/
theorem pointed_whole {cs : List Char} (hne : cs ≠ []) (h : AllDigits cs) :
    Pointed (String.ofList cs ++ ".0") (Nat.ofDigitChars 10 cs 0 : ℕ) := by
  refine ⟨cs, ['0'], ?_, hne, h, fun c hc => by rw [List.mem_singleton.mp hc]; rfl, ?_⟩
  · rw [String.toList_append, String.toList_ofList]
    rfl
  · have hzero : Nat.ofDigitChars 10 (cs ++ ['0']) 0 = 10 * Nat.ofDigitChars 10 cs 0 := by
      rw [Nat.ofDigitChars_append]
      exact (Nat.ofDigitChars_replicate_zero (n := 1)).trans (by rw [pow_one])
    rw [hzero, List.length_singleton]
    push_cast
    ring

theorem pointed_natural (n : ℕ) : Pointed (naturalText n ++ ".0") n := by
  have h := pointed_whole Nat.toDigits_ne_nil (allDigits_toDigits n)
  rwa [Nat.ofDigitChars_ten_toDigits] at h

/-- The digits of a decimal, with zeros behind them. -/
theorem ofDigitChars_whole (n k : ℕ) :
    Nat.ofDigitChars 10 (Nat.toDigits 10 n ++ zeros k) 0 = n * 10 ^ k := by
  rw [zeros, Nat.ofDigitChars_append, Nat.ofDigitChars_replicate_zero,
    Nat.ofDigitChars_ten_toDigits, mul_comm]

/-- Without places behind the point a decimal is a natural number. -/
theorem Digits.value_eq_natCast {d : Digits} (h : 0 ≤ d.exponent) :
    d.value = (d.digits * 10 ^ d.exponent.toNat : ℕ) := by
  rw [Digits.value]
  conv_lhs => rw [← Int.toNat_of_nonneg h]
  push_cast
  rw [zpow_natCast]

/-- A positional text stands for the decimal it is written from. -/
theorem pointed_positional {d : Digits} {whole : String} (h : d.exponent < 0 ∨ whole = ".0") :
    Pointed (d.positional whole) d.value := by
  have hdigits := allDigits_toDigits d.digits
  have hne : Nat.toDigits 10 d.digits ≠ [] := Nat.toDigits_ne_nil
  unfold Digits.positional
  dsimp only
  by_cases hexp : 0 ≤ d.exponent
  · obtain rfl := h.resolve_left (not_lt.mpr hexp)
    rw [if_pos hexp]
    have hpoint := pointed_whole (List.append_ne_nil_of_left_ne_nil hne _)
      (hdigits.append (allDigits_zeros d.exponent.toNat))
    rwa [ofDigitChars_whole, ← Digits.value_eq_natCast hexp] at hpoint
  · rw [if_neg hexp]
    have hvalue : d.value = d.digits / 10 ^ (-d.exponent).toNat := by
      have hneg : d.exponent = -((-d.exponent).toNat : ℤ) := by omega
      rw [Digits.value]
      conv_lhs => rw [hneg]
      rw [zpow_neg, zpow_natCast, div_eq_mul_inv]
    split_ifs with hplaces
    · refine ⟨_, _, String.toList_ofList, ?_, ?_, ?_, ?_⟩
      · intro hnil
        rw [List.take_eq_nil_iff] at hnil
        rcases hnil with hzero | hnil
        · omega
        · exact hne hnil
      · exact fun c hc => hdigits c (List.mem_of_mem_take hc)
      · exact fun c hc => hdigits c (List.mem_of_mem_drop hc)
      · rw [List.take_append_drop, Nat.ofDigitChars_ten_toDigits, List.length_drop, hvalue]
        congr 2
        omega
    · let front := zeros ((-d.exponent).toNat - (Nat.toDigits 10 d.digits).length)
      have hzeros : Nat.ofDigitChars 10 (['0'] ++ (front ++ Nat.toDigits 10 d.digits)) 0 =
          d.digits :=
        (ofDigitChars_zeros 1 _).trans ((ofDigitChars_zeros _ _).trans
          Nat.ofDigitChars_ten_toDigits)
      refine ⟨['0'], front ++ Nat.toDigits 10 d.digits, String.toList_ofList,
        List.cons_ne_nil _ _, fun c hc => by rw [List.mem_singleton.mp hc]; rfl,
        (allDigits_zeros _).append hdigits, ?_⟩
      have hlength : front.length = (-d.exponent).toNat - (Nat.toDigits 10 d.digits).length :=
        List.length_replicate
      rw [hzeros, hvalue, List.length_append, hlength]
      congr 2
      omega

/-! ## Texts of integers -/

def signed (negative : Bool) (n : ℕ) : ℤ := if negative then -n else n

theorem toString_signed (negative : Bool) {n : ℕ} (hn : 0 < n) :
    toString (signed negative n) = signText negative ++ naturalText n := by
  cases negative with
  | false =>
      show toString n = "" ++ naturalText n
      rw [Nat.toString_eq_ofList_toDigits, String.empty_append]
      rfl
  | true =>
      obtain ⟨k, rfl⟩ := Nat.exists_eq_add_of_le' hn
      show toString (Int.negSucc k) = "-" ++ naturalText (k + 1)
      have hsucc : naturalText (k + 1) = toString (k + 1) :=
        Nat.toString_eq_ofList_toDigits.symm
      rw [hsucc]
      rfl

theorem toDigits_mul_pow {n : ℕ} (hn : 0 < n) (k : ℕ) :
    Nat.toDigits 10 (n * 10 ^ k) = Nat.toDigits 10 n ++ zeros k := by
  induction k with
  | zero => rw [pow_zero, mul_one, zeros, List.replicate_zero, List.append_nil]
  | succ k ih =>
      have hpos : 0 < n * 10 ^ k := Nat.mul_pos hn (by positivity)
      have happend := Nat.toDigits_append_toDigits (b := 10) (n := n * 10 ^ k) (d := 0)
        (by decide) hpos (by decide)
      rw [pow_succ, ← mul_assoc, mul_comm (n * 10 ^ k) 10, ← Nat.add_zero (10 * (n * 10 ^ k)),
        ← happend, ih, Nat.toDigits_zero, List.append_assoc]
      congr 1
      exact List.replicate_succ'.symm

/-- Without places behind the point a decimal is written as a natural number. -/
theorem positional_natural {d : Digits} (hd : 0 < d.digits) (h : 0 ≤ d.exponent) :
    d.positional "" = naturalText (d.digits * tenPow d.exponent.toNat) := by
  unfold Digits.positional naturalText
  dsimp only
  rw [if_pos h, String.append_empty, ← toDigits_mul_pow hd]
  rfl

/-! ## Texts with an exponent -/

theorem mem_integer {i : ℤ} {c : Char} (h : c ∈ (toString i).toList) :
    c.isDigit = true ∨ c = '-' := by
  have natural : ∀ {n : ℕ}, c ∈ (toString n).toList → c.isDigit = true := by
    intro n hn
    rw [Nat.toString_eq_ofList_toDigits, String.toList_ofList] at hn
    exact allDigits_toDigits n c hn
  change c ∈ i.repr.toList at h
  rw [Int.repr_eq_if] at h
  split_ifs at h with hi
  · exact Or.inl (natural h)
  · rw [String.toList_append] at h
    rcases List.mem_append.mp h with hm | hn
    · exact Or.inr (List.mem_singleton.mp hm)
    · exact Or.inl (natural hn)

theorem toList_integer_ne_nil (i : ℤ) : (toString i).toList ≠ [] := by
  cases i with
  | ofNat n =>
      show (toString n).toList ≠ []
      rw [Nat.toString_eq_ofList_toDigits, String.toList_ofList]
      exact Nat.toDigits_ne_nil
  | negSucc n =>
      show ("-" ++ toString (n + 1)).toList ≠ []
      rw [String.toList_append]
      exact List.cons_ne_nil _ _

/-- The digits in front of an exponent, with a point behind the first of several. -/
def Digits.leading (d : Digits) : List Char :=
  match Nat.toDigits 10 d.digits with
  | [] => []
  | [c] => [c]
  | c :: cs => c :: '.' :: cs

theorem Digits.leading_spec (d : Digits) :
    d.leading.filter (· != '.') = Nat.toDigits 10 d.digits ∧
      ∃ c, d.leading.head? = some c ∧ c.isDigit = true := by
  have hdigits := allDigits_toDigits d.digits
  have hfilter : ∀ {cs : List Char}, AllDigits cs → cs.filter (· != '.') = cs := by
    intro cs hcs
    rw [List.filter_eq_self]
    intro c hc
    rw [bne_iff_ne]
    rintro rfl
    exact hcs.notMem rfl hc
  unfold Digits.leading
  split
  next hnil => exact absurd hnil Nat.toDigits_ne_nil
  next c hone =>
      rw [hone] at hdigits ⊢
      exact ⟨hfilter hdigits, c, rfl, hdigits c List.mem_cons_self⟩
  next c cs _ hmany =>
      rw [hmany] at hdigits ⊢
      refine ⟨?_, c, rfl, hdigits c List.mem_cons_self⟩
      have hpoint : ('.' :: cs).filter (· != '.') = cs.filter (· != '.') :=
        List.filter_cons_of_neg (by decide)
      calc (c :: '.' :: cs).filter (· != '.')
          = [c].filter (· != '.') ++ ('.' :: cs).filter (· != '.') := List.filter_append [c] _
        _ = (c :: cs).filter (· != '.') := by rw [hpoint, ← List.filter_append]; rfl
        _ = c :: cs := hfilter hdigits

theorem Digits.mem_leading {d : Digits} {c : Char} (h : c ∈ d.leading) :
    c.isDigit = true ∨ c = '.' := by
  by_cases hpoint : c = '.'
  · exact Or.inr hpoint
  · left
    apply allDigits_toDigits d.digits
    rw [← d.leading_spec.1]
    exact List.mem_filter.mpr ⟨h, bne_iff_ne.mpr hpoint⟩

theorem scientific_eq (d : Digits) : d.scientific.toList = d.leading ++ 'e' ::
    (toString (d.exponent + ((Nat.toDigits 10 d.digits).length - 1 : ℕ))).toList := by
  unfold Digits.scientific Digits.leading
  split
  next hnil => exact absurd hnil Nat.toDigits_ne_nil
  next c hone =>
      rw [hone]
      simp
  next c cs _ hmany =>
      rw [hmany]
      simp

theorem begins_scientific (d : Digits) : BeginsWithDigit d.scientific := by
  obtain ⟨-, c, hc, hdigit⟩ := d.leading_spec
  refine ⟨c, ?_, hdigit⟩
  rw [scientific_eq, List.head?_append, hc, Option.some_or]

theorem exponent_mem_scientific (d : Digits) : 'e' ∈ d.scientific.toList := by
  rw [scientific_eq]
  exact List.mem_append_right _ List.mem_cons_self

theorem mem_scientific {d : Digits} {c : Char} (h : c ∈ d.scientific.toList) :
    c.isDigit = true ∨ c = '.' ∨ c = 'e' ∨ c = '-' := by
  rw [scientific_eq, List.mem_append, List.mem_cons] at h
  rcases h with h | h | h
  · exact (Digits.mem_leading h).imp_right Or.inl
  · exact Or.inr (Or.inr (Or.inl h))
  · exact (mem_integer h).imp_right fun h => Or.inr (Or.inr h)

/-- A decimal can be read back from its text with an exponent. -/
theorem scientific_inj {d d' : Digits} (h : d.scientific = d'.scientific) : d = d' := by
  have h' := congrArg String.toList h
  have he : 'e' ∉ d.leading := by
    intro hmem
    rcases Digits.mem_leading hmem with hdigit | hpoint
    · exact absurd hdigit (by decide)
    · exact absurd hpoint (by decide)
  have he' : 'e' ∉
      (toString (d.exponent + ((Nat.toDigits 10 d.digits).length - 1 : ℕ))).toList := by
    intro hmem
    rcases mem_integer hmem with hdigit | hsign
    · exact absurd hdigit (by decide)
    · exact absurd hsign (by decide)
  rw [scientific_eq, scientific_eq, List.append_cons_inj_of_notMem he he'] at h'
  obtain ⟨hfront, -, hexp⟩ := h'
  have hsame : Nat.toDigits 10 d.digits = Nat.toDigits 10 d'.digits := by
    rw [← d.leading_spec.1, hfront, d'.leading_spec.1]
  have hsum := Int.repr_inj.mp (String.toList_inj.mp hexp)
  rw [hsame, add_left_inj] at hsum
  cases d
  cases d'
  exact congrArg₂ Digits.mk (toDigits_inj hsame) hsum

end CompilerBackend.Decimal
