import CompilerBackend.Program
import CompilerBackend.Text.Lines
import Mathlib
/-!
# Codes of fixed texts

Tests of fixed texts run on the codes of their bytes, which is what a text is stored as. For
ASCII text these are the codes of its characters: `codes_eq_of_ascii`.
-/

namespace CompilerBackend.Text

def codes (s : String) : List Nat := s.toByteArray.data.toList.map UInt8.toNat

def isPlainCode (n : Nat) : Bool := 0x20 ≤ n && n ≤ 0x7e

def isNameCode (n : Nat) : Bool :=
  (97 ≤ n && n ≤ 122) || (65 ≤ n && n ≤ 90) || n == 95 || (48 ≤ n && n ≤ 57)

theorem toNat_utf8EncodeChar {c : Char} (h : ∀ b ∈ String.utf8EncodeChar c, b.toNat < 128) :
    (String.utf8EncodeChar c).map UInt8.toNat = [c.toNat] := by
  have hv : c.val.toNat = c.toNat := rfl
  unfold String.utf8EncodeChar at h ⊢
  rw [hv] at h ⊢
  dsimp only at h ⊢
  split_ifs at h ⊢ with h1 h2 h3
  · rw [List.map_singleton, UInt8.toNat_ofNat', Nat.mod_eq_of_lt (by omega)]
  -- a character of more than one byte begins with a large one
  all_goals
    have hlead := h _ List.mem_cons_self
    rw [UInt8.toNat_ofNat', Nat.mod_eq_of_lt (by omega)] at hlead
    omega

theorem codes_eq_of_ascii {s : String} (h : ∀ n ∈ codes s, n < 128) :
    codes s = s.toList.map Char.toNat := by
  have hbytes : codes s = (s.toList.flatMap String.utf8EncodeChar).map UInt8.toNat := by
    rw [codes, ← String.utf8Encode_toList, List.utf8Encode, List.data_toByteArray]
  rw [hbytes] at h ⊢
  generalize s.toList = chars at h ⊢
  induction chars with
  | nil => rfl
  | cons c cs ih =>
      rw [List.flatMap_cons, List.map_append] at h ⊢
      have hc := toNat_utf8EncodeChar fun b hb =>
        h _ (List.mem_append_left _ (List.mem_map_of_mem hb))
      rw [hc, ih fun n hn => h n (List.mem_append_right _ hn), List.map_cons, List.singleton_append]

theorem codes_eq {s : String} (h : ∀ n ∈ codes s, isPlainCode n = true) :
    codes s = s.toList.map Char.toNat := by
  refine codes_eq_of_ascii fun n hn => ?_
  have hplain := h n hn
  rw [isPlainCode, Bool.and_eq_true, decide_eq_true_eq, decide_eq_true_eq] at hplain
  omega

theorem isNameChar_eq_isNameCode (c : Char) : isNameChar c = isNameCode c.toNat := by
  have hle (a b : Char) : decide (a ≤ b) = decide (a.toNat ≤ b.toNat) := rfl
  have heq : (c == '_') = (c.toNat == 95) := by
    rw [Bool.eq_iff_iff, beq_iff_eq, beq_iff_eq]
    exact ⟨fun h => by rw [h]; rfl, fun h => Char.ext (UInt32.toNat_inj.mp h)⟩
  rw [isNameChar, isNameStart, isNameCode, heq, hle, hle, hle, hle, hle, hle]
  rfl

/-- The blank is the only blank character of plain code. -/
theorem eq_space_of_isBlank {c : Char} (hc : isPlainCode c.toNat = true)
    (hblank : isBlank c = true) : c = ' ' := by
  rw [isPlainCode, Bool.and_eq_true, decide_eq_true_eq, decide_eq_true_eq] at hc
  simp only [isBlank, Bool.or_eq_true, Bool.and_eq_true, beq_iff_eq, decide_eq_true_eq] at hblank
  have hcode : c.toNat = 0x20 := by omega
  exact Char.ext (UInt32.toNat_inj.mp hcode)

theorem isBlank_of_isNameChar {c : Char} (h : isNameChar c = true) : isBlank c = false := by
  rw [isNameChar_eq_isNameCode] at h
  simp only [isNameCode, Bool.or_eq_true, Bool.and_eq_true, beq_iff_eq, decide_eq_true_eq] at h
  simp only [isBlank, Bool.or_eq_false_iff, Bool.and_eq_false_iff, beq_eq_false_iff_ne,
    decide_eq_false_iff_not]
  omega

end CompilerBackend.Text
