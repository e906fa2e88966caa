import CompilerBackend.Proofs.Text.Quoted
import CompilerBackend.Proofs.Text.Lines
import Mathlib
/-!
# Printable text

Text of visible ASCII characters and blanks. It always stands on one line, and whatever bytes a
target string is made of, its spelling is printable.
-/

namespace CompilerBackend.Text

def isPrintable (c : Char) : Bool := 0x20 ≤ c.toNat && c.toNat ≤ 0x7e

def Printable (s : String) : Prop := ∀ c ∈ s.toList, isPrintable c = true

theorem isPrintable_eq_true {c : Char} :
    isPrintable c = true ↔ 0x20 ≤ c.toNat ∧ c.toNat ≤ 0x7e := by
  rw [isPrintable, Bool.and_eq_true, decide_eq_true_eq, decide_eq_true_eq]

namespace Printable

theorem isLine {s : String} (h : Printable s) : IsLine s where
  flat hmem := absurd (h _ hmem) (by decide)
  open_end hlast := absurd (h _ (List.mem_of_getLast? hlast)) (by decide)

theorem append {a b : String} (ha : Printable a) (hb : Printable b) : Printable (a ++ b) := by
  intro c hc
  rw [String.toList_append, List.mem_append] at hc
  exact hc.elim (ha c) (hb c)

theorem ofList {cs : List Char} (h : ∀ c ∈ cs, isPrintable c = true) :
    Printable (String.ofList cs) := by
  intro c hc
  rw [String.toList_ofList] at hc
  exact h c hc

theorem commaSeparated {l : List String} (h : ∀ s ∈ l, Printable s) :
    Printable (commaSeparated l) := by
  unfold Text.commaSeparated
  induction l with
  | nil => simp [Printable]
  | cons a l ih =>
      have ha : Printable a := h a List.mem_cons_self
      have hl := ih fun s hs => h s (List.mem_cons_of_mem a hs)
      cases l with
      | nil => rwa [String.intercalate_singleton]
      | cons b l =>
          rw [String.intercalate_cons_cons]
          exact (ha.append (by simp [Printable, isPrintable])).append hl

end Printable

theorem isPrintable_of_isDigit {c : Char} (h : c.isDigit = true) : isPrintable c = true := by
  simp only [Char.isDigit, Bool.and_eq_true, decide_eq_true_eq] at h
  obtain ⟨h1, h2⟩ := h
  have h3 : 48 ≤ c.toNat := h1
  have h4 : c.toNat ≤ 57 := h2
  exact isPrintable_eq_true.mpr ⟨by omega, by omega⟩

theorem isPrintable_of_mem_toDigits {n : Nat} {c : Char} (h : c ∈ Nat.toDigits 10 n) :
    isPrintable c = true :=
  isPrintable_of_isDigit (Nat.isDigit_of_mem_toDigits (by decide) (by decide) h)

theorem printable_natural (n : Nat) : Printable (toString n) := by
  rw [Nat.toString_eq_ofList_toDigits]
  exact Printable.ofList fun c hc => isPrintable_of_mem_toDigits hc

theorem printable_integer (n : Int) : Printable (toString n) := by
  cases n with
  | ofNat n => exact printable_natural n
  | negSucc n =>
      have hsign : toString (Int.negSucc n) = "-" ++ toString (n + 1) := rfl
      rw [hsign]
      exact Printable.append (by simp [Printable, isPrintable]) (printable_natural (n + 1))

/-! ## Target strings -/

theorem isPrintable_digitChar {d : Nat} (h : d < 16) : isPrintable (Nat.digitChar d) = true := by
  interval_cases d <;> decide

theorem isPrintable_of_mem_paddedDigits {b width n : Nat} {c : Char} (h0 : 0 < b) (h16 : b ≤ 16)
    (h : c ∈ paddedDigits b width n) : isPrintable c = true := by
  obtain ⟨d, hd, rfl⟩ := mem_paddedDigits h0 h
  exact isPrintable_digitChar (hd.trans_le h16)

theorem isPrintable_of_mem_targetStringChars {b : UInt8} {c : Char}
    (h : c ∈ targetStringChars b) : isPrintable c = true := by
  unfold targetStringChars at h
  split at h
  next => simp at h; subst h; decide
  next => simp at h; rcases h with rfl | rfl <;> decide
  next => simp at h; rcases h with rfl | rfl <;> decide
  next =>
      split_ifs at h with hvisible
      · rw [List.mem_singleton.mp h]
        exact isPrintable_eq_true.mpr (by rw [toNat_ofNat_byte]; exact hvisible)
      · rcases List.mem_cons.mp h with rfl | h
        · decide
        · exact isPrintable_of_mem_paddedDigits (by decide) (by decide) h

theorem printable_targetString (bytes : List UInt8) : Printable (targetString bytes) := by
  refine (Printable.append (by simp [Printable, isPrintable]) (Printable.ofList fun c hc => ?_)).append
    (by simp [Printable, isPrintable])
  obtain ⟨b, -, hb⟩ := List.mem_flatMap.mp hc
  exact isPrintable_of_mem_targetStringChars hb

end CompilerBackend.Text
