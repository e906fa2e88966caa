import CompilerBackend.Text.Quoted
import Mathlib.Tactic.NormNum
/-!
# Quoted text can be told from what follows it

- `valueOf_digitsFrom`, `hexText_inj`: digits determine the number they were written for.
- `unicodeLiteralChars_append_inj`: an escape announces its own length, and the character can
  be read back from it.
- `unicodeLiteral_append_inj`, `byteLiteral_append_inj`: no escape begins with the quote, so a
  literal ends at the first quote that no escape owns, whatever stands behind it.
- `targetString_append_inj`: the same for strings of the target, whose escapes are octal.
-/

namespace CompilerBackend.Text

/-! ## Digits -/

def digitValue (c : Char) : Nat := if c.toNat < 97 then c.toNat - 48 else c.toNat - 87

theorem digitValue_digitChar {d : Nat} (h : d < 16) : digitValue (Nat.digitChar d) = d := by
  revert d
  decide

/-- The number that digits in base `b` stand for, least significant first. -/
def valueOf (b : Nat) : List Char → Nat
  | [] => 0
  | c :: cs => digitValue c + b * valueOf b cs

theorem valueOf_digitsFrom {b : Nat} (h0 : 0 < b) (h16 : b ≤ 16) (width n : Nat) :
    valueOf b (digitsFrom b width n) = n % b ^ width := by
  induction width generalizing n with
  | zero => rw [digitsFrom, valueOf, pow_zero, Nat.mod_one]
  | succ width ih =>
      have hd : n % b < 16 := Nat.lt_of_lt_of_le (Nat.mod_lt n h0) h16
      rw [digitsFrom, valueOf, digitValue_digitChar hd, ih, pow_succ', Nat.mod_mul]

@[simp] theorem length_digitsFrom (b width n : Nat) : (digitsFrom b width n).length = width := by
  induction width generalizing n with
  | zero => rfl
  | succ width ih => rw [digitsFrom, List.length_cons, ih]

@[simp] theorem length_paddedDigits (b width n : Nat) :
    (paddedDigits b width n).length = width := by
  rw [paddedDigits, List.length_reverse, length_digitsFrom]

theorem valueOf_reverse_paddedDigits {width n : Nat} (h : n < 16 ^ width) :
    valueOf 16 (paddedDigits 16 width n).reverse = n := by
  rw [paddedDigits, List.reverse_reverse, valueOf_digitsFrom (by decide) (le_refl 16),
    Nat.mod_eq_of_lt h]

theorem valueOf_reverse_toDigits (n : Nat) : valueOf 16 (Nat.toDigits 16 n).reverse = n := by
  induction n using Nat.strongRecOn with
  | ind n ih =>
      rw [Nat.toDigits_eq_if (by decide)]
      split
      case isTrue h => rw [List.reverse_singleton, valueOf, digitValue_digitChar h, valueOf]; rfl
      case isFalse h =>
          have hlt : n / 16 < n := Nat.div_lt_self (by omega) (by decide)
          rw [List.reverse_append, List.reverse_singleton, List.singleton_append, valueOf,
            digitValue_digitChar (Nat.mod_lt n (by decide)), ih (n / 16) hlt]
          omega

/-- Numbers with the same hexadecimal text are the same. -/
theorem hexText_inj {m n : Nat} (h : hexText m = hexText n) : m = n := by
  have hd : Nat.toDigits 16 m = Nat.toDigits 16 n := String.ofList_inj.mp h
  rw [← valueOf_reverse_toDigits m, hd, valueOf_reverse_toDigits]

theorem mem_toDigits {b n : Nat} {c : Char} (h1 : 1 < b) (h : c ∈ Nat.toDigits b n) :
    ∃ d < b, c = Nat.digitChar d := by
  induction n using Nat.strongRecOn with
  | ind n ih =>
      rw [Nat.toDigits_eq_if h1] at h
      split at h
      case isTrue hlt => exact ⟨n, hlt, List.mem_singleton.mp h⟩
      case isFalse hge =>
          rcases List.mem_append.mp h with h | h
          · exact ih (n / b) (Nat.div_lt_self (by omega) h1) h
          · exact ⟨n % b, Nat.mod_lt n (by omega), List.mem_singleton.mp h⟩

theorem mem_paddedDigits {b width n : Nat} {c : Char} (h0 : 0 < b) (h : c ∈ paddedDigits b width n) :
    ∃ d < b, c = Nat.digitChar d := by
  rw [paddedDigits, List.mem_reverse] at h
  induction width generalizing n with
  | zero => exact absurd h List.not_mem_nil
  | succ width ih =>
      rcases List.mem_cons.mp h with rfl | h
      · exact ⟨n % b, Nat.mod_lt n h0, rfl⟩
      · exact ih h

/-! ## Escapes -/

/-- How many characters the escape at the front of a text has. -/
def escapeWidth : List Char → Nat
  | '\\' :: 'x' :: _ => 4
  | '\\' :: 'u' :: _ => 6
  | '\\' :: 'U' :: _ => 10
  | '\\' :: _ => 2
  | _ => 1

def unescape : List Char → Nat
  | ['\\', 'n'] => 10
  | ['\\', 'r'] => 13
  | ['\\', 't'] => 9
  | ['\\', c] => c.toNat
  | '\\' :: _ :: digits => valueOf 16 digits.reverse
  | c :: _ => c.toNat
  | [] => 0

theorem escapeWidth_of_ne {c : Char} (h : c ≠ '\\') (r : List Char) :
    escapeWidth (c :: r) = 1 := by
  unfold escapeWidth
  split <;> simp_all

theorem unescape_of_ne {c : Char} (h : c ≠ '\\') : unescape [c] = c.toNat := by
  unfold unescape
  split <;> simp_all

theorem char_lt (c : Char) : c.toNat < 16 ^ 8 := by
  have h := c.valid
  simp only [UInt32.isValidChar, Nat.isValidChar] at h
  show c.val.toNat < 16 ^ 8
  omega

theorem escapeWidth_unicodeLiteralChars (c : Char) (r : List Char) :
    escapeWidth (unicodeLiteralChars c ++ r) = (unicodeLiteralChars c).length := by
  unfold unicodeLiteralChars
  split
  case h_6 hc _ _ _ _ =>
      simp only
      split_ifs with h1 h2 h3
      · exact escapeWidth_of_ne hc r
      · simp [escapeWidth]
      · simp [escapeWidth]
      · simp [escapeWidth]
  all_goals rfl

/-- The digits of an escape with a letter are read as a number. -/
theorem unescape_digits (letter : Char) {width n : Nat} (hw : 2 ≤ width) (h : n < 16 ^ width) :
    unescape ('\\' :: letter :: paddedDigits 16 width n) = n := by
  have hlen := length_paddedDigits 16 width n
  -- two digits at least, so this is none of the short escapes
  have hcons : ∃ d e ds, paddedDigits 16 width n = d :: e :: ds := by
    match hp : paddedDigits 16 width n with
    | d :: e :: ds => exact ⟨d, e, ds, rfl⟩
    | [] => rw [hp, List.length_nil] at hlen; omega
    | [_] => rw [hp, List.length_singleton] at hlen; omega
  obtain ⟨d, e, ds, hp⟩ := hcons
  have hval := valueOf_reverse_paddedDigits h
  rw [hp] at hval ⊢
  simpa only [unescape] using hval

theorem unescape_unicodeLiteralChars (c : Char) :
    unescape (unicodeLiteralChars c) = c.toNat := by
  unfold unicodeLiteralChars
  split
  case h_6 hc _ _ _ _ =>
      simp only
      split_ifs with h1 h2 h3
      · exact unescape_of_ne hc
      · exact unescape_digits 'x' (le_refl 2) h2
      · exact unescape_digits 'u' (by decide) h3
      · exact unescape_digits 'U' (by decide) (char_lt c)
  all_goals rfl

/-- An escape can be cancelled from the front of two texts. -/
theorem unicodeLiteralChars_append_inj {c d : Char} {r r' : List Char}
    (h : unicodeLiteralChars c ++ r = unicodeLiteralChars d ++ r') : c = d ∧ r = r' := by
  have hlen : (unicodeLiteralChars c).length = (unicodeLiteralChars d).length := by
    rw [← escapeWidth_unicodeLiteralChars c r, h, escapeWidth_unicodeLiteralChars]
  obtain ⟨hcd, hr⟩ := List.append_inj h hlen
  refine ⟨Char.toNat_inj.mp ?_, hr⟩
  rw [← unescape_unicodeLiteralChars c, hcd, unescape_unicodeLiteralChars]

theorem unicodeLiteralChars_ne_quote (c : Char) (r r' : List Char) :
    unicodeLiteralChars c ++ r ≠ '\'' :: r' := by
  unfold unicodeLiteralChars
  split
  case h_6 hc _ _ _ _ =>
      simp only
      split_ifs <;> simp_all
  all_goals simp

theorem toNat_ofNat_byte (b : UInt8) : (Char.ofNat b.toNat).toNat = b.toNat := by
  have hlt : b.toNat < 256 := b.toNat_lt
  have hvalid : b.toNat.isValidChar := Or.inl (by omega)
  rw [Char.ofNat, dif_pos hvalid]
  rfl

/-- A byte is escaped as the character of the same number. -/
theorem byteLiteralChars_eq (b : UInt8) :
    byteLiteralChars b = unicodeLiteralChars (Char.ofNat b.toNat) := by
  have hlt : b.toNat < 256 := b.toNat_lt
  have hval := toNat_ofNat_byte b
  unfold byteLiteralChars unicodeLiteralChars
  split
  case h_6 =>
      simp only [hval]
      rw [if_pos hlt]
  all_goals simp_all

/-! ## Literals -/

/-- A quoted list of escapes can be cancelled from the front of two texts, if each escape can
and none begins with the quote. -/
theorem flatMap_quote_inj {α : Type} {escape : α → List Char} {quote : Char}
    (inj : ∀ a b r r', escape a ++ r = escape b ++ r' → a = b ∧ r = r')
    (ne_quote : ∀ a r r', escape a ++ r ≠ quote :: r') {l l' : List α} {r r' : List Char}
    (h : l.flatMap escape ++ quote :: r = l'.flatMap escape ++ quote :: r') :
    l = l' ∧ r = r' := by
  induction l generalizing l' with
  | nil =>
      cases l' with
      | nil => exact ⟨rfl, List.tail_eq_of_cons_eq h⟩
      | cons b l' =>
          rw [List.flatMap_cons, List.append_assoc] at h
          exact absurd h.symm (ne_quote b _ _)
  | cons a l ih =>
      rw [List.flatMap_cons, List.append_assoc] at h
      cases l' with
      | nil => exact absurd h (ne_quote a _ _)
      | cons b l' =>
          rw [List.flatMap_cons, List.append_assoc] at h
          obtain ⟨hab, hrest⟩ := inj a b _ _ h
          obtain ⟨hl, hr⟩ := ih hrest
          exact ⟨by rw [hab, hl], hr⟩

/-- A character literal ends where its text says, and determines the text. -/
theorem unicodeLiteral_append_inj {s s' : String} {r r' : List Char}
    (h : (unicodeLiteral s).toList ++ r = (unicodeLiteral s').toList ++ r') :
    s = s' ∧ r = r' := by
  simp only [unicodeLiteral, String.toList_append, String.toList_ofList, List.append_assoc] at h
  obtain ⟨hs, hr⟩ := flatMap_quote_inj (fun _ _ _ _ => unicodeLiteralChars_append_inj)
    unicodeLiteralChars_ne_quote (List.append_cancel_left h)
  exact ⟨String.toList_inj.mp hs, hr⟩

/-- A byte literal ends where its text says, and determines the bytes. -/
theorem byteLiteral_append_inj (letter : String) {l l' : List UInt8} {r r' : List Char}
    (h : (byteLiteral letter l).toList ++ r = (byteLiteral letter l').toList ++ r') :
    l = l' ∧ r = r' := by
  simp only [byteLiteral, String.toList_append, String.toList_ofList, List.append_assoc] at h
  refine flatMap_quote_inj (fun a b r r' hab => ?_) (fun a r r' => ?_)
    (List.append_cancel_left (List.append_cancel_left h))
  · rw [byteLiteralChars_eq, byteLiteralChars_eq] at hab
    obtain ⟨hc, hr⟩ := unicodeLiteralChars_append_inj hab
    have hn : a.toNat = b.toNat := by
      rw [← toNat_ofNat_byte a, hc, toNat_ofNat_byte]
    exact ⟨UInt8.toNat_inj.mp hn, hr⟩
  · rw [byteLiteralChars_eq]
    exact unicodeLiteralChars_ne_quote _ r r'

/-! ## Strings of the target -/

/-- How many characters the escape at the front of a target string has. -/
def octalWidth : List Char → Nat
  | '\\' :: c :: _ => if c.isDigit = true then 4 else 2
  | _ => 1

def unescapeOctal : List Char → Nat
  | ['\\', c] => c.toNat
  | '\\' :: digits => valueOf 8 digits.reverse
  | c :: _ => c.toNat
  | [] => 0

theorem octalWidth_of_ne {c : Char} (h : c ≠ '\\') (r : List Char) :
    octalWidth (c :: r) = 1 := by
  unfold octalWidth
  split <;> simp_all

theorem unescapeOctal_of_ne {c : Char} (h : c ≠ '\\') : unescapeOctal [c] = c.toNat := by
  unfold unescapeOctal
  split <;> simp_all

/-- Three octal digits, the first of them in front. -/
theorem paddedDigits_octal (n : Nat) : ∃ d e f : Char, d.isDigit = true ∧
    paddedDigits 8 3 n = [d, e, f] := by
  refine ⟨Nat.digitChar (n / 8 / 8 % 8), Nat.digitChar (n / 8 % 8), Nat.digitChar (n % 8), ?_, rfl⟩
  rw [Nat.isDigit_digitChar, decide_eq_true_eq]
  omega

theorem octalWidth_targetStringChars (b : UInt8) (r : List Char) :
    octalWidth (targetStringChars b ++ r) = (targetStringChars b).length := by
  unfold targetStringChars
  split
  case h_4 hc _ _ =>
      split_ifs
      · exact octalWidth_of_ne hc r
      · obtain ⟨d, e, f, hd, hdigits⟩ := paddedDigits_octal b.toNat
        rw [hdigits]
        exact if_pos hd
  all_goals rfl

theorem unescapeOctal_targetStringChars (b : UInt8) :
    unescapeOctal (targetStringChars b) = b.toNat := by
  have hlt : b.toNat < 8 ^ 3 := b.toNat_lt.trans (by decide)
  have hval := toNat_ofNat_byte b
  unfold targetStringChars
  split
  case h_4 hc _ _ =>
      split_ifs
      · rw [unescapeOctal_of_ne hc, hval]
      · obtain ⟨d, e, f, -, hdigits⟩ := paddedDigits_octal b.toNat
        have hread : valueOf 8 (paddedDigits 8 3 b.toNat).reverse = b.toNat := by
          rw [paddedDigits, List.reverse_reverse, valueOf_digitsFrom (by decide) (by decide),
            Nat.mod_eq_of_lt hlt]
        rw [hdigits] at hread ⊢
        exact hread
  all_goals
    rw [← hval]
    simp_all [unescapeOctal]

theorem targetStringChars_append_inj {a b : UInt8} {r r' : List Char}
    (h : targetStringChars a ++ r = targetStringChars b ++ r') : a = b ∧ r = r' := by
  have hlen : (targetStringChars a).length = (targetStringChars b).length := by
    rw [← octalWidth_targetStringChars a r, h, octalWidth_targetStringChars]
  obtain ⟨hab, hr⟩ := List.append_inj h hlen
  refine ⟨UInt8.toNat_inj.mp ?_, hr⟩
  rw [← unescapeOctal_targetStringChars a, hab, unescapeOctal_targetStringChars]

theorem targetStringChars_ne_quote (b : UInt8) (r r' : List Char) :
    targetStringChars b ++ r ≠ '"' :: r' := by
  unfold targetStringChars
  split
  case h_4 _ hc _ => split_ifs <;> simp_all
  all_goals simp

/-- A target string ends where its escapes say, and determines the bytes. -/
theorem targetString_append_inj {l l' : List UInt8} {r r' : List Char}
    (h : (targetString l).toList ++ r = (targetString l').toList ++ r') : l = l' ∧ r = r' := by
  simp only [targetString, String.toList_append, String.toList_ofList, List.append_assoc] at h
  exact flatMap_quote_inj (fun _ _ _ _ => targetStringChars_append_inj)
    targetStringChars_ne_quote (List.append_cancel_left h)

/-! ## Bytes -/

/-- Texts with the same bytes are the same. -/
theorem utf8_inj {s s' : String} (h : utf8 s = utf8 s') : s = s' := by
  have hb : s.toList.utf8Encode = s'.toList.utf8Encode := List.toByteArray_inj.mpr h
  rw [String.utf8Encode_toList, String.utf8Encode_toList] at hb
  exact String.toByteArray_inj.mp hb

end CompilerBackend.Text
