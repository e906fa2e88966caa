import CompilerBackend.Target.Control
import CompilerBackend.Proofs.Text.Code
import CompilerBackend.Proofs.Text.Quoted
import CompilerBackend.Proofs.Text.Token
/-!
# Tokens of escaped text

An escape replaces a character that stands in no name by others, of which the first stands in no
name either. A token that begins with a letter no escape writes is then a token of the text before
the escapes: `IsRun.of_flatMap`. Both escapes of target text are of that kind.
-/

namespace CompilerBackend

open Text Target

/-- An escape keeps the characters of names, and writes something for every other character that
keeps off what stands in front of it and has no `first` in it. -/
def IsEscape (first : Char) (f : Char → List Char) : Prop :=
  ∀ c, f c = [c] ∨
    (isNameChar c = false ∧ f c ≠ [] ∧ StartsApart (f c) ∧ first ∉ f c)

/-- A token of escaped text that no escape can begin is one of the text itself. -/
theorem IsRun.of_flatMap {first : Char} {f : Char → List Char} (hf : IsEscape first f)
    {w a cs : List Char} (hw : w.head? = some first) (h : IsRun w (a ++ cs.flatMap f)) :
    IsRun w (a ++ cs) := by
  induction cs generalizing a with
  | nil => exact h
  | cons c cs ih =>
      rw [List.flatMap_cons] at h
      rcases hf c with hkeep | ⟨hc, hne, hstart, hfirst⟩
      · have hnext := ih (a := a ++ [c]) (by rw [List.append_assoc, ← hkeep]; exact h)
        rw [List.append_assoc] at hnext
        exact hnext
      · have hsolid : StartsApart (c :: cs) := by
          intro d hd
          rw [← Option.some.inj (Option.mem_def.mp hd)]
          exact hc
        rcases h.append_apart (Or.inr (hstart.append hne)) with h | h
        · exact h.of_part endsApart_nil hsolid
        · rcases h.append_cases with ⟨before, rest, hrest, hsplit, -, hpre⟩ | h
          · -- the token would begin within the escape
            obtain ⟨d, ds, rfl⟩ := List.exists_cons_of_ne_nil hrest
            obtain ⟨tail, htail⟩ := hpre
            have hd : some d = some first := by
              rw [← hw, ← List.head?_cons (a := d) (l := ds ++ cs.flatMap f), ← List.cons_append,
                ← htail, List.head?_append, hw, Option.some_or]
            refine absurd ?_ hfirst
            rw [hsplit, ← Option.some.inj hd]
            exact List.mem_append_right before List.mem_cons_self
          · have hpart := (ih (a := []) h).of_part (x := a ++ [c]) (y := [])
              (EndsApart.append (fun d hd => ?_) (List.cons_ne_nil c [])) startsApart_nil
            · simpa using hpart
            · rw [← Option.some.inj (Option.mem_def.mp hd)]
              exact hc

/-! ## Trace messages -/

theorem isEscape_traceChars {first : Char} (h : first ≠ '"') (h' : first ≠ '\\') :
    IsEscape first traceChars := by
  intro c
  unfold traceChars
  split
  next hc =>
      right
      refine ⟨by rw [hc]; decide, List.cons_ne_nil _ _, ?_, by simp [h, h']⟩
      intro d hd
      rw [← Option.some.inj (Option.mem_def.mp hd)]
      decide
  next => exact Or.inl rfl

/-! ## Strings of the target -/

/-- A byte below 128 is a whole character. -/
theorem utf8EncodeChar_of_mem {c : Char} {b : UInt8} (hb : b ∈ String.utf8EncodeChar c)
    (hlow : b.toNat < 128) : String.utf8EncodeChar c = [b] ∧ b.toNat = c.toNat := by
  have hv : c.val.toNat = c.toNat := rfl
  unfold String.utf8EncodeChar at hb ⊢
  rw [hv] at hb ⊢
  dsimp only at hb ⊢
  split_ifs at hb ⊢ with h1 h2 h3
  · rw [List.mem_singleton.mp hb, UInt8.toNat_ofNat', Nat.mod_eq_of_lt (by omega)]
    exact ⟨rfl, rfl⟩
  -- a character of more than one byte has none below 128
  all_goals
    exfalso
    simp only [List.mem_cons, List.not_mem_nil, or_false] at hb
  · rcases hb with rfl | rfl <;> rw [UInt8.toNat_ofNat'] at hlow <;> omega
  · rcases hb with rfl | rfl | rfl <;> rw [UInt8.toNat_ofNat'] at hlow <;> omega
  · rcases hb with rfl | rfl | rfl | rfl <;> rw [UInt8.toNat_ofNat'] at hlow <;> omega

/-- The digits of an octal escape are digits. -/
theorem isDigit_of_mem_octal {width n : Nat} {c : Char} (h : c ∈ paddedDigits 8 width n) :
    c.isDigit = true := by
  obtain ⟨d, hd, rfl⟩ := mem_paddedDigits (by decide) h
  rw [Nat.isDigit_digitChar, decide_eq_true_eq]
  omega

theorem targetStringChars_of_name {b : UInt8} (h : isNameCode b.toNat = true) :
    targetStringChars b = [Char.ofNat b.toNat] := by
  have hname : isNameChar (Char.ofNat b.toNat) = true := by
    rw [isNameChar_eq_isNameCode, toNat_ofNat_byte]
    exact h
  have hplain : 0x20 ≤ b.toNat ∧ b.toNat ≤ 0x7e := by
    simp only [isNameCode, Bool.or_eq_true, Bool.and_eq_true, beq_iff_eq, decide_eq_true_eq] at h
    omega
  unfold targetStringChars
  split
  next hc => exact absurd hname (by rw [hc]; decide)
  next hc => exact absurd hname (by rw [hc]; decide)
  next hc => exact absurd hname (by rw [hc]; decide)
  next => exact if_pos hplain

/-- A byte of no name is written as itself or behind a backslash. -/
theorem targetStringChars_of_other {b : UInt8} (h : isNameCode b.toNat = false) :
    targetStringChars b ≠ [] ∧ StartsApart (targetStringChars b) ∧
      ∀ c ∈ targetStringChars b, isNameChar c = true → c.isDigit = true := by
  have hname : isNameChar (Char.ofNat b.toNat) = false := by
    rw [isNameChar_eq_isNameCode, toNat_ofNat_byte]
    exact h
  have hslash : isNameChar '\\' = false := by decide
  have hescape : ∀ cs : List Char, StartsApart ('\\' :: cs) := by
    intro cs d hd
    rw [← Option.some.inj (Option.mem_def.mp hd)]
    exact hslash
  unfold targetStringChars
  split
  next => exact ⟨by simp, hescape _, by simp [isNameChar, isNameStart]⟩
  next => exact ⟨by simp, hescape _, by simp [isNameChar, isNameStart]⟩
  next => exact ⟨by simp, hescape _, by simp [isNameChar, isNameStart]⟩
  next =>
      split_ifs
      · refine ⟨by simp, fun d hd => ?_, fun d hd hdname => ?_⟩
        · rw [← Option.some.inj (Option.mem_def.mp hd)]
          exact hname
        · rw [List.mem_singleton.mp hd, hname] at hdname
          exact Bool.noConfusion hdname
      · refine ⟨by simp, hescape _, fun d hd hdname => ?_⟩
        rcases List.mem_cons.mp hd with rfl | hd
        · rw [hslash] at hdname
          exact Bool.noConfusion hdname
        · exact isDigit_of_mem_octal hd

theorem isEscape_targetStringChars {first : Char} (hfirst : isNameChar first = true)
    (hdigit : first.isDigit = false) :
    IsEscape first fun c => (String.utf8EncodeChar c).flatMap targetStringChars := by
  intro c
  cases hc : isNameChar c with
  | true =>
      left
      have hcode := hc
      rw [isNameChar_eq_isNameCode] at hcode
      have hlow : c.toNat ≤ 127 := by
        simp only [isNameCode, Bool.or_eq_true, Bool.and_eq_true, beq_iff_eq, decide_eq_true_eq]
          at hcode
        omega
      have hsize : c.utf8Size = 1 := by
        rw [Char.utf8Size_eq_one_iff, UInt32.le_iff_toNat_le]
        exact hlow
      dsimp only
      rw [String.utf8EncodeChar_eq_singleton hsize, List.flatMap_singleton]
      have hval : c.val.toUInt8.toNat = c.toNat := by
        rw [UInt32.toNat_toUInt8]
        exact Nat.mod_eq_of_lt (hlow.trans_lt (by decide))
      rw [targetStringChars_of_name (by rw [hval]; exact hcode), hval, Char.ofNat_toNat]
  | false =>
      right
      have hother : ∀ b ∈ String.utf8EncodeChar c, isNameCode b.toNat = false := by
        intro b hb
        rw [isNameChar_eq_isNameCode] at hc
        by_cases hlow : b.toNat < 128
        · rw [(utf8EncodeChar_of_mem hb hlow).2]
          exact hc
        · simp only [isNameCode, Bool.or_eq_false_iff, Bool.and_eq_false_iff, beq_eq_false_iff_ne,
            decide_eq_false_iff_not]
          omega
      obtain ⟨b, bs, hbytes⟩ := List.exists_cons_of_ne_nil (String.utf8EncodeChar_ne_nil (c := c))
      dsimp only
      rw [hbytes] at hother ⊢
      obtain ⟨hne, hstart, -⟩ := targetStringChars_of_other (hother b List.mem_cons_self)
      rw [List.flatMap_cons]
      refine ⟨rfl, List.append_ne_nil_of_left_ne_nil hne _, hstart.append hne, fun hmem => ?_⟩
      rw [← List.flatMap_cons] at hmem
      obtain ⟨b', hb', hmem⟩ := List.mem_flatMap.mp hmem
      rw [(targetStringChars_of_other (hother b' hb')).2.2 first hmem hfirst] at hdigit
      exact Bool.noConfusion hdigit

end CompilerBackend
