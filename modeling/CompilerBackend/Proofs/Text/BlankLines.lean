import CompilerBackend.Text.Lines
import CompilerBackend.Proofs.Text.Lines
import Mathlib.Data.List.Basic
/-!
# Blank lines

A line of a text is blank if nothing but blanks stands between the line ends around it. In a text
that neither begins nor ends with a blank, these line ends are line feeds of the text itself, so what
is put around the text does not matter.

- `Edged`: a text without blank margins that is not empty.
- `Gap`: two line feeds with nothing but blanks between them.
- `blank_of_gap`, `gap_of_blank`: gaps and blank lines.
- `not_blank_of_part`: where the whole has no blank line, a part in other surroundings has none.
-/

namespace CompilerBackend.Text

variable {cs line a p q : List Char}

/-! ## Margins -/

structure Edged (cs : List Char) : Prop where
  head : ∃ c, cs.head? = some c ∧ isBlank c = false
  last : ∃ c, cs.getLast? = some c ∧ isBlank c = false

theorem Edged.reverse (h : Edged cs) : Edged cs.reverse where
  head := by simpa using h.last
  last := by simpa using h.head

theorem edged_append (hp : ∃ c, p.head? = some c ∧ isBlank c = false)
    (hq : ∃ c, q.getLast? = some c ∧ isBlank c = false) : Edged (p ++ q) where
  head := by
    obtain ⟨c, hc, hfull⟩ := hp
    exact ⟨c, by rw [List.head?_append, hc, Option.some_or], hfull⟩
  last := by
    obtain ⟨c, hc, hfull⟩ := hq
    exact ⟨c, by rw [List.getLast?_append, hc, Option.some_or], hfull⟩

theorem Edged.ne_empty {s : String} (h : Edged s.toList) : s ≠ "" := by
  rintro rfl
  obtain ⟨c, hc, -⟩ := h.head
  exact nomatch hc

theorem dropWhile_of_head (h : ∃ c, cs.head? = some c ∧ isBlank c = false) :
    cs.dropWhile isBlank = cs := by
  obtain ⟨c, hc, hfull⟩ := h
  obtain ⟨tail, rfl⟩ := List.head?_eq_some_iff.mp hc
  exact List.dropWhile_cons_of_neg (by simpa using hfull)

theorem Edged.trimChars_eq (h : Edged cs) : trimChars cs = cs := by
  rw [trimChars, dropWhile_of_head h.head, dropWhile_of_head h.reverse.head, List.reverse_reverse]

theorem hasNoMargin_of_edged {s : String} (h : Edged s.toList) : hasNoMargin s = true := by
  rw [hasNoMargin, trim, h.trimChars_eq, String.ofList_toList, beq_self_eq_true]

theorem dropWhile_of_trimmed (h : trimChars cs = cs) :
    cs.dropWhile isBlank = cs ∧ cs.reverse.dropWhile isBlank = cs.reverse := by
  have hfront : cs.dropWhile isBlank = cs := by
    refine (List.dropWhile_sublist isBlank).eq_of_length_le ?_
    have hle := (List.dropWhile_sublist (l := (cs.dropWhile isBlank).reverse) isBlank).length_le
    have hlength : ((cs.dropWhile isBlank).reverse.dropWhile isBlank).length = cs.length := by
      rw [← congrArg List.length h, trimChars, List.length_reverse]
    rwa [hlength, List.length_reverse] at hle
  refine ⟨hfront, ?_⟩
  rw [trimChars, hfront] at h
  exact List.reverse_eq_iff.mp h

theorem head_of_dropWhile (h : cs.dropWhile isBlank = cs) (hne : cs ≠ []) :
    ∃ c, cs.head? = some c ∧ isBlank c = false := by
  obtain ⟨c, cs, rfl⟩ := List.exists_cons_of_ne_nil hne
  refine ⟨c, rfl, ?_⟩
  by_contra hblank
  rw [List.dropWhile_cons_of_pos (by simpa using hblank)] at h
  have hle := (List.dropWhile_sublist (l := cs) isBlank).length_le
  rw [h, List.length_cons] at hle
  omega

theorem edged_of_hasNoMargin {s : String} (h : hasNoMargin s = true) (hne : s ≠ "") :
    Edged s.toList := by
  have htrim : trimChars s.toList = s.toList := by
    have heq : trim s = s := beq_iff_eq.mp h
    rw [trim] at heq
    rw [← String.toList_ofList (l := trimChars s.toList), heq]
  have hchars : s.toList ≠ [] := fun hnil => hne (String.toList_eq_nil_iff.mp hnil)
  obtain ⟨hfront, hback⟩ := dropWhile_of_trimmed htrim
  have hlast := head_of_dropWhile hback (by simpa using hchars)
  exact ⟨head_of_dropWhile hfront hchars, by simpa using hlast⟩

/-! ## Gaps -/

def Gap (cs : List Char) : Prop :=
  ∃ b : List Char, (∀ c ∈ b, isBlank c = true) ∧ '\n' :: (b ++ ['\n']) <:+: cs

theorem Gap.reverse (h : Gap cs) : Gap cs.reverse := by
  obtain ⟨b, hb, hinfix⟩ := h
  refine ⟨b.reverse, fun c hc => hb c (List.mem_reverse.mp hc), ?_⟩
  have hback := List.reverse_infix.mpr hinfix
  simpa using hback

theorem Gap.mono (h : Gap p) (hp : p <:+: cs) : Gap cs := by
  obtain ⟨b, hb, hinfix⟩ := h
  exact ⟨b, hb, hinfix.trans hp⟩

/-- No gap begins in front of the first line feed. -/
theorem Gap.of_append_left (hp : '\n' ∉ p) (h : Gap (p ++ cs)) : Gap cs := by
  induction p with
  | nil => exact h
  | cons c p ih =>
      obtain ⟨b, hb, hinfix⟩ := h
      rw [List.mem_cons, not_or] at hp
      rcases List.infix_cons_iff.mp hinfix with hprefix | hinfix
      · exact absurd (List.cons_prefix_cons.mp hprefix).1 hp.1
      · exact ih hp.2 ⟨b, hb, hinfix⟩

theorem Gap.of_append_right (hq : '\n' ∉ q) (h : Gap (cs ++ q)) : Gap cs := by
  have hback := h.reverse
  rw [List.reverse_append] at hback
  have hgap := (hback.of_append_left (by simpa using hq)).reverse
  rwa [List.reverse_reverse] at hgap

/-- Where the text begins with a character that is not blank, no gap ends in its first line. -/
theorem Gap.of_cons (h : Gap ('\n' :: cs)) (hhead : ∃ c, cs.head? = some c ∧ isBlank c = false) :
    Gap cs := by
  obtain ⟨b, hb, hinfix⟩ := h
  obtain ⟨c, hc, hfull⟩ := hhead
  rcases List.infix_cons_iff.mp hinfix with hprefix | hinfix
  -- a gap at the start would make the first character blank
  · obtain ⟨more, hmore⟩ := (List.cons_prefix_cons.mp hprefix).2
    have hblank : isBlank c = true := by
      cases b with
      | nil =>
          rw [← hmore] at hc
          rw [← Option.some.inj hc]
          rfl
      | cons d b =>
          rw [← hmore] at hc
          rw [← Option.some.inj hc]
          exact hb d List.mem_cons_self
    rw [hblank] at hfull
    exact nomatch hfull
  · exact ⟨b, hb, hinfix⟩

/-! ## Blank lines -/

theorem blank_closeLine_iff :
    (∀ c ∈ closeLine line, isBlank c = true) ↔ ∀ c ∈ line, isBlank c = true := by
  unfold closeLine
  split
  next line =>
    have hreturn : isBlank '\r' = true := by decide
    simp [hreturn]
  next => simp

/-- With a line feed at either end, a blank line is a gap. -/
theorem gap_of_mem_linesFrom {l : List Char} (hl : l ∈ linesFrom line cs)
    (hblank : ∀ c ∈ l, isBlank c = true) : Gap ('\n' :: (line.reverse ++ cs ++ ['\n'])) := by
  induction cs generalizing line with
  | nil =>
      rw [linesFrom] at hl
      split at hl
      next => exact absurd hl List.not_mem_nil
      next =>
        rw [List.mem_singleton.mp hl] at hblank
        exact ⟨line.reverse, hblank, [], [], by simp⟩
  | cons c cs ih =>
      rw [linesFrom] at hl
      split at hl
      next hc =>
        subst hc
        rcases List.mem_cons.mp hl with rfl | hl
        · rw [blank_closeLine_iff] at hblank
          refine ⟨line.reverse, fun c hc => hblank c (List.mem_reverse.mp hc), ?_⟩
          exact ⟨[], cs ++ ['\n'], by simp⟩
        · refine (ih hl).mono ⟨'\n' :: line.reverse, [], ?_⟩
          simp
      next =>
        have hgap := ih hl
        simpa using hgap

theorem exists_blank_of_gap (line : List Char) {b y : List Char} (hline : ∀ c ∈ line, isBlank c = true)
    (hb : ∀ c ∈ b, isBlank c = true) :
    ∃ l ∈ linesFrom line (b ++ '\n' :: y), ∀ c ∈ l, isBlank c = true := by
  induction b generalizing line with
  | nil =>
      refine ⟨closeLine line, ?_, blank_closeLine_iff.mpr hline⟩
      rw [List.nil_append, linesFrom, if_pos rfl]
      exact List.mem_cons_self
  | cons c b ih =>
      rw [List.forall_mem_cons] at hb
      rw [List.cons_append, linesFrom]
      split
      next => exact ⟨_, List.mem_cons_self, blank_closeLine_iff.mpr hline⟩
      next => exact ih _ (List.forall_mem_cons.mpr ⟨hb.1, hline⟩) hb.2

/-- What comes in front does not take a blank line away. -/
theorem exists_blank_of_infix (line x : List Char) {b y : List Char} (hb : ∀ c ∈ b, isBlank c = true) :
    ∃ l ∈ linesFrom line (x ++ '\n' :: (b ++ '\n' :: y)), ∀ c ∈ l, isBlank c = true := by
  induction x generalizing line with
  | nil =>
      obtain ⟨l, hl, hblank⟩ := exists_blank_of_gap [] (y := y) (fun _ hc => nomatch hc) hb
      refine ⟨l, ?_, hblank⟩
      rw [List.nil_append, linesFrom, if_pos rfl]
      exact List.mem_cons_of_mem _ hl
  | cons c x ih =>
      rw [List.cons_append, linesFrom]
      split
      next =>
        obtain ⟨l, hl, hblank⟩ := ih []
        exact ⟨l, List.mem_cons_of_mem _ hl, hblank⟩
      next => exact ih _

theorem any_blank_iff {s : String} : (lines s).any isBlankText = true ↔
    ∃ l ∈ linesFrom [] s.toList, ∀ c ∈ l, isBlank c = true := by
  simp [lines, isBlankText, List.any_eq_true]

theorem blank_of_gap {s : String} (h : Gap s.toList) : (lines s).any isBlankText = true := by
  obtain ⟨b, hb, x, y, hsplit⟩ := h
  rw [any_blank_iff, ← hsplit]
  have hblank := exists_blank_of_infix [] x (y := y) hb
  simpa using hblank

theorem gap_of_blank {s : String} (hedged : Edged s.toList)
    (h : (lines s).any isBlankText = true) : Gap s.toList := by
  obtain ⟨l, hl, hblank⟩ := any_blank_iff.mp h
  -- the outer lines are not blank, so the line feeds that close the text do not bound the gap
  have hclosed : Gap ('\n' :: (s.toList ++ ['\n'])) := gap_of_mem_linesFrom hl hblank
  obtain ⟨c, hc, hfull⟩ := hedged.head
  have hopen := (hclosed.of_cons ⟨c, by rw [List.head?_append, hc, Option.some_or], hfull⟩).reverse
  rw [List.reverse_append, List.reverse_singleton, List.singleton_append] at hopen
  have hgap := (hopen.of_cons hedged.reverse.head).reverse
  rwa [List.reverse_reverse] at hgap

/-! ## Parts -/

theorem infix_between (p a q : String) : a.toList <:+: (p ++ a ++ q).toList :=
  ⟨p.toList, q.toList, by simp⟩

theorem infix_commaSeparated {a : String} {parts : List String} (h : a ∈ parts) :
    a.toList <:+: (commaSeparated parts).toList := by
  induction parts with
  | nil => exact nomatch h
  | cons b parts ih =>
      cases parts with
      | nil =>
          have hone : commaSeparated [b] = b := String.intercalate_singleton
          exact hone.symm ▸ List.mem_singleton.mp h ▸ List.infix_rfl
      | cons d parts =>
          rw [commaSeparated, String.intercalate_cons_cons, String.toList_append]
          rcases List.mem_cons.mp h with rfl | h
          · rw [String.toList_append, List.append_assoc]
            exact (List.prefix_append _ _).isInfix
          · exact (ih h).trans (List.suffix_append _ _).isInfix

/-- A part whose surroundings hold no line feed has no blank line if a text that holds the part has
none. -/
theorem not_blank_of_part {s a p' q' : String} (h : (lines s).any isBlankText = false)
    (ha : a.toList <:+: s.toList) (hp : '\n' ∉ p'.toList) (hq : '\n' ∉ q'.toList)
    (hedged : Edged (p' ++ a ++ q').toList) : (lines (p' ++ a ++ q')).any isBlankText = false := by
  by_contra hblank
  have hgap := gap_of_blank hedged (by simpa using hblank)
  rw [String.toList_append, String.toList_append] at hgap
  -- the gap lies within the part, so it is one of the text around the part
  have hpart : Gap a.toList := (hgap.of_append_right hq).of_append_left hp
  have hwhole := blank_of_gap (hpart.mono ha)
  rw [h] at hwhole
  exact nomatch hwhole

end CompilerBackend.Text
