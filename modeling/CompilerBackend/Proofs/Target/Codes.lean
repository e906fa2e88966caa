import CompilerBackend.Target.Control
import CompilerBackend.Proofs.Target.Builtins
import CompilerBackend.Proofs.Text.Lines
/-!
# The text of statements

Code has any number of lines, none of them blank; a block of code has no blank at its ends
either. Both are kept by joining lines and by putting codes between braces, and every writer of
statements does no more than that.

- `Code`, `Block`: the two predicates, `Code.lines`, `Block.unlines`, `Block.braced` their laws.
- `Code.braced` needs no margins of what it indents, so the lines of a sequence can go in.
-/

namespace CompilerBackend

open Text Target

/-- A line that is neither blank nor broken by a blank character other than the space. -/
def Row (l : String) : Prop := Inline l ∧ isBlankText l = false

/-- The text holds none of the blank characters that names are known not to hold, but for spaces
and line feeds. -/
def Clear (w : Wording) (s : String) : Prop :=
  ∀ c ∈ s.toList, isBlank c = true → w.absent c → c = ' ' ∨ c = '\n'

structure Code (w : Wording) (s : String) : Prop where
  worded : Worded w s
  clear : Clear w s
  laid : w.tight → ∃ ls, ls ≠ [] ∧ s = unlines ls ∧ ∀ l ∈ ls, Row l

structure Block (w : Wording) (s : String) : Prop where
  code : Code w s
  starts : w.tight → Starts s
  stops : w.tight → Stops s

variable {w : Wording} {a b s : String}

theorem Inline.isLine (h : Inline s) : IsLine s where
  flat hmem := absurd (h _ hmem (by decide)) (by decide)
  open_end hlast := absurd (h _ (List.mem_of_getLast? hlast) (by decide)) (by decide)

theorem Row.ne_empty {l : String} (h : Row l) : l ≠ "" := by
  rintro rfl
  exact absurd h.2 (by simp [isBlankText])

theorem Row.indentLine {l : String} (h : Row l) : Row (indentLine l) where
  left := (inline_of_isLead (by rfl)).append h.1
  right := by
    have hblank := h.2
    rw [isBlankText, List.all_eq_false] at hblank ⊢
    obtain ⟨c, hc, hsolid⟩ := hblank
    refine ⟨c, ?_, hsolid⟩
    rw [toList_indentLine]
    simp [hc]

theorem row_of_starts (hi : Inline s) (hs : Starts s) : Row s := by
  obtain ⟨c, hc, hsolid, -⟩ := hs
  refine ⟨hi, ?_⟩
  rw [isBlankText, List.all_eq_false]
  exact ⟨c, List.mem_of_head? hc, by rw [hsolid]; exact Bool.false_ne_true⟩

theorem lines_unlines_of_rows {ls : List String} (h : ∀ l ∈ ls, Row l) :
    lines (unlines ls) = ls :=
  lines_unlines (fun l hl => (h l hl).1.isLine) fun l hl => (h l (List.mem_of_getLast? hl)).ne_empty

/-! ## Joining -/

theorem Worded.unlines {ls : List String} (h : ∀ l ∈ ls, Worded w l) : Worded w (unlines ls) := by
  intro word behind hword
  obtain ⟨l, hl, near, hnear, hpre⟩ := hword.of_unlines
  obtain ⟨hallows, hserves⟩ := h l hl word near hnear
  exact ⟨hallows, fun hp k hk => (hserves hp k hk).extend hpre⟩

theorem Worded.newline (ha : Worded w a) (hb : Worded w b) : Worded w (a ++ "\n" ++ b) := by
  have hjoined : Worded w (Text.unlines [a, b]) := Worded.unlines (by simpa using ⟨ha, hb⟩)
  rw [unlines_cons_cons, unlines_singleton] at hjoined
  exact hjoined

theorem Worded.lines (h : Worded w s) : ∀ l ∈ lines s, Worded w l := by
  intro l hl word behind hword
  obtain ⟨more, hmore, hword⟩ := hword.of_mem_lines hl
  obtain ⟨hallows, hserves⟩ := h word _ hword
  refine ⟨hallows, fun hp k hk => (hserves hp k hk).line fun c hc => ?_⟩
  rcases hmore c hc with rfl | rfl <;> rfl

theorem Worded.indentedLines {codes : List String} (h : ∀ c ∈ codes, Worded w c) :
    ∀ l ∈ indentedLines codes, Worded w l := by
  intro l hl
  obtain ⟨m, hm, rfl⟩ := List.mem_map.mp hl
  obtain ⟨c, hc, hmc⟩ := List.mem_flatMap.mp hm
  exact Worded.lead (by rfl) ((h c hc).lines m hmc)

theorem Worded.braced {codes : List String} (h : ∀ c ∈ codes, Worded w c) :
    Worded w (braced codes) := by
  have hopen : Worded w "\x7b" := Worded.text (by rfl)
  have hclose : Worded w "\x7d" := Worded.text (by rfl)
  unfold Target.braced
  split
  · exact hopen.newline hclose
  · have hbody : Worded w (indented codes) := Worded.unlines (Worded.indentedLines h)
    have hsplit : "\x7b\n" ++ indented codes ++ "\n\x7d" =
        "\x7b" ++ "\n" ++ indented codes ++ "\n" ++ "\x7d" := by
      apply String.toList_inj.mp
      simp
    rw [hsplit]
    exact (hopen.newline hbody).newline hclose

theorem Spared.clear (h : Spared w s) : Clear w s := fun c hc hblank habsent =>
  Or.inl (h c hc hblank habsent)

theorem Clear.append (ha : Clear w a) (hb : Clear w b) : Clear w (a ++ b) := by
  intro c hc
  rw [String.toList_append, List.mem_append] at hc
  exact hc.elim (ha c) (hb c)

theorem Clear.newline (ha : Clear w a) (hb : Clear w b) : Clear w (a ++ "\n" ++ b) :=
  (ha.append fun _ hc _ _ => Or.inr (by simpa using hc)).append hb

theorem Clear.lines (h : Clear w s) : ∀ l ∈ lines s, Spared w l := by
  intro l hl c hc hblank habsent
  refine (h c (subset_of_mem_lines hl hc) hblank habsent).resolve_right ?_
  rintro rfl
  exact flat_of_mem_lines hl hc

theorem Clear.unlines {ls : List String} (h : ∀ l ∈ ls, Clear w l) : Clear w (unlines ls) := by
  induction ls with
  | nil => exact fun c hc => by simp at hc
  | cons a ls ih =>
      obtain ⟨ha, hls⟩ := List.forall_mem_cons.mp h
      cases ls with
      | nil => rwa [unlines_singleton]
      | cons b ls =>
          rw [unlines_cons_cons]
          exact ha.newline (ih hls)

theorem Clear.braced {codes : List String} (h : ∀ c ∈ codes, Clear w c) : Clear w (braced codes) := by
  have hempty : Clear w "" := fun c hc => by simp at hc
  have hbrace : Clear w "\x7b" ∧ Clear w "\x7d" :=
    ⟨(inline_of_isLead (by rfl)).spared.clear, (inline_of_isLead (by rfl)).spared.clear⟩
  unfold Target.braced
  split
  · exact hbrace.1.newline hbrace.2
  · have hbody : Clear w (indented codes) := Clear.unlines fun l hl => by
      obtain ⟨m, hm, rfl⟩ := List.mem_map.mp hl
      obtain ⟨c, hc, hmc⟩ := List.mem_flatMap.mp hm
      exact ((inline_of_isLead (a := "    ") (by rfl)).spared.append ((h c hc).lines m hmc)).clear
    exact ((hbrace.1.newline hempty).append hbody).append (hempty.newline hbrace.2)

namespace Code

theorem of_piece (h : Piece w s) (hsolid : isBlankText s = false) : Code w s where
  worded := h.worded
  clear := h.spared.clear
  laid ht := ⟨[s], by simp, by simp, by simpa using ⟨h.inline ht, hsolid⟩⟩

theorem of_solid (h : Solid w s) : Code w s := of_piece h.piece h.starts.isBlankText_eq_false

/-- The lines of code are code. -/
theorem lines (h : Code w s) : ∀ l ∈ lines s, Code w l := by
  intro l hl
  refine ⟨h.worded.lines l hl, (h.clear.lines l hl).clear, fun ht => ?_⟩
  obtain ⟨ls, -, rfl, hrows⟩ := h.laid ht
  rw [lines_unlines_of_rows hrows] at hl
  exact ⟨[l], by simp, by simp, by simpa using hrows l hl⟩

/-- No line of code is blank, and there is one. -/
theorem rows (h : Code w s) (ht : w.tight) : Text.lines s ≠ [] ∧ ∀ l ∈ Text.lines s, Row l := by
  obtain ⟨ls, hne, rfl, hrows⟩ := h.laid ht
  rw [lines_unlines_of_rows hrows]
  exact ⟨hne, hrows⟩

end Code

namespace Block

theorem of_solid (h : Solid w s) : Block w s := ⟨Code.of_solid h, fun _ => h.starts, h.stops⟩

/-- Fixed text of one line. -/
theorem text (h : isSolid s = true) : Block w s := of_solid (Solid.text h)

theorem newline (ha : Block w a) (hb : Block w b) : Block w (a ++ "\n" ++ b) where
  code := by
    refine ⟨ha.code.worded.newline hb.code.worded, ha.code.clear.newline hb.code.clear, fun ht => ?_⟩
    obtain ⟨ls, hne, rfl, hrows⟩ := ha.code.laid ht
    obtain ⟨ms, hne', rfl, hrows'⟩ := hb.code.laid ht
    refine ⟨ls ++ ms, by simp [hne], (unlines_append hne hne').symm, fun l hl => ?_⟩
    exact (List.mem_append.mp hl).elim (hrows l) (hrows' l)
  starts ht := ((ha.starts ht).append "\n").append b
  stops ht := (hb.stops ht).append _

theorem unlines {ls : List String} (hne : ls ≠ []) (h : ∀ l ∈ ls, Block w l) :
    Block w (unlines ls) := by
  induction ls with
  | nil => exact absurd rfl hne
  | cons a ls ih =>
      cases ls with
      | nil =>
          rw [unlines_singleton]
          exact h a List.mem_cons_self
      | cons b ls =>
          rw [unlines_cons_cons]
          exact (h a List.mem_cons_self).newline
            (ih (by simp) fun l hl => h l (List.mem_cons_of_mem a hl))

/-- Codes between braces are a block, whatever their margins. -/
theorem braced {codes : List String} (h : ∀ c ∈ codes, Code w c) : Block w (braced codes) := by
  have hlaid : w.tight → ∃ ls, Target.braced codes =
      Text.unlines ("\x7b" :: ls ++ ["\x7d"]) ∧ ∀ l ∈ ls, Row l := by
    intro ht
    refine ⟨indentedLines codes, braced_eq_unlines fun hne => ?_, fun l hl => ?_⟩
    · obtain ⟨c, cs, rfl⟩ := List.exists_cons_of_ne_nil hne
      rw [List.flatMap_cons]
      exact List.append_ne_nil_of_left_ne_nil ((h c List.mem_cons_self).rows ht).1 _
    · obtain ⟨m, hm, rfl⟩ := List.mem_map.mp hl
      obtain ⟨c, hc, hmc⟩ := List.mem_flatMap.mp hm
      exact (((h c hc).rows ht).2 m hmc).indentLine
  have hopen : Row "\x7b" := row_of_starts (inline_of_isLead (by rfl)) (starts_of_isHead (by rfl))
  have hclose : Row "\x7d" := row_of_starts (inline_of_isLead (by rfl)) (starts_of_isHead (by rfl))
  refine ⟨⟨Worded.braced fun c hc => (h c hc).worded, Clear.braced fun c hc => (h c hc).clear,
    fun ht => ?_⟩, fun ht => ?_, fun ht => ?_⟩
  · obtain ⟨ls, heq, hrows⟩ := hlaid ht
    refine ⟨"\x7b" :: ls ++ ["\x7d"], by simp, heq, fun l hl => ?_⟩
    simp only [List.cons_append, List.mem_cons, List.mem_append, List.not_mem_nil, or_false] at hl
    rcases hl with rfl | hl | rfl
    · exact hopen
    · exact hrows l hl
    · exact hclose
  · obtain ⟨ls, heq, -⟩ := hlaid ht
    rw [heq, List.cons_append, unlines_cons (by simp)]
    exact ((starts_of_isHead (by rfl)).append _).append _
  · obtain ⟨ls, heq, -⟩ := hlaid ht
    rw [heq, unlines_append (by simp) (by simp), unlines_singleton]
    exact (stops_of_code (by rfl) (by rfl)).append _

theorem hasNoMargin (h : Block w s) (ht : w.tight) : hasNoMargin s = true :=
  hasNoMargin_of_solid (h.starts ht) (h.stops ht)

end Block

/-! ## Single lines -/

/-- A term that ends without a blank, whatever the names in it are like. -/
structure Firm (w : Wording) (s : String) : Prop where
  term : Term w s
  stops : Stops s

namespace Firm

theorem block (h : Firm w s) : Block w s := Block.of_solid h.term.solid

/-- Fixed text. -/
theorem text (ha : (isSolid a && isFlat a) = true) : Firm w a := by
  refine ⟨Term.text ha, ?_⟩
  rw [Bool.and_eq_true, isSolid, Bool.and_eq_true] at ha
  exact stops_of_code (Bool.and_eq_true _ _ ▸ ha.1.1).1 ha.1.2

theorem stops_of_isEnd (hb : isEnd b = true) : Stops b := by
  rw [isEnd, Bool.and_eq_true] at hb
  exact stops_of_code (Bool.and_eq_true _ _ ▸ hb.1).1 hb.2

/-- Fixed text behind a term. -/
theorem tail (ha : Term w a) (hb : (isEnd b && isFlat b) = true) : Firm w (a ++ b) :=
  ⟨ha.tail hb, Stops.append a (stops_of_isEnd (Bool.and_eq_true _ _ ▸ hb).1)⟩

/-- A phrase in parentheses. -/
theorem between (ha : (isHead a && balance 0 (codes a) == some 1) = true) (hs : Phrase w s)
    (hb : (isEnd b && balance 1 (codes b) == some 0) = true) : Firm w (a ++ s ++ b) :=
  ⟨Term.between ha hs hb, Stops.append _ (stops_of_isEnd (Bool.and_eq_true _ _ ▸ hb).1)⟩

end Firm

/-- A statement of one line is a term with a semicolon. -/
def Line (w : Wording) (s : String) : Prop := ∃ term, Term w term ∧ s = terminated term

namespace Line

theorem of_term (h : Term w a) : Line w (terminated a) := ⟨a, h, rfl⟩

/-- Fixed text in front of the semicolon. -/
theorem text (ha : (isSolid a && isFlat a) = true) (hs : s = a ++ ";") : Line w s :=
  ⟨a, Term.text ha, hs⟩

theorem firm (h : Line w s) : Firm w s := by
  obtain ⟨a, ha, rfl⟩ := h
  exact Firm.tail ha (by rfl)

theorem block (h : Line w s) : Block w s := h.firm.block

end Line

end CompilerBackend
