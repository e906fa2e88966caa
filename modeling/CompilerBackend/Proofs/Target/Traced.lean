import CompilerBackend.Proofs.Target.Statements
import CompilerBackend.Proofs.Text.Nesting
/-!
# Code with and without a trace

Lines that report statements stand among the lines of code, at any depth of blocks. Code with such
lines and the same code without them are twins: the one comes from the other by leaving the lines
out. Joining and indenting lines keeps twins, so every writer of statements makes twins of twins.
Without the lines of a trace, brackets are nested.

- `isTraceLine`, `untraced`: lines that report, and what is left without them.
- `Twins`: lists of lines; `Part`: joined lines; `Twin`: the code of a statement.
- `Part.braced`, `Twin.unlines`: blocks, and codes below one another.
- `twin_branch`, `twin_loop`, `twin_tryExcept`, …: one lemma for each writer of several lines.
-/

namespace CompilerBackend

open Text Target

/-! ## Lines that report -/

namespace Target

def isTraceLine (l : String) : Bool := traceStart.toList.isPrefixOf (trimChars l.toList)

def untraced (ls : List String) : List String := ls.filter fun l => !isTraceLine l

theorem untraced_append (ls ms : List String) : untraced (ls ++ ms) = untraced ls ++ untraced ms :=
  List.filter_append ls ms

theorem isTraceLine_traceLine (place kindName : String) :
    isTraceLine (traceLine place kindName) = true := by
  have heq := traceLine_eq place kindName
  have htrim : trimChars (traceLine place kindName).toList = (traceLine place kindName).toList := by
    refine Edged.trimChars_eq ⟨⟨'p', ?_, by decide⟩, ⟨';', ?_, by decide⟩⟩
    · rw [heq, String.append_assoc, String.toList_append, List.head?_append]
      rfl
    · rw [heq, String.toList_append, List.getLast?_append]
      rfl
  rw [isTraceLine, htrim, List.isPrefixOf_iff_prefix, heq, String.append_assoc,
    String.toList_append]
  exact List.prefix_append _ _

/-- What begins with another letter does not report. -/
theorem isTraceLine_of_starts {s : String} (h : Starts s) : isTraceLine s = false := by
  obtain ⟨c, hc, hsolid, hfirst⟩ := h
  obtain ⟨cs, hcs⟩ := List.head?_eq_some_iff.mp hc
  have htrim : trimChars s.toList <+: s.toList := by
    rw [trimChars, hcs, List.dropWhile_cons_of_neg (by simpa using hsolid), ← List.reverse_suffix,
      List.reverse_reverse]
    exact List.dropWhile_suffix isBlank
  rw [Bool.eq_false_iff]
  intro htrace
  obtain ⟨rest, hrest⟩ := (List.isPrefixOf_iff_prefix.mp htrace).trans htrim
  rw [← hrest, List.head?_append] at hc
  exact hfirst (Option.some.inj hc).symm

theorem isTraceLine_indentLine (l : String) : isTraceLine (indentLine l) = isTraceLine l := by
  rw [isTraceLine, isTraceLine, toList_indentLine]
  simp only [trimChars_cons_space]

theorem untraced_indented (ls : List String) :
    untraced (ls.map indentLine) = (untraced ls).map indentLine := by
  rw [untraced, untraced, List.filter_map]
  congr 1
  exact List.filter_congr fun l _ => by rw [Function.comp, isTraceLine_indentLine]

end Target

/-! ## Lines of code -/

structure CodeLine (l : String) : Prop extends IsLine l where
  solid : isBlankText l = false

theorem CodeLine.ne_empty {l : String} (h : CodeLine l) : l ≠ "" := by
  rintro rfl
  exact Bool.noConfusion h.solid

theorem CodeLine.indentLine {l : String} (h : CodeLine l) : CodeLine (indentLine l) where
  toIsLine := isLine_indentLine h.toIsLine
  solid := by
    have hsolid := h.solid
    rw [isBlankText, List.all_eq_false] at hsolid ⊢
    obtain ⟨c, hc, hvisible⟩ := hsolid
    exact ⟨c, by rw [toList_indentLine]; simp [hc], hvisible⟩

theorem codeLine_of_starts {s : String} (hflat : Unbroken s) (hs : Starts s) (he : Stops s) :
    CodeLine s where
  flat := hflat
  open_end hlast := by
    obtain ⟨c, hc, hsolid⟩ := he
    rw [hlast] at hc
    rw [← Option.some.inj hc] at hsolid
    exact absurd hsolid (by decide)
  solid := hs.isBlankText_eq_false

def Wording.lined (w : Wording) : Prop := w.plain ∨ w.unbroken

variable {w : Wording} {ls' ls ms' ms : List String} {a b' b c' c d' d : String}

theorem Term.unbroken (h : Term w c) (hw : w.lined) : Unbroken c :=
  hw.elim (fun hp => (h.flat hp).not_mem_feed) h.piece.unbroken

/-- Lines of code, with lines that report among them and without; the brackets of the latter are
nested if names are plain. -/
structure Twins (w : Wording) (traced plain : List String) : Prop where
  lines : ∀ l ∈ traced, CodeLine l
  plain_eq : plain = untraced traced
  nested : w.plain → NestedLines plain

namespace Twins

theorem nil : Twins w [] [] := ⟨fun _ h => (nomatch h), rfl, fun _ => nestedLines_nil⟩

theorem append (h : Twins w ls' ls) (h' : Twins w ms' ms) : Twins w (ls' ++ ms') (ls ++ ms) where
  lines l hl := (List.mem_append.mp hl).elim (h.lines l) (h'.lines l)
  plain_eq := by rw [untraced_append, ← h.plain_eq, ← h'.plain_eq]
  nested hp := (h.nested hp).append (h'.nested hp)

/-- A line that reports is left out. -/
theorem trace {place : Location} {k : NodeKind} (h : Shown w place.file) (hw : w.unbroken) :
    Twins w [traceLine place.text k.kindName] [] := by
  have hend : (traceLine place.text k.kindName).toList.getLast? = some ';' := by
    rw [traceLine_eq, String.toList_append, List.getLast?_append]
    rfl
  refine ⟨fun l hl => ?_, ?_, fun _ => nestedLines_nil⟩
  · rw [List.mem_singleton.mp hl]
    refine ⟨⟨(piece_traceLine h k).unbroken hw, ?_⟩, isBlankText_traceLine _ _⟩
    rw [hend]
    decide
  · rw [untraced, List.filter_singleton, isTraceLine_traceLine]
    rfl

/-- A firm line is left in. -/
theorem firm (h : Firm w c) (hw : w.lined) : Twins w [c] [c] where
  lines l hl := by
    rw [List.mem_singleton.mp hl]
    exact codeLine_of_starts (h.term.unbroken hw) h.term.solid.starts h.stops
  plain_eq := by
    rw [untraced, List.filter_singleton, isTraceLine_of_starts h.term.solid.starts]
    rfl
  nested hp := nestedLines_singleton.mpr (h.term.flat hp).nested

theorem lined (h : ∀ l ∈ ls, Line w l) (hw : w.lined) : Twins w ls ls := by
  induction ls with
  | nil => exact nil
  | cons l ls ih =>
      exact (firm (h l List.mem_cons_self).firm hw).append
        (ih fun m hm => h m (List.mem_cons_of_mem l hm))

theorem indented (h : Twins w ls' ls) : Twins w (ls'.map indentLine) (ls.map indentLine) where
  lines l hl := by
    obtain ⟨m, hm, rfl⟩ := List.mem_map.mp hl
    exact (h.lines m hm).indentLine
  plain_eq := by rw [untraced_indented, ← h.plain_eq]
  nested hp := nestedLines_indented.mpr (h.nested hp)

/-- Lines between braces on lines of their own. -/
theorem braces (h : Twins w ls' ls) :
    Twins w ("\x7b" :: ls' ++ ["\x7d"]) ("\x7b" :: ls ++ ["\x7d"]) where
  lines l hl := by
    have hopen : Starts "\x7b" ∧ Starts "\x7d" :=
      ⟨starts_of_isHead (by rfl), starts_of_isHead (by rfl)⟩
    have hstops : Stops "\x7b" ∧ Stops "\x7d" :=
      ⟨stops_of_code (by rfl) (by rfl), stops_of_code (by rfl) (by rfl)⟩
    simp only [List.cons_append, List.mem_cons, List.mem_append, List.not_mem_nil, or_false] at hl
    rcases hl with rfl | hl | rfl
    · exact codeLine_of_starts (by simp [Unbroken]) hopen.1 hstops.1
    · exact h.lines l hl
    · exact codeLine_of_starts (by simp [Unbroken]) hopen.2 hstops.2
  plain_eq := by
    have hbraces : untraced ["\x7b"] = ["\x7b"] ∧ untraced ["\x7d"] = ["\x7d"] := by decide +kernel
    have hcut : ∀ ms : List String, "\x7b" :: ms ++ ["\x7d"] = ["\x7b"] ++ ms ++ ["\x7d"] :=
      fun _ => rfl
    rw [hcut, hcut, untraced_append, untraced_append, hbraces.1, hbraces.2, ← h.plain_eq]
  nested hp := (h.nested hp).braces

theorem plain_lines (h : Twins w ls' ls) : ∀ l ∈ ls, CodeLine l := fun l hl =>
  h.lines l (List.mem_of_mem_filter (h.plain_eq ▸ hl))

end Twins

theorem lines_unlines_of_codeLines (h : ∀ l ∈ ls, CodeLine l) : Text.lines (unlines ls) = ls :=
  lines_unlines (fun l hl => (h l hl).toIsLine) fun l hl =>
    (h l (List.mem_of_getLast? hl)).ne_empty

theorem flatMap_lines_of_codeLines (h : ∀ l ∈ ls, CodeLine l) : ls.flatMap Text.lines = ls :=
  flatMap_lines fun l hl => ⟨(h l hl).flat, (h l hl).ne_empty⟩

/-! ## Joined lines -/

def Part (w : Wording) (c' c : String) : Prop :=
  ∃ ls' ls, c' = unlines ls' ∧ c = unlines ls ∧ ls' ≠ [] ∧ ls ≠ [] ∧ Twins w ls' ls

namespace Part

theorem firm (h : Firm w c) (hw : w.lined) : Part w c c :=
  ⟨[c], [c], by simp, by simp, by simp, by simp, Twins.firm h hw⟩

theorem lines (h : Part w c' c) : Twins w (Text.lines c') (Text.lines c) := by
  obtain ⟨ls', ls, rfl, rfl, -, -, htwins⟩ := h
  rwa [lines_unlines_of_codeLines htwins.lines, lines_unlines_of_codeLines htwins.plain_lines]

theorem newline (h : Part w c' c) (h' : Part w d' d) :
    Part w (c' ++ "\n" ++ d') (c ++ "\n" ++ d) := by
  obtain ⟨ls', ls, rfl, rfl, hne', hne, htwins⟩ := h
  obtain ⟨ms', ms, rfl, rfl, hmne', hmne, htwins'⟩ := h'
  exact ⟨ls' ++ ms', ls ++ ms, (unlines_append hne' hmne').symm, (unlines_append hne hmne).symm,
    by simp [hne'], by simp [hne], htwins.append htwins'⟩

theorem unlines {parts' parts : List String} (hne : parts ≠ [])
    (h : List.Forall₂ (Part w) parts' parts) : Part w (Text.unlines parts') (Text.unlines parts) := by
  induction h with
  | nil => exact absurd rfl hne
  | @cons a' a rest' rest ha hrest ih =>
      cases hrest with
      | nil =>
          rw [unlines_singleton, unlines_singleton]
          exact ha
      | cons hb hrest =>
          rw [unlines_cons_cons, unlines_cons_cons]
          exact ha.newline (ih (by simp))

/-- A block of codes that come apart into twins. -/
theorem braced_of_lines {codes' codes : List String}
    (h : Twins w (codes'.flatMap Text.lines) (codes.flatMap Text.lines))
    (hne' : codes' ≠ [] → codes'.flatMap Text.lines ≠ [])
    (hne : codes ≠ [] → codes.flatMap Text.lines ≠ []) :
    Part w (Target.braced codes') (Target.braced codes) :=
  ⟨_, _, braced_eq_unlines hne', braced_eq_unlines hne, by simp, by simp, h.indented.braces⟩

/-- A block of lines. -/
theorem braced (h : Twins w ls' ls) : Part w (Target.braced ls') (Target.braced ls) := by
  have hlines' := flatMap_lines_of_codeLines h.lines
  have hlines := flatMap_lines_of_codeLines h.plain_lines
  exact braced_of_lines (by rwa [hlines', hlines]) (by rw [hlines']; exact id)
    (by rw [hlines]; exact id)

/-- A block of joined lines. -/
theorem braced_code (h : Part w c' c) : Part w (Target.braced [c']) (Target.braced [c]) := by
  have hlines := h.lines
  obtain ⟨ls', ls, rfl, rfl, hne', hne, htwins⟩ := h
  refine braced_of_lines (by rwa [List.flatMap_singleton, List.flatMap_singleton]) (fun _ => ?_)
    fun _ => ?_
  · rwa [List.flatMap_singleton, lines_unlines_of_codeLines htwins.lines]
  · rwa [List.flatMap_singleton, lines_unlines_of_codeLines htwins.plain_lines]

end Part

/-! ## Statements -/

def Ends (s : String) : Prop := s.toList.getLast? = some ';' ∨ s.toList.getLast? = some '\x7d'

theorem Ends.append (a : String) {b : String} (h : Ends b) : Ends (a ++ b) := by
  rw [Ends, String.toList_append, List.getLast?_append]
  exact h.imp (fun h => by rw [h]; rfl) fun h => by rw [h]; rfl

theorem Ends.stops {s : String} (h : Ends s) : Stops s :=
  h.elim (fun h => ⟨';', h, by decide⟩) fun h => ⟨'\x7d', h, by decide⟩

theorem Line.ends (h : Line w c) : Ends c := by
  obtain ⟨a, -, rfl⟩ := h
  exact Ends.append a (b := ";") (Or.inl (by decide))

structure Stated (s : String) : Prop where
  starts : Starts s
  ends : Ends s

theorem Line.stated (h : Line w c) : Stated c := ⟨h.firm.term.solid.starts, h.ends⟩

theorem stated_braced (codes : List String) : Stated (Target.braced codes) := by
  have hopen : Starts "\x7b\n" := ⟨'\x7b', by decide, by decide, by decide⟩
  have hclose : Ends "\n\x7d" := Or.inr (by decide)
  unfold Target.braced
  split
  · exact ⟨⟨'\x7b', by decide, by decide, by decide⟩, Or.inr (by decide)⟩
  · exact ⟨(hopen.append _).append _, hclose.append _⟩

theorem Stated.hasNoMargin {s : String} (h : Stated s) : hasNoMargin s = true :=
  hasNoMargin_of_solid h.starts h.ends.stops

theorem Stated.ne_empty {s : String} (h : Stated s) : s ≠ "" := by
  rintro rfl
  obtain ⟨c, hc, -⟩ := h.starts
  exact nomatch hc

/-- Joined codes begin as the first of them and end as the last one. -/
theorem Stated.unlines (ha : Starts a) (hb : Ends b) (mid : List String) :
    Stated (Text.unlines (a :: mid ++ [b])) := by
  refine ⟨?_, ?_⟩
  · rw [List.cons_append, unlines_cons (by simp)]
    exact (ha.append _).append _
  · rw [unlines_append (by simp) (by simp), unlines_singleton]
    exact hb.append _

/-- The code of a statement with the lines that report and without. -/
structure Twin (w : Wording) (c' c : String) : Prop where
  part : Part w c' c
  traced : Stated c'
  plain : Stated c

namespace Twin

theorem line (h : Line w c) (hw : w.lined) : Twin w c c := ⟨Part.firm h.firm hw, h.stated, h.stated⟩

theorem braced (h : Twins w ls' ls) : Twin w (Target.braced ls') (Target.braced ls) :=
  ⟨Part.braced h, stated_braced ls', stated_braced ls⟩

/-- Codes below one another, of which the first is a line. -/
theorem unlines {mid' mid : List String} (ha : Firm w a) (hmid : List.Forall₂ (Part w) mid' mid)
    (hb : Twin w b' b) (hw : w.lined) :
    Twin w (Text.unlines (a :: mid' ++ [b'])) (Text.unlines (a :: mid ++ [b])) where
  part := Part.unlines (by simp)
    (List.Forall₂.cons (Part.firm ha hw) (List.rel_append hmid (.cons hb.part .nil)))
  traced := Stated.unlines ha.term.solid.starts hb.traced.ends mid'
  plain := Stated.unlines ha.term.solid.starts hb.plain.ends mid

theorem lined (hne : ls ≠ []) (h : ∀ l ∈ ls, Line w l) (hw : w.lined) :
    Twin w (Text.unlines ls) (Text.unlines ls) := by
  obtain ⟨a, ls, rfl⟩ := List.exists_cons_of_ne_nil hne
  rcases List.eq_nil_or_concat ls with rfl | ⟨mid, b, rfl⟩
  · rw [unlines_singleton]
    exact line (h a List.mem_cons_self) hw
  · rw [List.concat_eq_append] at h ⊢
    refine unlines (h a List.mem_cons_self).firm (List.forall₂_same.mpr fun c hc => ?_)
      (line (h b (by simp)) hw) hw
    exact Part.firm (h c (by simp [hc])).firm hw

theorem nested (h : Twin w c' c) (hp : w.plain) : Nested c.toList := by
  obtain ⟨_, ls, -, rfl, -, -, htwins⟩ := h.part
  exact nested_unlines.mpr (htwins.nested hp)

end Twin

/-! ## The writers of statements -/

namespace Target

variable {condition : String} {o : Operand} {yes' yes tried' tried final' final : List String}
  {no' no : Option (List String)}

section

variable (hw : w.lined)
include hw

theorem twin_print {destination : Option Operand} (hd : ∀ o ∈ destination, o.Fine w)
    {values : List Operand} (h : ∀ o ∈ values, o.Fine w) (newline : Bool) :
    print destination values newline = "" ∨
      Twin w (print destination values newline) (print destination values newline) := by
  cases destination with
  | none =>
      by_cases hnil : printLines "NULL" values newline = []
      · left
        rw [print, hnil, unlines_nil]
      · exact Or.inr (Twin.lined hnil (line_printLines (Phrase.text (by rfl)) h newline) hw)
  | some d =>
      refine Or.inr (Twin.braced (Twins.lined (fun l hl => ?_) hw))
      rcases List.mem_cons.mp hl with rfl | hl
      · exact line_call (by rfl) (by simpa using (hd d rfl).handedOver.phrase)
      · exact line_printLines (Phrase.text (by rfl)) h newline l hl

theorem part_text (ha : (isSolid a && isFlat a) = true) : Part w a a := Part.firm (Firm.text ha) hw

theorem twin_branch (hc : Phrase w condition) (hy : Twins w yes' yes)
    (hn : Option.Rel (Twins w) no' no) :
    Twin w (branch condition (some yes') no') (branch condition (some yes) no) := by
  have hhead : Firm w ("if ( " ++ condition ++ " )") := firm_head (by rfl) hc
  rw [branch_eq, branch_eq]
  cases hn with
  | none => exact Twin.unlines hhead .nil (Twin.braced hy) hw
  | some hn =>
      exact Twin.unlines hhead (.cons (Part.braced hy) (.cons (part_text hw (by rfl)) .nil))
        (Twin.braced hn) hw

theorem part_unwindingBody (h : Twins w ls' ls) : Part w (unwindingBody ls') (unwindingBody ls) := by
  have hbreak : Line w "break;" := line_loopBreak false
  rw [unwindingBody_eq, unwindingBody_eq]
  exact Part.unlines (by simp) (.cons (part_text hw (by rfl)) (.cons (Part.braced h)
    (.cons (part_text hw (by rfl)) (.cons (Part.braced Twins.nil) (.cons (part_text hw (by rfl))
      (.cons (Part.braced (Twins.firm hbreak.firm hw)) .nil))))))

theorem twin_loop (h : Twins w ls' ls) (unwinds : Bool) :
    Twin w (loop (some ls') unwinds) (loop (some ls) unwinds) := by
  have hhead : Firm w "while ( true )" := Firm.text (by rfl)
  rw [loop_eq, loop_eq]
  refine Twin.unlines hhead .nil ⟨?_, stated_braced _, stated_braced _⟩ hw
  cases unwinds with
  | false => exact Part.braced h
  | true => exact Part.braced_code (part_unwindingBody hw h)

theorem twins_handlerLines {types : List Operand} (ht : ∀ o ∈ types, o.Fine w)
    (h : Twins w ls' ls) (first : Bool) :
    Twins w (handlerLines types ls' first) (handlerLines types ls first) :=
  (Twins.firm (firm_handlerHead ht first) hw).append (Part.braced h).lines

theorem twins_uncaughtLines : Twins w uncaughtLines uncaughtLines := by
  have helse : Firm w "else" := Firm.text (by rfl)
  have hthrow : Line w "throw;" := line_reraiseStatement true
  exact (Twins.firm helse hw).append (Twins.firm hthrow.firm hw).indented.braces

theorem twin_catching (h : Twins w ls' ls) : Twin w (catching ls') (catching ls) := by
  have hhead : Firm w "catch ( _PythonException &_exception )" := Firm.text (by rfl)
  rw [catching_eq, catching_eq]
  exact Twin.unlines hhead .nil (Twin.braced h) hw

theorem twin_tryExcept (n : Nat) (ht : Twins w tried' tried) (hh : Twins w ls' ls)
    (hn : Option.Rel (Twins w) no' no) :
    Twin w (tryExcept n tried' ls' no') (tryExcept n tried ls no) := by
  have htry : Firm w "try" := Firm.text (by rfl)
  have hchain := hh.append (twins_uncaughtLines hw)
  cases hn with
  | none =>
      rw [tryExcept_none_eq, tryExcept_none_eq]
      exact Twin.unlines htry (.cons (Part.braced ht) .nil) (twin_catching hw hchain) hw
  | some hn =>
      have hcaught : Twin w (Target.catching ((caughtFlag n ++ " = true;") :: ls' ++ uncaughtLines))
          (Target.catching ((caughtFlag n ++ " = true;") :: ls ++ uncaughtLines)) :=
        twin_catching hw ((Twins.firm (line_caughtMark n).firm hw).append hchain)
      have htwin := Twin.unlines (line_caughtDeclaration n).firm (.cons (Part.firm htry hw)
        (.cons (Part.braced ht) (.cons hcaught.part (.cons (Part.firm (firm_caughtTest n) hw)
          .nil)))) (Twin.braced hn) hw
      rw [tryExcept_some_eq, tryExcept_some_eq]
      exact htwin

theorem twin_tryFinally (n : Nat) (ht : Twins w tried' tried) (hf : Twins w final' final) :
    Twin w (tryFinally n tried' final') (tryFinally n tried final) := by
  have hsave : Twins w [caughtFlag n ++ ".save( _exception );"]
      [caughtFlag n ++ ".save( _exception );"] := Twins.firm (line_save n).firm hw
  have htry : Firm w "try" := Firm.text (by rfl)
  have htwin := Twin.unlines (line_keeper n).firm (.cons (Part.firm htry hw)
    (.cons (Part.braced ht) (.cons (twin_catching hw hsave).part (.cons (Part.braced hf) .nil))))
    (Twin.line (line_rethrow n) hw) hw
  rw [tryFinally_eq, tryFinally_eq]
  exact htwin

theorem twin_fetchOrHandle (n : Nat) (ho : o.Fine w) (hh : Twins w ls' ls) (hc : Line w c) :
    Twin w (fetchOrHandle n o ls' c) (fetchOrHandle n o ls c) := by
  rw [fetchOrHandle_eq, fetchOrHandle_eq]
  exact Twin.unlines (line_fetch n ho).firm (.cons (Part.firm (firm_fetchTest n) hw)
    (.cons (Part.braced hh) .nil)) (Twin.line hc hw) hw

end

end Target
end CompilerBackend
