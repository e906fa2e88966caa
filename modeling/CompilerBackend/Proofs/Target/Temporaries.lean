import CompilerBackend.Proofs.Target.Flow
/-!
# Temporaries

Code declares numbered variables of its own: what keeps an exception while a final block runs, the
flag of a try statement that has code for the case without an exception, and the item of a fetch. A
text is read line by line, whatever the margins of its lines, so what a block declares is what the
codes in it declare.

- `declared?`: the name that a line declares; `temporaries`: the names that a text declares.
- `temporaries_lines`, `temporaries_braced`: codes cut into lines and put into blocks.
- `isQuiet`: how lines that declare nothing can begin.
- `temporaries_tryFinally`, `temporaries_branch`, …: one lemma for each writer of several lines.
-/

namespace CompilerBackend.Target

open Text

/-! ## Reading -/

/-- The types of temporaries, with what the names of such variables begin with. -/
def declarators : List (String × String) :=
  [("_PythonExceptionKeeper ", "_caught_"), ("bool ", "_caught_"), ("PyObject *", "_tmp_unpack_")]

/-- The name that a line declares, by its characters without the margin. -/
def declaredFrom? (cs : List Char) : Option String :=
  (declarators.find? fun d => (d.1 ++ d.2).toList.isPrefixOf cs).map fun d =>
    String.ofList ((cs.drop d.1.toList.length).takeWhile isNameChar)

def declared? (l : String) : Option String := declaredFrom? (l.toList.dropWhile (· == ' '))

def temporaries (s : String) : List String := (cutLines s).filterMap declared?

variable {a l s : String} {cs : List Char} {codes ls : List String}

theorem declared?_indentLine (l : String) : declared? (indentLine l) = declared? l := by
  rw [declared?, toList_indentLine]
  rfl

theorem temporaries_of_unbroken (h : Unbroken l) : temporaries l = (declared? l).toList := by
  rw [temporaries, cutLines_of_unbroken h]
  cases hname : declared? l with
  | none => exact List.filterMap_cons_none hname
  | some name => exact List.filterMap_cons_some hname

theorem temporaries_empty : temporaries "" = [] := by decide

theorem temporaries_unlines (ls : List String) :
    temporaries (unlines ls) = ls.flatMap temporaries := by
  by_cases hne : ls = []
  · rw [hne]
    exact temporaries_empty
  · rw [temporaries, cutLines_unlines hne, List.filterMap_flatMap]
    rfl

/-! ## Lines and blocks -/

/-- No declaration has a carriage return in its beginning. -/
theorem return_not_mem_declarator : ∀ d ∈ declarators, '\r' ∉ (d.1 ++ d.2).toList := by
  decide

theorem isPrefixOf_concat_return {p : List Char} (hp : '\r' ∉ p) :
    p.isPrefixOf (cs ++ ['\r']) = p.isPrefixOf cs := by
  rw [Bool.eq_iff_iff, List.isPrefixOf_iff_prefix, List.isPrefixOf_iff_prefix,
    List.prefix_concat_iff, or_iff_right]
  rintro rfl
  exact hp (List.mem_append_right _ List.mem_cons_self)

theorem takeWhile_concat_of_neg {α : Type} {p : α → Bool} {x : α} (hx : p x = false) (l : List α) :
    (l ++ [x]).takeWhile p = l.takeWhile p := by
  induction l with
  | nil => exact List.takeWhile_cons_of_neg (by simp [hx])
  | cons y l ih => rw [List.cons_append, List.takeWhile_cons, List.takeWhile_cons, ih]

/-- A carriage return at the end of a line is no part of a name. -/
theorem declaredFrom?_concat_return (cs : List Char) :
    declaredFrom? (cs ++ ['\r']) = declaredFrom? cs := by
  have hfind : (declarators.find? fun d => (d.1 ++ d.2).toList.isPrefixOf (cs ++ ['\r'])) =
      declarators.find? fun d => (d.1 ++ d.2).toList.isPrefixOf cs := by
    refine List.find?_congr fun d hd => ?_
    rw [isPrefixOf_concat_return (return_not_mem_declarator d hd)]
  rw [declaredFrom?, declaredFrom?, hfind]
  cases hd : declarators.find? fun d => (d.1 ++ d.2).toList.isPrefixOf cs with
  | none => rfl
  | some d =>
      have hopens : (d.1 ++ d.2).toList.isPrefixOf cs = true :=
        List.find?_some (p := fun d : String × String => (d.1 ++ d.2).toList.isPrefixOf cs) hd
      have hprefix := List.isPrefixOf_iff_prefix.mp hopens
      rw [String.toList_append] at hprefix
      have hle : d.1.toList.length ≤ cs.length :=
        ((List.prefix_append _ _).trans hprefix).length_le
      rw [Option.map_some, Option.map_some, List.drop_append_of_le_length hle,
        takeWhile_concat_of_neg (by decide)]

theorem declared?_concat_return (cs : List Char) :
    declared? (String.ofList (cs ++ ['\r'])) = declared? (String.ofList cs) := by
  rw [declared?, declared?, String.toList_ofList, String.toList_ofList, List.dropWhile_append]
  split
  next hblank =>
    rw [List.isEmpty_iff.mp hblank]
    decide
  next => exact declaredFrom?_concat_return _

theorem declared?_closeLine (line : List Char) :
    declared? (String.ofList (closeLine line)) = declared? (String.ofList line.reverse) := by
  unfold closeLine
  split
  next line => rw [List.reverse_cons, declared?_concat_return]
  next => rfl

theorem temporaries_newline (a b : String) :
    temporaries (a ++ "\n" ++ b) = temporaries a ++ temporaries b := by
  rw [temporaries, cutLines_newline, List.filterMap_append]
  rfl

/-- The lines of a text declare what the text declares. -/
theorem temporaries_lines (s : String) : (lines s).flatMap temporaries = temporaries s := by
  have hfrom : ∀ cs line : List Char, '\n' ∉ line →
      ((linesFrom line cs).map String.ofList).filterMap declared? =
        temporaries (String.ofList (line.reverse ++ cs)) := by
    intro cs
    induction cs with
    | nil =>
        intro line hline
        have hflat : Unbroken (String.ofList (line.reverse ++ [])) := by
          simpa [Unbroken] using hline
        rw [temporaries_of_unbroken hflat, List.append_nil, linesFrom]
        cases line with
        | nil => decide
        | cons c line =>
            exact List.filterMap_eq_flatMap_toList .. |>.trans (List.flatMap_singleton ..)
    | cons c cs ih =>
        intro line hline
        rw [linesFrom]
        split
        next hc =>
          have hflat : Unbroken (String.ofList line.reverse) := by simpa [Unbroken] using hline
          have hcut : String.ofList (line.reverse ++ c :: cs) =
              String.ofList line.reverse ++ "\n" ++ String.ofList cs := by
            apply String.toList_inj.mp
            simp [hc]
          rw [hcut, temporaries_newline, temporaries_of_unbroken hflat, ← declared?_closeLine,
            List.map_cons, List.filterMap_cons, ih [] List.not_mem_nil, List.reverse_nil,
            List.nil_append]
          cases declared? (String.ofList (closeLine line)) <;> rfl
        next hc =>
          have hnext : '\n' ∉ c :: line := by
            rw [List.mem_cons, not_or]
            exact ⟨Ne.symm hc, hline⟩
          rw [ih (c :: line) hnext, List.reverse_cons, List.append_assoc, List.singleton_append]
  have hlines : ∀ l ∈ lines s, temporaries l = (declared? l).toList := fun l hl =>
    temporaries_of_unbroken (flat_of_mem_lines hl)
  rw [List.flatMap_congr hlines, ← List.filterMap_eq_flatMap_toList, lines,
    hfrom s.toList [] List.not_mem_nil, List.reverse_nil, List.nil_append, String.ofList_toList]

theorem temporaries_flatMap_lines (codes : List String) :
    (codes.flatMap lines).flatMap temporaries = codes.flatMap temporaries := by
  rw [List.flatMap_assoc]
  exact List.flatMap_congr fun code _ => temporaries_lines code

/-- A block declares what the codes in it declare. -/
theorem temporaries_braced (codes : List String) :
    temporaries (braced codes) = codes.flatMap temporaries := by
  have hbrace : temporaries "\x7b" = [] ∧ temporaries "\x7d" = [] := by decide
  have hindented : temporaries (indented codes) = codes.flatMap temporaries := by
    rw [indented, temporaries_unlines, indentedLines, List.flatMap_map, ← temporaries_flatMap_lines]
    refine List.flatMap_congr fun l hl => ?_
    obtain ⟨code, -, hl⟩ := List.mem_flatMap.mp hl
    have hflat : Unbroken l := flat_of_mem_lines hl
    have hindent : Unbroken (indentLine l) := by
      rw [Unbroken, toList_indentLine]
      simpa [Unbroken] using hflat
    rw [temporaries_of_unbroken hflat, temporaries_of_unbroken hindent, declared?_indentLine]
  unfold braced
  split
  next hnil =>
    rw [List.isEmpty_iff.mp hnil]
    decide
  next =>
    have hcut : "\x7b\n" ++ indented codes ++ "\n\x7d" =
        "\x7b" ++ "\n" ++ indented codes ++ "\n" ++ "\x7d" := by
      apply String.toList_inj.mp
      simp
    rw [hcut, temporaries_newline, temporaries_newline, hbrace.1, hbrace.2, hindented,
      List.nil_append, List.append_nil]

/-! ## Quiet lines -/

def isQuiet (a : String) : Bool :=
  a.toList.head?.any (· != ' ') && declarators.all fun d =>
    !(d.1 ++ d.2).toList.isPrefixOf a.toList && !a.toList.isPrefixOf (d.1 ++ d.2).toList

def Quiet (l : String) : Prop := ∃ a, isQuiet a = true ∧ a.toList <+: l.toList

theorem quiet_append (ha : isQuiet a = true) (b : String) : Quiet (a ++ b) := by
  refine ⟨a, ha, ?_⟩
  rw [String.toList_append]
  exact List.prefix_append _ _

theorem Quiet.append (h : Quiet l) (b : String) : Quiet (l ++ b) := by
  obtain ⟨a, ha, hl⟩ := h
  refine ⟨a, ha, hl.trans ?_⟩
  rw [String.toList_append]
  exact List.prefix_append _ _

theorem quiet_text (ha : isQuiet a = true) : Quiet a := ⟨a, ha, List.prefix_refl _⟩

theorem Quiet.terminated (h : Quiet l) : Quiet (Target.terminated l) := h.append ";"

theorem quiet_call {f : String} (hf : isQuiet f = true) (arguments : List String) :
    Quiet (applied f arguments) := ((quiet_append hf _).append _).append _

theorem Quiet.declared?_eq_none (h : Quiet l) : declared? l = none := by
  obtain ⟨a, ha, hl⟩ := h
  rw [isQuiet, Bool.and_eq_true, Option.any_eq_true, List.all_eq_true] at ha
  obtain ⟨⟨c, hc, hsolid⟩, hdeclarators⟩ := ha
  have hmargin : l.toList.dropWhile (· == ' ') = l.toList := by
    obtain ⟨tail, htail⟩ := List.head?_eq_some_iff.mp hc
    obtain ⟨rest, hrest⟩ := hl
    rw [← hrest, htail, List.cons_append, List.dropWhile_cons_of_neg (by simpa using hsolid)]
  have hnone : ∀ d ∈ declarators, ¬ (d.1 ++ d.2).toList <+: l.toList := by
    intro d hd hprefix
    have hboth := hdeclarators d hd
    rw [Bool.and_eq_true, Bool.not_eq_true', Bool.not_eq_true'] at hboth
    rcases List.prefix_or_prefix_of_prefix hprefix hl with h | h
    · rw [List.isPrefixOf_iff_prefix.mpr h] at hboth
      exact Bool.noConfusion hboth.1
    · rw [List.isPrefixOf_iff_prefix.mpr h] at hboth
      exact Bool.noConfusion hboth.2
  rw [declared?, hmargin, declaredFrom?, List.find?_eq_none.mpr]
  · rfl
  · intro d hd hprefix
    exact hnone d hd (List.isPrefixOf_iff_prefix.mp hprefix)

theorem Quiet.temporaries_eq_nil (h : Quiet l) (hu : Unbroken l) : temporaries l = [] := by
  rw [temporaries_of_unbroken hu, h.declared?_eq_none]
  rfl

/-- No declaration begins like one of another type. -/
theorem eq_of_declarator_start : ∀ d ∈ declarators, ∀ e ∈ declarators,
    (d.1 ++ d.2).toList.isPrefixOf (e.1 ++ e.2).toList = true → d = e := by
  decide

theorem find?_declarators {d : String × String} (hd : d ∈ declarators)
    (hl : (d.1 ++ d.2).toList <+: cs) :
    (declarators.find? fun e => (e.1 ++ e.2).toList.isPrefixOf cs) = some d := by
  cases hfind : declarators.find? fun e => (e.1 ++ e.2).toList.isPrefixOf cs with
  | none => exact absurd (List.isPrefixOf_iff_prefix.mpr hl) (List.find?_eq_none.mp hfind d hd)
  | some e =>
      have he := List.mem_of_find?_eq_some hfind
      have hopens : (e.1 ++ e.2).toList.isPrefixOf cs = true :=
        List.find?_some (p := fun e : String × String => (e.1 ++ e.2).toList.isPrefixOf cs) hfind
      -- both begin the line, so one of them begins the other
      rcases List.prefix_or_prefix_of_prefix (List.isPrefixOf_iff_prefix.mp hopens) hl with h | h
      · rw [eq_of_declarator_start e he d hd (List.isPrefixOf_iff_prefix.mpr h)]
      · rw [eq_of_declarator_start d hd e he (List.isPrefixOf_iff_prefix.mpr h)]

/-- The line that declares a numbered temporary. -/
theorem declared?_declaration {d : String × String} (hd : d ∈ declarators) (n : Nat)
    {behind : String} {c : Char} (hopen : behind.toList.head? = some c)
    (hc : isNameChar c = false) :
    declared? (d.1 ++ (d.2 ++ toString n) ++ behind) = some (d.2 ++ toString n) := by
  have hparts : d.1.toList.head?.any (· != ' ') = true ∧ ∀ c ∈ d.2.toList, isNameChar c = true := by
    simp only [declarators, List.mem_cons, List.not_mem_nil, or_false] at hd
    rcases hd with rfl | rfl | rfl <;> simp [isNameChar, isNameStart]
  obtain ⟨hstart, htag⟩ := hparts
  have hchars : (d.1 ++ (d.2 ++ toString n) ++ behind).toList =
      d.1.toList ++ ((d.2 ++ toString n).toList ++ behind.toList) := by
    simp only [String.toList_append, List.append_assoc]
  have hmargin :
      (d.1.toList ++ ((d.2 ++ toString n).toList ++ behind.toList)).dropWhile (· == ' ') =
        d.1.toList ++ ((d.2 ++ toString n).toList ++ behind.toList) := by
    rw [Option.any_eq_true] at hstart
    obtain ⟨c, hc, hsolid⟩ := hstart
    obtain ⟨tail, htail⟩ := List.head?_eq_some_iff.mp hc
    rw [htail, List.cons_append, List.dropWhile_cons_of_neg (by simpa using hsolid)]
  have hopens : (d.1 ++ d.2).toList <+:
      d.1.toList ++ ((d.2 ++ toString n).toList ++ behind.toList) := by
    rw [String.toList_append, String.toList_append, List.append_assoc, ← List.append_assoc]
    exact List.prefix_append _ _
  have hname : ∀ c ∈ (d.2 ++ toString n).toList, isNameChar c = true := by
    rw [String.toList_append, List.forall_mem_append]
    exact ⟨htag, fun c hc =>
      Program.isNameChar_of_isDigit (Program.isDigit_of_mem_natural hc)⟩
  rw [declared?, hchars, hmargin, declaredFrom?, find?_declarators hd hopens, Option.map_some,
    List.drop_left, List.takeWhile_append_of_pos hname]
  obtain ⟨rest, hrest⟩ := List.head?_eq_some_iff.mp hopen
  rw [hrest, List.takeWhile_cons_of_neg (by simp [hc]), List.append_nil, String.ofList_toList]

/-! ## The writers of several lines -/

/-- A line of text that is put together. -/
theorem temporaries_firm {w : Wording} (hw : w.lined) (h : Firm w l) (hl : Quiet l) :
    temporaries l = [] := hl.temporaries_eq_nil (h.term.unbroken hw)

theorem temporaries_try : temporaries "try" = [] := by decide

theorem temporaries_uncaughtLines : uncaughtLines.flatMap temporaries = [] := by decide

theorem temporaries_unwindingBody (body : List String) :
    temporaries (unwindingBody body) = body.flatMap temporaries := by
  have hlines : temporaries "catch ( ContinueException & )" = [] ∧
      temporaries "catch ( BreakException & )" = [] ∧ temporaries "break;" = [] := by
    decide
  obtain ⟨hcontinue, hcatch, hbreak⟩ := hlines
  rw [unwindingBody_eq, temporaries_unlines]
  simp only [List.flatMap_cons, List.flatMap_nil, temporaries_try, hcontinue, hcatch, hbreak,
    temporaries_braced, List.nil_append, List.append_nil]

theorem temporaries_loop (body : Option (List String)) (unwinds : Bool) :
    temporaries (loop body unwinds) = (body.getD []).flatMap temporaries := by
  have hhead : temporaries "while ( true )" = [] := by decide
  rw [loop_eq, temporaries_unlines, List.flatMap_cons, List.flatMap_singleton, hhead,
    temporaries_braced, List.nil_append]
  cases unwinds with
  | false => rfl
  | true => rw [if_pos rfl, List.flatMap_singleton, temporaries_unwindingBody]

theorem temporaries_catching (codes : List String) :
    temporaries (catching codes) = codes.flatMap temporaries := by
  have hhead : temporaries "catch ( _PythonException &_exception )" = [] := by decide
  rw [catching_eq, temporaries_unlines, List.flatMap_cons, List.flatMap_singleton, hhead,
    temporaries_braced, List.nil_append]

theorem temporaries_tryExcept_none (n : Nat) (tried handlers : List String) :
    temporaries (tryExcept n tried handlers none) =
      tried.flatMap temporaries ++ handlers.flatMap temporaries := by
  rw [tryExcept_none_eq, temporaries_unlines]
  simp only [List.flatMap_cons, List.flatMap_nil, temporaries_try, temporaries_braced,
    temporaries_catching, List.flatMap_append, temporaries_uncaughtLines, List.nil_append,
    List.append_nil]

section

variable {w : Wording} {condition assignment : String} {o : Operand} (hw : w.lined)
include hw

theorem temporaries_line (h : Line w l) (hl : Quiet l) : temporaries l = [] :=
  temporaries_firm hw h.firm hl

theorem temporaries_print {destination : Option Operand} (hd : ∀ o ∈ destination, o.Fine w)
    {values : List Operand} (hv : ∀ o ∈ values, o.Fine w) (newline : Bool) :
    temporaries (print destination values newline) = [] := by
  have hquiet : ∀ {d : String}, ∀ l ∈ printLines d values newline, Quiet l := by
    intro d l hl
    rcases List.mem_append.mp hl with hl | hl
    · obtain ⟨o, -, rfl⟩ := List.mem_map.mp hl
      exact (quiet_call (by rfl) _).terminated
    · cases newline with
      | false => exact nomatch hl
      | true =>
          rw [List.mem_singleton.mp hl]
          exact (quiet_call (by rfl) _).terminated
  have hprinted : ∀ {d : String}, Phrase w d →
      (printLines d values newline).flatMap temporaries = [] := fun hd =>
    List.flatMap_eq_nil_iff.mpr fun l hl =>
      temporaries_line hw (line_printLines hd hv newline l hl) (hquiet l hl)
  cases destination with
  | none =>
      rw [print, temporaries_unlines]
      exact hprinted (Phrase.text (by rfl))
  | some d =>
      have htarget :
          Line w (terminated (applied "PyObjectTemporary _print_target" [d.handedOver])) :=
        line_call (by rfl) (by simpa using (hd d rfl).handedOver.phrase)
      rw [print, temporaries_braced, List.flatMap_cons,
        temporaries_line hw htarget (quiet_call (by rfl) _).terminated, List.nil_append]
      exact hprinted (Phrase.text (by rfl))

/-- The line that begins a block under a condition. -/
theorem temporaries_head {keyword : String} (hk : isQuiet keyword = true)
    (h : Firm w (keyword ++ condition ++ " )")) : temporaries (keyword ++ condition ++ " )") = [] :=
  temporaries_firm hw h ((quiet_append hk condition).append " )")

theorem temporaries_branch (hc : Phrase w condition) (yes no : Option (List String)) :
    temporaries (branch condition yes no) =
      (yes.getD []).flatMap temporaries ++ (no.getD []).flatMap temporaries := by
  have hhead : temporaries ("if ( " ++ condition ++ " )") = [] :=
    temporaries_head hw (by rfl) (firm_head (by rfl) hc)
  have helse : temporaries "else" = [] := by decide
  rw [branch_eq, temporaries_unlines, List.flatMap_append, List.flatMap_cons,
    List.flatMap_singleton, hhead, temporaries_braced, List.nil_append]
  cases no with
  | none => rfl
  | some codes =>
      rw [List.flatMap_cons, List.flatMap_singleton, helse, temporaries_braced, List.nil_append]
      rfl

theorem temporaries_handlerLines {types : List Operand} (ht : ∀ o ∈ types, o.Fine w) (first : Bool)
    (codes : List String) :
    (handlerLines types codes first).flatMap temporaries = codes.flatMap temporaries := by
  have hfirm := firm_handlerHead ht first
  have hhead : temporaries ((if first then "if ( " else "else if ( ") ++ handlerCondition types ++
      " )") = [] := by
    cases first <;> exact temporaries_head hw (by rfl) hfirm
  rw [handlerLines, List.flatMap_cons, hhead, temporaries_lines, temporaries_braced,
    List.nil_append]

/-- A line that declares a temporary. -/
theorem temporaries_declaration {d : String × String} (hd : d ∈ declarators) (n : Nat)
    {behind : String} {c : Char} (hopen : behind.toList.head? = some c) (hc : isNameChar c = false)
    (h : Firm w (d.1 ++ (d.2 ++ toString n) ++ behind)) :
    temporaries (d.1 ++ (d.2 ++ toString n) ++ behind) = [d.2 ++ toString n] := by
  rw [temporaries_of_unbroken (h.term.unbroken hw), declared?_declaration hd n hopen hc]
  rfl

/-- A line that begins with the name of a temporary. -/
theorem temporaries_flagLine {n : Nat} {behind : String} (h : Firm w (caughtFlag n ++ behind)) :
    temporaries (caughtFlag n ++ behind) = [] :=
  temporaries_firm hw h ((quiet_append (a := "_caught_") (by rfl) (toString n)).append behind)

/-- The flag is declared in front of the tried block. -/
theorem temporaries_tryExcept_some (n : Nat) (tried handlers codes : List String) :
    temporaries (tryExcept n tried handlers (some codes)) =
      caughtFlag n :: (tried.flatMap temporaries ++
        (handlers.flatMap temporaries ++ codes.flatMap temporaries)) := by
  have hmark : temporaries (caughtFlag n ++ " = true;") = [] :=
    temporaries_flagLine hw (line_caughtMark n).firm
  have hdeclared : temporaries ("bool " ++ caughtFlag n ++ " = false;") = [caughtFlag n] :=
    temporaries_declaration (d := ("bool ", "_caught_")) (c := ' ') hw (by decide) n (by simp)
      (by decide) (line_caughtDeclaration n).firm
  have htest : temporaries ("if ( " ++ (caughtFlag n ++ " == false") ++ " )") = [] :=
    temporaries_head hw (by rfl) (firm_caughtTest n)
  rw [tryExcept_some_eq, temporaries_unlines]
  simp only [List.flatMap_cons, List.flatMap_nil, temporaries_try, hdeclared, htest, hmark,
    temporaries_braced, temporaries_catching, List.cons_append, List.flatMap_append,
    temporaries_uncaughtLines, List.nil_append, List.append_nil]

/-- The keeper is declared in front of the tried block. -/
theorem temporaries_tryFinally (n : Nat) (tried last : List String) :
    temporaries (tryFinally n tried last) =
      caughtFlag n :: (tried.flatMap temporaries ++ last.flatMap temporaries) := by
  have hkept : temporaries (caughtFlag n ++ ".save( _exception );") = [] :=
    temporaries_flagLine hw (line_save n).firm
  have hraised : temporaries (caughtFlag n ++ ".rethrow();") = [] :=
    temporaries_flagLine hw (line_rethrow n).firm
  have hdeclared :
      temporaries ("_PythonExceptionKeeper " ++ caughtFlag n ++ ";") = [caughtFlag n] :=
    temporaries_declaration (d := ("_PythonExceptionKeeper ", "_caught_")) (c := ';') hw (by decide)
      n (by simp) (by decide) (line_keeper n).firm
  rw [tryFinally_eq, temporaries_unlines]
  simp only [List.flatMap_cons, List.flatMap_nil, temporaries_try, hdeclared, hkept, hraised,
    temporaries_braced, temporaries_catching, List.cons_append, List.nil_append, List.append_nil]

/-- The item is declared in front of the block that handles its absence. -/
theorem temporaries_fetchOrHandle (n : Nat) (ho : o.Fine w)
    (hassignment : temporaries assignment = []) (handler : List String) :
    temporaries (fetchOrHandle n o handler assignment) =
      fetchedVariable n :: handler.flatMap temporaries := by
  have hdeclared : temporaries ("PyObject *" ++ (fetchedVariable n ++ " = " ++
      applied "ITERATOR_NEXT" [o.asArgument]) ++ ";") = [fetchedVariable n] := by
    have hcut : "PyObject *" ++ (fetchedVariable n ++ " = " ++
        applied "ITERATOR_NEXT" [o.asArgument]) ++ ";" = "PyObject *" ++ fetchedVariable n ++
          (" = " ++ (applied "ITERATOR_NEXT" [o.asArgument] ++ ";")) := by
      simp only [String.append_assoc]
    have hfirm := (line_fetch n ho).firm
    rw [hcut] at hfirm ⊢
    exact temporaries_declaration (d := ("PyObject *", "_tmp_unpack_")) (c := ' ') hw (by decide) n
      (by simp) (by decide) hfirm
  have htest : temporaries ("if ( " ++ (fetchedVariable n ++ " == NULL") ++ " )") = [] :=
    temporaries_head hw (by rfl) (firm_fetchTest n)
  rw [fetchOrHandle_eq, temporaries_unlines]
  simp only [List.flatMap_cons, List.flatMap_nil, hdeclared, htest, temporaries_braced, hassignment,
    List.cons_append, List.nil_append, List.append_nil]

end

end CompilerBackend.Target
