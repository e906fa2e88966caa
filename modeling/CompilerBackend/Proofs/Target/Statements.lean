import CompilerBackend.Tree.Describe
import CompilerBackend.Proofs.Target.Codes
import CompilerBackend.Proofs.Text.Escaped
/-!
# The text of statements, writer by writer

Every writer of statements makes a block of fine operands and of codes; the longer ones are
joined lines, which is how they are stated here first (`branch_eq`, `tryExcept_eq`, …).
-/

namespace CompilerBackend.Target

open Text Program

variable {w : Wording} {codeName : String} {o p q r : Operand} {v : Variable}
  {l u : Option Operand}

/-! ## Statements of one line -/

theorem line_call {f : String} (hf : (isSolid f && isFlat f) = true) {arguments : List String}
    (h : ∀ s ∈ arguments, Phrase w s) : Line w (terminated (applied f arguments)) :=
  Line.of_term (Term.call hf h)

theorem line_storeStatement {place value : String} (hp : Term w place) (hv : Phrase w value) :
    Line w (storeStatement place value) :=
  Line.of_term ((hp.tail (by rfl)).applied (by simpa using hv))

theorem line_variableAssignment (hc : CodeNamed w codeName) (hv : Named w v.name)
    (ho : o.Fine w) : Line w (variableAssignment codeName v o) :=
  line_storeStatement (term_storage hc hv) ho.handedOver.phrase

theorem line_variableDeletion (hc : CodeNamed w codeName) (hv : Named w v.name) :
    Line w (variableDeletion codeName v) :=
  Line.of_term ((term_storage hc hv).tail (by rfl)).nullary

theorem line_attributeAssignment (hp : p.Fine w) (hq : q.Fine w) (hr : r.Fine w) :
    Line w (attributeAssignment p q r) :=
  line_call (by rfl) (by simpa using ⟨hr.asArgument, hp.asArgument, hq.asArgument⟩)

theorem line_attributeDeletion (hp : p.Fine w) (hq : q.Fine w) :
    Line w (attributeDeletion p q) :=
  line_call (by rfl) (by simpa using ⟨hp.asArgument, hq.asArgument⟩)

theorem line_subscriptAssignment (hp : p.Fine w) (hq : q.Fine w) (hr : r.Fine w) :
    Line w (subscriptAssignment p q r) :=
  line_call (by rfl) (by simpa using ⟨hr.asArgument, hp.asArgument, hq.asArgument⟩)

theorem line_subscriptDeletion (hp : p.Fine w) (hq : q.Fine w) :
    Line w (subscriptDeletion p q) :=
  line_call (by rfl) (by simpa using ⟨hp.asArgument, hq.asArgument⟩)

theorem line_indexedSliceAssignment (ho : o.Fine w) {lower upper : String} (hl : Phrase w lower)
    (hu : Phrase w upper) (hp : p.Fine w) : Line w (indexedSliceAssignment o lower upper p) :=
  line_call (by rfl) (by simpa using ⟨ho.asArgument, hl, hu, hp.asArgument⟩)

theorem line_sliceAssignment (ho : o.Fine w) (hl : ∀ o ∈ l, o.Fine w) (hu : ∀ o ∈ u, o.Fine w)
    (hp : p.Fine w) : Line w (sliceAssignment o l u p) := by
  refine line_call (by rfl) ?_
  simpa using ⟨ho.asArgument, orElse_phrase hl (by rfl), orElse_phrase hu (by rfl), hp.asArgument⟩

theorem line_indexedSliceDeletion (ho : o.Fine w) {lower upper : String} (hl : Phrase w lower)
    (hu : Phrase w upper) : Line w (indexedSliceDeletion o lower upper) :=
  line_call (by rfl) (by simpa using ⟨ho.asArgument, hl, hu⟩)

theorem line_importStar (hc : CodeNamed w codeName) (ho : o.Fine w) :
    Line w (importStar codeName o) :=
  line_call (by rfl) (by simpa using ⟨hc.moduleVariable.phrase, ho.asArgument⟩)

theorem line_execution {parts : EvalParts} (h : parts.Fine w) : Line w (execution parts) :=
  Line.of_term (fine_evaluation h).dropped

theorem line_unpackCheck (count : Nat) (ho : o.Fine w) : Line w (unpackCheck o count) :=
  line_call (by rfl) (by simpa using ⟨ho.asArgument, (term_natural count).phrase⟩)

theorem line_expressionStatement (ho : o.Fine w) : Line w (expressionStatement o) :=
  Line.of_term ho.dropped

theorem line_returnStatement (ho : o.Fine w) : Line w (returnStatement o) :=
  Line.of_term (ho.handedOver.lead (by rfl))

theorem line_generatorEnd : Line w generatorEnd :=
  Line.text (a := "throw ReturnFromGeneratorException()") (by rfl) (by simp [generatorEnd])

theorem line_loopBreak (unwinds : Bool) : Line w (loopBreak unwinds) := by
  cases unwinds with
  | false => exact Line.text (a := "break") (by rfl) (by simp [loopBreak])
  | true => exact Line.text (a := "throw BreakException()") (by rfl) (by simp [loopBreak])

theorem line_loopContinue (unwinds : Bool) : Line w (loopContinue unwinds) := by
  cases unwinds with
  | false => exact Line.text (a := "continue") (by rfl) (by simp [loopContinue])
  | true => exact Line.text (a := "throw ContinueException()") (by rfl) (by simp [loopContinue])

theorem line_raiseStatement {value traceback : Option Operand} {maker : Option String}
    (ho : o.Fine w) (hv : ∀ o ∈ value, o.Fine w) (ht : ∀ o ∈ traceback, o.Fine w)
    (hm : ∀ s ∈ maker, Phrase w s) : Line w (raiseStatement o value traceback maker) := by
  refine line_call (by rfl) fun s hs => ?_
  simp only [List.cons_append, List.mem_cons, List.mem_append] at hs
  rcases hs with rfl | (hs | hs) | hs
  · exact ho.handedOver.phrase
  · exact handedOver_phrases hv s hs
  · exact handedOver_phrases ht s hs
  · exact hm s (Option.mem_toList.mp hs)

theorem line_reraiseStatement (handlerLocal : Bool) : Line w (reraiseStatement handlerLocal) := by
  cases handlerLocal with
  | false => exact Line.text (a := "RERAISE_EXCEPTION()") (by rfl) (by simp [reraiseStatement])
  | true => exact Line.text (a := "throw") (by rfl) (by simp [reraiseStatement])

theorem line_lineMarker (place : Location) : Line w (lineMarker place) :=
  line_call (by rfl) (by simpa using (term_natural place.line).phrase)

/-! ## Trace lines -/

/-- Escapes make no tokens that look like handles, the conversion to an index or helpers. -/
theorem calm_escaped {f : Char → List Char} (hc : IsEscape 'c' f) (hC : IsEscape 'C' f)
    (hM : IsEscape 'M' f) {s : String} (h : Calm w s) :
    Calm w (String.ofList (s.toList.flatMap f)) := by
  intro word hword
  rw [IsToken, String.toList_ofList] at hword
  refine ⟨⟨fun hstart => ?_, fun hstart => ?_⟩, ?_⟩
  · have hfirst : word.toList.head? = some 'c' := by
      obtain ⟨rest, hrest⟩ := hstart
      rw [← hrest, handleStart]
      rfl
    exact (h word (IsRun.of_flatMap hc (a := []) hfirst hword)).1.1 hstart
  · have hfirst : word.toList.head? = some 'C' := by
      obtain ⟨rest, hrest⟩ := hstart
      rw [← hrest, indexStart]
      rfl
    exact (h word (IsRun.of_flatMap hC (a := []) hfirst hword)).1.2 hstart
  · rintro hp ⟨k, hstart⟩
    have hfirst : word.toList.head? = some 'M' := by
      obtain ⟨rest, hrest⟩ := hstart
      rw [← hrest, List.head?_append]
      cases k <;> rfl
    exact (h word (IsRun.of_flatMap hM (a := []) hfirst hword)).2 hp ⟨k, hstart⟩

theorem calm_place {l : Location} (h : Calm w l.file) : Calm w l.text :=
  h.sep (by rfl) (calm_natural l.line)

theorem piece_place {l : Location} (h : Shown w l.file) : Piece w l.text :=
  h.piece.sep (by rfl) (term_natural l.line).piece

theorem piece_kindName (k : NodeKind) : Piece w k.kindName := by
  cases k with
  | module _ => exact Piece.text (by rfl)
  | sequence _ => exact Piece.text (by rfl)
  | handler _ => exact Piece.text (by rfl)
  | expr e => cases e <;> exact Piece.text (by rfl)
  | stmt s => cases s <;> exact Piece.text (by rfl)

/-- Blank characters are not escaped, and no escape writes one. -/
theorem eq_of_blank_traceChars {c d : Char} (hc : c ∈ traceChars d) (hblank : isBlank c = true) :
    d = c := by
  unfold traceChars at hc
  split at hc
  next =>
    simp only [List.mem_cons, List.not_mem_nil, or_false] at hc
    rcases hc with rfl | rfl
    · exact absurd hblank (by decide)
    · exact absurd hblank (by decide)
  next => exact (List.mem_singleton.mp hc).symm

/-- A place in the quotes of a trace message. -/
theorem piece_escaped {place : Location} (h : Shown w place.file) :
    Piece w (String.ofList (place.text.toList.flatMap traceChars)) where
  worded := (calm_escaped (isEscape_traceChars (by decide) (by decide))
    (isEscape_traceChars (by decide) (by decide)) (isEscape_traceChars (by decide) (by decide))
    (calm_place h.calm)).worded
  inline ht c hc hblank := by
    obtain ⟨d, hd, hc⟩ := List.mem_flatMap.mp (String.toList_ofList ▸ hc)
    obtain rfl := eq_of_blank_traceChars hc hblank
    exact (piece_place h).inline ht d hd hblank
  spared c hc hblank habsent := by
    obtain ⟨d, hd, hc⟩ := List.mem_flatMap.mp (String.toList_ofList ▸ hc)
    obtain rfl := eq_of_blank_traceChars hc hblank
    exact (piece_place h).spared d hd hblank habsent

def traceStart : String := "puts( \"Execute: "

theorem traceLine_eq (place kindName : String) : traceLine place kindName = traceStart ++
    (String.ofList (place.toList.flatMap traceChars) ++ " " ++ kindName) ++ "\" );" := by
  unfold traceLine traceStart
  simp only [String.append_assoc]

theorem piece_traceLine {place : Location} (h : Shown w place.file) (k : NodeKind) :
    Piece w (traceLine place.text k.kindName) := by
  rw [traceLine_eq]
  exact (((piece_escaped h).sep (by rfl) (piece_kindName k)).lead (by rfl)).tail (by rfl)

theorem isBlankText_traceLine (place kindName : String) :
    isBlankText (traceLine place kindName) = false := by
  rw [isBlankText, List.all_eq_false, traceLine_eq, String.append_assoc, String.toList_append]
  exact ⟨'p', List.mem_append_left _ (by decide +kernel), by decide⟩

theorem code_traceLine {place : Location} (h : Shown w place.file) (k : NodeKind) :
    Code w (traceLine place.text k.kindName) :=
  Code.of_piece (piece_traceLine h k) (isBlankText_traceLine _ _)

/-! ## Printing -/

theorem line_printLines {destination : String} (hd : Phrase w destination) {values : List Operand}
    (h : ∀ o ∈ values, o.Fine w) (newline : Bool) :
    ∀ s ∈ printLines destination values newline, Line w s := by
  intro s hs
  rcases List.mem_append.mp hs with hs | hs
  · obtain ⟨o, ho, rfl⟩ := List.mem_map.mp hs
    exact line_call (by rfl) (by simpa using ⟨hd, (h o ho).asArgument⟩)
  · cases newline with
    | false => exact nomatch hs
    | true =>
        rw [List.mem_singleton.mp hs]
        exact line_call (by rfl) (by simpa using hd)

/-- A print statement is empty if it prints nothing. -/
theorem block_print {destination : Option Operand} (hd : ∀ o ∈ destination, o.Fine w)
    {values : List Operand} (h : ∀ o ∈ values, o.Fine w) (newline : Bool) :
    print destination values newline = "" ∨ Block w (print destination values newline) := by
  cases destination with
  | none =>
      have hlines : ∀ s ∈ printLines "NULL" values newline, Line w s :=
        line_printLines (Phrase.text (by rfl)) h newline
      by_cases hnil : printLines "NULL" values newline = []
      · left
        rw [print, hnil, unlines_nil]
      · exact Or.inr (Block.unlines hnil fun s hs => (hlines s hs).block)
  | some d =>
      right
      refine Block.braced fun c hc => ?_
      rcases List.mem_cons.mp hc with rfl | hc
      · exact (line_call (by rfl) (by simpa using (hd d rfl).handedOver.phrase)).block.code
      · exact (line_printLines (Phrase.text (by rfl)) h newline c hc).block.code

/-! ## Branches and loops -/

variable {condition : String} {codes : List String}

/-- A condition in front of a block, behind a keyword. -/
theorem firm_head {keyword : String}
    (hk : (isHead keyword && balance 0 (Text.codes keyword) == some 1) = true)
    (hc : Phrase w condition) : Firm w (keyword ++ condition ++ " )") := Firm.between hk hc (by rfl)

theorem branch_eq (condition : String) (yes no : Option (List String)) :
    branch condition yes no =
      unlines (["if ( " ++ condition ++ " )", braced (yes.getD [])] ++
        match no with
        | some codes => ["else", braced codes]
        | none => []) := by
  apply String.toList_inj.mp
  cases no <;> simp [branch, unlines]

theorem block_branch {yes no : Option (List String)} (hc : Phrase w condition)
    (hy : ∀ codes ∈ yes, ∀ c ∈ codes, Code w c) (hn : ∀ codes ∈ no, ∀ c ∈ codes, Code w c) :
    Block w (branch condition yes no) := by
  have hyes : Block w (braced (yes.getD [])) := by
    refine Block.braced fun c hc => ?_
    cases yes with
    | none => exact nomatch hc
    | some codes => exact hy codes rfl c hc
  rw [branch_eq]
  refine Block.unlines (by simp) fun s hs => ?_
  rcases List.mem_append.mp hs with hs | hs
  · simp only [List.mem_cons, List.not_mem_nil, or_false] at hs
    rcases hs with rfl | rfl
    · exact (firm_head (by rfl) hc).block
    · exact hyes
  · cases no with
    | none => exact nomatch hs
    | some codes =>
        simp only [List.mem_cons, List.not_mem_nil, or_false] at hs
        rcases hs with rfl | rfl
        · exact Block.text (by rfl)
        · exact Block.braced (hn codes rfl)

theorem unwindingBody_eq (body : List String) :
    unwindingBody body = unlines ["try", braced body, "catch ( ContinueException & )", braced [],
      "catch ( BreakException & )", braced ["break;"]] := by
  apply String.toList_inj.mp
  simp [unwindingBody, unlines, braced]

theorem block_unwindingBody (h : ∀ c ∈ codes, Code w c) : Block w (unwindingBody codes) := by
  have hempty : Block w (braced []) := Block.braced fun _ hc => nomatch hc
  have hbreak : Block w (braced ["break;"]) :=
    Block.braced (by simpa using (Block.text (w := w) (by rfl)).code)
  have hcatch : Block w "catch ( ContinueException & )" ∧ Block w "catch ( BreakException & )" ∧
      Block w "try" := ⟨Block.text (by rfl), Block.text (by rfl), Block.text (by rfl)⟩
  rw [unwindingBody_eq]
  refine Block.unlines (by simp) ?_
  simpa using ⟨hcatch.2.2, Block.braced h, hcatch.1, hempty, hcatch.2.1, hbreak⟩

theorem loop_eq (body : Option (List String)) (unwinds : Bool) :
    loop body unwinds = unlines ["while ( true )",
      braced (if unwinds then [unwindingBody (body.getD [])] else body.getD [])] := by
  apply String.toList_inj.mp
  simp [loop, unlines]

theorem block_loop {body : Option (List String)} (h : ∀ codes ∈ body, ∀ c ∈ codes, Code w c)
    (unwinds : Bool) : Block w (loop body unwinds) := by
  have hbody : ∀ c ∈ body.getD [], Code w c := by
    cases body with
    | none => exact fun _ hc => nomatch hc
    | some codes => exact h codes rfl
  have hhead : Block w "while ( true )" := Block.text (by rfl)
  have hblock : Block w (braced (if unwinds then [unwindingBody (body.getD [])] else body.getD [])) := by
    cases unwinds with
    | false => exact Block.braced hbody
    | true => exact Block.braced (by simpa using (block_unwindingBody hbody).code)
  rw [loop_eq]
  exact Block.unlines (by simp) (by simpa using ⟨hhead, hblock⟩)

/-! ## Catching -/

theorem phrase_handlerCondition {types : List Operand} (h : ∀ o ∈ types, o.Fine w) :
    Phrase w (handlerCondition types) := by
  unfold handlerCondition
  split
  · exact Phrase.text (by rfl)
  · refine Phrase.intercalate (by rfl) fun s hs => ?_
    obtain ⟨o, ho, rfl⟩ := List.mem_map.mp hs
    exact (Term.call (by rfl) (by simpa using (h o ho).asArgument)).phrase

theorem firm_handlerHead {types : List Operand} (h : ∀ o ∈ types, o.Fine w) (first : Bool) :
    Firm w ((if first then "if ( " else "else if ( ") ++ handlerCondition types ++ " )") := by
  cases first <;> exact firm_head (by rfl) (phrase_handlerCondition h)

theorem codes_handlerLines {types : List Operand} (ht : ∀ o ∈ types, o.Fine w)
    (h : ∀ c ∈ codes, Code w c) (first : Bool) :
    ∀ c ∈ handlerLines types codes first, Code w c := by
  intro c hc
  rcases List.mem_cons.mp hc with rfl | hc
  · exact (firm_handlerHead ht first).block.code
  · exact (Block.braced h).code.lines c hc

theorem codes_uncaughtLines : ∀ c ∈ uncaughtLines, Code w c := by
  have hthrow : Code w (indentLine "throw;") := by
    refine Code.of_piece (Piece.lead (by rfl) (Piece.text (by rfl))) ?_
    exact (Row.indentLine (row_of_starts (inline_of_isLead (by rfl)) (starts_of_isHead (by rfl)))).2
  have hothers : Block w "else" ∧ Block w "\x7b" ∧ Block w "\x7d" :=
    ⟨Block.text (by rfl), Block.text (by rfl), Block.text (by rfl)⟩
  simpa [uncaughtLines] using ⟨hothers.1.code, hothers.2.1.code, hthrow, hothers.2.2.code⟩

theorem term_caughtFlag (n : Nat) : Term w (caughtFlag n) := (term_natural n).lead (by rfl)

theorem line_caughtDeclaration (n : Nat) : Line w ("bool " ++ caughtFlag n ++ " = false;") := by
  refine ⟨"bool " ++ caughtFlag n ++ " = false", ?_, ?_⟩
  · exact ((term_caughtFlag n).lead (a := "bool ") (by rfl)).tail (b := " = false") (by rfl)
  · apply String.toList_inj.mp
    simp [terminated]

theorem line_caughtMark (n : Nat) : Line w (caughtFlag n ++ " = true;") := by
  refine ⟨caughtFlag n ++ " = true", (term_caughtFlag n).tail (by rfl), ?_⟩
  apply String.toList_inj.mp
  simp [terminated]

theorem firm_caughtTest (n : Nat) : Firm w ("if ( " ++ (caughtFlag n ++ " == false") ++ " )") :=
  firm_head (by rfl) ((term_caughtFlag n).tail (b := " == false") (by rfl)).phrase

theorem line_keeper (n : Nat) : Line w ("_PythonExceptionKeeper " ++ caughtFlag n ++ ";") :=
  Line.of_term ((term_caughtFlag n).lead (by rfl))

theorem line_save (n : Nat) : Line w (caughtFlag n ++ ".save( _exception );") := by
  refine ⟨caughtFlag n ++ ".save( _exception )", (term_caughtFlag n).tail (by rfl), ?_⟩
  apply String.toList_inj.mp
  simp [terminated]

theorem line_rethrow (n : Nat) : Line w (caughtFlag n ++ ".rethrow();") := by
  refine ⟨caughtFlag n ++ ".rethrow()", (term_caughtFlag n).tail (by rfl), ?_⟩
  apply String.toList_inj.mp
  simp [terminated]

theorem catching_eq (codes : List String) :
    catching codes = unlines ["catch ( _PythonException &_exception )", braced codes] := by
  have hcut : "catch ( _PythonException &_exception )\n" =
      "catch ( _PythonException &_exception )" ++ "\n" := by simp
  rw [unlines_cons_cons, unlines_singleton]
  unfold catching
  rw [hcut, String.append_assoc]

theorem block_catching (h : ∀ c ∈ codes, Code w c) : Block w (catching codes) := by
  have hhead : Block w "catch ( _PythonException &_exception )" := Block.text (by rfl)
  rw [catching_eq]
  exact Block.unlines (by simp) (by simpa using ⟨hhead, Block.braced h⟩)

theorem tryExcept_none_eq (n : Nat) (tried handlers : List String) :
    tryExcept n tried handlers none =
      unlines ["try", braced tried, catching (handlers ++ uncaughtLines)] := by
  apply String.toList_inj.mp
  simp [tryExcept, unlines]

theorem tryExcept_some_eq (n : Nat) (tried handlers codes : List String) :
    tryExcept n tried handlers (some codes) =
      unlines ["bool " ++ caughtFlag n ++ " = false;", "try", braced tried,
        catching ((caughtFlag n ++ " = true;") :: handlers ++ uncaughtLines),
        "if ( " ++ (caughtFlag n ++ " == false") ++ " )", braced codes] := by
  apply String.toList_inj.mp
  simp [tryExcept, unlines]

theorem block_tryExcept (n : Nat) {tried handlers : List String} {noRaise : Option (List String)}
    (ht : ∀ c ∈ tried, Code w c) (hh : ∀ c ∈ handlers, Code w c)
    (hn : ∀ codes ∈ noRaise, ∀ c ∈ codes, Code w c) :
    Block w (tryExcept n tried handlers noRaise) := by
  have htry : Block w "try" := Block.text (by rfl)
  have hchain : ∀ c ∈ handlers ++ uncaughtLines, Code w c := fun c hc =>
    (List.mem_append.mp hc).elim (hh c) (codes_uncaughtLines c)
  cases noRaise with
  | none =>
      rw [tryExcept_none_eq]
      refine Block.unlines (by simp) ?_
      simpa using ⟨htry, Block.braced ht, block_catching hchain⟩
  | some codes =>
      have hcaught : Block w (Target.catching
          ((caughtFlag n ++ " = true;") :: handlers ++ uncaughtLines)) :=
        block_catching (List.forall_mem_cons.mpr ⟨(line_caughtMark n).block.code, hchain⟩)
      rw [tryExcept_some_eq]
      refine Block.unlines (by simp) ?_
      simpa using ⟨(line_caughtDeclaration n).block, htry, Block.braced ht, hcaught,
        (firm_caughtTest n).block, Block.braced (hn codes rfl)⟩

theorem tryFinally_eq (n : Nat) (tried final : List String) :
    tryFinally n tried final =
      unlines ["_PythonExceptionKeeper " ++ caughtFlag n ++ ";", "try", braced tried,
        catching [caughtFlag n ++ ".save( _exception );"], braced final,
        caughtFlag n ++ ".rethrow();"] := by
  have hcut : ";\ntry\n" = ";" ++ "\n" ++ "try" ++ "\n" := by simp
  unfold tryFinally
  rw [hcut]
  simp only [unlines_cons_cons, unlines_singleton, String.append_assoc]

theorem block_tryFinally (n : Nat) {tried final : List String} (ht : ∀ c ∈ tried, Code w c)
    (hf : ∀ c ∈ final, Code w c) : Block w (tryFinally n tried final) := by
  have htry : Block w "try" := Block.text (by rfl)
  rw [tryFinally_eq]
  refine Block.unlines (by simp) ?_
  simpa using ⟨(line_keeper n).block, htry, Block.braced ht,
    block_catching (by simpa using (line_save n).block.code), Block.braced hf,
    (line_rethrow n).block⟩

theorem fetchOrHandle_eq (n : Nat) (source : Operand) (handler : List String) (assignment : String) :
    fetchOrHandle n source handler assignment =
      unlines ["PyObject *" ++ (fetchedVariable n ++ " = " ++
        applied "ITERATOR_NEXT" [source.asArgument]) ++ ";",
        "if ( " ++ (fetchedVariable n ++ " == NULL") ++ " )", braced handler, assignment] := by
  have hhead : ";\nif ( " = ";" ++ "\n" ++ "if ( " := by simp
  have htest : " == NULL )\n" = " == NULL" ++ " )" ++ "\n" := by simp
  unfold fetchOrHandle
  rw [hhead, htest]
  simp only [unlines_cons_cons, unlines_singleton, String.append_assoc]

theorem term_fetchedVariable (n : Nat) : Term w (fetchedVariable n) :=
  (term_natural n).lead (by rfl)

theorem line_fetch (n : Nat) (ho : o.Fine w) : Line w ("PyObject *" ++ (fetchedVariable n ++ " = " ++
    applied "ITERATOR_NEXT" [o.asArgument]) ++ ";") :=
  Line.of_term (((term_fetchedVariable n).sep (m := " = ") (by rfl)
    (Term.call (by rfl) (by simpa using ho.asArgument))).lead (by rfl))

theorem firm_fetchTest (n : Nat) :
    Firm w ("if ( " ++ (fetchedVariable n ++ " == NULL") ++ " )") :=
  firm_head (by rfl) ((term_fetchedVariable n).tail (b := " == NULL") (by rfl)).phrase

theorem block_fetchOrHandle (n : Nat) (ho : o.Fine w) (hh : ∀ c ∈ codes, Code w c) {s : String}
    (hs : Block w s) : Block w (fetchOrHandle n o codes s) := by
  rw [fetchOrHandle_eq]
  refine Block.unlines (by simp) ?_
  simpa using ⟨(line_fetch n ho).block, (firm_fetchTest n).block, Block.braced hh, hs⟩

end CompilerBackend.Target
