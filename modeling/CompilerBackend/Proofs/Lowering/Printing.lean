import CompilerBackend.Proofs.Lowering.Accounts
import CompilerBackend.Proofs.Lowering.Sequences
import CompilerBackend.Proofs.Lowering.Yields
import CompilerBackend.Proofs.Target.Temporaries
/-!
# What statements print

The helpers that print have names that begin alike, and only a print statement calls them, in lines
of their own. The statement that evaluates an operand begins with what releases its value, or with
the operand; and no operand that an expression becomes begins like the call of such a helper, or like
a declaration, whatever names it is made of. As its code is one line, none of its lines prints.

- `printing`: the lines of code that print.
- `Gives`: what a lowering gives, once the program after it is known to be well-formed.
- `gives_expressionForm`: the operands of expressions, one case for each kind of expression.
- `printCalls`, `printing_of_print`: what a print statement prints.
- `printing_of_evaluates`: expression and raise statements print nothing.
-/

namespace CompilerBackend

open Text Target Program

/-! ## Code that prints -/

namespace Target

/-- What the calls of the helpers that print begin with. -/
def printStart : String := "PRINT_"

/-- The text begins like the call of a helper that prints. -/
def Prints (text : String) : Prop := printStart.toList <+: text.toList

instance : DecidablePred Prints := fun text =>
  inferInstanceAs (Decidable (printStart.toList <+: text.toList))

/-- The lines of code that print, without the blanks around them. -/
def printing (code : String) : List String := ((lines code).map trim).filter (Prints ·)

/-- The calls that print values to a destination, a line for each, and the one that ends the line. -/
def printCalls (destination : String) (values : List Operand) (newline : Bool) : List String :=
  (values.map fun v => "PRINT_ITEM_TO( " ++ destination ++ ", " ++ v.asArgument ++ " );") ++
    if newline then ["PRINT_NEW_LINE_TO( " ++ destination ++ " );"] else []

/-- Where a print statement prints to: the variable that it evaluates the destination into. -/
def printTarget (destination : Option Operand) : String :=
  if destination.isSome then "_print_target.asObject()" else "NULL"

/-- Whether no text that begins with a fixed one prints, or declares a temporary. -/
def isSilentStart (a : String) : Bool :=
  isQuiet a && (!printStart.toList.isPrefixOf a.toList && !a.toList.isPrefixOf printStart.toList)

theorem not_prints_of_start {a code : String} (ha : isSilentStart a = true)
    (hcode : a.toList <+: code.toList) : ¬ Prints code := by
  intro h
  rw [isSilentStart, Bool.and_eq_true, Bool.and_eq_true, Bool.not_eq_true', Bool.not_eq_true'] at ha
  -- both texts begin the same one, so one of them begins the other
  rcases List.prefix_or_prefix_of_prefix h hcode with hp | hp
  · rw [List.isPrefixOf_iff_prefix.mpr hp] at ha
    exact Bool.noConfusion ha.2.1
  · rw [List.isPrefixOf_iff_prefix.mpr hp] at ha
    exact Bool.noConfusion ha.2.2

theorem not_prints_append {a : String} (ha : isSilentStart a = true) (b : String) :
    ¬ Prints (a ++ b) := by
  refine not_prints_of_start ha ?_
  rw [String.toList_append]
  exact List.prefix_append _ _

theorem printing_of_line {code : String} (hflat : Unbroken code) (hmargin : trim code = code)
    (h : ¬ Prints code) : printing code = [] := by
  by_cases hempty : code = ""
  · rw [hempty]
    rfl
  · rw [printing, lines_of_flat hflat hempty, List.map_singleton, hmargin, List.filter_eq_nil_iff]
    intro l hl
    rw [List.mem_singleton.mp hl, decide_eq_true_iff]
    exact h

theorem printLines_eq (destination : String) (values : List Operand) (newline : Bool) :
    printLines destination values newline = printCalls destination values newline := by
  have hitem : ∀ v : Operand, terminated (applied "PRINT_ITEM_TO" [destination, v.asArgument]) =
      "PRINT_ITEM_TO( " ++ destination ++ ", " ++ v.asArgument ++ " );" := by
    intro v
    apply String.toList_inj.mp
    simp [terminated, applied_pair]
  have hend : terminated (applied "PRINT_NEW_LINE_TO" [destination]) =
      "PRINT_NEW_LINE_TO( " ++ destination ++ " );" := by
    apply String.toList_inj.mp
    simp [terminated, applied, commaSeparated]
  simp only [printLines, printCalls, hitem, hend]

end Target

/-! ## Printed lines -/

section

variable {w : Wording} {l : String} {values : List Operand}

theorem Line.codeLine (h : Line w l) (hw : w.lined) : CodeLine l :=
  codeLine_of_starts (h.firm.term.unbroken hw) h.firm.term.solid.starts h.firm.stops

theorem Line.trim_eq (h : Line w l) : trim l = l := by
  obtain ⟨c, hc, hsolid, -⟩ := h.firm.term.solid.starts
  exact beq_iff_eq.mp (hasNoMargin_of_edged ⟨⟨c, hc, hsolid⟩, h.firm.stops⟩)

theorem trim_indentLine (l : String) : trim (indentLine l) = trim l := by
  rw [trim, trim, toList_indentLine]
  simp only [trimChars_cons_space]

/-- The lines of a print statement print, all of them. -/
theorem filter_printLines {destination : String} (hd : Phrase w destination)
    (h : ∀ o ∈ values, o.Fine w) (newline : Bool) :
    ((printLines destination values newline).map trim).filter
      (Prints ·) = printCalls destination values newline := by
  have htrim : (printLines destination values newline).map trim =
      printLines destination values newline := by
    rw [List.map_congr_left fun l hl => (line_printLines hd h newline l hl).trim_eq, List.map_id']
  have hstart : ∀ {start : String}, Prints start → ∀ more, Prints (start ++ more) := by
    intro start hstart more
    rw [Prints, String.toList_append]
    exact hstart.trans (List.prefix_append _ _)
  rw [htrim, printLines_eq, List.filter_eq_self]
  intro l hl
  rw [decide_eq_true_iff]
  rcases List.mem_append.mp hl with hl | hl
  · obtain ⟨o, -, rfl⟩ := List.mem_map.mp hl
    simp only [String.append_assoc]
    exact hstart (by decide) _
  · cases newline with
    | false => exact nomatch hl
    | true =>
        rw [List.mem_singleton.mp hl, String.append_assoc]
        exact hstart (by decide) _

/-- The braces of a block do not print. -/
theorem filter_block (ls : List String) :
    (("\x7b" :: ls.map indentLine ++ ["\x7d"]).map trim).filter (Prints ·) =
      (ls.map trim).filter (Prints ·) := by
  have hbraces : trim "\x7b" = "\x7b" ∧ trim "\x7d" = "\x7d" := by decide
  have hclosed : ["\x7d"].filter (Prints ·) = [] := by decide
  have hindent : (ls.map indentLine).map trim = ls.map trim := by
    rw [List.map_map]
    exact List.map_congr_left fun l _ => trim_indentLine l
  rw [List.cons_append, List.map_cons, List.map_append, List.map_singleton, hindent, hbraces.1,
    hbraces.2, List.filter_cons_of_neg (by decide), List.filter_append, hclosed, List.append_nil]

/-- What a print statement prints. -/
theorem printing_print (hw : w.lined) {destination : Option Operand}
    (hd : ∀ o ∈ destination, o.Fine w) (h : ∀ o ∈ values, o.Fine w) (newline : Bool) :
    printing (print destination values newline) =
      printCalls (printTarget destination) values newline := by
  have hlines : ∀ {d : String}, Phrase w d → ∀ l ∈ printLines d values newline, CodeLine l :=
    fun hd l hl => (line_printLines hd h newline l hl).codeLine hw
  cases destination with
  | none =>
      have hnull : Phrase w "NULL" := Phrase.text (by rfl)
      have hcode : lines (print none values newline) = printLines "NULL" values newline := by
        rw [print]
        refine lines_unlines (fun l hl => (hlines hnull l hl).toIsLine) fun l hl => ?_
        exact (hlines hnull l (List.mem_of_getLast? hl)).ne_empty
      rw [printing, hcode]
      exact filter_printLines hnull h newline
  | some d =>
      have hvariable : Phrase w "_print_target.asObject()" := Phrase.text (by rfl)
      have htarget : Line w
          (terminated (applied "PyObjectTemporary _print_target" [d.handedOver])) :=
        line_call (by rfl) (by simpa using (hd d rfl).handedOver.phrase)
      have hcode : lines (print (some d) values newline) = "\x7b" ::
          (terminated (applied "PyObjectTemporary _print_target" [d.handedOver]) ::
            printLines "_print_target.asObject()" values newline).map indentLine ++ ["\x7d"] := by
        rw [print]
        refine lines_braced_of_lines fun c hc => ?_
        rcases List.mem_cons.mp hc with rfl | hc
        · exact ⟨(htarget.codeLine hw).toIsLine, (htarget.codeLine hw).ne_empty⟩
        · exact ⟨(hlines hvariable c hc).toIsLine, (hlines hvariable c hc).ne_empty⟩
      have hquiet :
          ¬ Prints (terminated (applied "PyObjectTemporary _print_target" [d.handedOver])) := by
        simp only [terminated, applied, String.append_assoc]
        exact not_prints_append (by rfl) _
      rw [printing, hcode, filter_block, List.map_cons, htarget.trim_eq,
        List.filter_cons_of_neg (by rwa [decide_eq_true_iff])]
      exact filter_printLines hvariable h newline

end

/-- To evaluate the operand, and to release what it owns, neither prints nor declares. -/
def Operand.Silent (o : Operand) : Prop :=
  ∃ a, isSilentStart a = true ∧ a.toList <+: (expressionStatement o).toList

namespace Operand

theorem silent_of_eq {o : Operand} {a b : String} (ha : isSilentStart a = true)
    (h : expressionStatement o = a ++ b) : o.Silent := by
  refine ⟨a, ha, ?_⟩
  rw [h, String.toList_append]
  exact List.prefix_append _ _

theorem silent_owned (code : String) : (Operand.owned code).Silent := by
  have hcode : expressionStatement (.owned code) =
      "DECREASE_REFCOUNT" ++ ("( " ++ (commaSeparated [code] ++ (" )" ++ ";"))) := by
    show applied "DECREASE_REFCOUNT" [code] ++ ";" = _
    simp only [applied, String.append_assoc]
  exact silent_of_eq (by rfl) hcode

/-- Operands that begin with fixed text. -/
theorem silent_start {a : String} (ha : isSilentStart a = true) (b : String) (own : Ownership) :
    (Operand.mk (a ++ b) own).Silent := by
  cases own with
  | owned => exact silent_owned _
  | constant | borrowed =>
      refine silent_of_eq (b := b ++ ";") ha ?_
      show a ++ b ++ ";" = _
      rw [String.append_assoc]

theorem silent_applied {f : String} (hf : isSilentStart f = true) (arguments : List String)
    (own : Ownership) : (Operand.mk (applied f arguments) own).Silent := by
  have hcode : applied f arguments = f ++ ("( " ++ (commaSeparated arguments ++ " )")) := by
    simp only [applied, String.append_assoc]
  rw [hcode]
  exact silent_start hf _ own

theorem silent_text {a : String} (ha : isSilentStart a = true) (own : Ownership) :
    (Operand.mk a own).Silent := by
  rw [← String.append_empty (s := a)]
  exact silent_start ha "" own

end Operand

/-! ## What a lowering gives in the end -/

def Gives {α : Type} (step : Lower α) (Q : α → Prop) : Prop :=
  ∀ g : Progress, (step.run g).2.program.WellFormed → ∀ a, (step.run g).1 = .ok a → Q a

namespace Gives

variable {α β : Type} {Q : α → Prop} {R : β → Prop}

theorem pure {a : α} (h : Q a) : Gives (Pure.pure a : Lower α) Q := by
  intro g _ b hb
  rw [← Except.ok.inj hb]
  exact h

theorem throws (stop : Stop) : Gives (throw stop : Lower α) Q := by
  intro g _ a ha
  cases ha

theorem fail (t : Tree) (id : NodeId) (cause : Cause) :
    Gives (Lower.fail t id cause : Lower α) Q := throws _

/-- Only the last step counts, and the program after it. -/
theorem bind_yields {step : Lower α} {next : α → Lower β} (h : ∀ a, Yields step a → Gives (next a) R) :
    Gives (step >>= next) R := by
  intro g hwf b hb
  rw [Meets.run_bind] at hwf hb
  rcases hend : step.run g with ⟨stop | a, g'⟩
  all_goals rw [hend] at hwf hb
  · cases hb
  · exact h a ⟨g, by rw [hend]⟩ g' hwf b hb

theorem bind {step : Lower α} {next : α → Lower β} (h : ∀ a, Gives (next a) R) :
    Gives (step >>= next) R := bind_yields fun a _ => h a

/-- A last step that leaves the program as it is hands on what it was given. -/
theorem bind_same {step : Lower α} {next : α → Lower β} (hs : Gives step Q)
    (hsame : ∀ a g, ((next a).run g).2 = g) (hn : ∀ a, Q a → Gives (next a) R) :
    Gives (step >>= next) R := by
  intro g hwf b hb
  rw [Meets.run_bind] at hwf hb
  rcases hend : step.run g with ⟨stop | a, g'⟩
  all_goals rw [hend] at hwf hb
  · cases hb
  · have hkept : g'.program.WellFormed := by
      rw [← hsame a g']
      exact hwf
    have ha := hs g (by rw [hend]; exact hkept) a (by rw [hend])
    exact hn a ha g' hwf b hb

theorem intern {first : Interning α} (h : ∀ p, (first p).2.WellFormed → Q (first p).1) :
    Gives (Lower.intern first) Q := by
  intro g hwf a ha
  rw [← Except.ok.inj ha]
  exact h g.program hwf

end Gives

/-! ## Constants -/

/-- A handle of a well-formed program begins like one. -/
theorem handleStart_prefix_intern {p : Program} {c : Constant} (h : (p.intern c).2.WellFormed) :
    handleStart.toList <+: (p.intern c).1.toList := by
  rw [Program.intern] at h ⊢
  cases hget : p.constants.get? c.key with
  | none => exact handleStart_prefix_newHandle _ c
  | some e =>
      simp only [hget] at h ⊢
      obtain ⟨i, hi⟩ : ∃ i, p.table[i]? = some e :=
        List.getElem?_of_mem (List.mem_map_of_mem (OrderedMap.mem_of_get?_eq_some hget))
      rw [h.numbered hi]
      exact handleStart_prefix_newHandle i e.constant

open Operand

theorem silent_handle {handle : String} (h : handleStart.toList <+: handle.toList)
    (own : Ownership) : (Operand.mk handle own).Silent := by
  obtain ⟨cs, hcs⟩ := h
  have hhandle : handle = handleStart ++ String.ofList cs := by
    apply String.toList_inj.mp
    rw [String.toList_append, String.toList_ofList, hcs]
  rw [hhandle]
  exact silent_start (by rfl) _ own

theorem silent_tableAccess {handle : String} (h : handleStart.toList <+: handle.toList)
    (c : Constant) : (tableAccess c handle).Silent := by
  cases c with
  | tuple elements =>
      rw [tableAccess]
      split
      next => exact silent_owned _
      next => exact silent_handle h _
  | list _ | dict _ | set _ => exact silent_owned _
  | _ => exact silent_handle h _

theorem gives_constantFromTable (c : Constant) :
    Gives (Lower.intern (constantFromTable c)) Operand.Silent :=
  Gives.intern fun _ hwf => silent_tableAccess (handleStart_prefix_intern hwf) c

theorem gives_constantAccess (c : Constant) :
    Gives (Lower.intern (constantAccess c)) Operand.Silent := by
  cases c with
  | none | ellipsis => exact Gives.intern fun _ _ => silent_text (by rfl) _
  | bool b => cases b <;> exact Gives.intern fun _ _ => silent_text (by rfl) _
  | _ => exact gives_constantFromTable _

/-! ## Operands of expressions -/

/-- Storage is named with an underscore in front. -/
theorem storage_start (codeName : String) (v : Variable) :
    ∃ a b, isSilentStart a = true ∧ storage codeName v = a ++ b := by
  rw [storage]
  cases v.kind with
  | functionLocal | parameter | classLocal => exact ⟨"_python_var_", _, by rfl, rfl⟩
  | closure => exact ⟨"_python_closure_", _, by rfl, rfl⟩
  | temporary => exact ⟨"_python_tmp_", _, by rfl, rfl⟩
  | moduleGlobal =>
      refine ⟨"_mvar_", codeName ++ ("_" ++ v.name), by rfl, ?_⟩
      show "_mvar_" ++ codeName ++ "_" ++ v.name = _
      simp only [String.append_assoc]

theorem silent_variableAccess (codeName : String) (v : Variable) :
    (variableAccess codeName v).Silent := by
  obtain ⟨a, b, ha, hab⟩ := storage_start codeName v
  rw [variableAccess, hab, String.append_assoc]
  exact silent_start ha _ _

theorem silent_assignmentExpression (codeName : String) (v : Variable) (value : Operand) :
    (assignmentExpression codeName v value).Silent := by
  obtain ⟨a, b, ha, hab⟩ := storage_start codeName v
  have hcode : applied (storage codeName v ++ ".assignAndGet") [value.handedOver] =
      a ++ (b ++ (".assignAndGet" ++ ("( " ++ (commaSeparated [value.handedOver] ++ " )")))) := by
    simp only [applied, hab, String.append_assoc]
  rw [assignmentExpression, hcode]
  exact silent_start ha _ _

theorem silent_operation (operator : Operator) (operands : List Operand) :
    (operation operator operands).Silent := by
  cases operator with
  | not => exact silent_applied (by rfl) _ _
  | _ => exact silent_owned _

theorem silent_comparison (comparator : Comparator) (left right : Operand) :
    (comparison comparator left right).Silent := by
  cases comparator with
  | is | isNot | isIn | notIn | exceptionMatch => exact silent_applied (by rfl) _ _
  | _ => exact silent_owned _

theorem silent_selection {helper : String} {empty : Operand} (h : empty.Silent)
    (operands : List Operand) : (selection helper empty operands).Silent := by
  cases operands with
  | nil => exact h
  | cons o rest => exact silent_owned _

theorem silent_functionCall (function : Operand) (tuple dict starList starDict : Option Operand) :
    (functionCall function tuple dict starList starDict).Silent := by
  unfold functionCall
  dsimp only
  split
  next => exact silent_owned _
  next => split <;> exact silent_owned _

theorem silent_range (low : Operand) (high step : Option Operand) : (range low high step).Silent := by
  unfold range
  split <;> exact silent_owned _

theorem silent_integer (kind : IntegerKind) (value base : Option Operand) :
    (integer kind value base).Silent := by
  cases kind <;> cases value <;> cases base <;> exact silent_owned _

theorem silent_unaryBuiltin (fn : UnaryBuiltin) (value : Operand) :
    (unaryBuiltin fn value).Silent := by
  cases fn with
  | bool => exact silent_applied (by rfl) _ _
  | _ => exact silent_owned _

theorem silent_raiseExpression (effects : List Operand) (type : Operand) (value : Option Operand)
    (maker : String) : (raiseExpression effects type value maker).Silent := by
  rw [raiseExpression]
  split <;> exact silent_owned _

theorem silent_globalsDict (codeName : String) : (globalsDict codeName).Silent := by
  rw [globalsDict, String.append_assoc]
  exact silent_start (by rfl) _ _

theorem silent_caughtPart (part : CaughtPart) : (caughtPart part).Silent := by
  cases part <;> exact silent_text (by rfl) _

namespace Lowering

variable {s : Setting} {self : Lowerer} {id : NodeId}

theorem gives_dirList (codeName : String) (p : Provider) :
    Gives (Lower.intern (dirList codeName p)) Operand.Silent := by
  rw [dirList, Accounts.intern_bind]
  exact Gives.bind fun _ => Gives.pure (silent_owned _)

theorem gives_localsDict (codeName : String) (p : Provider) (mode : LocalsMode) :
    Gives (Lower.intern (localsDict codeName p mode)) Operand.Silent := by
  cases p with
  | module m => exact Gives.pure (silent_globalsDict codeName)
  | classBody c => exact Gives.pure (silent_text (by rfl) _)
  | function f =>
      cases mode with
      | live => exact Gives.pure (silent_text (by rfl) _)
      | copy =>
          rw [localsDict, Accounts.intern_bind]
          refine Gives.bind fun entries => ?_
          split <;> exact Gives.pure (silent_owned _)

theorem gives_container {fold : List Constant → Constant}
    {build : List Operand → Interning Operand} (elements : List NodeId)
    (h : ∀ os, Gives (Lower.intern (build os)) Operand.Silent) :
    Gives (container s.tree self fold build elements) Operand.Silent := by
  rw [container]
  split
  next => exact gives_constantFromTable _
  next => exact Gives.bind h

theorem gives_dict (pairs : List (NodeId × NodeId)) :
    Gives (Lowering.dict s.tree self pairs) Operand.Silent := by
  rw [Lowering.dict]
  split
  next => exact gives_constantFromTable _
  next =>
    refine Gives.bind fun keys => Gives.bind fun values => ?_
    rw [dictCreation, Accounts.intern_bind]
    refine Gives.bind fun _ => ?_
    dsimp only
    split <;> exact Gives.pure (silent_owned _)

theorem gives_sliceLookup (source : NodeId) (lower upper : Option NodeId) :
    Gives (Lowering.sliceLookup s self source lower upper) Operand.Silent := by
  rw [Lowering.sliceLookup]
  refine Gives.bind fun o => ?_
  split
  next => exact Gives.bind fun _ => Gives.pure (silent_owned _)
  next =>
    split
    next => exact Gives.bind fun _ => Gives.pure (silent_owned _)
    next => exact Gives.bind fun _ => Gives.pure (silent_owned _)

theorem gives_functionObject (defaults : List NodeId) :
    Gives (functionObject s self id defaults) Operand.Silent := by
  rw [functionObject]
  split
  next f _ =>
    dsimp only
    split
    next => exact Gives.bind fun _ => Gives.bind fun _ => Gives.bind fun _ => Gives.bind fun _ =>
      Gives.bind fun _ => Gives.pure (silent_owned _)
    next => exact Gives.bind fun _ => Gives.bind fun _ => Gives.bind fun _ =>
      Gives.bind fun _ => Gives.pure (silent_owned _)
  next => exact Gives.fail _ _ _

theorem gives_classObject (bases : List NodeId) :
    Gives (classObject s self id bases) Operand.Silent := by
  rw [classObject]
  split
  next c _ =>
    refine Gives.bind fun bases => Gives.bind fun codes => Gives.bind_yields fun creation h => ?_
    have howned : creation.Silent := by
      obtain ⟨g, hg⟩ := h
      rw [← Except.ok.inj hg]
      exact silent_owned _
    exact Gives.bind fun _ => Gives.bind fun _ => Gives.pure howned
  next => exact Gives.fail _ _ _

theorem gives_tupleCreation (os : List Operand) :
    Gives (Lower.intern (tupleCreation os)) Operand.Silent := by
  rw [tupleCreation, Accounts.intern_bind]
  exact Gives.bind fun _ => Gives.pure (silent_owned _)

theorem gives_listCreation (os : List Operand) :
    Gives (Lower.intern (listCreation os)) Operand.Silent := by
  rw [listCreation, Accounts.intern_bind]
  exact Gives.bind fun _ => Gives.pure (silent_owned _)

theorem gives_setCreation (os : List Operand) :
    Gives (Lower.intern (return setCreation os)) Operand.Silent := by
  rw [Accounts.intern_pure, setCreation]
  split <;> exact Gives.pure (silent_owned _)

theorem gives_exceptionCreation (name : String) (os : List Operand) :
    Gives (Lower.intern (exceptionCreation name os)) Operand.Silent := by
  unfold exceptionCreation
  dsimp only
  split
  next => exact Gives.pure (silent_owned _)
  next =>
    rw [Accounts.intern_bind]
    exact Gives.bind fun _ => Gives.pure (silent_owned _)

theorem gives_builtinReference (name : String) :
    Gives (Lower.intern (builtinReference name)) Operand.Silent := by
  rw [builtinReference, Accounts.intern_bind]
  exact Gives.bind fun _ => Gives.pure (silent_applied (by rfl) _ _)

theorem gives_typeOfThree (moduleName : String) (name bases dict : Operand) :
    Gives (Lower.intern (typeOfThree moduleName name bases dict)) Operand.Silent := by
  rw [typeOfThree, Accounts.intern_bind]
  exact Gives.bind fun _ => Gives.pure (silent_owned _)

/-- The operand of an expression does not print. -/
theorem gives_expressionForm (e : Expr) :
    Gives (expressionForm s self id e) Operand.Silent := by
  cases e with
  | variableRef _ _ | temporaryRef _ =>
      exact Gives.bind fun v => Gives.pure (silent_variableAccess s.codeName v)
  | constant value => exact gives_constantAccess value
  | operation operator _ => exact Gives.bind fun os => Gives.pure (silent_operation operator os)
  | disjunction _ | conjunction _ =>
      exact Gives.bind fun os => Gives.pure (silent_selection (silent_text (by rfl) _) os)
  | comparison comparator _ _ =>
      exact Gives.bind fun l => Gives.bind fun r => Gives.pure (silent_comparison comparator l r)
  | makeTuple elements => exact gives_container elements gives_tupleCreation
  | makeList elements => exact gives_container elements gives_listCreation
  | makeSet elements => exact gives_container elements gives_setCreation
  | makeDict pairs => exact gives_dict pairs
  | call _ _ _ _ _ =>
      rw [expressionForm_call]
      exact Gives.bind fun f => Gives.bind fun arguments => Gives.bind fun names => Gives.bind fun list =>
        Gives.bind fun dict => Gives.pure (silent_functionCall f arguments names list dict)
  | slice source lower upper => exact gives_sliceLookup source lower upper
  | function _ => exact gives_functionObject []
  | functionDefaulted _ defaults => exact gives_functionObject defaults
  | classBody _ => exact gives_classObject []
  | classBased _ bases => exact gives_classObject bases
  | globals => exact Gives.pure (silent_globalsDict s.codeName)
  | locals => exact Gives.bind fun p => gives_localsDict s.codeName p _
  | dir => exact Gives.bind fun p => gives_dirList s.codeName p
  | unaryBuiltin fn _ => exact Gives.bind fun o => Gives.pure (silent_unaryBuiltin fn o)
  | integer kind _ _ =>
      dsimp only [expressionForm]
      split
      next => exact Gives.bind fun _ => Gives.bind fun v => Gives.bind fun b =>
        Gives.pure (silent_integer kind v b)
      next => exact Gives.bind fun v => Gives.bind fun b => Gives.pure (silent_integer kind v b)
  | range _ _ _ =>
      exact Gives.bind fun l => Gives.bind fun h => Gives.bind fun st => Gives.pure (silent_range l h st)
  | typeOfThree _ _ _ =>
      exact Gives.bind fun n => Gives.bind fun b => Gives.bind fun d =>
        gives_typeOfThree s.moduleName n b d
  | makeException name _ => exact Gives.bind fun os => gives_exceptionCreation name os
  | builtin name => exact gives_builtinReference name
  | anonymousBuiltin name =>
      dsimp only [expressionForm]
      rw [anonymousBuiltin, String.append_assoc]
      exact Gives.pure (silent_start (by rfl) _ _)
  | exception _ => exact Gives.pure (silent_start (by rfl) _ _)
  | raise _ _ _ =>
      exact Gives.bind fun effects => Gives.bind fun type => Gives.bind fun v =>
        Gives.pure (silent_raiseExpression effects type v _)
  | assignment _ _ =>
      exact Gives.bind fun o => Gives.bind fun v =>
        Gives.pure (silent_assignmentExpression s.codeName v o)
  | caught part => exact Gives.pure (silent_caughtPart part)
  | listAppend _ _ | setAdd _ _ =>
      exact Gives.bind fun _ => Gives.bind fun _ => Gives.pure (silent_applied (by rfl) _ _)
  | dictSet _ _ _ =>
      exact Gives.bind fun _ => Gives.bind fun _ => Gives.bind fun _ =>
        Gives.pure (silent_applied (by rfl) _ _)
  | importModule _ _ _ =>
      exact Gives.bind fun _ => Gives.bind fun _ => Gives.bind fun _ => Gives.bind fun _ =>
        Gives.pure (silent_owned _)
  | builtinImport _ _ _ _ _ =>
      rw [expressionForm_builtinImport]
      exact Gives.bind fun _ => Gives.bind fun _ => Gives.bind fun _ => Gives.bind fun _ =>
        Gives.bind fun _ => Gives.pure (silent_owned _)
  | eval _ _ _ _ | unpackNext _ _ | yield _ _ => exact Gives.bind fun _ => Gives.pure (silent_owned _)
  | attributeOf _ _ | specialAttributeOf _ _ | subscript _ _ | importName _ _
  | iterWithSentinel _ _ | nextWithDefault _ _ | dict _ _ =>
      exact Gives.bind fun _ => Gives.bind fun _ => Gives.pure (silent_owned _)
  | conditional _ _ _ | sliceObject _ _ _ | openFile _ _ _ =>
      exact Gives.bind fun _ => Gives.bind fun _ => Gives.bind fun _ => Gives.pure (silent_owned _)

theorem gives_expression : Gives (Lowering.expression s self id) Operand.Silent := by
  unfold Lowering.expression
  split
  next => exact Gives.fail _ _ _
  next e _ =>
    refine Gives.bind_same (gives_expressionForm e) (fun o g => ?_) fun o ho => ?_
    · cases o.defect? <;> rfl
    · split
      next => exact Gives.fail _ _ _
      next => exact Gives.pure ho

theorem gives_ofDepth (levels : Nat) :
    Gives ((Lowerer.ofDepth s levels).expression id) Operand.Silent := by
  cases levels with
  | zero => exact Gives.throws _
  | succ levels => exact gives_expression

/-! ## Statements -/

/-- Statements that evaluate an expression or raise an exception. -/
inductive Evaluates : Stmt → Prop
  | expression (value : NodeId) : Evaluates (.expression value)
  | raise (exceptionType value traceback : Option NodeId) :
      Evaluates (.raise exceptionType value traceback)

theorem not_prints_raiseStatement (type : Operand) (value traceback : Option Operand)
    (maker : Option String) : ¬ Prints (raiseStatement type value traceback maker) := by
  rw [raiseStatement, terminated, applied]
  simp only [String.append_assoc]
  exact not_prints_append (by rfl) _

theorem gives_raising (exceptionType value traceback : Option NodeId) :
    Gives (raising s self id exceptionType value traceback) (¬ Prints ·) := by
  cases exceptionType with
  | none =>
      refine Gives.pure ?_
      rw [reraiseStatement]
      split
      next => exact not_prints_append (a := "throw;") (by rfl) ""
      next => exact not_prints_append (a := "RERAISE_EXCEPTION();") (by rfl) ""
  | some type =>
      refine Gives.bind fun o => Gives.bind fun v => ?_
      dsimp only
      split
      all_goals
        refine Gives.bind fun tb => ?_
        cases tb <;> exact Gives.pure (not_prints_raiseStatement _ _ _ _)

theorem gives_statementForm {levels : Nat} {st : Stmt} (h : Evaluates st) :
    Gives (statementForm s (Lowerer.ofDepth s levels) id st) (¬ Prints ·) := by
  cases h with
  | expression value =>
      refine Gives.bind_same (gives_ofDepth levels) (fun _ _ => rfl) fun _ ho => ?_
      obtain ⟨a, ha, hcode⟩ := ho
      exact Gives.pure (not_prints_of_start ha hcode)
  | raise exceptionType value traceback => exact gives_raising exceptionType value traceback

/-! ## What is printed -/

section

variable {w : Wording} {T H : Prop} {P : NodeId → Prop}

/-- The code of such a statement is one line. -/
theorem meets_evaluates (h : self.Handles w s T P) {st : Stmt} (hst : Evaluates st)
    (hkind : s.tree.kind id = .stmt st) (hP : ∀ c ∈ st.children, P c) :
    Meets w T H (statementForm s self id st) (s.Resolved (.statement, id)) (Line w) := by
  cases hst with
  | expression value =>
      refine ((h.expression (hP value List.mem_cons_self)).bind fun o => Meets.pure fun ho =>
        line_expressionStatement ho.2).iff fun _ _ => ?_
      rw [resolved_statement_iff_children hkind rfl]
      simp [Stmt.children]
  | raise exceptionType value traceback => exact meets_raising h hkind hP

theorem meets_print (h : self.Handles w s T P) {destination : Option NodeId}
    {values : List NodeId} (newline : Bool) (hd : ∀ c ∈ destination, P c) (hv : ∀ c ∈ values, P c) :
    Meets w T H (statementForm s self id (.print destination values newline))
      (s.AllResolved destination.toList ∧ s.AllResolved values) fun code => ∃ d os,
        ((∀ o ∈ d, o.Fine w) ∧ Yields (self.optional destination) d) ∧
          ((∀ o ∈ os, o.Fine w) ∧ Yields (self.expressions values) os) ∧
            code = print d os newline := by
  refine ((meets_optional h hd).traced.bind fun d => (meets_expressions h hv).traced.bind fun os =>
    Meets.pure fun ho => ?_).iff fun _ _ => ?_
  · exact ⟨d, os, ho.1.2, ho.2, rfl⟩
  · rw [and_true]

end

theorem handles_inOneLine (hlines : s.tree.InOneLine id) (hcode : IsIdentifier s.codeName)
    (p : Program) :
    s.lowerer.Handles ((Wording.lax False True).onto p) s False (s.tree.Below id) :=
  (handles_lowerer (grounded_onto (hlines.grounded hcode) (lax_lax False True) p)).weaken False.elim

/-- A statement that evaluates an expression or raises an exception does not print by itself. -/
theorem printing_of_evaluates (hlines : s.tree.InOneLine id) (hcode : IsIdentifier s.codeName)
    {g g' : Progress} (hg : g.program.WellFormed) {st : Stmt} (hst : s.tree.stmt? id = some st)
    (h : Evaluates st) {code : String} (hrun : RunsTo (s.statement id) g code g') :
    printing code = [] := by
  obtain ⟨hform, hmargin⟩ := (runsTo_statement_iff hst).mp hrun
  have hhandles := handles_inOneLine hlines hcode g'.program
  have hkind := Tree.stmt?_eq_some_iff.mp hst
  have hbelow : ∀ c ∈ st.children, s.tree.Below id c := fun c hc =>
    Tree.Below.of_child (by rwa [Tree.children, hkind])
  obtain ⟨hline, hwf⟩ := hform.given hg (lax_lax False True)
    (meets_evaluates hhandles h hkind hbelow)
  have hflat : Unbroken code := hline.firm.term.unbroken (.inr trivial)
  refine printing_of_line hflat (beq_iff_eq.mp hmargin) ?_
  have hgives : Gives (statementForm s s.lowerer id st) (¬ Prints ·) := gives_statementForm h
  rw [RunsTo] at hform
  exact hgives g (by rw [hform]; exact hwf) code (by rw [hform])

/-- The operands that a print statement prints are those of its values, in order, to where the
operand of the destination says. -/
theorem printing_of_print (hlines : s.tree.InOneLine id) (hcode : IsIdentifier s.codeName)
    {g g' : Progress} (hg : g.program.WellFormed) {destination : Option NodeId}
    {values : List NodeId} {newline : Bool}
    (hst : s.tree.stmt? id = some (.print destination values newline)) {code : String}
    (hrun : RunsTo (s.statement id) g code g') :
    ∃ d os, Option.Rel (fun n o => Yields (s.lowerer.expression n) o) destination d ∧
      List.Forall₂ (fun n o => Yields (s.lowerer.expression n) o) values os ∧
        code = print d os newline ∧ printing code = printCalls (printTarget d) os newline := by
  obtain ⟨hform, -⟩ := (runsTo_statement_iff hst).mp hrun
  have hhandles := handles_inOneLine hlines hcode g'.program
  have hkind := Tree.stmt?_eq_some_iff.mp hst
  have hbelow : ∀ c ∈ destination.toList ++ values, s.tree.Below id c := fun c hc =>
    Tree.Below.of_child (by rwa [Tree.children, hkind])
  obtain ⟨⟨d, os, ⟨hd, hdest⟩, ⟨hos, hvalues⟩, rfl⟩, -⟩ := hform.given hg (lax_lax False True)
    (meets_print hhandles newline (fun c hc => hbelow c (by simp [Option.mem_def.mp hc]))
      fun c hc => hbelow c (by simp [hc]))
  exact ⟨d, os, hdest.of_optional, hvalues.of_expressions, rfl,
    printing_print (w := (Wording.lax False True).onto g'.program) (.inr trivial) hd hos newline⟩

end Lowering
end CompilerBackend
