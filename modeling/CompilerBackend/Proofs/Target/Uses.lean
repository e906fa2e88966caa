import CompilerBackend.Proofs.Target.Definitions
import CompilerBackend.Proofs.Text.Occurrences
/-!
# How often operands are used

Each writer puts the code of its operands into the text once, whether the text takes an operand as
an argument, hands it over or drops it. So a text reads a variable as often as its operands do, all
together; fixed text, names, numbers and handles never read one. There is one equation for each
writer.

- `LocalAccess.uses`, `LocalAccess.usesAll`: how often operands read a variable.
- `count_applied`: a call reads what its arguments read.
- `uses_variableAccess`: the one writer that reads a variable itself.
- `uses_importModule`: an import takes its globals and its locals one by one, so an operand that is
  given for both of them is used twice.
-/

namespace CompilerBackend.LocalAccess

open Text Target

variable {a : LocalAccess}

def uses (a : LocalAccess) (o : Operand) : Nat := a.count o.code

def usesAll (a : LocalAccess) (os : List Operand) : Nat := (os.map a.uses).sum

@[simp] theorem uses_owned (code : String) : a.uses (.owned code) = a.count code := rfl

@[simp] theorem uses_borrowed (code : String) : a.uses (.borrowed code) = a.count code := rfl

@[simp] theorem uses_constant (code : String) : a.uses (.constant code) = a.count code := rfl

@[simp] theorem usesAll_nil : a.usesAll [] = 0 := rfl

@[simp] theorem usesAll_cons (o : Operand) (os : List Operand) :
    a.usesAll (o :: os) = a.uses o + a.usesAll os := rfl

/-! ## Names and numbers -/

theorem isIdentifier_natural (n : Nat) : IsIdentifier (toString n) := fun _ hc =>
  Program.isNameChar_of_isDigit (Program.isDigit_of_mem_natural hc)

theorem isIdentifier_append {start name : String} (hstart : start.toList.all isNameChar = true)
    (h : IsIdentifier name) : IsIdentifier (start ++ name) := by
  intro c hc
  rw [String.toList_append, List.mem_append] at hc
  exact hc.elim (List.all_eq_true.mp hstart c) (h c)

theorem count_natural (n : Nat) : a.count (toString n) = 0 := count_name (isIdentifier_natural n)

/-- Fixed text with a name behind it. -/
theorem count_prefixed {start name : String} (hstart : ')' ∉ start.toList) (h : IsIdentifier name) :
    a.count (start ++ name) = 0 := by
  refine count_of_not_mem (c := ')') (by decide) fun hmem => ?_
  rw [String.toList_append, List.mem_append] at hmem
  exact hmem.elim hstart fun hmem => absurd (h _ hmem) (by decide)

/-- A name between fixed texts. -/
theorem count_enclosed {start name behind : String} (hstart : '.' ∉ start.toList)
    (h : IsIdentifier name) (hbehind : '.' ∉ behind.toList) :
    a.count (start ++ name ++ behind) = 0 := by
  refine count_of_not_mem (c := '.') (by decide) fun hmem => ?_
  rw [String.toList_append, String.toList_append, List.mem_append, List.mem_append] at hmem
  rcases hmem with (hmem | hmem) | hmem
  · exact hstart hmem
  · exact absurd (h _ hmem) (by decide)
  · exact hbehind hmem

/-! ## Layout -/

section

variable {f s : String} {arguments codes : List String} {o p q r : Operand} {os : List Operand}

@[simp] theorem count_applied (hf : ')' ∉ f.toList) :
    a.count (applied f arguments) = a.total arguments := by
  have hopen : a.count (f ++ "( ") = 0 := by
    refine count_of_not_mem (c := ')') (by decide) ?_
    simpa using hf
  rw [applied, count_tail (by decide), count_front_append (by decide),
    hopen, count_commaSeparated, Nat.zero_add]

@[simp] theorem count_nullary (hf : '.' ∉ f.toList) : a.count (nullary f) = 0 := by
  refine count_of_not_mem (c := '.') (by decide) ?_
  simpa [nullary] using hf

theorem count_appliedIfAny (hf : ∀ c ∈ f.toList, isNameChar c = true) :
    a.count (appliedIfAny f arguments) = a.total arguments := by
  unfold appliedIfAny
  split
  next hnil =>
    rw [List.isEmpty_iff.mp hnil]
    exact count_nullary fun hmem => absurd (hf '.' hmem) (by decide)
  next => exact count_applied fun hmem => absurd (hf ')' hmem) (by decide)

@[simp] theorem count_terminated : a.count (terminated s) = a.count s := count_tail (by decide)

@[simp] theorem count_indentLine : a.count (indentLine s) = a.count s := count_lead (by decide)

theorem total_indentLine (ls : List String) : a.total (ls.map indentLine) = a.total ls := by
  rw [total, List.map_map]
  exact congrArg List.sum (List.map_congr_left fun s _ => count_indentLine)

@[simp] theorem count_braced : a.count (braced codes) = a.total codes := by
  unfold braced
  split
  next hnil =>
    rw [List.isEmpty_iff.mp hnil]
    exact count_of_isMute (by decide)
  next =>
    rw [count_tail (by decide), count_lead (by decide), indented, count_unlines, indentedLines,
      total_indentLine, total_flatMap_lines]

/-! ## Ways of using an operand -/

/-- As an argument. -/
@[simp] theorem count_asArgument : a.count o.asArgument = a.uses o := by
  unfold Operand.asArgument
  split
  next =>
    have hsplit : applied "PyObjectTemporary" [o.code] ++ ".asObject()" =
        "PyObjectTemporary( " ++ o.code ++ " ).asObject()" := by
      apply String.toList_inj.mp
      simp [applied, commaSeparated]
    rw [hsplit, count_tail (by decide)]
    exact count_lead (by decide)
  next => rfl

/-- With a reference handed over. -/
@[simp] theorem count_handedOver : a.count o.handedOver = a.uses o := by
  unfold Operand.handedOver
  split
  next => rfl
  next =>
    rw [count_applied (by simp), total_cons, total_nil, Nat.add_zero]
    rfl

/-- For its effects. -/
@[simp] theorem count_dropped : a.count o.dropped = a.uses o := by
  unfold Operand.dropped
  split
  next =>
    rw [count_applied (by simp), total_cons, total_nil, Nat.add_zero]
    rfl
  next => rfl

/-- Texts that each use one operand. -/
theorem total_map {f : Operand → String} (hf : ∀ o, a.count (f o) = a.uses o) (os : List Operand) :
    a.total (os.map f) = a.usesAll os := by
  rw [total, List.map_map]
  exact congrArg List.sum (List.map_congr_left fun o _ => hf o)

@[simp] theorem total_asArguments : a.total (asArguments os) = a.usesAll os :=
  total_map (fun _ => count_asArgument) os

theorem total_handedOver (os : List Operand) :
    a.total (os.map Operand.handedOver) = a.usesAll os := total_map (fun _ => count_handedOver) os

theorem count_orElse {absent : String} (h : a.count absent = 0) (o : Option Operand) :
    a.count (orElse o absent) = a.usesAll o.toList := by
  cases o with
  | none => exact h
  | some o => exact count_asArgument

/-! ## Attributes, subscripts and slices -/

@[simp] theorem uses_attributeLookup : a.uses (attributeLookup p q) = a.uses q + a.uses p := by
  simp [attributeLookup]

@[simp] theorem uses_specialAttributeLookup :
    a.uses (specialAttributeLookup p q) = a.uses q + a.uses p := by
  simp [specialAttributeLookup]

@[simp] theorem count_attributeAssignment :
    a.count (attributeAssignment p q r) = a.uses r + (a.uses p + a.uses q) := by
  simp [attributeAssignment]

@[simp] theorem count_attributeDeletion :
    a.count (attributeDeletion p q) = a.uses p + a.uses q := by
  simp [attributeDeletion]

@[simp] theorem uses_subscriptLookup : a.uses (subscriptLookup p q) = a.uses p + a.uses q := by
  simp [subscriptLookup]

@[simp] theorem count_subscriptAssignment :
    a.count (subscriptAssignment p q r) = a.uses r + (a.uses p + a.uses q) := by
  simp [subscriptAssignment]

@[simp] theorem count_subscriptDeletion :
    a.count (subscriptDeletion p q) = a.uses p + a.uses q := by
  simp [subscriptDeletion]

variable {l u st : Option Operand} {lower upper : String}

@[simp] theorem count_computedBound : a.count (computedBound o) = a.uses o := by
  simp [computedBound]

@[simp] theorem count_constantBound (value : Int) : a.count (constantBound value) = 0 := by
  cases value with
  | ofNat n => exact count_natural n
  | negSucc n => exact (count_lead (s := "-") (by decide)).trans (count_natural (n + 1))

theorem count_orNone (o : Option Operand) :
    a.count (orElse o "Py_None") = a.usesAll o.toList :=
  count_orElse (count_of_isMute (by decide)) o

theorem count_orNull (o : Option Operand) :
    a.count (orElse o "NULL") = a.usesAll o.toList := count_orElse (count_of_isMute (by decide)) o

@[simp] theorem uses_sliceObject : a.uses (sliceObject l u st) =
    a.usesAll l.toList + (a.usesAll u.toList + a.usesAll st.toList) := by
  simp [sliceObject, count_orNone]

@[simp] theorem uses_indexedSliceLookup : a.uses (indexedSliceLookup o lower upper) =
    a.uses o + (a.count lower + a.count upper) := by
  simp [indexedSliceLookup]

@[simp] theorem uses_sliceLookup : a.uses (sliceLookup o l u) =
    a.uses o + (a.usesAll l.toList + a.usesAll u.toList) := by
  simp [sliceLookup, count_orNone]

@[simp] theorem count_indexedSliceAssignment :
    a.count (indexedSliceAssignment o lower upper p) =
      a.uses o + (a.count lower + (a.count upper + a.uses p)) := by
  simp [indexedSliceAssignment]

@[simp] theorem count_sliceAssignment : a.count (sliceAssignment o l u p) =
    a.uses o + (a.usesAll l.toList + (a.usesAll u.toList + a.uses p)) := by
  simp [sliceAssignment, count_orNone]

@[simp] theorem count_indexedSliceDeletion : a.count (indexedSliceDeletion o lower upper) =
    a.uses o + (a.count lower + a.count upper) := by
  simp [indexedSliceDeletion]

/-! ## Containers -/

@[simp] theorem uses_setCreation : a.uses (setCreation os) = a.usesAll os := by
  unfold setCreation
  split
  next hnil =>
    rw [List.isEmpty_iff.mp hnil]
    simp [count_of_isMute (a := a) (s := "NULL") (by decide)]
  next =>
    rw [uses_owned, count_applied (by simp), total_cons, count_natural, total_asArguments,
      Nat.zero_add]

/-! ## Operators -/

@[simp] theorem uses_operation (operator : Operator) :
    a.uses (operation operator os) = a.usesAll os := by
  have hhelper : a.count (operatorHelper operator) = 0 := by
    cases operator <;> exact count_of_isMute (by decide)
  unfold operation
  dsimp only
  split
  · simp
  · simp
  · cases operator.isUnary <;> simp [hhelper]

@[simp] theorem uses_comparison (comparator : Comparator) :
    a.uses (comparison comparator p q) = a.uses p + a.uses q := by
  have hsame : a.count (p.asArgument ++ " == " ++ q.asArgument) = a.uses p + a.uses q := by
    rw [count_gap (by decide), count_asArgument, count_asArgument]
  have hother : a.count (p.asArgument ++ " != " ++ q.asArgument) = a.uses p + a.uses q := by
    rw [count_gap (by decide), count_asArgument, count_asArgument]
  cases comparator <;> simp [comparison, comparatorSuffix, hsame, hother, Nat.add_comm]

theorem count_selectionCode {helper : String} (hh : ')' ∉ helper.toList) (o : Operand)
    (os : List Operand) : a.count (selectionCode helper o os) = a.uses o + a.usesAll os := by
  induction os generalizing o with
  | nil => simp [selectionCode]
  | cons next rest ih =>
      rw [selectionCode, count_tail (by decide), count_gap (by decide), count_lead (by decide),
        count_applied hh, total_cons, total_nil, count_handedOver, ih, usesAll_cons, Nat.add_zero]

theorem uses_selection {helper : String} (hh : ')' ∉ helper.toList) {empty : Operand}
    (hempty : a.uses empty = 0) (os : List Operand) :
    a.uses (selection helper empty os) = a.usesAll os := by
  cases os with
  | nil => exact hempty
  | cons o rest => exact count_selectionCode hh o rest

@[simp] theorem uses_disjunction : a.uses (Target.disjunction os) = a.usesAll os :=
  uses_selection (by simp) ((uses_constant _).trans (count_of_isMute (by decide))) os

@[simp] theorem uses_conjunction : a.uses (Target.conjunction os) = a.usesAll os :=
  uses_selection (by simp) ((uses_constant _).trans (count_of_isMute (by decide))) os

variable {condition : String}

@[simp] theorem uses_choice :
    a.uses (choice condition p q) = a.count condition + a.uses p + a.uses q := by
  rw [choice, uses_owned, count_tail (by decide), count_gap (by decide), count_gap (by decide),
    count_lead (by decide), count_handedOver, count_handedOver]

/-! ## Conditions -/

@[simp] theorem count_truthCondition (value : Bool) : a.count (truthCondition value) = 0 := by
  cases value <;> exact count_of_isMute (by decide)

@[simp] theorem count_comparisonCondition (comparator : Comparator) :
    a.count (comparisonCondition comparator p q) = a.uses p + a.uses q := by
  have hsame : a.count ("( " ++ p.asArgument ++ " == " ++ q.asArgument ++ " )") =
      a.uses p + a.uses q := by
    rw [count_tail (by decide), count_gap (by decide), count_lead (by decide), count_asArgument,
      count_asArgument]
  have hother : a.count ("( " ++ p.asArgument ++ " != " ++ q.asArgument ++ " )") =
      a.uses p + a.uses q := by
    rw [count_tail (by decide), count_gap (by decide), count_lead (by decide), count_asArgument,
      count_asArgument]
  cases comparator <;>
    simp [comparisonCondition, comparatorSuffix, hsame, hother, Nat.add_comm]

@[simp] theorem count_negation : a.count (negation condition) = a.count condition := by
  rw [negation, count_tail (by decide), count_lead (by decide)]

@[simp] theorem count_anyOf : a.count (anyOf arguments) = a.total arguments := by
  rw [anyOf, count_tail (by decide), count_lead (by decide), count_intercalate (by decide)]

@[simp] theorem count_allOf : a.count (allOf arguments) = a.total arguments := by
  rw [allOf, count_tail (by decide), count_lead (by decide), count_intercalate (by decide)]

@[simp] theorem count_truthTest (inverted : Bool) : a.count (truthTest inverted o) = a.uses o := by
  cases inverted <;> simp [truthTest]

/-! ## Calls and imports -/

variable {t d sl sd : Option Operand}

@[simp] theorem uses_functionCall : a.uses (functionCall o t d sl sd) =
    a.uses o + (a.usesAll t.toList + (a.usesAll d.toList + (a.usesAll sl.toList +
      a.usesAll sd.toList))) := by
  have hempty : ∀ o : Option Operand,
      a.count (orElse o "const_tuple_empty") = a.usesAll o.toList := fun o =>
    count_orElse (count_of_isMute (by decide)) o
  unfold functionCall
  dsimp only
  split
  next => simp [count_orNull]
  next hstars =>
    simp only [Bool.or_eq_true, Option.isSome_iff_ne_none, not_or, not_not] at hstars
    rw [hstars.1, hstars.2]
    split <;> simp [hempty]

@[simp] theorem uses_yielded (forReturn : Bool) : a.uses (yielded o forReturn) = a.uses o := by
  have hgenerator : a.count "generator" = 0 := count_of_isMute (by decide)
  cases forReturn <;> simp [yielded, hgenerator]

/-- The globals and the locals of an import are used one by one, also where they are the same. -/
@[simp] theorem uses_importModule {name globals locals names level : Operand} :
    a.uses (importModule name globals locals names level) =
      a.uses name + (a.uses globals + (a.uses locals + (a.uses names + a.uses level))) := by
  simp [importModule]

@[simp] theorem uses_importName : a.uses (importName p q) = a.uses q + a.uses p := by
  simp [importName]

/-! ## Builtins -/

@[simp] theorem uses_unaryBuiltin (fn : UnaryBuiltin) : a.uses (unaryBuiltin fn o) = a.uses o := by
  cases fn <;> simp [unaryBuiltin, unaryBuiltinHelper]

@[simp] theorem uses_range : a.uses (range o l u) =
    a.uses o + (a.usesAll l.toList + a.usesAll u.toList) := by
  unfold range
  split <;> simp [count_orNone]

@[simp] theorem uses_iterWithSentinel :
    a.uses (iterWithSentinel p q) = a.uses p + a.uses q := by
  simp [iterWithSentinel]

@[simp] theorem uses_nextWithDefault : a.uses (nextWithDefault p q) = a.uses p + a.uses q := by
  simp [nextWithDefault]

@[simp] theorem uses_integer (kind : IntegerKind) :
    a.uses (integer kind l u) = a.usesAll l.toList + a.usesAll u.toList := by
  have hzero : a.count "0" = 0 := count_of_isMute (by decide)
  cases kind <;> cases l <;> cases u <;> simp [integer, hzero, count_orNull]

@[simp] theorem uses_dict : a.uses (Target.dict l u) = a.usesAll l.toList + a.usesAll u.toList := by
  simp [Target.dict, count_orNull]

@[simp] theorem uses_openFile : a.uses (openFile l u st) =
    a.usesAll l.toList + (a.usesAll u.toList + a.usesAll st.toList) := by
  simp [openFile, count_orNull]

theorem count_futureFlags (f : FutureFlags) : a.count (futureFlags f) = 0 := by
  obtain ⟨division, unicodeLiterals, absoluteImport, printFunction⟩ := f
  cases division <;> cases unicodeLiterals <;> cases absoluteImport <;> cases printFunction <;>
    exact count_of_isMute (by decide)

@[simp] theorem uses_evaluation (e : EvalParts) : a.uses (evaluation e) =
    a.uses e.source + (a.uses e.filename + (a.uses e.mode + a.count e.flags)) +
      (a.uses e.globals + a.uses e.locals) := by
  simp [evaluation]

@[simp] theorem count_execution (e : EvalParts) :
    a.count (execution e) = a.uses (evaluation e) := by
  simp [execution]

@[simp] theorem uses_listAppend : a.uses (listAppend p q) = a.uses p + a.uses q := by
  simp [listAppend]

@[simp] theorem uses_setAdd : a.uses (setAdd p q) = a.uses p + a.uses q := by
  simp [setAdd]

@[simp] theorem uses_dictSet : a.uses (dictSet p q r) = a.uses p + (a.uses q + a.uses r) := by
  simp [dictSet]

@[simp] theorem uses_unpackNext (n : Nat) : a.uses (unpackNext o n) = a.uses o := by
  rw [unpackNext, uses_owned, count_applied (by simp), total_cons, total_cons, total_nil,
    count_natural, count_asArgument, Nat.add_zero]

@[simp] theorem count_unpackCheck (n : Nat) : a.count (unpackCheck o n) = a.uses o := by
  rw [unpackCheck, count_terminated, count_applied (by simp), total_cons, total_cons, total_nil,
    count_natural, count_asArgument, Nat.add_zero]

/-! ## Raising and catching -/

theorem count_tracebackMaker (line : Nat) : a.count (tracebackMaker line) = 0 := by
  rw [tracebackMaker, count_applied (by simp), total_cons, total_cons, total_nil, count_natural,
    count_of_isMute (by decide)]

@[simp] theorem uses_raiseExpression (maker : String) :
    a.uses (raiseExpression os o l maker) =
      a.usesAll os + (a.uses o + (a.usesAll l.toList + a.count maker)) := by
  have hvalue : a.total (l.map Operand.handedOver).toList = a.usesAll l.toList := by
    cases l <;> simp
  have hdropped : a.total (os.map Operand.dropped) = a.usesAll os :=
    total_map (fun _ => count_dropped) os
  unfold raiseExpression
  dsimp only
  split
  next hnil =>
    rw [List.isEmpty_iff.mp hnil]
    simp [hvalue]
  next =>
    rw [uses_owned, count_tail (by decide), count_lead (by decide), count_commaSeparated,
      total_append, hdropped]
    simp [hvalue]

@[simp] theorem count_raiseStatement (maker : Option String) :
    a.count (raiseStatement o l u maker) =
      a.uses o + (a.usesAll l.toList + (a.usesAll u.toList + a.total maker.toList)) := by
  have hpart : ∀ p : Option Operand,
      a.total (p.map Operand.handedOver).toList = a.usesAll p.toList := by
    intro p
    cases p <;> simp
  simp [raiseStatement, hpart]

theorem count_reraiseStatement (handlerLocal : Bool) :
    a.count (reraiseStatement handlerLocal) = 0 := by
  cases handlerLocal <;> exact count_of_isMute (by decide)

theorem uses_caughtPart (part : CaughtPart) : a.uses (caughtPart part) = 0 := by
  cases part <;> exact count_of_isMute (by decide)

@[simp] theorem total_handlerLines (first : Bool) :
    a.total (handlerLines os codes first) = a.usesAll os + a.total codes := by
  have htest : ∀ o : Operand, a.count (applied "_exception.matches" [o.asArgument]) = a.uses o := by
    simp
  have hcondition : a.count (handlerCondition os) = a.usesAll os := by
    unfold handlerCondition
    split
    next hnil =>
      rw [List.isEmpty_iff.mp hnil]
      exact count_of_isMute (by decide)
    next =>
      rw [count_intercalate (by decide), total_map htest]
  have hhead : a.count ((if first then "if ( " else "else if ( ") ++ handlerCondition os ++ " )") =
      a.usesAll os := by
    cases first <;> rw [count_tail (by decide)]
    · rw [if_neg Bool.false_ne_true, count_lead (by decide), hcondition]
    · rw [if_pos rfl, count_lead (by decide), hcondition]
  rw [handlerLines, total_cons, hhead, total_lines, count_braced]

theorem isIdentifier_caughtFlag (n : Nat) : IsIdentifier (caughtFlag n) :=
  isIdentifier_append (by decide) (isIdentifier_natural n)

@[simp] theorem count_catching : a.count (catching codes) = a.total codes := by
  have hhead : a.count "catch ( _PythonException &_exception )" = 0 :=
    count_of_isMute (by decide +kernel)
  rw [catching_eq, count_unlines, total_cons, total_cons, total_nil, hhead, count_braced]
  omega

theorem count_try : a.count "try" = 0 := count_of_isMute (by decide)

variable {tried handlers final : List String} {noRaise : Option (List String)}

@[simp] theorem count_tryExcept (n : Nat) : a.count (tryExcept n tried handlers noRaise) =
    a.total tried + (a.total handlers + a.total (noRaise.getD [])) := by
  have huncaught : a.total uncaughtLines = 0 := by
    refine total_eq_zero fun l hl => ?_
    simp only [uncaughtLines, List.mem_cons, List.not_mem_nil, or_false] at hl
    rcases hl with rfl | rfl | rfl | rfl <;> exact count_of_isMute (by decide)
  cases noRaise with
  | none =>
      rw [tryExcept_none_eq, count_unlines]
      simp [huncaught, count_try]
  | some codes =>
      have hflag : a.count (caughtFlag n) = 0 := count_name (isIdentifier_caughtFlag n)
      have hdeclared : a.count ("bool " ++ caughtFlag n ++ " = false;") = 0 := by
        rw [count_tail (by decide), count_lead (by decide), hflag]
      have hmark : a.count (caughtFlag n ++ " = true;") = 0 := by
        rw [count_tail (by decide), hflag]
      have htest : a.count ("if ( " ++ (caughtFlag n ++ " == false") ++ " )") = 0 := by
        rw [count_tail (by decide), count_lead (by decide), count_tail (by decide), hflag]
      rw [tryExcept_some_eq, count_unlines]
      simp [huncaught, hdeclared, hmark, htest, count_try]

@[simp] theorem count_tryFinally (n : Nat) :
    a.count (tryFinally n tried final) = a.total tried + a.total final := by
  have hkept : a.count ("_PythonExceptionKeeper " ++ caughtFlag n ++ ";") = 0 := by
    rw [count_tail (by decide), count_lead (by decide), count_name (isIdentifier_caughtFlag n)]
  have hsave : a.count (caughtFlag n ++ ".save( _exception );") = 0 :=
    count_member (isIdentifier_caughtFlag n) (by decide)
  have hrethrow : a.count (caughtFlag n ++ ".rethrow();") = 0 :=
    count_member (isIdentifier_caughtFlag n) (by decide)
  rw [tryFinally_eq, count_unlines]
  simp [hkept, hsave, hrethrow, count_try]

@[simp] theorem count_fetchOrHandle (n : Nat) (assignment : String) :
    a.count (fetchOrHandle n o handlers assignment) =
      a.uses o + (a.total handlers + a.count assignment) := by
  have hvariable : a.count (fetchedVariable n) = 0 :=
    count_name (isIdentifier_append (by decide) (isIdentifier_natural n))
  have hfetch : a.count ("PyObject *" ++ (fetchedVariable n ++ " = " ++
      applied "ITERATOR_NEXT" [o.asArgument]) ++ ";") = a.uses o := by
    rw [count_tail (by decide), count_lead (by decide), count_gap (by decide), hvariable,
      count_applied (by simp), total_cons, total_nil, count_asArgument, Nat.zero_add, Nat.add_zero]
  have htest : a.count ("if ( " ++ (fetchedVariable n ++ " == NULL") ++ " )") = 0 := by
    rw [count_tail (by decide), count_lead (by decide), count_tail (by decide), hvariable]
  rw [fetchOrHandle_eq, count_unlines]
  simp [hfetch, htest]

/-! ## Control flow -/

@[simp] theorem count_branch {yes no : Option (List String)} : a.count (branch condition yes no) =
    a.count condition + (a.total (yes.getD []) + a.total (no.getD [])) := by
  have hhead : a.count ("if ( " ++ condition ++ " )") = a.count condition := by
    rw [count_tail (by decide), count_lead (by decide)]
  rw [branch_eq, count_unlines]
  cases no <;> simp [hhead, count_of_isMute (a := a) (s := "else") (by decide)]

@[simp] theorem count_loop {body : Option (List String)} (unwinds : Bool) :
    a.count (loop body unwinds) = a.total (body.getD []) := by
  have hunwinding : a.count (unwindingBody (body.getD [])) = a.total (body.getD []) := by
    have hcontinue : a.count "catch ( ContinueException & )" = 0 :=
      count_of_isMute (by decide +kernel)
    have hcatch : a.count "catch ( BreakException & )" = 0 := count_of_isMute (by decide +kernel)
    have hbreak : a.count "break;" = 0 := count_of_isMute (by decide)
    rw [unwindingBody_eq, count_unlines]
    simp [hcontinue, hcatch, hbreak, count_try]
  rw [loop, count_lead (by decide), count_braced]
  cases unwinds <;> simp [hunwinding]

@[simp] theorem count_expressionStatement : a.count (expressionStatement o) = a.uses o := by
  simp [expressionStatement]

@[simp] theorem count_returnStatement : a.count (returnStatement o) = a.uses o := by
  rw [returnStatement, count_terminated, count_lead (by decide), count_handedOver]

theorem count_generatorEnd : a.count generatorEnd = 0 := count_of_isMute (by decide)

theorem count_loopBreak (unwinds : Bool) : a.count (loopBreak unwinds) = 0 := by
  cases unwinds <;> exact count_of_isMute (by decide)

theorem count_loopContinue (unwinds : Bool) : a.count (loopContinue unwinds) = 0 := by
  cases unwinds <;> exact count_of_isMute (by decide)

/-- A destination is evaluated once, however many values are printed to it. -/
@[simp] theorem count_print (newline : Bool) :
    a.count (print l os newline) = a.usesAll l.toList + a.usesAll os := by
  have hline : ∀ {destination : String}, a.count destination = 0 → ∀ o : Operand,
      a.count (terminated (applied "PRINT_ITEM_TO" [destination, o.asArgument])) = a.uses o := by
    intro destination hdestination o
    simp [hdestination]
  have hlines : ∀ {destination : String}, a.count destination = 0 →
      a.total (printLines destination os newline) = a.usesAll os := by
    intro destination hdestination
    have hvalues : a.total (os.map fun o => terminated (applied "PRINT_ITEM_TO"
        [destination, o.asArgument])) = a.usesAll os := total_map (hline hdestination) os
    cases newline <;> simp [printLines, hvalues, hdestination]
  cases l with
  | none =>
      rw [print, count_unlines, hlines (count_of_isMute (by decide))]
      exact (Nat.zero_add _).symm
  | some o =>
      rw [print, count_braced, total_cons, hlines (count_of_isMute (by decide))]
      simp

/-! ## Variables and namespaces -/

variable {codeName place : String} {v : Variable}

theorem isIdentifier_localStorage {name : String} (h : IsIdentifier name) :
    IsIdentifier (localStorage name) := isIdentifier_append (by decide) h

theorem isIdentifier_globalStorage {name : String} (hc : IsIdentifier codeName)
    (h : IsIdentifier name) : IsIdentifier (globalStorage codeName name) := by
  have hbehind : IsIdentifier ("_" ++ name) := isIdentifier_append (by decide) h
  rw [globalStorage, String.append_assoc, String.append_assoc]
  refine isIdentifier_append (by decide) fun c hmem => ?_
  rw [String.toList_append, List.mem_append] at hmem
  exact hmem.elim (hc c) (hbehind c)

theorem isIdentifier_moduleVariable (hc : IsIdentifier codeName) :
    IsIdentifier (moduleVariable codeName) := isIdentifier_append (by decide) hc

theorem isIdentifier_storage (hc : IsIdentifier codeName) (hv : IsIdentifier v.name) :
    IsIdentifier (storage codeName v) := by
  unfold storage
  split
  · exact isIdentifier_localStorage hv
  · exact isIdentifier_localStorage hv
  · exact isIdentifier_localStorage hv
  · exact isIdentifier_append (by decide) hv
  · exact isIdentifier_globalStorage hc hv
  · exact isIdentifier_append (by decide) hv

/-- Only a variable of the same name is stored where the access reads. -/
theorem name_eq_of_storage_eq (h : storage codeName v = localStorage a.name) : v.name = a.name := by
  have hother : ∀ (i : Nat) {x : String}, x = localStorage a.name →
      x.toList[i]? = (localStorage a.name).toList[i]? := fun i x hx => by rw [hx]
  unfold storage at h
  split at h
  · exact (String.append_right_inj _).mp h
  · exact (String.append_right_inj _).mp h
  · exact (String.append_right_inj _).mp h
  -- the other storages differ from that of a local in their fixed beginnings
  · have hchar := hother 8 h
    simp [closureStorage, localStorage] at hchar
  · have hchar := hother 1 h
    simp [globalStorage, localStorage] at hchar
  · have hchar := hother 8 h
    simp [temporaryStorage, localStorage] at hchar

/-- Reading a variable is the access if the variable is stored there. -/
theorem uses_variableAccess (hc : IsIdentifier codeName) (hv : IsIdentifier v.name) :
    a.uses (variableAccess codeName v) =
      if storage codeName v = localStorage a.name then 1 else 0 := by
  have hapart : StartsApart ".asObject()".toList := fun c hc => by
    rw [← Option.some.inj hc]
    decide
  rw [variableAccess, uses_borrowed, count_name_append (isIdentifier_storage hc hv) hapart,
    count_of_isMute (by decide), Nat.add_zero]
  simp

theorem uses_variableAccess_le (hc : IsIdentifier codeName) (hv : IsIdentifier v.name) :
    a.uses (variableAccess codeName v) ≤ if v.name = a.name then 1 else 0 := by
  rw [uses_variableAccess hc hv]
  split
  next h => rw [if_pos (name_eq_of_storage_eq h)]
  next => exact Nat.zero_le _

@[simp] theorem count_storeStatement (h : ')' ∉ place.toList) :
    a.count (storeStatement place s) = a.count s := by
  rw [storeStatement, count_terminated, count_applied (by simpa using h), total_cons, total_nil,
    Nat.add_zero]

theorem not_mem_storage (hc : IsIdentifier codeName) (hv : IsIdentifier v.name) :
    ')' ∉ (storage codeName v).toList := fun hmem =>
  absurd (isIdentifier_storage hc hv _ hmem) (by decide)

theorem count_variableAssignment (hc : IsIdentifier codeName) (hv : IsIdentifier v.name) :
    a.count (variableAssignment codeName v o) = a.uses o := by
  rw [variableAssignment, count_storeStatement (not_mem_storage hc hv), count_handedOver]

theorem uses_assignmentExpression (hc : IsIdentifier codeName) (hv : IsIdentifier v.name) :
    a.uses (assignmentExpression codeName v o) = a.uses o := by
  have hplace : ')' ∉ (storage codeName v ++ ".assignAndGet").toList := by
    simpa using not_mem_storage hc hv
  rw [assignmentExpression, uses_borrowed, count_applied hplace, total_cons, total_nil,
    count_handedOver, Nat.add_zero]

theorem count_variableDeletion (hc : IsIdentifier codeName) (hv : IsIdentifier v.name) :
    a.count (variableDeletion codeName v) = 0 := by
  have hcall : nullary (storage codeName v ++ ".del") = storage codeName v ++ ".del()" := by
    rw [nullary, String.append_assoc]
    rfl
  rw [variableDeletion, count_terminated, hcall]
  exact count_member (isIdentifier_storage hc hv) (by decide)

theorem uses_defaultAccess (hv : IsIdentifier v.name) : a.uses (defaultAccess v) = 0 :=
  count_prefixed (by simp) hv

theorem uses_globalsDict (hc : IsIdentifier codeName) : a.uses (globalsDict codeName) = 0 :=
  count_enclosed (by simp) (isIdentifier_moduleVariable hc) (by simp)

theorem count_importStar (hc : IsIdentifier codeName) :
    a.count (importStar codeName o) = a.uses o := by
  rw [importStar, count_terminated, count_applied (by simp), total_cons, total_cons, total_nil,
    count_name (isIdentifier_moduleVariable hc), count_asArgument, Nat.zero_add, Nat.add_zero]

theorem uses_liveLocals : a.uses liveLocals = 0 := count_of_isMute (by decide)

/-! ## Lines around statements -/

theorem count_lineMarker (l : Location) : a.count (lineMarker l) = 0 := by
  rw [lineMarker, count_terminated, count_applied (by simp), total_cons, total_nil, count_natural]

/-- A place is as free of accesses as the name of its file. -/
theorem count_place (l : Location) : a.count l.text = a.count l.file := by
  rw [Location.text, count_gap (by decide), count_natural, Nat.add_zero]

theorem prefix_escaped_iff {code : List Char} (cs : List Char) (hquote : '"' ∉ code)
    (hslash : '\\' ∉ code) : code <+: cs.flatMap traceChars ↔ code <+: cs := by
  induction cs generalizing code with
  | nil => rfl
  | cons c cs ih =>
      cases code with
      | nil => simp
      | cons d code =>
          rw [List.mem_cons, not_or] at hquote hslash
          rw [List.flatMap_cons, traceChars]
          split
          next hc =>
            subst hc
            simp [List.cons_prefix_cons, Ne.symm hquote.1, Ne.symm hslash.1]
          next =>
            rw [List.singleton_append, List.cons_prefix_cons, List.cons_prefix_cons,
              ih hquote.2 hslash.2]

/-- Escaping quotes makes no access and breaks none. -/
theorem count_escaped (s : String) :
    a.count (String.ofList (s.toList.flatMap traceChars)) = a.count s := by
  have hquote : '"' ∉ a.code.toList := not_mem_code (by decide)
  have hslash : '\\' ∉ a.code.toList := not_mem_code (by decide)
  have hfrom : ∀ (cs : List Char) (glued : Bool),
      occurrencesFrom a.code.toList glued (cs.flatMap traceChars) =
        occurrencesFrom a.code.toList glued cs := by
    intro cs
    induction cs with
    | nil => exact fun _ => rfl
    | cons c cs ih =>
        intro glued
        rw [List.flatMap_cons]
        by_cases hc : c = '"'
        · subst hc
          rw [show traceChars '"' = ['\\', '"'] from rfl, List.cons_append, List.singleton_append,
            occurrencesFrom_cons_of_not_mem a.code_ne_nil hslash,
            occurrencesFrom_cons_of_not_mem a.code_ne_nil hquote,
            occurrencesFrom_cons_of_not_mem a.code_ne_nil hquote, ih]
        · have hbegins := prefix_escaped_iff (c :: cs) hquote hslash
          rw [List.flatMap_cons] at hbegins
          rw [traceChars, if_neg hc] at hbegins ⊢
          rw [List.singleton_append] at hbegins ⊢
          rw [occurrencesFrom, occurrencesFrom, ih]
          simp only [← List.isPrefixOf_iff_prefix, ← Bool.eq_iff_iff] at hbegins
          rw [hbegins]
  rw [count, count, occurrences, occurrences, String.toList_ofList, hfrom]

theorem count_kindName (k : NodeKind) : a.count k.kindName = 0 := by
  cases k with
  | module _ => exact count_of_isMute (by rfl)
  | sequence _ => exact count_of_isMute (by rfl)
  | handler _ => exact count_of_isMute (by rfl)
  | expr e => cases e <;> exact count_of_isMute (by rfl)
  | stmt s => cases s <;> exact count_of_isMute (by rfl)

theorem count_traceLine (l : Location) (k : NodeKind) :
    a.count (traceLine l.text k.kindName) = a.count l.file := by
  rw [traceLine_eq, count_tail (by rfl), count_lead (by rfl), count_gap (by rfl), count_escaped,
    count_place, count_kindName, Nat.add_zero]

end
end CompilerBackend.LocalAccess
