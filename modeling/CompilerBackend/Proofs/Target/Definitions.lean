import CompilerBackend.Target.Assembly
import CompilerBackend.Proofs.Target.Statements
/-!
# The text of definitions and modules

The texts around the code of a body: functions, classes and the module. No check looks at their
blanks, so only their tokens matter here. A name that is glued to fixed text at both sides can
make a token that stands in neither, as can the name of the module where it stands alone; these
texts are hypotheses.
-/

namespace CompilerBackend

open Text Target Program

def Wording.loose (w : Wording) : Wording := { w with tight := False, absent := fun _ => False }

variable {w : Wording} {H : Prop} {codeName name : String} {closure : List Variable}

theorem Worded.piece {s : String} (h : Worded w s) : Piece w.loose s :=
  ⟨h, False.elim, fun _ _ _ => False.elim⟩

theorem Piece.loose {s : String} (h : Piece w s) : Piece w.loose s := h.worded.piece

theorem Phrase.loose {s : String} (h : Phrase w s) : Phrase w.loose s := ⟨h.piece.loose, h.level⟩

namespace Target

/-! ## Makers -/

theorem phrases_closureParameters (h : ∀ v ∈ closure, Named w v.name) :
    ∀ s ∈ closureParameters closure, Phrase w s := by
  intro s hs
  obtain ⟨v, hv, rfl⟩ := List.mem_map.mp hs
  exact (h v hv).phrase.lead (by rfl)

theorem phrases_closureArguments (h : ∀ v ∈ closure, Named w v.name) :
    ∀ s ∈ closureArguments closure, Phrase w s := by
  intro s hs
  obtain ⟨v, hv, rfl⟩ := List.mem_map.mp hs
  exact (term_closureStorage (h v hv)).phrase

theorem fine_functionCreation (hc : Named w codeName) {defaults : List Operand}
    (hd : ∀ o ∈ defaults, o.Fine w) (h : ∀ v ∈ closure, Named w v.name) :
    (functionCreation codeName defaults closure).Fine w := by
  refine (hc.lead (a := "MAKE_FUNCTION_") (by rfl)).appliedIfAny fun s hs => ?_
  rcases List.mem_append.mp hs with hs | hs
  · obtain ⟨o, ho, rfl⟩ := List.mem_map.mp hs
    exact (hd o ho).handedOver.phrase
  · exact phrases_closureArguments h s hs

theorem line_functionDeclaration (hc : Named w codeName) (count : Nat)
    (h : ∀ v ∈ closure, Named w v.name) :
    Line w (functionDeclaration codeName count closure) := by
  have hcall : Term w (appliedIfAny (functionMaker codeName)
      ((List.range count).map (fun i => "PyObject *default_" ++ toString i) ++
        closureParameters closure)) := by
    refine (hc.lead (a := "MAKE_FUNCTION_") (by rfl)).appliedIfAny fun s hs => ?_
    rcases List.mem_append.mp hs with hs | hs
    · obtain ⟨i, -, rfl⟩ := List.mem_map.mp hs
      exact (term_natural i).phrase.lead (by rfl)
    · exact phrases_closureParameters h s hs
  exact Line.of_term (hcall.lead (by rfl))

theorem worded_functionDeclaration (hc : Named w codeName) (count : Nat)
    (h : ∀ v ∈ closure, Named w v.name) :
    Worded w (functionDeclaration codeName count closure) :=
  (line_functionDeclaration hc count h).block.code.worded

theorem fine_classDictCreation (hc : Named w codeName) (h : ∀ v ∈ closure, Named w v.name) :
    (classDictCreation codeName closure).Fine w :=
  (hc.lead (a := "MAKE_CLASS_DICT_") (by rfl)).appliedIfAny (phrases_closureArguments h)

theorem interned_classCreation (name : String) {bases dict : Operand} (hb : H → bases.Fine w)
    (hd : H → dict.Fine w) : Interned w H (classCreation name bases dict) (Operand.Fine w) := by
  refine (interned_handleOfText name).bind fun handle => Interned.pure fun h => ?_
  refine Term.call (by rfl) ?_
  simpa using ⟨h.2.phrase, (hb h.1).asArgument, (hd h.1).asArgument⟩

theorem term_classSignature (hc : Named w codeName) (h : ∀ v ∈ closure, Named w v.name) :
    Term w (classSignature codeName closure) :=
  ((hc.lead (a := "MAKE_CLASS_DICT_") (by rfl)).appliedIfAny
    (phrases_closureParameters h)).lead (by rfl)

theorem line_classDeclaration (hc : Named w codeName) (h : ∀ v ∈ closure, Named w v.name) :
    Line w (classDeclaration codeName closure) := Line.of_term (term_classSignature hc h)

theorem worded_classDeclaration (hc : Named w codeName) (h : ∀ v ∈ closure, Named w v.name) :
    Worded w (classDeclaration codeName closure) :=
  (line_classDeclaration hc h).block.code.worded

/-! ## Lines of a body -/

variable {v : Variable}

theorem term_parameterName (h : Named w name) : Term w (parameterName name) := h.lead (by rfl)

theorem line_defaultLine (h : Named w v.name) {access : Operand} (ho : access.Fine w) :
    Line w (defaultLine v access) := by
  have hp := term_parameterName h
  have htest := Term.between (a := "if ( ") (b := " == NULL )") (by rfl) hp.phrase (by rfl)
  refine ⟨_, (htest.sep (m := " ") (by rfl) hp).sep (m := " = ") (by rfl) ho.handedOver, ?_⟩
  have hcut : " == NULL ) " = " == NULL )" ++ " " := by simp
  rw [defaultLine, terminated, hcut]
  simp only [String.append_assoc]

theorem interned_parameterLine (h : Named w v.name) :
    Interned w H (parameterLine v) (Line w) := by
  refine (interned_handleOfText v.name).bind fun handle => Interned.pure fun hh => ?_
  refine Line.of_term (Term.applied ((term_localStorage h).lead (by rfl)) ?_)
  simpa using ⟨hh.2.phrase, (term_parameterName h).phrase⟩

theorem interned_variableLine (h : Named w v.name) :
    Interned w H (variableLine v) (Line w) := by
  refine (interned_handleOfText v.name).bind fun handle => Interned.pure fun hh => ?_
  refine Line.of_term (Term.applied ((term_localStorage h).lead (by rfl)) ?_)
  simpa using hh.2.phrase

theorem line_temporaryLine (h : Named w v.name) : Line w (temporaryLine v) :=
  Line.of_term ((term_temporaryStorage h).lead (by rfl))

theorem line_frameLine (hc : CodeNamed w codeName) {handle : String} (h : Term w handle) :
    Line w (frameLine handle codeName) := by
  have hframe : Phrase w (applied "MAKE_FRAME" [handle, moduleVariable codeName]) :=
    (Term.call (by rfl) (by simpa using ⟨h.phrase, hc.moduleVariable.phrase⟩)).phrase
  exact line_call (by rfl) (by simpa using hframe)

/-! ## Functions -/

def functionOpening (moduleCodeName : String) (f : FunctionBody) (defaults : List Operand) :
    Interning (List String) := do
  let handle ← handleOfText f.name
  let declared ← f.parameters.all.mapM parameterLine
  let locals ← f.userVariables.mapM variableLine
  return (f.parameters.defaulted.zip defaults).map (fun (v, access) => defaultLine v access) ++
    declared ++ locals ++ f.temporaries.map temporaryLine ++ [frameLine handle moduleCodeName]

def functionClosing (f : FunctionBody) : String :=
  if f.isGenerator then generatorEnd else "return INCREASE_REFCOUNT( Py_None );"

def functionSignature (f : FunctionBody) : String :=
  "static PyObject *" ++ applied (implementationName f)
    ("CompiledFunctionObject *self" ::
      f.parameters.all.map fun v => "PyObject *" ++ parameterName v.name)

def functionText (f : FunctionBody) (place : Location) (body : List String) : String :=
  unlines ["// Function \"" ++ f.name ++ "\" defined at " ++ place.text, functionSignature f,
    braced body]

/-- The code of the body adds nothing to the program. -/
theorem functionCode_eq (moduleCodeName : String) (f : FunctionBody) (place : Location)
    (defaults : List Operand) (codes : List String) :
    functionCode moduleCodeName f place defaults codes = do
      let opening ← functionOpening moduleCodeName f defaults
      return functionText f place (opening ++ codes ++ [functionClosing f]) := rfl

theorem line_functionClosing (f : FunctionBody) : Line w (functionClosing f) := by
  unfold functionClosing
  split
  · exact line_generatorEnd
  · exact Line.text (a := "return INCREASE_REFCOUNT( Py_None )") (by rfl) (by simp)

theorem interned_functionOpening (hc : CodeNamed w codeName) {f : FunctionBody}
    {defaults : List Operand}
    (hv : ∀ v ∈ f.parameters.all ++ f.userVariables ++ f.temporaries, Named w v.name)
    (hd : H → ∀ o ∈ defaults, o.Fine w) :
    Interned w H (functionOpening codeName f defaults) fun ls => ∀ l ∈ ls, Line w l := by
  have hparameters : ∀ v ∈ f.parameters.all, Named w v.name := fun v hmem =>
    hv v (List.mem_append_left _ (List.mem_append_left _ hmem))
  have hlocals : ∀ v ∈ f.userVariables, Named w v.name := fun v hmem =>
    hv v (List.mem_append_left _ (List.mem_append_right _ hmem))
  refine (interned_handleOfText f.name).bind fun handle => ?_
  refine (Interned.mapM fun v hmem => interned_parameterLine (hparameters v hmem)).bind
    fun declared => ?_
  refine (Interned.mapM fun v hmem => interned_variableLine (hlocals v hmem)).bind
    fun locals => Interned.pure fun h => ?_
  obtain ⟨⟨⟨hH, hhandle⟩, hdeclared⟩, hlocal⟩ := h
  simp only [List.mem_append, List.mem_singleton]
  rintro l ((((hmem | hmem) | hmem) | hmem) | rfl)
  · obtain ⟨⟨v, access⟩, hpair, rfl⟩ := List.mem_map.mp hmem
    obtain ⟨hdefaulted, haccess⟩ := List.of_mem_zip hpair
    have hparameter : v ∈ f.parameters.all := List.mem_append_left _
      (List.mem_append_left _ (List.mem_of_mem_drop hdefaulted))
    exact line_defaultLine (hparameters v hparameter) (hd hH access haccess)
  · exact hdeclared l hmem
  · exact hlocal l hmem
  · obtain ⟨v, htemporary, rfl⟩ := List.mem_map.mp hmem
    exact line_temporaryLine (hv v (List.mem_append_right _ htemporary))
  · exact line_frameLine hc hhandle

theorem worded_functionSignature {f : FunctionBody} (himpl : Worded w (implementationName f))
    (hv : ∀ v ∈ f.parameters.all, Named w v.name) : Worded w (functionSignature f) := by
  refine ((himpl.piece.applied fun s hs => ?_).lead (by rfl)).worded
  rcases List.mem_cons.mp hs with rfl | hs
  · exact Piece.text (by rfl)
  · obtain ⟨v, hmem, rfl⟩ := List.mem_map.mp hs
    exact ((term_parameterName (hv v hmem)).lead (by rfl)).piece.loose

theorem interned_functionCode (hc : CodeNamed w codeName) {f : FunctionBody} {place : Location}
    {defaults : List Operand} {codes : List String} (hname : Worded w f.name)
    (himpl : Worded w (implementationName f)) (hplace : Shown w place.file)
    (hv : ∀ v ∈ f.parameters.all ++ f.userVariables ++ f.temporaries, Named w v.name)
    (hd : H → ∀ o ∈ defaults, o.Fine w) (hcodes : H → ∀ c ∈ codes, Worded w c) :
    Interned w H (functionCode codeName f place defaults codes) (Worded w) := by
  rw [functionCode_eq]
  refine (interned_functionOpening hc hv hd).bind fun opening => Interned.pure fun h => ?_
  refine Worded.unlines fun s hs => ?_
  simp only [List.mem_cons, List.not_mem_nil, or_false] at hs
  rcases hs with rfl | rfl | rfl
  · exact (Worded.lead (by rfl) hname).sep (by rfl) (piece_place hplace).worded
  · exact worded_functionSignature himpl fun v hmem =>
      hv v (List.mem_append_left _ (List.mem_append_left _ hmem))
  · refine Worded.braced fun c hmem => ?_
    simp only [List.mem_append, List.mem_singleton] at hmem
    rcases hmem with (hmem | hmem) | rfl
    · exact (h.2 c hmem).block.code.worded
    · exact hcodes h.1 c hmem
    · exact (line_functionClosing f).block.code.worded

/-! ## Classes -/

def classOpening (moduleName : String) (c : ClassBody) : Interning (List String) := do
  let handle ← handleOfText moduleName
  let locals ← c.classVariables.mapM variableLine
  let doc ← c.doc.toList.mapM classDocLine
  return locals ++ c.temporaries.map temporaryLine ++
    [storeStatement (localStorage "__module__") (applied "INCREASE_REFCOUNT" [handle])] ++ doc

def classText (c : ClassBody) (place : Location) (body : List String) : String :=
  unlines ["// Class \"" ++ c.name ++ "\" defined at " ++ place.text,
    classSignature c.codeName c.closureVariables, braced body]

/-- The code of the body adds nothing to the program. -/
theorem classCode_eq (moduleName : String) (c : ClassBody) (place : Location)
    (codes : List String) : classCode moduleName c place codes = do
      let opening ← classOpening moduleName c
      return classText c place (opening ++ codes) := rfl

theorem line_storedHandle {name handle : String} (hname : (isSolid (localStorage name) &&
    isFlat (localStorage name)) = true) (h : Term w handle) :
    Line w (storeStatement (localStorage name) (applied "INCREASE_REFCOUNT" [handle])) :=
  line_storeStatement (Term.text hname) (Term.call (by rfl) (by simpa using h.phrase)).phrase

theorem interned_classDocLine (doc : String) : Interned w H (classDocLine doc) (Line w) :=
  (interned_handleOfText doc).bind fun _ => Interned.pure fun h => line_storedHandle (by rfl) h.2

theorem interned_classOpening (moduleName : String) {c : ClassBody}
    (hv : ∀ v ∈ c.classVariables ++ c.temporaries, Named w v.name) :
    Interned w H (classOpening moduleName c) fun ls => ∀ l ∈ ls, Line w l := by
  refine (interned_handleOfText moduleName).bind fun handle => ?_
  refine (Interned.mapM fun v hmem => interned_variableLine
    (hv v (List.mem_append_left _ hmem))).bind fun locals => ?_
  refine (Interned.mapM fun doc _ => interned_classDocLine doc).bind
    fun docs => Interned.pure fun h => ?_
  obtain ⟨⟨⟨hH, hhandle⟩, hlocal⟩, hdoc⟩ := h
  simp only [List.mem_append, List.mem_singleton]
  rintro l (((hmem | hmem) | rfl) | hmem)
  · exact hlocal l hmem
  · obtain ⟨v, htemporary, rfl⟩ := List.mem_map.mp hmem
    exact line_temporaryLine (hv v (List.mem_append_right _ htemporary))
  · exact line_storedHandle (by rfl) hhandle
  · exact hdoc l hmem

theorem interned_classCode (moduleName : String) {c : ClassBody} {place : Location}
    {codes : List String} (hname : Worded w c.name) (hcode : Named w c.codeName)
    (hplace : Shown w place.file)
    (hv : ∀ v ∈ c.closureVariables ++ c.classVariables ++ c.temporaries, Named w v.name)
    (hcodes : H → ∀ s ∈ codes, Worded w s) :
    Interned w H (classCode moduleName c place codes) (Worded w) := by
  rw [classCode_eq]
  have hvariables : ∀ v ∈ c.classVariables ++ c.temporaries, Named w v.name := fun v hmem =>
    hv v (by
      rw [List.append_assoc]
      exact List.mem_append_right _ hmem)
  refine (interned_classOpening moduleName hvariables).bind fun opening => Interned.pure fun h => ?_
  refine Worded.unlines fun s hs => ?_
  simp only [List.mem_cons, List.not_mem_nil, or_false] at hs
  rcases hs with rfl | rfl | rfl
  · exact (Worded.lead (by rfl) hname).sep (by rfl) (piece_place hplace).worded
  · exact (term_classSignature hcode fun v hmem =>
      hv v (List.mem_append_left _ (List.mem_append_left _ hmem))).piece.worded
  · refine Worded.braced fun s hmem => ?_
    rcases List.mem_append.mp hmem with hmem | hmem
    · exact (h.2 s hmem).block.code.worded
    · exact hcodes h.1 s hmem

/-! ## Modules -/

theorem isIdentifier_moduleIdentifier (moduleName : String) :
    IsIdentifier (moduleIdentifier moduleName) := by
  intro c hc
  rw [moduleIdentifier, String.toList_ofList] at hc
  obtain ⟨d, -, hc⟩ := List.mem_flatMap.mp hc
  unfold identifierChars at hc
  split_ifs at hc with hdot hname
  · simp only [List.mem_cons, List.not_mem_nil, or_false, or_self] at hc
    rw [hc]
    decide
  · rw [List.mem_singleton.mp hc]
    exact hname
  · rw [List.mem_singleton.mp hc]
    decide

theorem interned_globalLine (hc : CodeNamed w codeName) {v : Variable} (h : Named w v.name) :
    Interned w H (globalLine codeName v) (Worded w) := by
  refine (interned_handleOfText v.name).bind fun handle => Interned.pure fun hh => ?_
  refine (((hc.globalStorage h).piece.lead (by rfl)).applied ?_).terminated.worded
  simpa using ⟨hc.moduleVariable.piece.lead (by rfl), hh.2.piece.lead (by rfl)⟩

theorem worded_definitionLines {definitions : List Definition}
    (h : ∀ d ∈ definitions, Worded w d.declaration ∧ Worded w d.code) :
    ∀ s ∈ definitionLines definitions, Worded w s := by
  intro s hs
  rcases List.mem_append.mp hs with hs | hs
  · split at hs
    · exact nomatch hs
    · rcases List.mem_cons.mp hs with rfl | hs
      · exact worded_empty
      · obtain ⟨d, hd, rfl⟩ := List.mem_map.mp hs
        exact (h d hd).1
  · obtain ⟨d, hd, hs⟩ := List.mem_flatMap.mp hs
    simp only [List.mem_cons, List.not_mem_nil, or_false] at hs
    rcases hs with rfl | rfl
    · exact worded_empty
    · exact (h d hd).2

theorem worded_targetString {s : String} (h : Calm w s) :
    Worded w (targetString (utf8 s)) := by
  have hescaped : (utf8 s).flatMap targetStringChars =
      s.toList.flatMap fun c => (String.utf8EncodeChar c).flatMap targetStringChars := by
    rw [utf8, List.flatMap_assoc]
  rw [targetString, hescaped]
  exact (Worded.lead (by rfl) (calm_escaped (isEscape_targetStringChars (by decide) (by decide))
    (isEscape_targetStringChars (by decide) (by decide))
    (isEscape_targetStringChars (by decide) (by decide)) h).worded).tail (by rfl)

theorem interned_moduleText {m : Module} {moduleName : String} {doc filename : Operand}
    {path : Option Operand} {scope : Scope} {codes : List String} (hname : Calm w moduleName)
    (hentry : Worded w (moduleIdentifier moduleName))
    (hv : ∀ v ∈ m.globals ++ m.temporaries, Named w v.name) (hdoc : H → doc.Fine w)
    (hfile : H → filename.Fine w) (hpath : H → ∀ o ∈ path, o.Fine w)
    (hscope : H → ∀ d ∈ definitionsOf scope, Worded w d.declaration ∧ Worded w d.code)
    (hcodes : H → ∀ s ∈ codes, Worded w s) :
    Interned w H (moduleText m moduleName doc filename path scope codes) (Worded w) := by
  have hc : CodeNamed w (moduleIdentifier moduleName) :=
    (isIdentifier_moduleIdentifier moduleName).codeNamed
  have hmodule := hc.moduleVariable
  have hinit : Worded w (moduleVariable (moduleIdentifier moduleName) ++ " = " ++
      terminated (applied "Py_InitModule4" [targetString (utf8 moduleName), "NULL", "NULL", "NULL",
        "PYTHON_API_VERSION"])) := by
    refine hmodule.piece.worded.sep (by rfl) (Piece.terminated (Piece.applied (w := w.loose)
      (Piece.text (by rfl)) fun s hs => ?_)).worded
    simp only [List.mem_cons, List.not_mem_nil, or_false] at hs
    rcases hs with rfl | rfl | rfl | rfl | rfl
    · exact (worded_targetString hname).piece
    · exact Piece.text (by rfl)
    · exact Piece.text (by rfl)
    · exact Piece.text (by rfl)
    · exact Piece.text (by rfl)
  have hstore : ∀ {name : String} {o : Operand}, isLead name = true →
      isPlainName name = true → o.Fine w → Worded w
      (storeStatement (globalStorage (moduleIdentifier moduleName) name) o.handedOver) := by
    intro name o hlead hplain ho
    have hnamed : Named w.loose name :=
      ⟨⟨Calm.text hlead, False.elim, fun _ _ _ => False.elim⟩, fun _ => isNameChar_of_mem_plain hplain⟩
    exact (line_storeStatement
      ((isIdentifier_moduleIdentifier moduleName).codeNamed.globalStorage hnamed)
      ho.handedOver.phrase.loose).block.code.worded
  refine (interned_handleOfText moduleName).bind fun handle => ?_
  refine (Interned.mapM fun v hmem => interned_globalLine hc
    (hv v (List.mem_append_left _ hmem))).bind fun globals => Interned.pure fun h => ?_
  obtain ⟨⟨hH, hhandle⟩, hglobals⟩ := h
  refine Worded.unlines fun s hs => ?_
  simp only [List.mem_append, List.mem_cons, List.not_mem_nil, or_false] at hs
  rcases hs with (((rfl | rfl) | hs) | hs) | rfl | rfl | rfl
  · exact (Worded.lead (by rfl) hname.worded).tail (by rfl)
  · exact (hmodule.piece.lead (by rfl)).terminated.worded
  · exact hglobals s hs
  · exact worded_definitionLines (hscope hH) s hs
  · exact worded_empty
  · exact ((Piece.text (w := w.loose) (by rfl)).applied (by simpa using hentry.piece)).worded
  · refine Worded.braced fun s hs => ?_
    simp only [List.mem_append, List.mem_cons, List.not_mem_nil, or_false] at hs
    rcases hs with (((rfl | rfl | rfl | rfl) | hs) | hs) | hs
    · exact hinit
    · exact (line_frameLine hc hhandle).block.code.worded
    · exact hstore (by rfl) (by decide +kernel) (hdoc hH)
    · exact hstore (by rfl) (by decide +kernel) (hfile hH)
    · obtain ⟨o, ho, rfl⟩ := Option.map_eq_some_iff.mp (Option.mem_toList.mp hs)
      exact hstore (by rfl) (by decide +kernel) (hpath hH o ho)
    · obtain ⟨v, htemporary, rfl⟩ := List.mem_map.mp hs
      exact (line_temporaryLine (hv v (List.mem_append_right _ htemporary))).block.code.worded
    · exact hcodes hH s hs

end Target
end CompilerBackend
