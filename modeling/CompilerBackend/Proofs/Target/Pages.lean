import CompilerBackend.Lowering.ModuleText
import CompilerBackend.Proofs.Target.Definitions
import CompilerBackend.Proofs.Target.Traced
import CompilerBackend.Proofs.Text.Printable
/-!
# Whole texts with and without a trace

The text of a definition or module has blank lines, so it is looked at line by line. Leaving out the
lines that report goes through texts below one another, whatever their lines are.

- `cutLines`: a text cut at its line feeds; `withoutTrace`: the text without lines that report.
- `Leaves`: one text is the other one without such lines; `Leaves.unlines` puts them together.
- `moduleLayout`: the text of a module around the lines of its body; `moduleText_eq`.
-/

namespace CompilerBackend

open Text Target

/-! ## Cutting at line feeds -/

namespace Text

def cutLines (s : String) : List String := (s.toList.splitOn '\n').map String.ofList

variable {a b l : String} {ls : List String}

theorem cutLines_newline (a b : String) : cutLines (a ++ "\n" ++ b) = cutLines a ++ cutLines b := by
  have hchars : (a ++ "\n" ++ b).toList = a.toList ++ '\n' :: b.toList := by simp
  rw [cutLines, hchars, List.splitOn, List.splitOnP_append_cons _ _ (by rfl), List.map_append]
  rfl

theorem cutLines_of_unbroken (h : Unbroken l) : cutLines l = [l] := by
  rw [cutLines, List.splitOn, List.splitOnP_eq_singleton fun c hc => ?_]
  · simp
  · simpa using fun heq : c = '\n' => h (heq ▸ hc)

theorem cutLines_unlines (hne : ls ≠ []) : cutLines (unlines ls) = ls.flatMap cutLines := by
  induction ls with
  | nil => exact absurd rfl hne
  | cons a ls ih =>
      cases ls with
      | nil => simp
      | cons b ls =>
          rw [unlines_cons_cons, cutLines_newline, ih (by simp)]
          exact List.flatMap_cons.symm

theorem cutLines_unlines_of_unbroken (hne : ls ≠ []) (h : ∀ l ∈ ls, Unbroken l) :
    cutLines (unlines ls) = ls := by
  rw [cutLines_unlines hne, List.flatMap_congr fun l hl => cutLines_of_unbroken (h l hl)]
  simp

/-- Nothing is lost. -/
theorem unlines_cutLines (s : String) : unlines (cutLines s) = s := by
  apply String.toList_inj.mp
  have hcut : (cutLines s).map String.toList = s.toList.splitOn '\n' := by
    rw [cutLines, List.map_map]
    simp
  rw [unlines, String.toList_intercalate, hcut]
  exact List.intercalate_splitOn '\n'

end Text

/-! ## Leaving lines out -/

namespace Target

def withoutTrace (s : String) : String := unlines (untraced (cutLines s))

end Target

def Leaves (c' c : String) : Prop := untraced (cutLines c') = cutLines c

namespace Leaves

variable {w : Wording} {a' a b' b c' c l : String} {ls' ls : List String}

theorem withoutTrace_eq (h : Leaves c' c) : withoutTrace c' = c := by
  rw [withoutTrace, h, unlines_cutLines]

theorem empty : Leaves "" "" := by
  unfold Leaves
  decide +kernel

theorem newline (ha : Leaves a' a) (hb : Leaves b' b) :
    Leaves (a' ++ "\n" ++ b') (a ++ "\n" ++ b) := by
  rw [Leaves, cutLines_newline, cutLines_newline, untraced_append, ha, hb]

theorem unlines (h : List.Forall₂ Leaves ls' ls) : Leaves (unlines ls') (unlines ls) := by
  induction h with
  | nil => exact empty
  | @cons a' a rest' rest ha hrest ih =>
      cases hrest with
      | nil =>
          rw [unlines_singleton, unlines_singleton]
          exact ha
      | cons hb hrest =>
          rw [unlines_cons_cons, unlines_cons_cons]
          exact ha.newline ih

/-- A line that begins unlike a report stays. -/
theorem starts (h : Unbroken l) (hs : Starts l) : Leaves l l := by
  rw [Leaves, cutLines_of_unbroken h, untraced, List.filter_singleton, isTraceLine_of_starts hs]
  rfl

theorem part (h : Part w c' c) : Leaves c' c := by
  obtain ⟨ls', ls, rfl, rfl, hne', hne, htwins⟩ := h
  rw [Leaves, cutLines_unlines_of_unbroken hne' fun l hl => (htwins.lines l hl).flat,
    cutLines_unlines_of_unbroken hne fun l hl => (htwins.plain_lines l hl).flat, htwins.plain_eq]

end Leaves

/-! ## Definitions -/

section

variable {w : Wording} {codeName l : String} {body' body : List String} {place : Location}

theorem Leaves.term (h : Term w l) (hu : w.unbroken) : Leaves l l :=
  .starts (h.piece.unbroken hu) h.solid.starts

theorem Leaves.line (h : Line w l) (hu : w.unbroken) : Leaves l l := .term h.firm.term hu

theorem unbroken_place (h : Unbroken place.file) : Unbroken place.text :=
  (h.append (unbroken_of_isLead (by rfl))).append
    (printable_natural place.line).isLine.flat

/-- The comment above a definition. -/
theorem unbroken_comment {what name : String} (hwhat : isLead what = true) (hname : Unbroken name)
    (hplace : Unbroken place.file) : Unbroken (what ++ name ++ "\" defined at " ++ place.text) :=
  (((unbroken_of_isLead hwhat).append hname).append (unbroken_of_isLead (by rfl))).append
    (unbroken_place hplace)

theorem leaves_comment {what name : String} (hwhat : isHead what = true) (hname : Unbroken name)
    (hplace : Unbroken place.file) :
    Leaves (what ++ name ++ "\" defined at " ++ place.text)
      (what ++ name ++ "\" defined at " ++ place.text) :=
  .starts (unbroken_comment (Bool.and_eq_true _ _ ▸ hwhat).1 hname hplace)
    (((starts_of_isHead hwhat).append _).append _ |>.append _)

variable {f : FunctionBody} {c : ClassBody}

theorem piece_functionSignature (himpl : Piece w (implementationName f))
    (hv : ∀ v ∈ f.parameters.all, Named w v.name) : Piece w (functionSignature f) := by
  refine (himpl.applied fun s hs => ?_).lead (by rfl)
  rcases List.mem_cons.mp hs with rfl | hs
  · exact Piece.text (by rfl)
  · obtain ⟨v, hmem, rfl⟩ := List.mem_map.mp hs
    exact ((term_parameterName (hv v hmem)).lead (by rfl)).solid.piece

theorem leaves_functionText (hname : Unbroken f.name) (hplace : Unbroken place.file)
    (hsignature : Unbroken (functionSignature f)) (hbody : Twins w body' body) :
    Leaves (functionText f place body') (functionText f place body) := by
  have hstatic : Starts (functionSignature f) := (starts_of_isHead (by rfl)).append _
  exact .unlines (.cons (leaves_comment (by rfl) hname hplace)
    (.cons (.starts hsignature hstatic) (.cons (.part (Part.braced hbody)) .nil)))

theorem leaves_classText (hname : Unbroken c.name) (hplace : Unbroken place.file)
    (hsignature : Term w (classSignature c.codeName c.closureVariables)) (hu : w.unbroken)
    (hbody : Twins w body' body) : Leaves (classText c place body') (classText c place body) :=
  .unlines (.cons (leaves_comment (by rfl) hname hplace)
    (.cons (.term hsignature hu) (.cons (.part (Part.braced hbody)) .nil)))

end

/-! ## Modules -/

section

variable {w : Wording} {H : Prop} {m : Module} {moduleName : String} {globals : List String}
  {body' body : List String}

def moduleLayout (moduleName : String) (globals : List String) (definitions : List Definition)
    (body : List String) : String :=
  unlines (["// Module \"" ++ moduleName ++ "\"",
    terminated ("static PyObject *" ++ moduleVariable (moduleIdentifier moduleName))] ++ globals ++
    definitionLines definitions ++ ["", moduleEntry (moduleIdentifier moduleName), braced body])

/-- The lines that declare the globals of a module, and those in front of the code of its body. -/
def moduleOpening (m : Module) (moduleName : String) : Interning (List String × List String) := do
  let codeName := moduleIdentifier moduleName
  let store (name : String) (o : Operand) : String :=
    storeStatement (globalStorage codeName name) o.handedOver
  let doc ← constantFromTable (Lowering.docConstant m.doc)
  let filename ← constantFromTable (.str m.filename)
  let path ← Lowering.pathOperand m.path
  let handle ← handleOfText moduleName
  let globals ← m.globals.mapM (globalLine codeName)
  return (globals,
    [moduleVariable codeName ++ " = " ++ terminated (applied "Py_InitModule4"
        [targetString (utf8 moduleName), "NULL", "NULL", "NULL", "PYTHON_API_VERSION"]),
      frameLine handle codeName, store "__doc__" doc, store "__file__" filename] ++
    (path.map (store "__path__")).toList ++ m.temporaries.map temporaryLine)

def globalStart : String := "static PyObjectGlobalVariable "

/-- A line that declares the storage of a global. -/
structure GlobalLine (w : Wording) (l : String) : Prop where
  line : Line w l
  starts : globalStart.toList <+: l.toList

/-- Both texts of a definition are those of another one without the lines that report. -/
structure DefinitionLeaves (d' d : Definition) : Prop where
  declaration : Leaves d'.declaration d.declaration
  code : Leaves d'.code d.code

theorem leaves_definitionLines {ds' ds : List Definition}
    (h : List.Forall₂ DefinitionLeaves ds' ds) :
    List.Forall₂ Leaves (definitionLines ds') (definitionLines ds) := by
  have hdeclared : List.Forall₂ Leaves (ds'.map (·.declaration)) (ds.map (·.declaration)) := by
    rw [List.forall₂_map_left_iff, List.forall₂_map_right_iff]
    exact h.imp fun _ _ hd => hd.declaration
  have hcodes : List.Forall₂ Leaves (ds'.flatMap fun d => ["", d.code])
      (ds.flatMap fun d => ["", d.code]) :=
    List.rel_flatMap h fun _ _ hd => .cons .empty (.cons hd.code .nil)
  refine List.rel_append ?_ hcodes
  cases h with
  | nil => exact .nil
  | cons => exact .cons .empty hdeclared

theorem unbroken_moduleComment (hname : Unbroken moduleName) :
    Unbroken ("// Module \"" ++ moduleName ++ "\"") :=
  ((unbroken_of_isLead (by rfl)).append hname).append (unbroken_of_isLead (by rfl))

theorem line_moduleVariable (moduleName : String) : Line w (terminated ("static PyObject *" ++
    moduleVariable (moduleIdentifier moduleName))) :=
  Line.of_term (((isIdentifier_moduleIdentifier moduleName).codeNamed.moduleVariable).lead (by rfl))

theorem unbroken_moduleEntry (moduleName : String) :
    Unbroken (moduleEntry (moduleIdentifier moduleName)) := by
  have hargument : Unbroken (commaSeparated [moduleIdentifier moduleName]) :=
    fun hmem => absurd (isIdentifier_moduleIdentifier moduleName '\n' hmem) (by decide)
  have hopens : Unbroken ("MOD_INIT_DECL" ++ "( ") := unbroken_of_isLead (by rfl)
  exact (hopens.append hargument).append (unbroken_of_isLead (by rfl))

theorem leaves_moduleLayout {ds' ds : List Definition} (hname : Unbroken moduleName)
    (hglobals : ∀ l ∈ globals, GlobalLine w l) (hu : w.unbroken)
    (hdefinitions : List.Forall₂ DefinitionLeaves ds' ds) (hbody : Twins w body' body) :
    Leaves (moduleLayout moduleName globals ds' body')
      (moduleLayout moduleName globals ds body) := by
  have hcomment := Leaves.starts (unbroken_moduleComment hname)
    (((starts_of_isHead (by rfl)).append _).append _)
  have hentry : Starts (moduleEntry (moduleIdentifier moduleName)) :=
    ((starts_of_isHead (by rfl)).append _).append _ |>.append _
  refine .unlines (List.rel_append (List.rel_append (List.rel_append
    (.cons hcomment (.cons (.line (line_moduleVariable moduleName) hu) .nil)) ?_)
    (leaves_definitionLines hdefinitions))
    (.cons .empty (.cons (.starts (unbroken_moduleEntry moduleName) hentry)
      (.cons (.part (Part.braced hbody)) .nil))))
  rw [List.forall₂_same]
  exact fun l hl => .line (hglobals l hl).line hu

/-- The definitions of a module and the code of its body add nothing to the program. -/
theorem finishModule_eq (m : Module) (moduleName : String) (scope : Scope) (codes : List String) :
    Lowering.finishModule m moduleName scope codes = do
      let (globals, opening) ← moduleOpening m moduleName
      return moduleLayout moduleName globals (definitionsOf scope) (opening ++ codes) := rfl

end

end CompilerBackend
