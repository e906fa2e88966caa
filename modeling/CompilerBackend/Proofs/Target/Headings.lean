import CompilerBackend.Proofs.Target.Pages
/-!
# Headings

A module declares what makes its functions and class dicts, and defines the implementations of the
functions and the makers of the class dicts. The line that begins a declaration or definition is a
heading. Read line by line, a text of a definition has its own heading and no other.

- `Heading.names`: the names in the headings of one sort, in the order of the text.
- `Heading.names_functionText`, …: the headings of each text of a definition.
- `Heading.names_moduleLayout`: the headings of a module are those of its definitions.
-/

namespace CompilerBackend

open Text Target

inductive Heading where
  | functionDeclared
  | functionDefined
  | classDeclared
  | classDefined
  deriving DecidableEq

namespace Heading

variable {h h' : Heading} {a l s codeName behind : String} {ls body : List String}
  {closure : List Variable}

/-! ## Reading -/

def tag : Heading → String
  | functionDeclared => "MAKE_FUNCTION_"
  | functionDefined => "impl_"
  | classDeclared | classDefined => "MAKE_CLASS_DICT_"

def declares : Heading → Bool
  | functionDeclared | classDeclared => true
  | functionDefined | classDefined => false

def start : String := "static PyObject *"

def name? (h : Heading) (l : String) : Option String :=
  if (start ++ h.tag).toList <+: l.toList ∧ (l.toList.getLast? = some ';' ↔ h.declares = true) then
    some (String.ofList ((l.toList.drop start.toList.length).takeWhile isNameChar))
  else none

def names (h : Heading) (s : String) : List String := (cutLines s).filterMap h.name?

theorem names_unlines (hne : ls ≠ []) : h.names (unlines ls) = ls.flatMap h.names := by
  rw [names, cutLines_unlines hne, List.filterMap_flatMap]
  rfl

theorem names_of_unbroken (hu : Unbroken l) : h.names l = (h.name? l).toList := by
  rw [names, cutLines_of_unbroken hu]
  cases hname : h.name? l with
  | none => exact List.filterMap_cons_none hname
  | some name => exact List.filterMap_cons_some hname

/-! ## Other lines -/

def isAside (a : String) : Bool :=
  [functionDeclared, functionDefined, classDeclared].all fun h =>
    !(start ++ h.tag).toList.isPrefixOf a.toList && !a.toList.isPrefixOf (start ++ h.tag).toList

theorem name?_eq_none (ha : isAside a = true) (hl : a.toList <+: l.toList) : h.name? l = none := by
  have hboth : ¬ (start ++ h.tag).toList <+: a.toList ∧ ¬ a.toList <+: (start ++ h.tag).toList := by
    simp only [isAside, List.all_cons, List.all_nil, Bool.and_true, Bool.and_eq_true,
      Bool.not_eq_true', ← Bool.not_eq_true, List.isPrefixOf_iff_prefix] at ha
    obtain ⟨hfunction, himplementation, hclass⟩ := ha
    cases h
    · exact hfunction
    · exact himplementation
    · exact hclass
    · exact hclass
  refine if_neg fun ⟨hstart, _⟩ => ?_
  exact (List.prefix_or_prefix_of_prefix hstart hl).elim hboth.1 hboth.2

theorem names_eq_nil (ha : isAside a = true) (hl : a.toList <+: l.toList) (hu : Unbroken l) :
    h.names l = [] := by
  rw [names_of_unbroken hu, name?_eq_none ha hl]
  rfl

def asides : List String :=
  ["\x7b", "    ", "\x7d", "// Function \"", "// Class \"", "// Module \"", start ++ "_module_",
    "MOD_INIT_DECL", globalStart]

theorem isAside_of_mem : ∀ a ∈ asides, isAside a = true := by decide +kernel

theorem names_empty : h.names "" = [] := by
  cases h <;> rfl

/-- Blocks have no headings. -/
theorem names_braced (hbody : ∀ l ∈ body, CodeLine l) : h.names (braced body) = [] := by
  have hlines := flatMap_lines_of_codeLines hbody
  rw [braced_eq_unlines (by rw [hlines]; exact id), indentedLines, hlines, names_unlines (by simp),
    List.flatMap_eq_nil_iff]
  intro l hl
  simp only [List.cons_append, List.mem_cons, List.mem_append, List.mem_map, List.not_mem_nil,
    or_false] at hl
  rcases hl with rfl | ⟨l, hl, rfl⟩ | rfl
  · exact names_eq_nil (isAside_of_mem "\x7b" (by simp [asides])) (List.prefix_refl _) (by simp [Unbroken])
  · refine names_eq_nil (isAside_of_mem "    " (by simp [asides])) ?_ (hbody l hl).indentLine.flat
    rw [indentLine, String.toList_append]
    exact List.prefix_append _ _
  · exact names_eq_nil (isAside_of_mem "\x7d" (by simp [asides])) (List.prefix_refl _) (by simp [Unbroken])

/-! ## Headings -/

theorem tag_eq_of_start {cs : List Char} (hp : h.tag.toList <+: h'.tag.toList ++ cs) :
    h.tag = h'.tag := by
  cases h <;> cases h' <;> simp [tag] at hp ⊢

theorem isIdentifier_tag (h : Heading) : IsIdentifier h.tag := by
  cases h <;> simp [IsIdentifier, tag, isNameChar, isNameStart]

/-- The beginning of the name and the end of the line tell the sort. -/
theorem name?_heading (hcode : IsIdentifier codeName) (hopen : behind.toList.head? = some '(')
    (hlast : behind.toList.getLast? = some ';' ↔ h'.declares = true) :
    h.name? (start ++ (h'.tag ++ codeName ++ behind)) =
      if h = h' then some (h'.tag ++ codeName) else none := by
  have hchars : (start ++ (h'.tag ++ codeName ++ behind)).toList =
      start.toList ++ ((h'.tag ++ codeName).toList ++ behind.toList) := by
    simp only [String.toList_append]
  have hprefix : (start ++ h.tag).toList <+: (start ++ (h'.tag ++ codeName ++ behind)).toList ↔
      h.tag = h'.tag := by
    rw [hchars, String.toList_append, List.prefix_append_right_inj, String.toList_append,
      List.append_assoc]
    exact ⟨tag_eq_of_start, fun heq => heq ▸ List.prefix_append _ _⟩
  have hend : (start ++ (h'.tag ++ codeName ++ behind)).toList.getLast? = behind.toList.getLast? := by
    obtain ⟨rest, hrest⟩ := List.head?_eq_some_iff.mp hopen
    rw [hchars, ← List.append_assoc, List.getLast?_append_of_ne_nil _ (by simp [hrest])]
  have hsort : h.tag = h'.tag ∧ (h'.declares = true ↔ h.declares = true) ↔ h = h' := by
    cases h <;> cases h' <;> simp [tag, declares]
  have hname : ((start ++ (h'.tag ++ codeName ++ behind)).toList.drop
      start.toList.length).takeWhile isNameChar = (h'.tag ++ codeName).toList := by
    have hall : ∀ c ∈ (h'.tag ++ codeName).toList, isNameChar c = true := by
      rw [String.toList_append, List.forall_mem_append]
      exact ⟨h'.isIdentifier_tag, hcode⟩
    obtain ⟨rest, hrest⟩ := List.head?_eq_some_iff.mp hopen
    rw [hchars, List.drop_left, List.takeWhile_append_of_pos hall, hrest,
      List.takeWhile_cons_of_neg (by decide), List.append_nil]
  simp only [name?, hprefix, hend, hlast, hname, hsort, String.ofList_toList]

theorem names_heading (h' : Heading) (hcode : IsIdentifier codeName)
    (hopen : behind.toList.head? = some '(')
    (hlast : behind.toList.getLast? = some ';' ↔ h'.declares = true)
    (hl : l = start ++ (h'.tag ++ codeName ++ behind)) (hu : Unbroken l) :
    h.names l = if h = h' then [h'.tag ++ codeName] else [] := by
  rw [names_of_unbroken hu, hl, name?_heading hcode hopen hlast]
  split <;> rfl

/-! ## Definitions -/

/-- The arguments of a call stand in parentheses. -/
theorem applied_eq (f : String) (arguments : List String) : ∃ behind,
    applied f arguments = f ++ behind ∧ behind.toList.head? = some '(' ∧
      behind.toList.getLast? = some ')' := by
  refine ⟨"( " ++ commaSeparated arguments ++ " )", ?_, ?_, ?_⟩
  · rw [applied, String.append_assoc, String.append_assoc, String.append_assoc]
  · rw [String.append_assoc, String.toList_append, List.head?_append]
    rfl
  · rw [String.toList_append, List.getLast?_append]
    rfl

theorem appliedIfAny_eq (f : String) (arguments : List String) : ∃ behind,
    appliedIfAny f arguments = f ++ behind ∧ behind.toList.head? = some '(' ∧
      behind.toList.getLast? = some ')' := by
  unfold appliedIfAny
  split
  · exact ⟨"()", rfl, by simp, by simp⟩
  · exact applied_eq f arguments

/-- With a semicolon behind its parameters, a heading declares. -/
theorem names_terminated (h' : Heading) (hdeclares : h'.declares = true)
    (hcode : IsIdentifier codeName) {arguments : List String}
    (hl : l = terminated (start ++ appliedIfAny (h'.tag ++ codeName) arguments))
    (hu : Unbroken l) : h.names l = if h = h' then [h'.tag ++ codeName] else [] := by
  obtain ⟨behind, heq, hopen, -⟩ := appliedIfAny_eq (h'.tag ++ codeName) arguments
  have hfirst : (behind ++ ";").toList.head? = some '(' := by
    rw [String.toList_append, List.head?_append, hopen]
    rfl
  have hlast : (behind ++ ";").toList.getLast? = some ';' := by
    rw [String.toList_append, List.getLast?_append]
    rfl
  have hline : l = start ++ (h'.tag ++ codeName ++ (behind ++ ";")) := by
    rw [hl, heq, terminated]
    simp only [String.append_assoc]
  exact names_heading h' hcode hfirst (iff_of_true hlast hdeclares) hline hu

/-- With parameters at its end, a heading defines. -/
theorem names_parameters (h' : Heading) (hdefines : h'.declares = false)
    (hcode : IsIdentifier codeName) (hopen : behind.toList.head? = some '(')
    (hlast : behind.toList.getLast? = some ')') (hl : l = start ++ (h'.tag ++ codeName ++ behind))
    (hu : Unbroken l) : h.names l = if h = h' then [h'.tag ++ codeName] else [] := by
  refine names_heading h' hcode hopen ?_ hl hu
  rw [hlast, hdefines]
  decide

variable {n : Nat} {f : FunctionBody} {c : ClassBody} {place : Location}

theorem names_functionDeclaration (hcode : IsIdentifier codeName)
    (hu : Unbroken (functionDeclaration codeName n closure)) :
    h.names (functionDeclaration codeName n closure) =
      if h = functionDeclared then [functionMaker codeName] else [] :=
  names_terminated functionDeclared rfl hcode rfl hu

theorem names_classDeclaration (hcode : IsIdentifier codeName)
    (hu : Unbroken (classDeclaration codeName closure)) :
    h.names (classDeclaration codeName closure) =
      if h = classDeclared then [classDictMaker codeName] else [] :=
  names_terminated classDeclared rfl hcode rfl hu

/-- The comment above a definition is no heading. -/
theorem names_comment (hname : Unbroken s) (hwhat : isLead a = true) (haside : isAside a = true)
    (hplace : Unbroken place.file) : h.names (a ++ s ++ "\" defined at " ++ place.text) = [] := by
  refine names_eq_nil haside ?_ ?_
  · simp only [String.toList_append, List.append_assoc]
    exact List.prefix_append _ _
  · exact (((unbroken_of_isLead hwhat).append hname).append (unbroken_of_isLead (by rfl))).append
      (unbroken_place hplace)

/-- A definition has the heading that its first line of code is. -/
theorem names_definition {comment signature : String} (hcomment : h.names comment = [])
    (hbody : ∀ l ∈ body, CodeLine l) :
    h.names (unlines [comment, signature, braced body]) = h.names signature := by
  rw [names_unlines (by simp), List.flatMap_cons, List.flatMap_cons, List.flatMap_singleton,
    hcomment, names_braced hbody, List.nil_append, List.append_nil]

theorem names_functionText (hcode : IsIdentifier f.codeName) (hname : Unbroken f.name)
    (hplace : Unbroken place.file) (hu : Unbroken (functionSignature f))
    (hbody : ∀ l ∈ body, CodeLine l) :
    h.names (functionText f place body) =
      if h = functionDefined then [implementationName f] else [] := by
  have hsuffix : IsIdentifier "_generator" := by simp [IsIdentifier, isNameChar, isNameStart]
  have himpl : ∃ code, IsIdentifier code ∧ implementationName f = "impl_" ++ code := by
    refine ⟨f.codeName ++ if f.isGenerator then "_generator" else "", fun c hc => ?_, ?_⟩
    · rw [String.toList_append, List.mem_append] at hc
      refine hc.elim (hcode c) ?_
      split
      · exact hsuffix c
      · exact fun hc => absurd hc List.not_mem_nil
    · rw [implementationName, String.append_assoc]
  obtain ⟨code, hident, heq⟩ := himpl
  have hsignature : h.names (functionSignature f) =
      if h = functionDefined then [implementationName f] else [] := by
    obtain ⟨behind, hcall, hopen, hlast⟩ := applied_eq (implementationName f)
      ("CompiledFunctionObject *self" ::
        f.parameters.all.map fun v => "PyObject *" ++ parameterName v.name)
    have hline : functionSignature f = start ++ (implementationName f ++ behind) :=
      congrArg (start ++ ·) hcall
    rw [heq] at hline ⊢
    exact names_parameters functionDefined rfl hident hopen hlast hline hu
  have hcomment : h.names ("// Function \"" ++ f.name ++ "\" defined at " ++ place.text) = [] :=
    names_comment hname (by rfl) (isAside_of_mem "// Function \"" (by simp [asides])) hplace
  exact (names_definition hcomment hbody).trans hsignature

theorem names_classText (hcode : IsIdentifier c.codeName) (hname : Unbroken c.name)
    (hplace : Unbroken place.file) (hu : Unbroken (classSignature c.codeName c.closureVariables))
    (hbody : ∀ l ∈ body, CodeLine l) :
    h.names (classText c place body) =
      if h = classDefined then [classDictMaker c.codeName] else [] := by
  have hsignature : h.names (classSignature c.codeName c.closureVariables) =
      if h = classDefined then [classDictMaker c.codeName] else [] := by
    obtain ⟨behind, hcall, hopen, hlast⟩ := appliedIfAny_eq (classDictMaker c.codeName)
      (closureParameters c.closureVariables)
    refine names_parameters classDefined rfl hcode hopen hlast ?_ hu
    exact congrArg (start ++ ·) hcall
  have hcomment : h.names ("// Class \"" ++ c.name ++ "\" defined at " ++ place.text) = [] :=
    names_comment hname (by rfl) (isAside_of_mem "// Class \"" (by simp [asides])) hplace
  exact (names_definition hcomment hbody).trans hsignature

/-! ## Modules -/

variable {w : Wording} {moduleName : String} {globals : List String} {definitions : List Definition}

/-- What stands around the definitions of a module has no headings. -/
theorem names_moduleLayout (hname : Unbroken moduleName)
    (hglobals : ∀ l ∈ globals, GlobalLine w l) (hw : w.unbroken)
    (hbody : ∀ l ∈ body, CodeLine l) :
    h.names (moduleLayout moduleName globals definitions body) =
      definitions.flatMap (fun d => h.names d.declaration) ++
        definitions.flatMap fun d => h.names d.code := by
  have hcomment : h.names ("// Module \"" ++ moduleName ++ "\"") = [] := by
    refine names_eq_nil (isAside_of_mem "// Module \"" (by simp [asides])) ?_
      (unbroken_moduleComment hname)
    rw [String.append_assoc, String.toList_append]
    exact List.prefix_append _ _
  have hvariable : h.names (terminated ("static PyObject *" ++
      moduleVariable (moduleIdentifier moduleName))) = [] := by
    refine names_eq_nil (isAside_of_mem (start ++ "_module_") (by simp [asides])) ?_
      ((line_moduleVariable moduleName).firm.term.piece.unbroken hw)
    simp only [start, terminated, moduleVariable, String.toList_append, List.append_assoc]
    exact List.prefix_append _ _
  have hentry : h.names (moduleEntry (moduleIdentifier moduleName)) = [] := by
    refine names_eq_nil (isAside_of_mem "MOD_INIT_DECL" (by simp [asides])) ?_
      (unbroken_moduleEntry moduleName)
    rw [moduleEntry, applied, String.append_assoc, String.append_assoc, String.toList_append]
    exact List.prefix_append _ _
  have hglobal : globals.flatMap h.names = [] := List.flatMap_eq_nil_iff.mpr fun l hl =>
    names_eq_nil (isAside_of_mem globalStart (by simp [asides])) (hglobals l hl).starts
      ((hglobals l hl).line.firm.term.piece.unbroken hw)
  have hdeclared : (if definitions.isEmpty then [] else
      "" :: definitions.map (·.declaration)).flatMap h.names =
        definitions.flatMap fun d => h.names d.declaration := by
    cases definitions with
    | nil => rfl
    | cons d ds =>
        rw [List.isEmpty_cons, if_neg Bool.false_ne_true, List.flatMap_cons, names_empty,
          List.nil_append, List.flatMap_map]
  have hdefined : (definitions.flatMap fun d => ["", d.code]).flatMap h.names =
      definitions.flatMap fun d => h.names d.code := by
    rw [List.flatMap_assoc]
    refine List.flatMap_congr fun d _ => ?_
    rw [List.flatMap_cons, List.flatMap_singleton, names_empty, List.nil_append]
  rw [moduleLayout, names_unlines (by simp)]
  simp only [definitionLines, List.flatMap_append, List.flatMap_cons, List.flatMap_nil, hcomment,
    hvariable, hglobal, hdeclared, hdefined, hentry, names_empty, names_braced hbody,
    List.nil_append, List.append_nil]

end Heading
end CompilerBackend
