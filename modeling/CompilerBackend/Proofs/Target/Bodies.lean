import CompilerBackend.Proofs.Target.Temporaries
/-!
# Bodies without clashes

The text of a module has the bodies of its functions and classes, and its own one, as blocks that
stand in no other block. What a body declares in front of its code is no temporary, so it declares
a temporary twice only if its code does.

- `declaredInBlocks`: what each of these blocks declares.
- `Apart`: no block of a text declares a temporary twice; `apart_unlines` puts texts together.
- `apart_functionText`, `apart_classText`, `apart_moduleLayout`: texts around such code.
-/

namespace CompilerBackend.Target

open Text

variable {w : Wording} {l : String} {codes ls : List String}

/-! ## Texts with blocks -/

/-- The names of the temporaries that each block among the lines declares, inner blocks included. -/
def declaredInBlocks (ls : List String) : List (List String) :=
  (chunks ls).filterMap fun part => match part with
    | .block inside => some (inside.filterMap declared?)
    | .line _ => none

/-- In front of any lines the text adds blocks of its own. They declare what the text declares, and
none of them declares a temporary twice. -/
def Apart (text : String) : Prop := ∃ blocks : List (List String),
  (∀ names ∈ blocks, names.Nodup) ∧ blocks.flatten = temporaries text ∧
    ∀ below, declaredInBlocks (cutLines text ++ below) = blocks ++ declaredInBlocks below

/-- What a text declares is declared in its blocks, and in none of them twice. -/
theorem Apart.nodup {text : String} (h : Apart text) :
    (declaredInBlocks (cutLines text)).flatten = temporaries text ∧
      ∀ names ∈ declaredInBlocks (cutLines text), names.Nodup := by
  obtain ⟨blocks, hdistinct, hall, hblocks⟩ := h
  have hown := hblocks []
  rw [List.append_nil, show declaredInBlocks [] = [] from rfl, List.append_nil] at hown
  rw [hown]
  exact ⟨hall, hdistinct⟩

theorem apart_line (hu : Unbroken l) (hl : l ≠ "\x7b") (hnone : temporaries l = []) : Apart l := by
  refine ⟨[], List.forall_mem_nil _, hnone.symm, fun below => ?_⟩
  rw [cutLines_of_unbroken hu, List.singleton_append, declaredInBlocks, chunks_cons hl]
  rfl

theorem apart_empty : Apart "" := apart_line (by simp [Unbroken]) (by decide) temporaries_empty

theorem Apart.newline {a b : String} (ha : Apart a) (hb : Apart b) : Apart (a ++ "\n" ++ b) := by
  obtain ⟨blocks, hdistinct, hall, hblocks⟩ := ha
  obtain ⟨more, hdistinct', hall', hmore⟩ := hb
  refine ⟨blocks ++ more, List.forall_mem_append.mpr ⟨hdistinct, hdistinct'⟩, ?_, fun below => ?_⟩
  · rw [List.flatten_append, hall, hall', temporaries_newline]
  · rw [cutLines_newline, List.append_assoc, hblocks, hmore, List.append_assoc]

theorem apart_unlines (h : ∀ l ∈ ls, Apart l) : Apart (unlines ls) := by
  induction ls with
  | nil => exact apart_empty
  | cons a ls ih =>
      obtain ⟨ha, hls⟩ := List.forall_mem_cons.mp h
      cases ls with
      | nil =>
          rw [unlines_singleton]
          exact ha
      | cons b ls =>
          rw [unlines_cons_cons]
          exact ha.newline (ih hls)

/-- The block of a body is one block. -/
theorem apart_braced (h : (codes.flatMap temporaries).Nodup) : Apart (braced codes) := by
  -- a block of empty codes has one empty line
  obtain ⟨inside, hchunks, hinside⟩ : ∃ inside,
      (∀ below, chunks (cutLines (braced codes) ++ below) = .block inside :: chunks below) ∧
        inside.filterMap declared? = codes.flatMap temporaries := by
    by_cases hne : codes ≠ [] → codes.flatMap lines ≠ []
    · refine ⟨codes.flatMap lines, chunks_braced hne, ?_⟩
      rw [← temporaries_flatMap_lines, List.filterMap_eq_flatMap_toList]
      refine List.flatMap_congr fun l hl => ?_
      obtain ⟨code, -, hl⟩ := List.mem_flatMap.mp hl
      exact (temporaries_of_unbroken (flat_of_mem_lines hl)).symm
    · obtain ⟨hcodes, hnil⟩ := Classical.not_imp.mp hne
      rw [not_not] at hnil
      refine ⟨[""], fun below => ?_, ?_⟩
      · have hempty : codes.isEmpty = false := by simpa using hcodes
        have hcut : cutLines ("\x7b\n" ++ "" ++ "\n\x7d") = ["\x7b", "", "\x7d"] := by decide
        have hbraced : braced codes = "\x7b\n" ++ "" ++ "\n\x7d" := by
          rw [braced, hempty, indented, indentedLines, hnil]
          rfl
        rw [hbraced, hcut]
        rfl
      · rw [← temporaries_flatMap_lines, hnil]
        decide
  refine ⟨[codes.flatMap temporaries], List.forall_mem_singleton.mpr h, ?_, fun below => ?_⟩
  · rw [List.flatten_singleton, temporaries_braced]
  · rw [declaredInBlocks, hchunks, List.filterMap_cons_some (by rfl), hinside]
    rfl

/-- Inner blocks belong to the one around them. -/
example : declaredInBlocks ["static PyObject *impl_f( CompiledFunctionObject *self )", "\x7b",
    "    _PythonExceptionKeeper _caught_1;", "    try", "    \x7b",
    "        bool _caught_2 = false;", "        PyObject *_tmp_unpack_1 = ITERATOR_NEXT( x );",
    "    \x7d", "\x7d", "", "MOD_INIT_DECL( spam )", "\x7b", "\x7d"] =
    [["_caught_1", "_caught_2", "_tmp_unpack_1"], []] := by
  decide +kernel

/-- A line that begins with fixed text. -/
theorem apart_start {a : String} (ha : isQuiet a = true) (hbrace : a.toList.head? ≠ some '\x7b')
    {b : String} (hu : Unbroken (a ++ b)) : Apart (a ++ b) := by
  refine apart_line hu (fun heq => ?_) ((quiet_append ha b).temporaries_eq_nil hu)
  rw [isQuiet, Bool.and_eq_true, Option.any_eq_true] at ha
  obtain ⟨⟨c, hc, -⟩, -⟩ := ha
  obtain ⟨tail, htail⟩ := List.head?_eq_some_iff.mp hc
  have hchars := congrArg String.toList heq
  rw [String.toList_append, htail, List.cons_append] at hchars
  exact hbrace (hc.trans (congrArg some (List.cons.inj hchars).1))

/-! ## Lines in front of code -/

section

variable {H : Prop} {v : Variable} {codeName moduleName : String}

theorem quiet_temporaryLine (v : Variable) : Quiet (temporaryLine v) :=
  (quiet_append (by rfl) _).terminated

theorem quiet_frameLine (handle codeName : String) : Quiet (frameLine handle codeName) :=
  (quiet_call (by rfl) _).terminated

theorem quiet_store {place : String} (h : Quiet place) (value : String) :
    Quiet (storeStatement place value) :=
  ((((h.append _).append _).append _).append _).terminated

theorem quiet_variable (v : Variable) (arguments : List String) :
    Quiet (terminated (applied ("PyObjectLocalVariable " ++ localStorage v.name) arguments)) :=
  ((((quiet_append (by rfl) _).append _).append _).append _).terminated

/-- No line in front of the code of a function declares a temporary. -/
theorem quiet_functionOpening (f : FunctionBody) (defaults : List Operand) :
    Interned w H (functionOpening codeName f defaults) fun ls => ∀ l ∈ ls, Quiet l := by
  have hparameter : ∀ v : Variable, ∀ {H : Prop}, Interned w H (parameterLine v) Quiet :=
    fun v _ => (interned_handleOfText v.name).bind fun _ => .pure fun _ => quiet_variable v _
  have hvariable : ∀ v : Variable, ∀ {H : Prop}, Interned w H (variableLine v) Quiet :=
    fun v _ => (interned_handleOfText v.name).bind fun _ => .pure fun _ => quiet_variable v _
  refine (interned_handleOfText f.name).bind fun handle => (Interned.mapM fun v _ =>
    hparameter v).bind fun declared => (Interned.mapM fun v _ => hvariable v).bind
      fun locals => Interned.pure fun h => ?_
  obtain ⟨⟨-, hdeclared⟩, hlocal⟩ := h
  simp only [List.mem_append, List.mem_singleton]
  rintro l ((((hmem | hmem) | hmem) | hmem) | rfl)
  · obtain ⟨⟨v, access⟩, -, rfl⟩ := List.mem_map.mp hmem
    exact (((((quiet_append (by rfl) _).append _).append _).append _).append _).append _
  · exact hdeclared l hmem
  · exact hlocal l hmem
  · obtain ⟨v, -, rfl⟩ := List.mem_map.mp hmem
    exact quiet_temporaryLine v
  · exact quiet_frameLine _ _

theorem quiet_functionClosing (f : FunctionBody) : Quiet (functionClosing f) := by
  unfold functionClosing
  split
  · exact quiet_text (by rfl)
  · exact quiet_text (by rfl)

theorem quiet_classOpening (moduleName : String) (c : ClassBody) :
    Interned w H (classOpening moduleName c) fun ls => ∀ l ∈ ls, Quiet l := by
  have hplace : ∀ name, Quiet (localStorage name) := quiet_append (by rfl)
  refine (interned_handleOfText moduleName).bind fun handle => (Interned.mapM fun v _ =>
    (interned_handleOfText v.name).bind fun _ => Interned.pure fun _ => quiet_variable v _).bind
      fun locals => (Interned.mapM fun doc _ => (interned_handleOfText doc).bind fun _ =>
        Interned.pure fun _ => quiet_store (hplace "__doc__") _).bind fun docs =>
          Interned.pure fun h => ?_
  obtain ⟨⟨-, hlocal⟩, hdoc⟩ := h
  simp only [List.mem_append, List.mem_singleton]
  rintro l (((hmem | hmem) | rfl) | hmem)
  · exact hlocal l hmem
  · obtain ⟨v, -, rfl⟩ := List.mem_map.mp hmem
    exact quiet_temporaryLine v
  · exact quiet_store (hplace _) _
  · exact hdoc l hmem

end

/-! ## Whole texts -/

section

variable {f : FunctionBody} {c : ClassBody} {place : Location} {moduleName : String}
  {globals body : List String} {definitions : List Definition}

theorem apart_functionText (hname : Unbroken f.name) (hplace : Unbroken place.file)
    (hsignature : Unbroken (functionSignature f)) (hbody : (body.flatMap temporaries).Nodup) :
    Apart (functionText f place body) := by
  have hcomment : Apart ("// Function \"" ++ f.name ++ "\" defined at " ++ place.text) := by
    have hu : Unbroken ("// Function \"" ++ f.name ++ "\" defined at " ++ place.text) :=
      unbroken_comment (by rfl) hname hplace
    rw [String.append_assoc, String.append_assoc] at hu ⊢
    exact apart_start (by rfl) (by decide) hu
  refine apart_unlines fun l hl => ?_
  simp only [List.mem_cons, List.not_mem_nil, or_false] at hl
  rcases hl with rfl | rfl | rfl
  · exact hcomment
  · exact apart_start (by rfl) (by decide) hsignature
  · exact apart_braced hbody

theorem apart_classText (hname : Unbroken c.name) (hplace : Unbroken place.file)
    (hsignature : Unbroken (classSignature c.codeName c.closureVariables))
    (hbody : (body.flatMap temporaries).Nodup) : Apart (classText c place body) := by
  have hcomment : Apart ("// Class \"" ++ c.name ++ "\" defined at " ++ place.text) := by
    have hu : Unbroken ("// Class \"" ++ c.name ++ "\" defined at " ++ place.text) :=
      unbroken_comment (by rfl) hname hplace
    rw [String.append_assoc, String.append_assoc] at hu ⊢
    exact apart_start (by rfl) (by decide) hu
  refine apart_unlines fun l hl => ?_
  simp only [List.mem_cons, List.not_mem_nil, or_false] at hl
  rcases hl with rfl | rfl | rfl
  · exact hcomment
  · exact apart_start (by rfl) (by decide) hsignature
  · exact apart_braced hbody

def ApartTexts (d : Definition) : Prop := Apart d.declaration ∧ Apart d.code

theorem apart_moduleLayout (hw : w.lined) (hname : Unbroken moduleName)
    (hglobals : ∀ l ∈ globals, GlobalLine w l) (hdefinitions : ∀ d ∈ definitions, ApartTexts d)
    (hbody : (body.flatMap temporaries).Nodup) :
    Apart (moduleLayout moduleName globals definitions body) := by
  have hcomment := unbroken_moduleComment hname
  have hvariable := (line_moduleVariable (w := w) moduleName).firm.term.unbroken hw
  have hentry := unbroken_moduleEntry moduleName
  refine apart_unlines fun l hl => ?_
  simp only [List.mem_append, List.mem_cons, List.not_mem_nil, or_false] at hl
  rcases hl with (((rfl | rfl) | hl) | hl) | rfl | rfl | rfl
  · rw [String.append_assoc] at hcomment ⊢
    exact apart_start (by rfl) (by decide) hcomment
  · rw [terminated, String.append_assoc] at hvariable ⊢
    exact apart_start (by rfl) (by decide) hvariable
  · have hu := (hglobals l hl).line.firm.term.unbroken hw
    obtain ⟨rest, hrest⟩ := (hglobals l hl).starts
    obtain rfl : globalStart ++ String.ofList rest = l :=
      String.toList_inj.mp (by simpa using hrest)
    exact apart_start (by rfl) (by decide) hu
  · rcases List.mem_append.mp hl with hl | hl
    · split at hl
      · exact absurd hl List.not_mem_nil
      · rcases List.mem_cons.mp hl with rfl | hl
        · exact apart_empty
        · obtain ⟨d, hd, rfl⟩ := List.mem_map.mp hl
          exact (hdefinitions d hd).1
    · obtain ⟨d, hd, hl⟩ := List.mem_flatMap.mp hl
      simp only [List.mem_cons, List.not_mem_nil, or_false] at hl
      rcases hl with rfl | rfl
      · exact apart_empty
      · exact (hdefinitions d hd).2
  · exact apart_empty
  · rw [moduleEntry, applied, String.append_assoc, String.append_assoc] at hentry ⊢
    exact apart_start (by rfl) (by decide) hentry
  · exact apart_braced hbody

end

end CompilerBackend.Target
