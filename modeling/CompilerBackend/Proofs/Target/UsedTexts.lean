import CompilerBackend.Proofs.Target.Pages
import CompilerBackend.Proofs.Target.Uses
/-!
# How often whole texts read a variable

What asks the table for handles, and the texts of definitions and modules. Handles are names, so
they read nothing; the text of a body reads what its lines read, and nothing around a body reads a
variable.

- `interned_identifier`: handles are names.
- `interned_uses_constantFromTable`, `interned_uses_tupleCreation`, …: the writers of operands that
  ask the table.
- `interned_count_functionCode`, `interned_count_classCode`: the texts of definitions.
- `count_moduleLayout`: the text of a module reads what its definitions and its body read.
-/

namespace CompilerBackend.LocalAccess

open Text Target Program

variable {a : LocalAccess} {w : Wording} {H : Prop} {codeName name : String} {v : Variable}
  {o p q r : Operand} {os : List Operand} {codes : List String} {closure : List Variable}

/-! ## Operands that ask the table -/

theorem interned_identifier (c : Constant) : Interned w H (handleOf c) IsIdentifier := by
  intro p hp
  obtain ⟨hwf, hext, hmem⟩ := hp.intern c
  exact ⟨hwf, hext, fun _ _ => isNameChar_of_mem_plain (hwf.isPlainName_handle hmem)⟩

theorem interned_uses_constantFromTable (c : Constant) :
    Interned w H (constantFromTable c) fun o => a.uses o = 0 := by
  refine (interned_identifier c).bind fun handle => Interned.pure fun h => ?_
  have hhandle : a.count handle = 0 := count_name h.2
  unfold tableAccess
  split
  · simp [hhandle]
  · simp [hhandle]
  · simp [hhandle]
  · split
    · simp [hhandle]
    · exact hhandle
  · exact hhandle

theorem interned_uses_constantAccess (c : Constant) :
    Interned w H (constantAccess c) fun o => a.uses o = 0 := by
  unfold constantAccess
  split
  · exact Interned.pure fun _ => count_of_isMute (by decide)
  · exact Interned.pure fun _ => count_of_isMute (by decide)
  · exact Interned.pure fun _ => count_of_isMute (by decide)
  · exact Interned.pure fun _ => count_of_isMute (by decide)
  · exact interned_uses_constantFromTable c

theorem interned_count_localEntry (hv : IsIdentifier v.name) :
    Interned w H (localEntry v) fun s => a.count s = 0 := by
  refine (interned_identifier _).bind fun handle => Interned.pure fun h => ?_
  rw [count_gap (by decide), count_name h.2, count_name (isIdentifier_localStorage hv)]

theorem interned_uses_localsDict (hc : IsIdentifier codeName) {provider : Provider}
    (mode : LocalsMode) (h : ∀ n ∈ localNames provider, IsIdentifier n) :
    Interned w H (localsDict codeName provider mode) fun o => a.uses o = 0 := by
  unfold localsDict
  split
  · exact Interned.pure fun _ => uses_globalsDict hc
  · exact Interned.pure fun _ => uses_liveLocals
  · exact Interned.pure fun _ => uses_liveLocals
  next f =>
    refine (Interned.mapM fun v hv => interned_count_localEntry (a := a)
      (h v.name (List.mem_map_of_mem hv))).bind fun entries => ?_
    split
    · exact Interned.pure fun _ => count_nullary (by simp)
    · refine Interned.pure fun h => ?_
      rw [uses_owned, count_applied (by simp), total_cons, count_natural, total_eq_zero h.2]

theorem interned_uses_dirList (hc : IsIdentifier codeName) {provider : Provider}
    (h : ∀ n ∈ localNames provider, IsIdentifier n) :
    Interned w H (dirList codeName provider) fun o => a.uses o = 0 := by
  refine (interned_uses_localsDict (a := a) hc .copy h).bind fun o => Interned.pure fun ho => ?_
  simp [ho.2]

/-! ## Containers -/

theorem count_helperCall (h : Helper) (n : Nat) (arguments : List String) :
    a.count (applied (h.name n) arguments) = a.total arguments :=
  count_applied fun hmem => absurd (isNameChar_of_mem_helperName h n _ hmem) (by decide)

theorem count_helperNullary (h : Helper) (n : Nat) : a.count (nullary (h.name n)) = 0 :=
  count_nullary fun hmem => absurd (isNameChar_of_mem_helperName h n _ hmem) (by decide)

theorem interned_uses_tupleCreation (os : List Operand) :
    Interned w H (tupleCreation os) fun o => a.uses o = a.usesAll os :=
  (interned_recordTuple os.length).bind fun _ => Interned.pure fun _ =>
    (count_helperCall .tuple os.length _).trans total_asArguments

theorem interned_uses_listCreation (os : List Operand) :
    Interned w H (listCreation os) fun o => a.uses o = a.usesAll os := by
  refine (interned_recordList os.length).bind fun _ => Interned.pure fun _ => ?_
  exact (count_appliedIfAny (isNameChar_of_mem_helperName .list os.length)).trans total_asArguments

theorem total_dictArguments_le (ks vs : List Operand) :
    a.total (dictArguments ks vs) ≤ a.usesAll ks + a.usesAll vs := by
  induction ks generalizing vs with
  | nil => exact Nat.zero_le _
  | cons k ks ih =>
      cases vs with
      | nil => exact Nat.zero_le _
      | cons v vs =>
          have hrest := ih vs
          have hcons : dictArguments (k :: ks) (v :: vs) =
              v.asArgument :: k.asArgument :: dictArguments ks vs := rfl
          rw [hcons]
          simp only [total_cons, count_asArgument, usesAll_cons]
          omega

theorem interned_uses_dictCreation (ks vs : List Operand) :
    Interned w H (dictCreation ks vs) fun o => a.uses o ≤ a.usesAll ks + a.usesAll vs := by
  refine (interned_recordDict ks.length).bind fun _ => ?_
  dsimp only
  split
  · refine Interned.pure fun _ => ?_
    exact (count_helperNullary .dict ks.length).trans_le (Nat.zero_le _)
  · refine Interned.pure fun _ => ?_
    exact (count_helperCall .dict ks.length _).trans_le (total_dictArguments_le ks vs)

/-! ## Builtins -/

theorem interned_uses_builtinReference (name : String) :
    Interned w H (builtinReference name) fun o => a.uses o = 0 := by
  refine (interned_identifier _).bind fun handle => Interned.pure fun h => ?_
  simp [count_name (a := a) h.2]

theorem uses_anonymousBuiltin (h : IsIdentifier name) : a.uses (anonymousBuiltin name) = 0 :=
  count_enclosed (by simp) h (by simp)

theorem uses_exceptionReference (h : IsIdentifier name) : a.uses (exceptionReference name) = 0 :=
  count_name (isIdentifier_append (by decide) h)

theorem interned_uses_exceptionCreation (h : IsIdentifier name) (os : List Operand) :
    Interned w H (exceptionCreation name os) fun o => a.uses o = a.usesAll os := by
  have htype : a.count ("PyExc_" ++ name) = 0 := uses_exceptionReference h
  unfold exceptionCreation
  dsimp only
  split
  next hnil =>
    refine Interned.pure fun _ => ?_
    rw [List.isEmpty_iff.mp hnil]
    simp [htype]
  next =>
    refine (interned_uses_tupleCreation (a := a) os).bind fun tuple =>
      Interned.pure fun htuple => ?_
    simp [htype, htuple.2]

theorem interned_uses_typeOfThree (moduleName : String) :
    Interned w H (typeOfThree moduleName p q r) fun o =>
      a.uses o = a.uses p + (a.uses q + a.uses r) := by
  refine (interned_identifier _).bind fun handle => Interned.pure fun h => ?_
  simp [count_name (a := a) h.2]

/-! ## Makers -/

theorem isIdentifier_functionMaker (hc : IsIdentifier codeName) :
    IsIdentifier (functionMaker codeName) := isIdentifier_append (by decide) hc

theorem isIdentifier_classDictMaker (hc : IsIdentifier codeName) :
    IsIdentifier (classDictMaker codeName) := isIdentifier_append (by decide) hc

theorem total_closureArguments (h : ∀ v ∈ closure, IsIdentifier v.name) :
    a.total (closureArguments closure) = 0 :=
  total_map_eq_zero fun v hv => count_name (isIdentifier_append (by decide) (h v hv))

theorem total_closureParameters (h : ∀ v ∈ closure, IsIdentifier v.name) :
    a.total (closureParameters closure) = 0 :=
  total_map_eq_zero fun v hv => count_prefixed (by simp) (h v hv)

theorem uses_functionCreation (hc : IsIdentifier codeName) (h : ∀ v ∈ closure, IsIdentifier v.name)
    (defaults : List Operand) :
    a.uses (functionCreation codeName defaults closure) = a.usesAll defaults := by
  rw [functionCreation, uses_owned, count_appliedIfAny (isIdentifier_functionMaker hc),
    total_append, total_handedOver, total_closureArguments h, Nat.add_zero]

theorem count_functionDeclaration (hc : IsIdentifier codeName)
    (h : ∀ v ∈ closure, IsIdentifier v.name) (n : Nat) :
    a.count (functionDeclaration codeName n closure) = 0 := by
  have hdefaults :
      a.total ((List.range n).map fun i => "PyObject *default_" ++ toString i) = 0 :=
    total_map_eq_zero fun i _ => count_prefixed (by simp) (isIdentifier_natural i)
  rw [functionDeclaration, count_terminated, count_lead (by decide),
    count_appliedIfAny (isIdentifier_functionMaker hc), total_append, hdefaults,
    total_closureParameters h]

theorem uses_classDictCreation (hc : IsIdentifier codeName)
    (h : ∀ v ∈ closure, IsIdentifier v.name) : a.uses (classDictCreation codeName closure) = 0 := by
  rw [classDictCreation, uses_owned, count_appliedIfAny (isIdentifier_classDictMaker hc),
    total_closureArguments h]

theorem interned_uses_classCreation (name : String) :
    Interned w H (classCreation name p q) fun o => a.uses o = a.uses p + a.uses q := by
  refine (interned_identifier _).bind fun handle => Interned.pure fun h => ?_
  simp [count_name (a := a) h.2]

theorem count_classSignature (hc : IsIdentifier codeName)
    (h : ∀ v ∈ closure, IsIdentifier v.name) : a.count (classSignature codeName closure) = 0 := by
  rw [classSignature, count_lead (by decide),
    count_appliedIfAny (isIdentifier_classDictMaker hc), total_closureParameters h]

theorem count_classDeclaration (hc : IsIdentifier codeName)
    (h : ∀ v ∈ closure, IsIdentifier v.name) : a.count (classDeclaration codeName closure) = 0 := by
  rw [classDeclaration, count_terminated, count_classSignature hc h]

/-! ## Functions -/

theorem isIdentifier_parameterName (hv : IsIdentifier name) : IsIdentifier (parameterName name) :=
  isIdentifier_append (by decide) hv

theorem not_mem_localDeclaration (hv : IsIdentifier name) :
    ')' ∉ ("PyObjectLocalVariable " ++ localStorage name).toList := by
  simpa using fun hmem => absurd (isIdentifier_localStorage hv _ hmem) (by decide)

theorem interned_count_variableLine (hv : IsIdentifier v.name) :
    Interned w H (variableLine v) fun l => a.count l = 0 := by
  refine (interned_identifier _).bind fun handle => Interned.pure fun h => ?_
  rw [count_terminated, count_applied (not_mem_localDeclaration hv), total_cons, total_nil,
    count_name h.2]

theorem interned_count_parameterLine (hv : IsIdentifier v.name) :
    Interned w H (parameterLine v) fun l => a.count l = 0 := by
  refine (interned_identifier _).bind fun handle => Interned.pure fun h => ?_
  rw [count_terminated, count_applied (not_mem_localDeclaration hv), total_cons, total_cons,
    total_nil, count_name h.2, count_name (isIdentifier_parameterName hv)]

theorem count_temporaryLine (hv : IsIdentifier v.name) : a.count (temporaryLine v) = 0 := by
  have hname : IsIdentifier (temporaryStorage v.name) := isIdentifier_append (by decide) hv
  rw [temporaryLine, count_terminated, count_lead (by decide), count_name hname]

theorem total_temporaryLines {vs : List Variable} (h : ∀ v ∈ vs, IsIdentifier v.name) :
    a.total (vs.map temporaryLine) = 0 := total_map_eq_zero fun v hv => count_temporaryLine (h v hv)

theorem count_frameLine (hc : IsIdentifier codeName) {handle : String} (h : IsIdentifier handle) :
    a.count (frameLine handle codeName) = 0 := by
  rw [frameLine, count_terminated, count_applied (by simp), total_cons, total_nil,
    count_applied (by simp), total_cons, total_cons, total_nil, count_name h,
    count_name (isIdentifier_moduleVariable hc)]

theorem count_defaultLine (hv : IsIdentifier v.name) (o : Operand) :
    a.count (defaultLine v o) = a.uses o := by
  unfold defaultLine
  dsimp only
  rw [count_tail (by decide), count_gap (by decide), count_gap (by decide), count_lead (by decide),
    count_name (isIdentifier_parameterName hv), count_handedOver, Nat.zero_add]

theorem total_defaultLines {pairs : List (Variable × Operand)}
    (hv : ∀ p ∈ pairs, IsIdentifier p.1.name) (ho : ∀ p ∈ pairs, a.uses p.2 = 0) :
    a.total (pairs.map fun (v, access) => defaultLine v access) = 0 :=
  total_map_eq_zero fun p hp => (count_defaultLine (hv p hp) p.2).trans (ho p hp)

variable {f : FunctionBody} {place : Location}

theorem interned_total_functionOpening (hc : IsIdentifier codeName) {defaults : List Operand}
    (hv : ∀ v ∈ f.parameters.all ++ f.userVariables ++ f.temporaries, IsIdentifier v.name)
    (hd : ∀ o ∈ defaults, a.uses o = 0) :
    Interned w H (functionOpening codeName f defaults) fun ls => a.total ls = 0 := by
  have hparameters : ∀ v ∈ f.parameters.all, IsIdentifier v.name := fun v hmem =>
    hv v (List.mem_append_left _ (List.mem_append_left _ hmem))
  have hlocals : ∀ v ∈ f.userVariables, IsIdentifier v.name := fun v hmem =>
    hv v (List.mem_append_left _ (List.mem_append_right _ hmem))
  refine (interned_identifier _).bind fun handle => ?_
  refine (Interned.mapM fun v hmem => interned_count_parameterLine (a := a)
    (hparameters v hmem)).bind fun declared => ?_
  refine (Interned.mapM fun v hmem => interned_count_variableLine (a := a)
    (hlocals v hmem)).bind fun locals => Interned.pure fun h => ?_
  obtain ⟨⟨⟨-, hhandle⟩, hdeclared⟩, hlocal⟩ := h
  have hdefaults : a.total ((f.parameters.defaulted.zip defaults).map fun (v, access) =>
      defaultLine v access) = 0 := by
    refine total_defaultLines (fun p hp => ?_) fun p hp => hd p.2 (List.of_mem_zip hp).2
    exact hparameters p.1 (List.mem_append_left _
      (List.mem_append_left _ (List.mem_of_mem_drop (List.of_mem_zip hp).1)))
  simp only [total_append, total_cons, total_nil, hdefaults, total_eq_zero hdeclared,
    total_eq_zero hlocal, count_frameLine hc hhandle,
    total_temporaryLines fun v hmem => hv v (List.mem_append_right _ hmem)]

theorem count_functionSignature (hc : IsIdentifier f.codeName)
    (hv : ∀ v ∈ f.parameters.all, IsIdentifier v.name) : a.count (functionSignature f) = 0 := by
  have hparameters :
      a.total (f.parameters.all.map fun v => "PyObject *" ++ parameterName v.name) = 0 := by
    refine total_map_eq_zero fun v hmem => ?_
    rw [count_lead (by decide), count_name (isIdentifier_parameterName (hv v hmem))]
  have hname : ')' ∉ (implementationName f).toList := by
    have hcode : ')' ∉ f.codeName.toList := fun hmem => absurd (hc _ hmem) (by decide)
    cases hg : f.isGenerator <;> simpa [implementationName, hg] using hcode
  rw [functionSignature, count_lead (by decide), count_applied hname, total_cons, hparameters,
    count_of_isMute (by decide)]

/-- A comment reads what the name of the file and the title in it read. -/
theorem count_comment {start title : String} (hstart : isFront start = true)
    (htitle : a.count title = 0) (hplace : a.count place.file = 0) :
    a.count (start ++ title ++ "\" defined at " ++ place.text) = 0 := by
  rw [count_gap (by decide), count_lead hstart, htitle, count_place, hplace]

/-- The text of a function reads what its body reads. -/
theorem interned_count_functionCode (hc : IsIdentifier codeName) {defaults : List Operand}
    (htitle : a.count f.name = 0) (hcode : IsIdentifier f.codeName)
    (hplace : a.count place.file = 0)
    (hv : ∀ v ∈ f.parameters.all ++ f.userVariables ++ f.temporaries, IsIdentifier v.name)
    (hd : ∀ o ∈ defaults, a.uses o = 0) (codes : List String) :
    Interned w H (functionCode codeName f place defaults codes) fun code =>
      a.count code = a.total codes := by
  have hclosing : a.count (functionClosing f) = 0 := by
    unfold functionClosing
    split
    · exact count_generatorEnd
    · exact count_of_isMute (by decide)
  have hparameters : ∀ v ∈ f.parameters.all, IsIdentifier v.name := fun v hmem =>
    hv v (List.mem_append_left _ (List.mem_append_left _ hmem))
  rw [functionCode_eq]
  refine (interned_total_functionOpening hc hv hd).bind fun opening => Interned.pure fun h => ?_
  rw [functionText, count_unlines, total_cons, total_cons, total_cons, total_nil, count_braced,
    count_comment (by decide) htitle hplace, count_functionSignature hcode hparameters]
  simp [h.2, hclosing]

/-! ## Classes -/

variable {c : ClassBody}

theorem count_storedHandle {name handle : String} (hname : ')' ∉ (localStorage name).toList)
    (h : IsIdentifier handle) :
    a.count (storeStatement (localStorage name) (applied "INCREASE_REFCOUNT" [handle])) = 0 := by
  rw [count_storeStatement hname, count_applied (by simp), total_cons, total_nil, count_name h]

theorem interned_count_classDocLine (doc : String) :
    Interned w H (classDocLine doc) fun l => a.count l = 0 :=
  (interned_identifier _).bind fun _ => Interned.pure fun h => count_storedHandle (by decide) h.2

theorem interned_total_classOpening (moduleName : String)
    (hv : ∀ v ∈ c.classVariables ++ c.temporaries, IsIdentifier v.name) :
    Interned w H (classOpening moduleName c) fun ls => a.total ls = 0 := by
  refine (interned_identifier _).bind fun handle => ?_
  refine (Interned.mapM fun v hmem => interned_count_variableLine (a := a)
    (hv v (List.mem_append_left _ hmem))).bind fun locals => ?_
  refine (Interned.mapM fun doc _ => interned_count_classDocLine (a := a) doc).bind
    fun docs => Interned.pure fun h => ?_
  obtain ⟨⟨⟨-, hhandle⟩, hlocal⟩, hdoc⟩ := h
  have hmodule : a.count (storeStatement (localStorage "__module__")
      (applied "INCREASE_REFCOUNT" [handle])) = 0 := count_storedHandle (by decide) hhandle
  simp only [total_append, total_cons, total_nil, total_eq_zero hlocal, total_eq_zero hdoc, hmodule,
    total_temporaryLines fun v hmem => hv v (List.mem_append_right _ hmem)]

/-- The text of a class reads what its body reads. -/
theorem interned_count_classCode (moduleName : String) (htitle : a.count c.name = 0)
    (hcode : IsIdentifier c.codeName) (hplace : a.count place.file = 0)
    (hv : ∀ v ∈ c.closureVariables ++ c.classVariables ++ c.temporaries, IsIdentifier v.name)
    (codes : List String) :
    Interned w H (classCode moduleName c place codes) fun code =>
      a.count code = a.total codes := by
  rw [classCode_eq]
  have hvariables : ∀ v ∈ c.classVariables ++ c.temporaries, IsIdentifier v.name := fun v hmem =>
    hv v (by
      rw [List.append_assoc]
      exact List.mem_append_right _ hmem)
  have hclosure : ∀ v ∈ c.closureVariables, IsIdentifier v.name := fun v hmem =>
    hv v (List.mem_append_left _ (List.mem_append_left _ hmem))
  refine (interned_total_classOpening (a := a) moduleName hvariables).bind fun opening =>
    Interned.pure fun h => ?_
  rw [classText, count_unlines, total_cons, total_cons, total_cons, total_nil, count_braced,
    count_comment (by decide) htitle hplace, count_classSignature hcode hclosure]
  simp [h.2]

/-! ## Modules -/

variable {m : Module} {moduleName : String} {globals codes : List String}

/-- How often the declaration and the code of a definition read the variable. -/
def spent (a : LocalAccess) (d : Definition) : Nat := a.count d.declaration + a.count d.code

theorem not_mem_targetString (hparen : ')' ∉ moduleName.toList) :
    ')' ∉ (targetString (utf8 moduleName)).toList := by
  have hbyte : ∀ b : UInt8, ')' ∈ targetStringChars b → b.toNat = 41 := by
    intro b hb
    unfold targetStringChars at hb
    split at hb
    · simp at hb
    · simp at hb
    · simp at hb
    · split_ifs at hb
      · rw [← toNat_ofNat_byte, ← List.mem_singleton.mp hb]
        rfl
      · rcases List.mem_cons.mp hb with hb | hb
        · exact absurd hb (by decide)
        · exact absurd (isDigit_of_mem_octal hb) (by decide)
  rw [targetString, String.toList_append, String.toList_append, String.toList_ofList]
  intro hmem
  have hescaped : ')' ∈ (utf8 moduleName).flatMap targetStringChars := by simpa using hmem
  obtain ⟨b, hb, hmem⟩ := List.mem_flatMap.mp hescaped
  obtain ⟨c, hc, hb⟩ := List.mem_flatMap.mp hb
  have hcode := hbyte b hmem
  have hchar : c = ')' := by
    rw [← Char.toNat_inj, ← (utf8EncodeChar_of_mem hb (by omega)).2, hcode]
    rfl
  exact hparen (hchar ▸ hc)

theorem interned_count_globalLine (hc : IsIdentifier codeName) (hv : IsIdentifier v.name) :
    Interned w H (globalLine codeName v) fun l => a.count l = 0 := by
  refine (interned_identifier _).bind fun handle => Interned.pure fun h => ?_
  have hname :
      ')' ∉ ("static PyObjectGlobalVariable " ++ globalStorage codeName v.name).toList := by
    simpa using fun hmem => absurd (isIdentifier_globalStorage hc hv _ hmem) (by decide)
  rw [count_terminated, count_applied hname, total_cons, total_cons, total_nil,
    count_lead (by decide), count_lead (by decide), count_name h.2,
    count_name (isIdentifier_moduleVariable hc)]

theorem count_moduleStore (hc : IsIdentifier codeName) (h : IsIdentifier name) (o : Operand) :
    a.count (storeStatement (globalStorage codeName name) o.handedOver) = a.uses o := by
  have hplace : ')' ∉ (globalStorage codeName name).toList := fun hmem =>
    absurd (isIdentifier_globalStorage hc h _ hmem) (by decide)
  rw [count_storeStatement hplace, count_handedOver]

theorem interned_uses_pathOperand (path : Option (List String)) :
    Interned w H (Lowering.pathOperand path) fun o => ∀ p ∈ o, a.uses p = 0 := by
  cases path with
  | none => exact Interned.pure fun _ p hp => nomatch hp
  | some entries =>
      refine (interned_uses_constantFromTable (a := a) _).bind fun o =>
        Interned.pure fun h p hp => ?_
      rw [← Option.some.inj hp]
      exact h.2

/-- What is around the body of a module reads no variable that a function or class stores. -/
theorem interned_total_moduleOpening (hparen : ')' ∉ moduleName.toList)
    (hv : ∀ v ∈ m.globals ++ m.temporaries, IsIdentifier v.name) :
    Interned w H (moduleOpening m moduleName) fun r => a.total r.1 = 0 ∧ a.total r.2 = 0 := by
  have hc := isIdentifier_moduleIdentifier moduleName
  refine (interned_uses_constantFromTable (a := a) _).bind fun doc =>
    (interned_uses_constantFromTable (a := a) _).bind fun filename =>
      (interned_uses_pathOperand (a := a) m.path).bind fun path => ?_
  refine (interned_identifier _).bind fun handle => ?_
  refine (Interned.mapM fun v hmem => interned_count_globalLine (a := a) hc
    (hv v (List.mem_append_left _ hmem))).bind fun globals => Interned.pure fun h => ?_
  obtain ⟨⟨⟨⟨⟨-, hdoc⟩, hfile⟩, hpath⟩, hhandle⟩, hglobals⟩ := h
  have hstores : ∀ (name : String) {o : Operand}, isPlainName name = true → a.uses o = 0 →
      a.count (storeStatement (globalStorage (moduleIdentifier moduleName) name)
        o.handedOver) = 0 :=
    fun _ _ hname ho => (count_moduleStore hc (isNameChar_of_mem_plain hname) _).trans ho
  have hdocStore := hstores "__doc__" (by decide +kernel) hdoc
  have hfileStore := hstores "__file__" (by decide +kernel) hfile
  have hpathStore : a.total (path.map fun o => storeStatement
      (globalStorage (moduleIdentifier moduleName) "__path__") o.handedOver).toList = 0 := by
    refine total_eq_zero fun l hl => ?_
    obtain ⟨o, ho, rfl⟩ := Option.map_eq_some_iff.mp (Option.mem_toList.mp hl)
    exact hstores "__path__" (by decide +kernel) (hpath o ho)
  have hinit : a.count (moduleVariable (moduleIdentifier moduleName) ++ " = " ++
      terminated (applied "Py_InitModule4" [targetString (utf8 moduleName), "NULL", "NULL", "NULL",
        "PYTHON_API_VERSION"])) = 0 := by
    have hnull : a.count "NULL" = 0 := count_of_isMute (by decide)
    have hversion : a.count "PYTHON_API_VERSION" = 0 := count_of_isMute (by decide)
    have hliteral : a.count (targetString (utf8 moduleName)) = 0 :=
      count_of_not_mem (by decide) (not_mem_targetString hparen)
    rw [count_gap (by decide), count_name (isIdentifier_moduleVariable hc), count_terminated,
      count_applied (by simp)]
    simp [hnull, hversion, hliteral]
  refine ⟨total_eq_zero hglobals, ?_⟩
  simp only [total_append, total_cons, total_nil, hinit, hpathStore, count_frameLine hc hhandle,
    hdocStore, hfileStore, total_temporaryLines fun v hmem => hv v (List.mem_append_right _ hmem)]

theorem total_definitionLines (ds : List Definition) :
    a.total (definitionLines ds) = (ds.map a.spent).sum := by
  have hcodes : a.total (ds.flatMap fun d => ["", d.code]) =
      (ds.map fun d => a.count d.code).sum := by
    rw [total_flatMap]
    exact congrArg List.sum (List.map_congr_left fun d _ => by simp)
  have hdeclared : a.total (if ds.isEmpty then [] else "" :: ds.map (·.declaration)) =
      (ds.map fun d => a.count d.declaration).sum := by
    split
    next hnil =>
      rw [List.isEmpty_iff.mp hnil]
      rfl
    next =>
      rw [total_cons, count_empty, Nat.zero_add, total, List.map_map]
      rfl
  rw [definitionLines, total_append, hdeclared, hcodes, ← List.sum_map_add]
  rfl

/-- The text of a module reads what its definitions and the lines of its body read. -/
theorem count_moduleLayout (hparen : ')' ∉ moduleName.toList) (hglobals : a.total globals = 0)
    (ds : List Definition) (codes : List String) :
    a.count (moduleLayout moduleName globals ds codes) = (ds.map a.spent).sum + a.total codes := by
  have hc := isIdentifier_moduleIdentifier moduleName
  have htitle : a.count ("// Module \"" ++ moduleName ++ "\"") = 0 := by
    refine count_of_not_mem (c := ')') (by decide) fun hmem => ?_
    simp only [String.toList_append, List.mem_append] at hmem
    rcases hmem with (hmem | hmem) | hmem
    · exact absurd hmem (by simp)
    · exact hparen hmem
    · exact absurd hmem (by simp)
  have hvariable : a.count (terminated ("static PyObject *" ++
      moduleVariable (moduleIdentifier moduleName))) = 0 := by
    rw [count_terminated, count_lead (by decide), count_name (isIdentifier_moduleVariable hc)]
  have hentry : a.count (moduleEntry (moduleIdentifier moduleName)) = 0 := by
    rw [moduleEntry, count_applied (by simp), total_cons, total_nil, count_name hc]
  rw [moduleLayout, count_unlines]
  simp [htitle, hvariable, hentry, hglobals, total_definitionLines]

end CompilerBackend.LocalAccess
