import CompilerBackend.Lowering.Body
import CompilerBackend.Proofs.Lowering.Parts
/-!
# The lowering of functions and classes

The lowering of a function or class goes through its default values or base classes and its body,
registers its texts with the scope around it, and succeeds exactly if the node is a function with
so many defaults, or a class, and all that it comes to is resolved.
-/

namespace CompilerBackend.Lowering

open Target

variable {w : Wording} {s : Setting} {T H : Prop} {self : Lowerer} {P : NodeId → Prop}
  {top id : NodeId} {ids : List NodeId}

theorem meets_defaultValues (h : self.Handles w s T P) {defaults : List (NodeId × Variable)}
    (hP : ∀ d ∈ defaults, P d.1) (hv : ∀ d ∈ defaults, Named w d.2.name) :
    Meets w T H (defaultValues s.tree self defaults) (s.AllResolved (defaults.map (·.1)))
      fun r => (∀ o ∈ r.1, o.Fine w) ∧ ∀ o ∈ r.2, o.Fine w := by
  induction defaults generalizing H with
  | nil =>
      exact (Meets.pure fun _ => ⟨fun _ ho => (nomatch ho), fun _ ho => (nomatch ho)⟩).iff
        fun _ _ => by simp
  | cons d rest ih =>
      obtain ⟨id, v⟩ := d
      have hrest := fun {H : Prop} => ih (H := H)
        (fun d hd => hP d (List.mem_cons_of_mem _ hd)) fun d hd => hv d (List.mem_cons_of_mem _ hd)
      rw [defaultValues]
      split
      next c hc =>
        have hconstant := resolved_constant (s := s) (kind_of_immutableConstant? hc)
        refine ((Meets.intern (interned_constantAccess c)).bind fun access =>
          hrest.bind (Ψ := True) fun r => ?_).iff fun _ _ => ?_
        · obtain ⟨accesses, values⟩ := r
          exact Meets.pure fun ho => ⟨List.forall_mem_cons.mpr ⟨ho.1.2, ho.2.1⟩, ho.2.2⟩
        · simpa using fun _ => hconstant
      next =>
        refine ((h.expression (hP _ List.mem_cons_self)).bind fun value =>
          hrest.bind (Ψ := True) fun r => ?_).iff fun _ _ => ?_
        · obtain ⟨accesses, values⟩ := r
          refine Meets.pure fun ho => ⟨List.forall_mem_cons.mpr ⟨?_, ho.2.1⟩,
            List.forall_mem_cons.mpr ⟨ho.1.2, ho.2.2⟩⟩
          exact fine_defaultAccess (hv _ List.mem_cons_self)
        · simp

theorem resolved_function_iff {f : FunctionBody} {n : Nat}
    (hkind : s.tree.kind id = .expr (.function f)) :
    s.Resolved (.function n, id) ↔
      f.parameters.defaulted.length = n ∧ ∀ c ∈ f.body, s.Resolved (.sequence, c) := by
  rw [Setting.Resolved, Tree.resolved_iff, Tree.positions, hkind, f.parameters.length_defaulted]
  refine and_congr beq_iff_eq ?_
  change (∀ q ∈ f.body.toList.map (Role.sequence, ·), _) ↔ _
  simp [Setting.Resolved]

theorem kind_of_fits_function {third : Bool} {k : NodeKind} {n : Nat}
    (h : k.fits third (.function n) = true) : ∃ f, k = .expr (.function f) := by
  cases k with
  | expr e =>
      cases e with
      | function f => exact ⟨f, rfl⟩
      | _ => exact nomatch h
  | _ => exact nomatch h

theorem kind_of_fits_classBody {third : Bool} {k : NodeKind}
    (h : k.fits third .classBody = true) : ∃ c, k = .expr (.classBody c) := by
  cases k with
  | expr e =>
      cases e with
      | classBody c => exact ⟨c, rfl⟩
      | _ => exact nomatch h
  | _ => exact nomatch h

theorem codes_getD {codes : Option (List String)} (h : ∀ ls ∈ codes, ∀ l ∈ ls, Code w l) :
    ∀ l ∈ codes.getD [], Code w l := by
  cases codes with
  | none => exact fun _ hl => nomatch hl
  | some ls => exact h ls rfl

/-- The texts of a function with fine default values are registered, and its maker is fine. -/
theorem meets_functionTexts (hg : Grounded w s T top) (hid : s.tree.Connected top id)
    {f : FunctionBody} (hkind : s.tree.kind id = .expr (.function f)) {accesses values : List Operand}
    {codes : List String} (haccesses : H → ∀ o ∈ accesses, o.Fine w)
    (hvalues : H → ∀ o ∈ values, o.Fine w) (hcodes : H → ∀ c ∈ codes, Code w c) :
    Meets w T H (do
      let code ← Lower.intern (functionCode s.codeName f (s.tree.location id) accesses codes)
      let declaration := functionDeclaration f.codeName values.length f.closureVariables
      Lower.onScopes fun scopes => ((), scopes.addFunction f.codeName ⟨declaration, code⟩)
      return functionCreation f.codeName values f.closureVariables) True (Operand.Fine w) := by
  have hsuits := hg.suits id hid
  rw [hkind] at hsuits
  have hnames : ∀ v ∈ f.parameters.all ++ f.userVariables ++ f.temporaries ++ f.closureVariables,
      Named w v.name := fun v hv =>
    hsuits.names v.name (List.mem_cons_of_mem _ (List.mem_map_of_mem hv))
  have hclosure : ∀ v ∈ f.closureVariables, Named w v.name := fun v hv =>
    hnames v (List.mem_append_right _ hv)
  have hcode : Named w f.codeName := hsuits.names _ List.mem_cons_self
  have htext : Interned w H (functionCode s.codeName f (s.tree.location id) accesses codes)
      (Worded w) :=
    interned_functionCode hg.codeName (hsuits.titles _ List.mem_cons_self).worded
      (hsuits.glued _ List.mem_cons_self) hsuits.file
      (fun v hv => hnames v (List.mem_append_left _ hv)) haccesses
      fun hH c hc => (hcodes hH c hc).worded
  refine ((Meets.intern htext).bind fun code => (Meets.onScopes (Q := fun _ => True) fun hH scopes
    hscopes => ⟨hscopes.addFunction _ ⟨?_, hH.2⟩, trivial⟩).bind fun _ => Meets.pure fun hH =>
      fine_functionCreation hcode (hvalues hH.1.1) hclosure).iff fun _ _ => by simp
  exact worded_functionDeclaration hcode _ hclosure

/-- The node is a function that takes so many default values. -/
theorem meets_functionObject (hg : Grounded w s T top) (h : self.Handles w s T P)
    (hid : s.tree.Connected top id) (hP : ∀ c ∈ s.tree.children id, P c)
    (hdefaults : ∀ c ∈ ids, P c) :
    Meets w T H (functionObject s self id ids)
      (s.AllResolved ids ∧ s.Resolved (.function ids.length, id)) (Operand.Fine w) := by
  unfold functionObject
  split
  next f heq =>
    have hkind := Tree.expr?_eq_some_iff.mp heq
    have hsuits := hg.suits id hid
    rw [hkind] at hsuits
    have hslots : ∀ c ∈ f.body, P c := fun c hc =>
      hP c (by rw [Tree.children, hkind]; exact Option.mem_toList.mpr hc)
    rw [resolved_function_iff hkind]
    dsimp only
    split
    next hne =>
      refine (Meets.fail_bind _ _ _ _).iff fun _ _ => ⟨False.elim, fun hfits => ?_⟩
      exact absurd hfits.2.1 (bne_iff_ne.mp hne)
    next heq =>
      have hlength : f.parameters.defaulted.length = ids.length := by simpa using heq
      have hfst : (ids.zip f.parameters.defaulted).map (·.1) = ids :=
        List.map_fst_zip hlength.ge
      have hnamed : ∀ d ∈ ids.zip f.parameters.defaulted, Named w d.2.name := fun d hd =>
        hsuits.names _ (List.mem_cons_of_mem _ (List.mem_map_of_mem (List.mem_append_left _
          (List.mem_append_left _ (List.mem_append_left _ (List.mem_append_left _
            (List.mem_append_left _ (List.mem_of_mem_drop (List.of_mem_zip hd).2))))))))
      have hvalues := meets_defaultValues (H := H) h
        (fun d hd => hdefaults d.1 (List.of_mem_zip hd).1) hnamed
      rw [hfst] at hvalues
      have hbody : ∀ {H : Prop}, Meets w T H (Lower.inScope (.function f.codeName f.isGenerator)
          (self.optionalSequence f.body)) (∀ c ∈ f.body, s.Resolved (.sequence, c))
          fun codes => ∀ ls ∈ codes, ∀ l ∈ ls, Code w l :=
        (meets_optionalSequence h hslots).inScope _
      refine (hvalues.bind fun r => hbody.bind fun codes =>
        meets_functionTexts hg hid hkind (fun hH => hH.1.2.1) (fun hH => hH.1.2.2) fun hH =>
          codes_getD hH.2).iff fun _ _ => ?_
      rw [and_true, hlength]
      simp
  next hnot =>
    refine (Meets.fail _ _ _).iff fun _ _ => ⟨False.elim, fun hresolved => ?_⟩
    obtain ⟨f, hkind⟩ := kind_of_fits_function (Tree.resolved_iff.mp hresolved.2).1
    exact hnot f (Tree.expr?_eq_some_iff.mpr hkind)

/-! ## Classes -/

theorem resolved_classBody_iff {c : ClassBody} (hkind : s.tree.kind id = .expr (.classBody c)) :
    s.Resolved (.classBody, id) ↔ ∀ n ∈ c.body, s.Resolved (.sequence, n) := by
  rw [Setting.Resolved, Tree.resolved_iff, Tree.positions, hkind]
  change _ ∧ (∀ q ∈ c.body.toList.map (Role.sequence, ·), _) ↔ _
  simp [Setting.Resolved, NodeKind.fits]

/-- The texts of a class with fine base classes are registered, and its maker is fine. -/
theorem meets_classTexts (hg : Grounded w s T top) (hid : s.tree.Connected top id)
    {c : ClassBody} (hkind : s.tree.kind id = .expr (.classBody c)) {bases : Operand}
    {codes : List String} (hbases : H → bases.Fine w) (hcodes : H → ∀ l ∈ codes, Code w l) :
    Meets w T H (do
      let body := codes ++ [returnStatement liveLocals]
      let creation ← Lower.intern
        (classCreation c.name bases (classDictCreation c.codeName c.closureVariables))
      let code ← Lower.intern (classCode s.moduleName c (s.tree.location id) body)
      let declaration := classDeclaration c.codeName c.closureVariables
      Lower.onScopes fun scopes => ((), scopes.addClass c.codeName ⟨declaration, code⟩)
      return creation) True (Operand.Fine w) := by
  have hsuits := hg.suits id hid
  rw [hkind] at hsuits
  have hnames : ∀ v ∈ c.closureVariables ++ c.classVariables ++ c.temporaries, Named w v.name :=
    fun v hv => hsuits.names v.name (List.mem_cons_of_mem _ (List.mem_map_of_mem hv))
  have hclosure : ∀ v ∈ c.closureVariables, Named w v.name := fun v hv =>
    hnames v (List.mem_append_left _ (List.mem_append_left _ hv))
  have hcode : Named w c.codeName := hsuits.names _ List.mem_cons_self
  have hbody : H → ∀ l ∈ codes ++ [returnStatement liveLocals], Worded w l := by
    intro hH l hl
    rcases List.mem_append.mp hl with hl | hl
    · exact (hcodes hH l hl).worded
    · rw [List.mem_singleton.mp hl]
      exact (line_returnStatement fine_liveLocals).block.code.worded
  have hcreation : Interned w H
      (classCreation c.name bases (classDictCreation c.codeName c.closureVariables))
      (Operand.Fine w) :=
    interned_classCreation c.name hbases fun _ => fine_classDictCreation hcode hclosure
  have htext : ∀ {H' : Prop}, (H' → H) → Interned w H'
      (classCode s.moduleName c (s.tree.location id) (codes ++ [returnStatement liveLocals]))
      (Worded w) := fun hH' =>
    interned_classCode s.moduleName (hsuits.titles _ List.mem_cons_self).worded hcode hsuits.file hnames
      fun hH => hbody (hH' hH)
  refine ((Meets.intern hcreation).bind fun creation => (Meets.intern (htext And.left)).bind
    fun code => (Meets.onScopes (Q := fun _ => True) fun hH scopes hscopes =>
      ⟨hscopes.addClass _ ⟨?_, hH.2⟩, trivial⟩).bind fun _ => Meets.pure fun hH =>
        hH.1.1.2).iff fun _ _ => by simp
  exact worded_classDeclaration hcode hclosure

/-- The node is a class. -/
theorem meets_classObject (hg : Grounded w s T top) (h : self.Handles w s T P)
    (hid : s.tree.Connected top id) (hP : ∀ c ∈ s.tree.children id, P c)
    (hbases : ∀ c ∈ ids, P c) :
    Meets w T H (classObject s self id ids)
      (s.AllResolved ids ∧ s.Resolved (.classBody, id)) (Operand.Fine w) := by
  unfold classObject
  split
  next c heq =>
    have hkind := Tree.expr?_eq_some_iff.mp heq
    have hslots : ∀ n ∈ c.body, P n := fun n hn =>
      hP n (by rw [Tree.children, hkind]; exact Option.mem_toList.mpr hn)
    have hbody : ∀ {H : Prop}, Meets w T H (Lower.inScope (.classBody c.codeName c.name)
        (self.optionalSequence c.body)) (∀ n ∈ c.body, s.Resolved (.sequence, n))
        fun codes => ∀ ls ∈ codes, ∀ l ∈ ls, Code w l :=
      (meets_optionalSequence h hslots).inScope _
    rw [resolved_classBody_iff hkind]
    refine ((meets_tuple h hbases).bind fun bases => hbody.bind fun codes =>
      meets_classTexts hg hid hkind (fun hH => hH.1.2) fun hH => codes_getD hH.2).iff
        fun _ _ => ?_
    rw [and_true]
  next hnot =>
    refine (Meets.fail _ _ _).iff fun _ _ => ⟨False.elim, fun hresolved => ?_⟩
    obtain ⟨c, hkind⟩ := kind_of_fits_classBody (Tree.resolved_iff.mp hresolved.2).1
    exact hnot c (Tree.expr?_eq_some_iff.mpr hkind)

end CompilerBackend.Lowering
