import CompilerBackend.Proofs.Lowering.Accounts
import CompilerBackend.Proofs.Lowering.Expressions
import CompilerBackend.Proofs.Lowering.Paired
/-!
# Expressions side by side

An expression is lowered to the same operand with and without a trace: only the lines of bodies
differ, and these go into the texts of definitions. Each slot of an expression is lowered once or
holds a constant, so the definitions below an expression are registered once.

- `Lowerer.Pairs`: what is assumed of the lowerings of children.
- `paired_functionObject`, `paired_classObject`: a definition is registered behind those below it.
- `paired_expressionForm`: one case for each kind of expression.
-/

namespace CompilerBackend

open Target

/-- The setting with another choice of whether execution is traced. -/
def Setting.tracing (s : Setting) (b : Bool) : Setting :=
  { s with options := { s.options with traceExecution := b } }

/-- Two lowerings that give the same operands and conditions, and lines that differ in what is
traced, for nodes connected to `top`. -/
structure Lowerer.Pairs (s : Setting) (w : Wording) (top : NodeId) (lowerer' lowerer : Lowerer) :
    Prop where
  expression : ∀ {id}, s.tree.Connected top id → Paired s.tree w (lowerer'.expression id)
    (lowerer.expression id) (s.tree.Defines [id]) (Same (Operand.Fine w))
  condition : ∀ {id} (inverted : Bool), s.tree.Connected top id → Paired s.tree w
    (lowerer'.condition id inverted) (lowerer.condition id inverted) (s.tree.Defines [id]) (Same (Term w))
  sequence : ∀ {id}, s.tree.Connected top id → Paired s.tree w (lowerer'.sequence id)
    (lowerer.sequence id) (s.tree.Defines [id]) (Twins w)

namespace Lowering

variable {w : Wording} {s : Setting} {b : Bool} {self' self : Lowerer} {top id : NodeId}
  {ids : List NodeId} {o : Option NodeId}

/-! ## Children -/

section

variable (h : self'.Pairs s w top self)
include h

theorem paired_optional (hc : ∀ c ∈ o, s.tree.Connected top c) :
    Paired s.tree w (self'.optional o) (self.optional o) (s.tree.Defines o.toList)
      (Same fun r => (∀ p ∈ r, p.Fine w) ∧ r.isSome = o.isSome) := by
  cases o with
  | none => exact Paired.same ⟨fun _ hp => (nomatch hp), rfl⟩
  | some id =>
      refine (h.expression (hc id rfl)).bind fun p hp => Paired.same ⟨fun q hq => ?_, rfl⟩
      rwa [← Option.some.inj hq]

theorem paired_expressions (hc : ∀ c ∈ ids, s.tree.Connected top c) :
    Paired s.tree w (self'.expressions ids) (self.expressions ids) (s.tree.Defines ids)
      (Same fun os => ∀ o ∈ os, o.Fine w) := by
  induction ids with
  | nil => exact Paired.same fun _ ho => nomatch ho
  | cons id ids ih =>
      refine ((h.expression (hc id List.mem_cons_self)).bind fun o ho =>
        (ih fun c hmem => hc c (List.mem_cons_of_mem id hmem)).bind fun os hos =>
          Paired.same (List.forall_mem_cons.mpr ⟨ho, hos⟩)).list ?_
      simp

theorem paired_optionalSequence (hc : ∀ c ∈ o, s.tree.Connected top c) :
    Paired s.tree w (self'.optionalSequence o) (self.optionalSequence o) (s.tree.Defines o.toList)
      (Option.Rel (Twins w)) := by
  cases o with
  | none => exact Paired.pure .none
  | some id => exact (h.sequence (hc id rfl)).bind_rel fun _ _ hls => Paired.pure (.some hls)

theorem paired_conditions (hc : ∀ c ∈ ids, s.tree.Connected top c) :
    Paired s.tree w (conditions self' ids) (conditions self ids) (s.tree.Defines ids)
      (Same fun cs => ∀ c ∈ cs, Term w c) := by
  induction ids with
  | nil => exact Paired.same fun _ hc => nomatch hc
  | cons id ids ih =>
      refine ((h.condition false (hc id List.mem_cons_self)).bind fun c hterm =>
        (ih fun c hmem => hc c (List.mem_cons_of_mem id hmem)).bind fun cs hcs =>
          Paired.same (List.forall_mem_cons.mpr ⟨hterm, hcs⟩)).list ?_
      simp

end

/-! ## References and constants -/

theorem lowered_expr {e : Expr} (hkind : s.tree.kind id = .expr e) :
    s.tree.lowered id = e.children := by
  rw [Tree.lowered, Tree.positions, hkind]
  exact e.map_positions

theorem isDefinition_eq_false {e : Expr} (hkind : s.tree.kind id = .expr e)
    (hfunction : ∀ f, e ≠ .function f) (hclass : ∀ c, e ≠ .classBody c) :
    s.tree.isDefinition id = false := by
  rw [Tree.isDefinition, Tree.functionName?, Tree.className?, hkind]
  cases e with
  | function f => exact absurd rfl (hfunction f)
  | classBody c => exact absurd rfl (hclass c)
  | _ => rfl

theorem paired_boundVariable (hg : Grounded w s False top) (hid : s.tree.Connected top id) :
    Paired s.tree w (boundVariable s.tree id) (boundVariable s.tree id) (s.tree.Defines [])
      (Same fun v => Named w v.name) := by
  rcases boundVariable_cases s.tree id with ⟨e, v, hkind, hv, heq⟩ | ⟨-, cause, heq⟩
  · rw [heq]
    exact Paired.same (Q := fun v : Variable => Named w v.name)
      (named_of_mem_names hg hid hkind (Expr.mem_names_of_bound hv))
  · rw [heq]
    exact Paired.fail id cause

/-- A variable that is written to registers nothing. -/
theorem paired_target (hg : Grounded w s False top) (hid : s.tree.Connected top id) :
    Paired s.tree w (boundVariable s.tree id) (boundVariable s.tree id) (s.tree.Defines [id])
      (Same fun v => Named w v.name) := by
  rcases boundVariable_cases s.tree id with ⟨e, v, hkind, hv, -⟩ | ⟨-, cause, heq⟩
  · have hslots : e.children = [] := by
      cases e with
      | variableRef _ _ => rfl
      | temporaryRef _ => rfl
      | _ => exact nomatch hv
    refine Paired.node ?_ (isDefinition_eq_false hkind ?_ ?_)
    · rw [lowered_expr hkind, hslots]
      exact paired_boundVariable hg hid
    · rintro f rfl
      exact nomatch hv
    · rintro c rfl
      exact nomatch hv
  · rw [heq]
    exact Paired.fail id cause

theorem paired_scopeOf : Paired s.tree w (scopeOf s.tree id) (scopeOf s.tree id)
    (s.tree.Defines []) (Same fun _ => True) := by
  unfold scopeOf
  cases s.tree.scope? id with
  | none => exact Paired.fail _ _
  | some p => exact Paired.same trivial

theorem paired_localsAt (hc : CodeNamed w s.codeName) :
    Paired s.tree w (localsAt (s.tracing b) id) (localsAt s id) (s.tree.Defines [])
      (Same fun _ => True) :=
  paired_scopeOf.bind fun _ _ => Paired.internedAny (interned_localsDict hc _ False.elim)

theorem paired_importLocals (hc : CodeNamed w s.codeName) (globals : Operand) :
    Paired s.tree w (importLocals (s.tracing b) id globals) (importLocals s id globals)
      (s.tree.Defines []) (Same fun _ => True) :=
  paired_scopeOf.bind fun _ _ => Paired.ite (fun _ => Paired.same trivial)
    fun _ => paired_localsAt hc

/-- Constants register nothing. -/
theorem silent_constant {c : Constant} (hkind : s.tree.kind id = .expr (.constant c)) :
    s.tree.isDefinition id = false ∧ s.tree.lowered id = [] :=
  ⟨isDefinition_eq_false hkind (fun _ => nofun) fun _ => nofun, lowered_expr hkind⟩

theorem silent_constants {cs : List Constant} (h : immutableConstants? s.tree ids = some cs) :
    ∀ id ∈ ids, s.tree.isDefinition id = false ∧ s.tree.lowered id = [] := by
  induction ids generalizing cs with
  | nil => exact fun _ hc => nomatch hc
  | cons id ids ih =>
      obtain ⟨c, hc, hrest⟩ := Option.bind_eq_some_iff.mp h
      obtain ⟨rest, hrest, -⟩ := Option.bind_eq_some_iff.mp hrest
      exact List.forall_mem_cons.mpr ⟨silent_constant (kind_of_immutableConstant? hc), ih hrest⟩

/-- Steps that register nothing, in place of nodes that define nothing. -/
theorem Paired.silent {α : Type} {step' step : Lower α} {R : α → α → Prop}
    (hs : Paired s.tree w step' step (s.tree.Defines []) R)
    (h : ∀ id ∈ ids, s.tree.isDefinition id = false ∧ s.tree.lowered id = []) :
    Paired s.tree w step' step (s.tree.Defines ids) R :=
  hs.weaken (fun _ hlog => hlog.eq_nil rfl ▸ Tree.Defines.silent h) fun _ _ hR => hR

theorem paired_constant (hlax : w.Lax) (c : Constant) :
    Paired s.tree w (Lower.intern (constantFromTable c)) (Lower.intern (constantFromTable c))
      (s.tree.Defines []) (Same (Operand.Fine w)) :=
  Paired.interned fun _ => (interned_constantFromTable c).imp fun _ _ => hlax.fine

/-! ## Containers -/

theorem perm_pairSlots (pairs : List (NodeId × NodeId)) :
    (pairSlots pairs).Perm (pairs.map (·.1) ++ pairs.map (·.2)) := by
  induction pairs with
  | nil => exact .nil
  | cons p pairs ih => exact ((ih.cons p.2).trans List.perm_middle.symm).cons p.1

section

variable (h : self'.Pairs s w top self)
include h

theorem paired_container {fold : List Constant → Constant}
    {build : List Operand → Interning Operand} (hc : ∀ c ∈ ids, s.tree.Connected top c)
    (hbuild : ∀ os, Interned w False (build os) fun _ => True) :
    Paired s.tree w (container s.tree self' fold build ids) (container s.tree self fold build ids)
      (s.tree.Defines ids) (Same fun _ => True) := by
  unfold container
  cases hcs : immutableConstants? s.tree ids with
  | some cs => exact Paired.silent (Paired.internedAny (interned_constantFromTable _)) (silent_constants hcs)
  | none =>
      exact ((paired_expressions h hc).bind fun os _ => Paired.internedAny (hbuild os)).list
        (List.append_nil ids)

theorem paired_tuple (hc : ∀ c ∈ ids, s.tree.Connected top c) :
    Paired s.tree w (tuple s.tree self' ids) (tuple s.tree self ids) (s.tree.Defines ids)
      (Same fun _ => True) :=
  paired_container h hc fun _ => (interned_tupleCreation False.elim).imp fun _ _ _ => trivial

theorem paired_list (hc : ∀ c ∈ ids, s.tree.Connected top c) :
    Paired s.tree w (list s.tree self' ids) (list s.tree self ids) (s.tree.Defines ids)
      (Same fun _ => True) :=
  paired_container h hc fun _ => (interned_listCreation False.elim).imp fun _ _ _ => trivial

theorem paired_set (hc : ∀ c ∈ ids, s.tree.Connected top c) :
    Paired s.tree w (set s.tree self' ids) (set s.tree self ids) (s.tree.Defines ids)
      (Same fun _ => True) :=
  paired_container h hc fun _ => Interned.pure fun _ => trivial

theorem paired_dict {pairs : List (NodeId × NodeId)}
    (hc : ∀ c ∈ pairSlots pairs, s.tree.Connected top c) :
    Paired s.tree w (dict s.tree self' pairs) (dict s.tree self pairs)
      (s.tree.Defines (pairSlots pairs)) (Same fun _ => True) := by
  have hperm := perm_pairSlots pairs
  have hkeys : ∀ c ∈ pairs.map (·.1), s.tree.Connected top c := fun c hmem =>
    hc c (hperm.mem_iff.mpr (List.mem_append_left _ hmem))
  have hvalues : ∀ c ∈ pairs.map (·.2), s.tree.Connected top c := fun c hmem =>
    hc c (hperm.mem_iff.mpr (List.mem_append_right _ hmem))
  have hbuilt : Paired s.tree w
      (do
        let ks ← self'.expressions (pairs.map (·.1))
        let vs ← self'.expressions (pairs.map (·.2))
        Lower.intern (dictCreation ks vs))
      (do
        let ks ← self.expressions (pairs.map (·.1))
        let vs ← self.expressions (pairs.map (·.2))
        Lower.intern (dictCreation ks vs))
      (s.tree.Defines (pairs.map (·.1) ++ pairs.map (·.2))) (Same fun _ => True) := by
    refine ((paired_expressions h hkeys).bind fun ks _ => (paired_expressions h hvalues).bind
      fun vs _ => Paired.intern (Q := fun _ => True) fun p hp => ⟨?_, trivial⟩).list (by simp)
    unfold dictCreation
    exact (((interned_recordDict (w := w) (H := False) ks.length).bind
      (R := fun _ => True) fun _ => by split <;> exact Interned.pure fun _ => trivial) p hp).1
  refine Paired.perm ?_ hperm
  unfold dict
  dsimp only
  cases hks : immutableConstants? s.tree (pairs.map (·.1)) with
  | none => exact hbuilt
  | some ks =>
      cases hvs : immutableConstants? s.tree (pairs.map (·.2)) with
      | none => exact hbuilt
      | some vs =>
          exact Paired.silent (Paired.internedAny (interned_constantFromTable _))
            (List.forall_mem_append.mpr ⟨silent_constants hks, silent_constants hvs⟩)

theorem paired_namedArguments {pairs : List (NodeId × NodeId)}
    (hc : ∀ c ∈ pairSlots pairs, s.tree.Connected top c) :
    Paired s.tree w (namedArguments s.tree self' pairs) (namedArguments s.tree self pairs)
      (s.tree.Defines (pairSlots pairs)) (Same fun _ => True) := by
  unfold namedArguments
  cases pairs with
  | nil => exact Paired.same trivial
  | cons p rest =>
      exact ((paired_dict h hc).bind fun _ _ => Paired.same trivial).list (List.append_nil _)

theorem paired_positionalTuple (hc : ∀ c ∈ ids, s.tree.Connected top c) :
    Paired s.tree w (positionalTuple s.tree self' ids) (positionalTuple s.tree self ids)
      (s.tree.Defines ids) (Same fun _ => True) := by
  unfold positionalTuple
  cases ids with
  | nil => exact Paired.same trivial
  | cons id ids =>
      rw [← bind_pure_comp, ← bind_pure_comp]
      exact ((paired_tuple h hc).bind fun _ _ => Paired.same trivial).list (List.append_nil _)

theorem paired_orConstant (hlax : w.Lax) (hc : ∀ c ∈ o, s.tree.Connected top c) (c : Constant) :
    Paired s.tree w (orConstant self' o c) (orConstant self o c) (s.tree.Defines o.toList)
      (Same (Operand.Fine w)) := by
  cases o with
  | none => exact paired_constant hlax c
  | some id => exact h.expression (hc id rfl)

/-! ## Slices -/

variable {lower upper : Option NodeId}

omit h in
theorem paired_bound (ho : isNativeBound s.tree o = true) {absent : String} (ha : Phrase w absent) :
    Paired s.tree w (bound s.tree self' o absent) (bound s.tree self o absent)
      (s.tree.Defines o.toList) (Same (Phrase w)) := by
  cases o with
  | none => exact Paired.same ha
  | some id =>
      obtain ⟨value, hvalue⟩ := Option.isSome_iff_exists.mp (show Option.isSome _ = true from ho)
      obtain ⟨c, hconstant, -⟩ := Option.bind_eq_some_iff.mp hvalue
      unfold bound
      dsimp only
      rw [hvalue]
      refine Paired.silent (Paired.same (phrase_constantBound value)) fun d hd => ?_
      rw [Option.toList_some, List.mem_singleton] at hd
      rw [hd]
      exact silent_constant (Tree.constant?_eq_some_iff.mp hconstant)

omit h in
theorem paired_bounds (hnative : hasNativeBounds s lower upper = true) :
    Paired s.tree w (bounds s.tree self' lower upper) (bounds s.tree self lower upper)
      (s.tree.Defines (lower.toList ++ upper.toList))
      (Same fun b => Phrase w b.1 ∧ Phrase w b.2) := by
  rw [hasNativeBounds, Bool.and_eq_true, Bool.and_eq_true] at hnative
  exact ((paired_bound hnative.1.2 phrase_openLowerBound).bind fun _ hl =>
    (paired_bound hnative.2 phrase_openUpperBound).bind fun _ hu =>
      Paired.same ⟨hl, hu⟩).list (by simp)

theorem paired_boundObjects (hl : ∀ c ∈ lower, s.tree.Connected top c)
    (hu : ∀ c ∈ upper, s.tree.Connected top c) :
    Paired s.tree w (boundObjects self' lower upper) (boundObjects self lower upper)
      (s.tree.Defines (lower.toList ++ upper.toList))
      (Same fun b => (∀ o ∈ b.1, o.Fine w) ∧ ∀ o ∈ b.2, o.Fine w) :=
  ((paired_optional h hl).bind fun _ hl => (paired_optional h hu).bind fun _ hu =>
    Paired.same ⟨hl.1, hu.1⟩).list (by simp)

theorem paired_sliceObject (hl : ∀ c ∈ lower, s.tree.Connected top c)
    (hu : ∀ c ∈ upper, s.tree.Connected top c) :
    Paired s.tree w (sliceObject self' lower upper) (sliceObject self lower upper)
      (s.tree.Defines (lower.toList ++ upper.toList)) (Same (Operand.Fine w)) := by
  refine ((paired_boundObjects h hl hu).bind (m := []) fun b hb => ?_).list (List.append_nil _)
  exact Paired.same (fine_sliceObject hb.1 hb.2 fun _ ho => nomatch ho)

theorem paired_sliceLookup (hid : s.tree.Connected top id)
    (hl : ∀ c ∈ lower, s.tree.Connected top c) (hu : ∀ c ∈ upper, s.tree.Connected top c) :
    Paired s.tree w (sliceLookup (s.tracing b) self' id lower upper)
      (sliceLookup s self id lower upper) (s.tree.Defines (id :: (lower.toList ++ upper.toList)))
      (Same fun _ => True) := by
  refine (h.expression hid).bind (m := lower.toList ++ upper.toList) fun o _ =>
    Paired.ite (fun hnative => ?_) fun _ => Paired.ite (fun _ => ?_) fun _ => ?_
  · exact ((paired_bounds hnative).bind fun _ _ => Paired.same trivial).list (List.append_nil _)
  · exact ((paired_boundObjects h hl hu).bind fun _ _ => Paired.same trivial).list
      (List.append_nil _)
  · exact ((paired_sliceObject h hl hu).bind fun _ _ => Paired.same trivial).list
      (List.append_nil _)

theorem paired_sliceAssignment (hid : s.tree.Connected top id)
    (hl : ∀ c ∈ lower, s.tree.Connected top c) (hu : ∀ c ∈ upper, s.tree.Connected top c)
    {value : Operand} (hv : value.Fine w) :
    Paired s.tree w (sliceAssignment (s.tracing b) self' id lower upper value)
      (sliceAssignment s self id lower upper value)
      (s.tree.Defines (id :: (lower.toList ++ upper.toList))) (Same (Line w)) := by
  refine (h.expression hid).bind (m := lower.toList ++ upper.toList) fun o ho =>
    Paired.ite (fun hnative => ?_) fun _ => Paired.ite (fun _ => ?_) fun _ => ?_
  · exact ((paired_bounds hnative).bind fun _ hb => Paired.same
      (line_indexedSliceAssignment ho hb.1 hb.2 hv)).list (List.append_nil _)
  · exact ((paired_boundObjects h hl hu).bind fun _ hb => Paired.same
      (line_sliceAssignment ho hb.1 hb.2 hv)).list (List.append_nil _)
  · exact ((paired_sliceObject h hl hu).bind fun _ hi => Paired.same
      (line_subscriptAssignment ho hi hv)).list (List.append_nil _)

theorem paired_sliceDeletion (hid : s.tree.Connected top id)
    (hl : ∀ c ∈ lower, s.tree.Connected top c) (hu : ∀ c ∈ upper, s.tree.Connected top c) :
    Paired s.tree w (sliceDeletion (s.tracing b) self' id lower upper)
      (sliceDeletion s self id lower upper)
      (s.tree.Defines (id :: (lower.toList ++ upper.toList))) (Same (Line w)) := by
  refine (h.expression hid).bind (m := lower.toList ++ upper.toList) fun o ho =>
    Paired.ite (fun hnative => ?_) fun _ => ?_
  · exact ((paired_bounds hnative).bind fun _ hb => Paired.same
      (line_indexedSliceDeletion ho hb.1 hb.2)).list (List.append_nil _)
  · exact ((paired_sliceObject h hl hu).bind fun _ hi => Paired.same
      (line_subscriptDeletion ho hi)).list (List.append_nil _)

/-! ## Definitions -/

theorem paired_defaultValues (hlax : w.Lax) {defaults : List (NodeId × Variable)}
    (hc : ∀ d ∈ defaults, s.tree.Connected top d.1) (hv : ∀ d ∈ defaults, Named w d.2.name) :
    Paired s.tree w (defaultValues s.tree self' defaults) (defaultValues s.tree self defaults)
      (s.tree.Defines (defaults.map (·.1))) (Same fun r => ∀ o ∈ r.1, o.Fine w) := by
  induction defaults with
  | nil => exact Paired.same fun _ ho => nomatch ho
  | cons d rest ih =>
      obtain ⟨id, v⟩ := d
      have hrest := ih (fun d hd => hc d (List.mem_cons_of_mem _ hd))
        fun d hd => hv d (List.mem_cons_of_mem _ hd)
      rw [defaultValues, defaultValues]
      cases hconstant : immutableConstant? s.tree id with
      | some c =>
          have haccess : Paired s.tree w (Lower.intern (constantAccess c))
              (Lower.intern (constantAccess c)) (s.tree.Defines [id]) (Same (Operand.Fine w)) :=
            Paired.silent (Paired.interned fun p => (interned_constantAccess c).imp
              fun _ _ => hlax.fine) fun d hd => by
                rw [List.mem_singleton.mp hd]
                exact silent_constant (kind_of_immutableConstant? hconstant)
          refine (haccess.bind fun o ho => hrest.bind fun r hr => Paired.same ?_).list (by simp)
          exact List.forall_mem_cons.mpr ⟨ho, hr⟩
      | none =>
          refine ((h.expression (hc _ List.mem_cons_self)).bind fun o _ => hrest.bind
            fun r hr => Paired.same ?_).list (by simp)
          exact List.forall_mem_cons.mpr ⟨fine_defaultAccess (hv _ List.mem_cons_self), hr⟩

end

theorem twins_getD {codes' codes : Option (List String)} (h : Option.Rel (Twins w) codes' codes) :
    Twins w (codes'.getD []) (codes.getD []) := by
  cases h with
  | none => exact Twins.nil
  | some h => exact h

/-- The texts of a function, registered behind those of the definitions in it. -/
theorem paired_functionTexts (hg : Grounded w s False top) (hlax : w.Lax) (hw : w.lined)
    (hid : s.tree.Connected top id) {f : FunctionBody}
    (hkind : s.tree.kind id = .expr (.function f)) {accesses values : List Operand}
    (haccesses : ∀ o ∈ accesses, o.Fine w) {codes' codes : List String}
    (hcodes : Twins w codes' codes) :
    Paired s.tree w
      (do
        let code ← Lower.intern (functionCode s.codeName f (s.tree.location id) accesses codes')
        let declaration := functionDeclaration f.codeName values.length f.closureVariables
        Lower.onScopes fun scopes => ((), scopes.addFunction f.codeName ⟨declaration, code⟩)
        return functionCreation f.codeName values f.closureVariables)
      (do
        let code ← Lower.intern (functionCode s.codeName f (s.tree.location id) accesses codes)
        let declaration := functionDeclaration f.codeName values.length f.closureVariables
        Lower.onScopes fun scopes => ((), scopes.addFunction f.codeName ⟨declaration, code⟩)
        return functionCreation f.codeName values f.closureVariables)
      (· = [id]) (Same fun _ => True) := by
  have hnames : ∀ v ∈ f.parameters.all ++ f.userVariables ++ f.temporaries, Named w v.name :=
    fun v hv => named_of_mem_names hg hid hkind (List.mem_cons_of_mem _ (List.mem_map_of_mem
      (List.mem_append_left _ hv)))
  have hopening : Paired s.tree w (Lower.intern (functionOpening s.codeName f accesses))
      (Lower.intern (functionOpening s.codeName f accesses)) (s.tree.Defines [])
      (Same fun ls => ∀ l ∈ ls, Line w l) :=
    Paired.interned fun p => (interned_functionOpening (hlax.codeNamed hg.codeName)
      (fun v hv => hlax.named (hnames v hv)) fun _ o ho => hlax.lift (haccesses o ho)).imp
        fun _ ls hls l hl => hlax.line (hls l hl)
  have hcode : Paired s.tree w
      (Lower.intern (functionCode s.codeName f (s.tree.location id) accesses codes'))
      (Lower.intern (functionCode s.codeName f (s.tree.location id) accesses codes))
      (s.tree.Defines []) fun c' c => ∃ body' body, Twins w body' body ∧
        c' = functionText f (s.tree.location id) body' ∧
        c = functionText f (s.tree.location id) body := by
    rw [functionCode_eq, functionCode_eq, Accounts.intern_bind, Accounts.intern_bind]
    refine hopening.bind fun opening hopening => Paired.pure ⟨_, _, ?_, rfl, rfl⟩
    exact ((Twins.lined hopening hw).append hcodes).append
      (Twins.firm (line_functionClosing f).firm hw)
  have hregisters : ∀ body' body, Twins w body' body → Paired s.tree w
      (do
        Lower.onScopes fun scopes => ((), scopes.addFunction f.codeName
          ⟨functionDeclaration f.codeName values.length f.closureVariables,
            functionText f (s.tree.location id) body'⟩)
        return functionCreation f.codeName values f.closureVariables)
      (do
        Lower.onScopes fun scopes => ((), scopes.addFunction f.codeName
          ⟨functionDeclaration f.codeName values.length f.closureVariables,
            functionText f (s.tree.location id) body⟩)
        return functionCreation f.codeName values f.closureVariables)
      (· = [id]) (Same fun _ => True) := fun body' body hbody =>
    ((Paired.registersFunction hkind (.function hkind values.length hbody)).seq
      fun _ _ _ => Paired.same trivial).weaken (fun log ⟨a, b, ha, hb, hlog⟩ => by
        rw [hlog, ha, hb.eq_nil rfl, List.append_nil]) fun _ _ hR => hR
  refine (hcode.seq fun _ _ ⟨body', body, hbody, h', h⟩ => h' ▸ h ▸ hregisters body' body hbody).weaken
    ?_ fun _ _ hR => hR
  rintro log ⟨a, b, ha, rfl, rfl⟩
  rw [ha.eq_nil rfl, List.nil_append]

/-- The texts of a class, registered behind those of the definitions in it. -/
theorem paired_classTexts (hg : Grounded w s False top) (hlax : w.Lax) (hw : w.lined)
    (hid : s.tree.Connected top id) {c : ClassBody}
    (hkind : s.tree.kind id = .expr (.classBody c)) (bases : Operand) {codes' codes : List String}
    (hcodes : Twins w codes' codes) :
    Paired s.tree w
      (do
        let body := codes' ++ [returnStatement liveLocals]
        let creation ← Lower.intern
          (classCreation c.name bases (classDictCreation c.codeName c.closureVariables))
        let code ← Lower.intern (classCode s.moduleName c (s.tree.location id) body)
        let declaration := classDeclaration c.codeName c.closureVariables
        Lower.onScopes fun scopes => ((), scopes.addClass c.codeName ⟨declaration, code⟩)
        return creation)
      (do
        let body := codes ++ [returnStatement liveLocals]
        let creation ← Lower.intern
          (classCreation c.name bases (classDictCreation c.codeName c.closureVariables))
        let code ← Lower.intern (classCode s.moduleName c (s.tree.location id) body)
        let declaration := classDeclaration c.codeName c.closureVariables
        Lower.onScopes fun scopes => ((), scopes.addClass c.codeName ⟨declaration, code⟩)
        return creation)
      (· = [id]) (Same fun _ => True) := by
  have hnames : ∀ v ∈ c.classVariables ++ c.temporaries, Named w v.name := fun v hv =>
    named_of_mem_names hg hid hkind (List.mem_cons_of_mem _ (List.mem_map_of_mem (by
      rw [List.append_assoc]
      exact List.mem_append_right _ hv)))
  have hopening : Paired s.tree w (Lower.intern (classOpening s.moduleName c))
      (Lower.intern (classOpening s.moduleName c)) (s.tree.Defines [])
      (Same fun ls => ∀ l ∈ ls, Line w l) :=
    Paired.interned fun p => (interned_classOpening s.moduleName
      fun v hv => hlax.named (hnames v hv)).imp fun _ ls hls l hl => hlax.line (hls l hl)
  have hcode : Paired s.tree w
      (Lower.intern (classCode s.moduleName c (s.tree.location id)
        (codes' ++ [returnStatement liveLocals])))
      (Lower.intern (classCode s.moduleName c (s.tree.location id)
        (codes ++ [returnStatement liveLocals])))
      (s.tree.Defines []) fun c' d => ∃ body' body, Twins w body' body ∧
        c' = classText c (s.tree.location id) body' ∧
        d = classText c (s.tree.location id) body := by
    rw [classCode_eq, classCode_eq, Accounts.intern_bind, Accounts.intern_bind]
    refine hopening.bind fun opening hopening => Paired.pure ⟨_, _, ?_, rfl, rfl⟩
    exact (Twins.lined hopening hw).append
      (hcodes.append (Twins.firm (line_returnStatement fine_liveLocals).firm hw))
  have hcreation : Paired s.tree w
      (Lower.intern (classCreation c.name bases (classDictCreation c.codeName c.closureVariables)))
      (Lower.intern (classCreation c.name bases (classDictCreation c.codeName c.closureVariables)))
      (s.tree.Defines []) (Same fun _ => True) :=
    Paired.internedAny (interned_classCreation c.name False.elim False.elim)
  have hregisters : ∀ body' body, Twins w body' body → ∀ creation : Operand, Paired s.tree w
      (do
        Lower.onScopes fun scopes => ((), scopes.addClass c.codeName
          ⟨classDeclaration c.codeName c.closureVariables,
            classText c (s.tree.location id) body'⟩)
        return creation)
      (do
        Lower.onScopes fun scopes => ((), scopes.addClass c.codeName
          ⟨classDeclaration c.codeName c.closureVariables,
            classText c (s.tree.location id) body⟩)
        return creation)
      (· = [id]) (Same fun _ => True) := fun body' body hbody _ =>
    ((Paired.registersClass hkind (.classBody hkind hbody)).seq
      fun _ _ _ => Paired.same trivial).weaken (fun log ⟨a, b, ha, hb, hlog⟩ => by
        rw [hlog, ha, hb.eq_nil rfl, List.append_nil]) fun _ _ hR => hR
  refine (hcreation.seq_same fun creation _ => hcode.seq fun _ _ ⟨body', body, hbody, h', h⟩ =>
    h' ▸ h ▸ hregisters body' body hbody creation).weaken ?_ fun _ _ hR => hR
  rintro log ⟨a, b, ha, ⟨d, e, hd, rfl, rfl⟩, rfl⟩
  rw [ha.eq_nil rfl, hd.eq_nil rfl, List.nil_append, List.nil_append]

/-- A definition comes behind what is in its slots, and all of it behind what goes in front. -/
theorem defines_definition {e : Expr} (hkind : s.tree.kind id = .expr e)
    (hdefinition : s.tree.isDefinition id = true) (log : List NodeId)
    (hlog : ∃ a d, s.tree.Defines ids a ∧
      (∃ below own, s.tree.Defines e.children below ∧ own = [id] ∧ d = below ++ own) ∧
      log = a ++ d) : s.tree.Defines (ids ++ [id]) log := by
  obtain ⟨a, _, ha, ⟨below, _, hbelow, rfl, rfl⟩, rfl⟩ := hlog
  rw [← lowered_expr hkind] at hbelow
  exact ha.append (.concat hdefinition hbelow)

theorem functionObject_of_not (s : Setting) (self : Lowerer) (ids : List NodeId)
    (hnot : ∀ f, s.tree.kind id ≠ .expr (.function f)) : functionObject s self id ids =
      Lower.fail s.tree id (.unrecognisedNode (s.tree.kind id).kindName) := by
  unfold functionObject
  split
  next f heq => exact absurd (Tree.expr?_eq_some_iff.mp heq) (hnot f)
  next => rfl

/-- Default values come in front of what the body defines, the function itself comes last. -/
theorem paired_functionObject (hg : Grounded w s False top) (hlax : w.Lax) (hw : w.lined)
    (h : self'.Pairs s w top self) (hid : s.tree.Connected top id)
    (hc : ∀ c ∈ ids, s.tree.Connected top c) :
    Paired s.tree w (functionObject (s.tracing b) self' id ids) (functionObject s self id ids)
      (s.tree.Defines (ids ++ [id])) (Same fun _ => True) := by
  by_cases hfunction : ∃ f, s.tree.kind id = .expr (.function f)
  case neg =>
    rw [not_exists] at hfunction
    rw [functionObject_of_not (s.tracing b) self' ids hfunction,
      functionObject_of_not s self ids hfunction]
    exact Paired.fail _ _
  obtain ⟨f, hkind⟩ := hfunction
  have hexpr : s.tree.expr? id = some (.function f) := Tree.expr?_eq_some_iff.mpr hkind
  have hdefinition : s.tree.isDefinition id = true := by
    rw [Tree.isDefinition, Tree.functionName?, hkind]
    rfl
  have hbody : Paired s.tree w
      (Lower.inScope (.function f.codeName f.isGenerator) (self'.optionalSequence f.body))
      (Lower.inScope (.function f.codeName f.isGenerator) (self.optionalSequence f.body))
      (s.tree.Defines f.body.toList) (Option.Rel (Twins w)) :=
    (paired_optionalSequence h fun c hmem => hid.child (by
      rw [Tree.children, hkind]
      exact Option.mem_toList.mpr hmem)).inScope _
  have hnamed : ∀ d ∈ ids.zip f.parameters.defaulted, Named w d.2.name := fun d hd =>
    named_of_mem_names hg hid hkind (List.mem_cons_of_mem _ (List.mem_map_of_mem
      (List.mem_append_left _ (List.mem_append_left _ (List.mem_append_left _
        (List.mem_append_left _ (List.mem_append_left _
          (List.mem_of_mem_drop (List.of_mem_zip hd).2))))))))
  unfold functionObject
  rw [show (s.tracing b).tree.expr? id = _ from hexpr, hexpr]
  refine Paired.ite (fun _ => Paired.fail_bind _ _) fun hlength => ?_
  have hfst : (ids.zip f.parameters.defaulted).map (·.1) = ids :=
    List.map_fst_zip (by simpa using Nat.le_of_eq (by simpa using hlength : _ = _).symm)
  have hvalues := paired_defaultValues h hlax (fun d hd => hc d.1 (List.of_mem_zip hd).1) hnamed
  rw [hfst] at hvalues
  refine Paired.weaken ?_ (defines_definition hkind hdefinition) fun _ _ hR => hR
  refine hvalues.seq_same fun r hr => hbody.seq fun codes' codes hcodes => ?_
  exact paired_functionTexts hg hlax hw hid hkind hr (twins_getD hcodes)

theorem classObject_of_not (s : Setting) (self : Lowerer) (ids : List NodeId)
    (hnot : ∀ c, s.tree.kind id ≠ .expr (.classBody c)) : classObject s self id ids =
      Lower.fail s.tree id (.unrecognisedNode (s.tree.kind id).kindName) := by
  unfold classObject
  split
  next c heq => exact absurd (Tree.expr?_eq_some_iff.mp heq) (hnot c)
  next => rfl

/-- Base classes come in front of what the body defines, the class itself comes last. -/
theorem paired_classObject (hg : Grounded w s False top) (hlax : w.Lax) (hw : w.lined)
    (h : self'.Pairs s w top self) (hid : s.tree.Connected top id)
    (hc : ∀ c ∈ ids, s.tree.Connected top c) :
    Paired s.tree w (classObject (s.tracing b) self' id ids) (classObject s self id ids)
      (s.tree.Defines (ids ++ [id])) (Same fun _ => True) := by
  by_cases hclass : ∃ c, s.tree.kind id = .expr (.classBody c)
  case neg =>
    rw [not_exists] at hclass
    rw [classObject_of_not (s.tracing b) self' ids hclass, classObject_of_not s self ids hclass]
    exact Paired.fail _ _
  obtain ⟨c, hkind⟩ := hclass
  have hexpr : s.tree.expr? id = some (.classBody c) := Tree.expr?_eq_some_iff.mpr hkind
  have hdefinition : s.tree.isDefinition id = true := by
    rw [Tree.isDefinition, Tree.functionName?, Tree.className?, hkind]
    rfl
  have hbody : Paired s.tree w
      (Lower.inScope (.classBody c.codeName c.name) (self'.optionalSequence c.body))
      (Lower.inScope (.classBody c.codeName c.name) (self.optionalSequence c.body))
      (s.tree.Defines c.body.toList) (Option.Rel (Twins w)) :=
    (paired_optionalSequence h fun n hmem => hid.child (by
      rw [Tree.children, hkind]
      exact Option.mem_toList.mpr hmem)).inScope _
  unfold classObject
  rw [show (s.tracing b).tree.expr? id = _ from hexpr, hexpr]
  refine Paired.weaken ?_ (defines_definition hkind hdefinition) fun _ _ hR => hR
  refine (paired_tuple h hc).seq_same fun bases _ => hbody.seq fun codes' codes hcodes => ?_
  exact paired_classTexts hg hlax hw hid hkind bases (twins_getD hcodes)

/-! ## Forms -/

section

variable (h : self'.Pairs s w top self)
include h

theorem paired_orLowered (hc : ∀ c ∈ o, s.tree.Connected top c) {absent' absent : Lower Operand}
    (ha : Paired s.tree w absent' absent (s.tree.Defines []) (Same fun _ => True)) :
    Paired s.tree w (orLowered self' o absent') (orLowered self o absent)
      (s.tree.Defines o.toList) (Same fun _ => True) := by
  cases o with
  | none => exact ha
  | some id => exact (h.expression (hc id rfl)).imp fun _ _ ho => ⟨ho.1, trivial⟩

/-- A form that puts the operand of its only child into something. -/
theorem paired_unary {c : NodeId} (hc : ∀ n ∈ [c], s.tree.Connected top n)
    (form : Operand → Operand) :
    Paired s.tree w (do return form (← self'.expression c)) (do return form (← self.expression c))
      (s.tree.Defines [c]) (Same fun _ => True) :=
  (h.expression (hc c List.mem_cons_self)).bind fun _ _ => Paired.same trivial

/-- A form that puts the operands of its two children together. -/
theorem paired_binary {c d : NodeId} (hc : ∀ n ∈ [c, d], s.tree.Connected top n)
    (form : Operand → Operand → Operand) :
    Paired s.tree w
      (do
        let o ← self'.expression c
        let p ← self'.expression d
        return form o p)
      (do
        let o ← self.expression c
        let p ← self.expression d
        return form o p)
      (s.tree.Defines [c, d]) (Same fun _ => True) := by
  simp only [List.forall_mem_cons] at hc
  obtain ⟨hfirst, hsecond, -⟩ := hc
  exact (h.expression hfirst).bind fun _ _ => (h.expression hsecond).bind fun _ _ =>
    Paired.same trivial

/-- A form that puts the operands of its three children together. -/
theorem paired_ternary {c d e : NodeId} (hc : ∀ n ∈ [c, d, e], s.tree.Connected top n)
    {form : Operand → Operand → Operand → Lower Operand}
    (hform : ∀ o p q, Paired s.tree w (form o p q) (form o p q) (s.tree.Defines [])
      (Same fun _ => True)) :
    Paired s.tree w
      (do
        let o ← self'.expression c
        let p ← self'.expression d
        let q ← self'.expression e
        form o p q)
      (do
        let o ← self.expression c
        let p ← self.expression d
        let q ← self.expression e
        form o p q)
      (s.tree.Defines [c, d, e]) (Same fun _ => True) := by
  simp only [List.forall_mem_cons] at hc
  obtain ⟨hfirst, hsecond, hthird, -⟩ := hc
  exact (h.expression hfirst).bind fun _ _ => (h.expression hsecond).bind fun _ _ =>
    (h.expression hthird).bind fun _ _ => hform _ _ _

/-- A form that puts the operands of three optional children together. -/
theorem paired_optionals {o p q : Option NodeId}
    (hc : ∀ n ∈ o.toList ++ p.toList ++ q.toList, s.tree.Connected top n)
    (form : Option Operand → Option Operand → Option Operand → Operand) :
    Paired s.tree w
      (do
        let x ← self'.optional o
        let y ← self'.optional p
        let z ← self'.optional q
        return form x y z)
      (do
        let x ← self.optional o
        let y ← self.optional p
        let z ← self.optional q
        return form x y z)
      (s.tree.Defines (o.toList ++ p.toList ++ q.toList)) (Same fun _ => True) := by
  simp only [List.forall_mem_append, Option.mem_toList] at hc
  obtain ⟨⟨hfirst, hsecond⟩, hthird⟩ := hc
  exact ((paired_optional h hfirst).bind fun _ _ => (paired_optional h hsecond).bind fun _ _ =>
    (paired_optional h hthird).bind fun _ _ => Paired.same trivial).list (by simp)

/-- A form that puts the operands of its children together. -/
theorem paired_operands (hc : ∀ c ∈ ids, s.tree.Connected top c) (form : List Operand → Operand) :
    Paired s.tree w (do return form (← self'.expressions ids))
      (do return form (← self.expressions ids)) (s.tree.Defines ids) (Same fun _ => True) :=
  ((paired_expressions h hc).bind fun _ _ => Paired.same trivial).list (List.append_nil _)

end

section

variable (hlax : w.Lax) (h : self'.Pairs s w top self)
include hlax h

theorem paired_evalParts (mode : EvalMode) {source : NodeId} {inGlobals inLocals : Option NodeId}
    (hc : ∀ c ∈ source :: inGlobals.toList ++ inLocals.toList, s.tree.Connected top c) :
    Paired s.tree w (evalParts s.tree self' id mode source inGlobals inLocals)
      (evalParts s.tree self id mode source inGlobals inLocals)
      (s.tree.Defines (source :: inGlobals.toList ++ inLocals.toList)) (Same (EvalParts.Fine w)) := by
  simp only [List.forall_mem_append, List.forall_mem_cons, Option.mem_toList] at hc
  obtain ⟨⟨hsource, hglobals⟩, hlocals⟩ := hc
  refine ((paired_orConstant h hlax hglobals _).bind fun g hg =>
    (paired_orConstant h hlax hlocals _).bind fun l hl => (paired_constant hlax _).bind
      fun filename hfilename => (paired_constant hlax _).bind fun mode hmode =>
        (h.expression hsource).bind fun o ho => Paired.same
          ⟨ho, hg, hl, hfilename, hmode, phrase_futureFlags _⟩).perm ?_
  exact (List.perm_append_singleton source _).symm.trans (List.Perm.of_eq (by simp))

theorem paired_builtinImport (hcode : CodeNamed w s.codeName) {name : NodeId}
    {fromList inGlobals inLocals level : Option NodeId}
    (hc : ∀ c ∈ name :: fromList.toList ++ inGlobals.toList ++ inLocals.toList ++ level.toList,
      s.tree.Connected top c) :
    Paired s.tree w
      (expressionForm (s.tracing b) self' id (.builtinImport name fromList inGlobals inLocals level))
      (expressionForm s self id (.builtinImport name fromList inGlobals inLocals level))
      (s.tree.Defines (name :: fromList.toList ++ inGlobals.toList ++ inLocals.toList ++
        level.toList)) (Same fun _ => True) := by
  simp only [List.forall_mem_append, List.forall_mem_cons, Option.mem_toList] at hc
  obtain ⟨⟨⟨⟨hname, hfrom⟩, hglobals⟩, hlocals⟩, hlevel⟩ := hc
  rw [expressionForm_builtinImport, expressionForm_builtinImport]
  refine ((paired_orLowered h hglobals (Paired.same trivial)).bind fun g _ =>
    (paired_orLowered h hlocals (paired_importLocals hcode g)).bind fun l _ =>
      (h.expression hname).bind fun n _ => (paired_orConstant h hlax hfrom _).bind fun ns _ =>
        (paired_orConstant h hlax hlevel _).bind fun lv _ => Paired.same trivial).perm ?_
  rw [List.perm_iff_count]
  intro a
  simp only [List.count_append, List.count_cons, List.count_nil]
  omega

/-- A form that puts a constant and the operand of its only child together. -/
theorem paired_named {c : NodeId} (hc : ∀ n ∈ [c], s.tree.Connected top n) (k : Constant)
    (form : Operand → Operand → Operand) :
    Paired s.tree w
      (do
        let n ← Lower.intern (constantFromTable k)
        let o ← self'.expression c
        return form n o)
      (do
        let n ← Lower.intern (constantFromTable k)
        let o ← self.expression c
        return form n o)
      (s.tree.Defines [c]) (Same fun _ => True) :=
  (paired_constant hlax k).bind fun _ _ => (h.expression (hc c List.mem_cons_self)).bind
    fun _ _ => Paired.same trivial

/-- The lowering of an expression that defines nothing itself, before its code is checked. -/
theorem paired_form (hg : Grounded w s False top) (hw : w.lined) (hid : s.tree.Connected top id)
    {e : Expr} (hkind : s.tree.kind id = .expr e) (hfunction : ∀ f, e ≠ .function f)
    (hclass : ∀ c, e ≠ .classBody c) :
    Paired s.tree w (expressionForm (s.tracing b) self' id e) (expressionForm s self id e)
      (s.tree.Defines e.children) (Same fun _ => True) := by
  have hc : ∀ c ∈ e.children, s.tree.Connected top c := fun c hmem =>
    hid.child (by rwa [Tree.children, hkind])
  cases e with
  | variableRef name binding =>
      exact (paired_boundVariable hg hid).bind fun _ _ => Paired.same trivial
  | temporaryRef binding =>
      exact (paired_boundVariable hg hid).bind fun _ _ => Paired.same trivial
  | constant value => exact Paired.internedAny (interned_constantAccess value)
  | operation operator operands => exact paired_operands h hc _
  | disjunction operands => exact paired_operands h hc _
  | conjunction operands => exact paired_operands h hc _
  | comparison comparator left right => exact paired_binary h hc _
  | conditional condition yes no =>
      obtain ⟨hcondition, hbranches⟩ := List.forall_mem_cons.mp hc
      exact (h.condition false hcondition).bind fun _ _ => paired_binary h hbranches _
  | makeTuple elements => exact paired_tuple h hc
  | makeList elements => exact paired_list h hc
  | makeSet elements => exact paired_set h hc
  | makeDict pairs => exact paired_dict h hc
  | call callee positional named starList starDict =>
      simp only [Expr.children, List.forall_mem_append, List.forall_mem_cons,
        Option.mem_toList] at hc
      obtain ⟨⟨⟨⟨hcallee, hpositional⟩, hnamed⟩, hlist⟩, hdict⟩ := hc
      rw [expressionForm_call, expressionForm_call]
      refine ((h.expression hcallee).bind fun _ _ => (paired_positionalTuple h hpositional).bind
        fun _ _ => (paired_namedArguments h hnamed).bind fun _ _ => (paired_optional h hlist).bind
          fun _ _ => (paired_optional h hdict).bind fun _ _ => Paired.same trivial).list ?_
      simp [Expr.children]
  | attributeOf source name => exact paired_named hlax h hc _ _
  | specialAttributeOf source name => exact paired_named hlax h hc _ _
  | subscript source index => exact paired_binary h hc _
  | slice source lower upper =>
      simp only [Expr.children, List.cons_append, List.forall_mem_cons, List.forall_mem_append,
        Option.mem_toList] at hc
      obtain ⟨hsource, hlower, hupper⟩ := hc
      exact paired_sliceLookup h hsource hlower hupper
  | sliceObject lower upper step => exact paired_optionals h hc _
  | function f => exact absurd rfl (hfunction f)
  | functionDefaulted definition defaults =>
      exact paired_functionObject hg hlax hw h (hc definition (by simp [Expr.children]))
        fun c hmem => hc c (List.mem_append_left _ hmem)
  | classBody c => exact absurd rfl (hclass c)
  | classBased classNode bases =>
      exact paired_classObject hg hlax hw h (hc classNode (by simp [Expr.children]))
        fun c hmem => hc c (List.mem_append_left _ hmem)
  | yield value forReturn => exact paired_unary h hc _
  | importModule name names level =>
      exact (paired_importLocals hg.codeName _).bind fun _ _ => (paired_constant hlax _).bind
        fun _ _ => (paired_constant hlax _).bind fun _ _ => (paired_constant hlax _).bind
          fun _ _ => Paired.same trivial
  | builtinImport name fromList inGlobals inLocals level =>
      exact paired_builtinImport hlax h hg.codeName hc
  | importName source name => exact paired_named hlax h hc _ _
  | range low high step =>
      simp only [Expr.children, List.forall_mem_append, List.forall_mem_cons,
        Option.mem_toList] at hc
      obtain ⟨⟨hlow, hhigh⟩, hstep⟩ := hc
      refine ((h.expression hlow).bind fun _ _ => (paired_optional h hhigh).bind fun _ _ =>
        (paired_optional h hstep).bind fun _ _ => Paired.same trivial).list ?_
      simp [Expr.children]
  | globals => exact Paired.same trivial
  | locals => exact paired_localsAt hg.codeName
  | dir =>
      exact paired_scopeOf.bind fun _ _ =>
        Paired.internedAny (interned_dirList hg.codeName False.elim)
  | unaryBuiltin fn value => exact paired_unary h hc _
  | iterWithSentinel callable sentinel => exact paired_binary h hc _
  | nextWithDefault iterator default => exact paired_binary h hc _
  | typeOfThree name bases namespaceDict =>
      exact paired_ternary h hc fun _ _ _ =>
        Paired.internedAny (interned_typeOfThree s.moduleName False.elim False.elim False.elim)
  | integer kind value base =>
      simp only [Expr.children, List.forall_mem_append, Option.mem_toList] at hc
      refine Paired.ite (fun _ => Paired.fail_bind _ _) fun _ => ?_
      obtain ⟨hvalue, hbase⟩ := hc
      refine ((paired_optional h hvalue).bind fun _ _ => (paired_optional h hbase).bind fun _ _ =>
        Paired.same trivial).list ?_
      simp [Expr.children]
  | dict positional named =>
      simp only [Expr.children, List.forall_mem_append, Option.mem_toList] at hc
      obtain ⟨hpositional, hnamed⟩ := hc
      refine ((paired_optional h hpositional).bind fun _ _ => (paired_namedArguments h hnamed).bind
        fun _ _ => Paired.same trivial).list ?_
      simp [Expr.children]
  | openFile filename mode buffering => exact paired_optionals h hc _
  | eval mode source inGlobals inLocals =>
      exact ((paired_evalParts hlax h mode hc).bind fun _ _ => Paired.same trivial).list
        (List.append_nil _)
  | raise exceptionType value sideEffects =>
      simp only [Expr.children, List.forall_mem_append, List.forall_mem_cons,
        Option.mem_toList] at hc
      obtain ⟨heffects, htype, hvalue⟩ := hc
      refine ((paired_expressions h heffects).bind fun _ _ => (h.expression htype).bind fun _ _ =>
        (paired_optional h hvalue).bind fun _ _ => Paired.same trivial).list ?_
      simp [Expr.children]
  | makeException name arguments =>
      have hname : Named w name := named_of_mem_names hg hid hkind List.mem_cons_self
      exact ((paired_expressions h hc).bind fun _ _ => Paired.internedAny
        (interned_exceptionCreation hname False.elim)).list (List.append_nil _)
  | builtin name => exact Paired.internedAny (interned_builtinReference name)
  | anonymousBuiltin name => exact Paired.same trivial
  | exception name => exact Paired.same trivial
  | assignment target source =>
      exact (h.expression (hc source (by simp [Expr.children]))).bind fun _ _ =>
        (paired_target hg (hc target (by simp [Expr.children]))).bind fun _ _ => Paired.same trivial
  | caught part => exact Paired.same trivial
  | listAppend list value => exact paired_binary h hc _
  | setAdd set value => exact paired_binary h hc _
  | dictSet target key value =>
      exact paired_ternary h hc fun _ _ _ => Paired.same trivial
  | unpackNext iterator count => exact paired_unary h hc _

/-- The lowering of an expression, before its code is checked; a definition counts for itself. -/
theorem paired_expressionForm (hg : Grounded w s False top) (hw : w.lined)
    (hid : s.tree.Connected top id) {e : Expr} (hkind : s.tree.kind id = .expr e) :
    Paired s.tree w (expressionForm (s.tracing b) self' id e) (expressionForm s self id e)
      (s.tree.Defines [id]) (Same fun _ => True) := by
  cases he : e with
  | function f => exact paired_functionObject hg hlax hw h hid fun _ hc => nomatch hc
  | classBody c => exact paired_classObject hg hlax hw h hid fun _ hc => nomatch hc
  | _ =>
      rw [← he]
      refine Paired.node ?_ (isDefinition_eq_false hkind ?_ ?_)
      · rw [lowered_expr hkind]
        exact paired_form hlax h hg hw hid hkind (by simp [he]) (by simp [he])
      · simp [he]
      · simp [he]

theorem paired_expression (hg : Grounded w s False top) (hw : w.lined)
    (hid : s.tree.Connected top id) :
    Paired s.tree w (expression (s.tracing b) self' id) (expression s self id)
      (s.tree.Defines [id]) (Same fun _ => True) := by
  cases he : s.tree.expr? id with
  | none =>
      unfold expression
      rw [show (s.tracing b).tree.expr? id = none from he, he]
      exact Paired.fail _ _
  | some e =>
      unfold expression
      rw [show (s.tracing b).tree.expr? id = some e from he, he]
      refine ((paired_expressionForm hlax h hg hw hid (Tree.expr?_eq_some_iff.mp he)).bind
        (m := []) fun o _ => ?_).list (List.append_nil _)
      split
      · exact Paired.fail _ _
      · exact Paired.same trivial

end

/-- A condition that falls back to its expression comes to the same node again. -/
theorem paired_condition (h : self'.Pairs s w top self) (hid : s.tree.Connected top id)
    (inverted : Bool) :
    Paired s.tree w (condition s.tree self' id inverted) (condition s.tree self id inverted)
      (s.tree.Defines [id]) (Same fun _ => True) := by
  have hc : ∀ c ∈ s.tree.children id, s.tree.Connected top c := fun c hmem => hid.child hmem
  have hfall : Paired s.tree w
      (do
        let o ← self'.expression id
        return truthTest inverted o)
      (do
        let o ← self.expression id
        return truthTest inverted o)
      (s.tree.Defines [id]) (Same fun _ => True) :=
    (h.expression hid).bind fun _ _ => Paired.same trivial
  have hslots : ∀ {e : Expr} {step' step : Lower String}, s.tree.kind id = .expr e →
      (∀ f, e ≠ .function f) → (∀ c, e ≠ .classBody c) →
      Paired s.tree w step' step (s.tree.Defines e.children) (Same fun _ => True) →
      Paired s.tree w step' step (s.tree.Defines [id]) (Same fun _ => True) := by
    intro e step' step hkind hfunction hclass hs
    refine Paired.node ?_ (isDefinition_eq_false hkind hfunction hclass)
    rwa [lowered_expr hkind]
  unfold condition
  rw [Tree.children] at hc
  split
  next value hkind =>
    exact hslots hkind (fun _ h => Expr.noConfusion h) (fun _ h => Expr.noConfusion h)
      (Paired.same trivial)
  next comparator left right hkind =>
    rw [hkind] at hc
    exact hslots hkind (fun _ h => Expr.noConfusion h) (fun _ h => Expr.noConfusion h)
      ((h.expression (hc left (by simp [NodeKind.children, Expr.children]))).bind fun _ _ =>
        (h.expression (hc right (by simp [NodeKind.children, Expr.children]))).bind fun _ _ =>
          Paired.same trivial)
  next operands hkind =>
    rw [hkind] at hc
    exact hslots hkind (fun _ h => Expr.noConfusion h) (fun _ h => Expr.noConfusion h)
      (((paired_conditions h hc).bind fun _ _ => Paired.same trivial).list (List.append_nil _))
  next operands hkind =>
    rw [hkind] at hc
    exact hslots hkind (fun _ h => Expr.noConfusion h) (fun _ h => Expr.noConfusion h)
      (((paired_conditions h hc).bind fun _ _ => Paired.same trivial).list (List.append_nil _))
  next operand hkind =>
    rw [hkind] at hc
    exact hslots hkind (fun _ h => Expr.noConfusion h) (fun _ h => Expr.noConfusion h)
      ((h.condition (!inverted) (hc operand (by simp [NodeKind.children, Expr.children]))).imp
        fun _ _ hterm => ⟨hterm.1, trivial⟩)
  next => exact hfall

end Lowering
end CompilerBackend
