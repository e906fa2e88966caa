import CompilerBackend.Proofs.Lowering.Accounts
import CompilerBackend.Proofs.Lowering.Expressions
import CompilerBackend.Proofs.Lowering.Requests
/-!
# What expressions ask for

The lowering of an expression asks for what the tree says, given that the lowering of its parts
does. What a step asks for itself and the uses it goes on to are kept apart, each in the order of
the steps.

- `Draws`: the judgement on steps with the two lists; `draws_use_iff` takes a use apart.
- `Lowerer.Asks`: what is assumed of the lowering of parts.
- `draws_expressionForm`: one case for each kind of expression.
-/

namespace CompilerBackend

open Target

/-- What is asked for, and all that the uses come to ask for. -/
def Setting.Demand (s : Setting) (asks : List Request) (parts : List Usage) : Set Request :=
  {r | r ∈ asks} ∪ s.AllRequests parts

def Draws (s : Setting) {α : Type} (step : Lower α) (asks : List Request) (parts : List Usage)
    (Q : α → Prop) : Prop := Accounts step (s.Demand asks parts) Q

namespace Draws

variable {s : Setting} {α β : Type} {step : Lower α} {asks l : List Request}
  {parts m : List Usage} {u : Usage} {Q : α → Prop}

theorem mem_demand_iff {r : Request} :
    r ∈ s.Demand asks parts ↔ r ∈ asks ∨ ∃ u ∈ parts, r ∈ s.Requests u := Iff.rfl

/-! ## Rules -/

theorem pure {a : α} (h : Q a) : Draws s (Pure.pure a : Lower α) [] [] Q := by
  refine (Accounts.pure h).congr ?_
  ext r
  simp [mem_demand_iff]

theorem fail (t : Tree) (id : NodeId) (cause : Cause) :
    Draws s (Lower.fail t id cause : Lower α) asks parts Q := Accounts.fail t id cause

theorem fail_bind {R : β → Prop} (t : Tree) (id : NodeId) (cause : Cause) (next : α → Lower β) :
    Draws s (Lower.fail t id cause >>= next) asks parts R := Accounts.fail_bind t id cause next

theorem bind {next : α → Lower β} {R : β → Prop}
    (hs : Draws s step asks parts Q) (hn : ∀ a, Q a → Draws s (next a) l m R) :
    Draws s (step >>= next) (asks ++ l) (parts ++ m) R := by
  refine (Accounts.bind hs hn).congr ?_
  ext r
  simp only [Set.mem_union, mem_demand_iff, List.mem_append, or_and_right, exists_or]
  exact or_or_or_comm

/-- The two lists matter as sets. -/
theorem reorder (hs : Draws s step asks parts Q) (hasks : ∀ r, r ∈ asks ↔ r ∈ l)
    (hparts : ∀ u, u ∈ parts ↔ u ∈ m) : Draws s step l m Q := by
  refine Accounts.congr hs ?_
  ext r
  simp only [mem_demand_iff, hasks, hparts]

theorem lists (hs : Draws s step asks parts Q) (hasks : asks = l) (hparts : parts = m) :
    Draws s step l m Q := hasks ▸ hparts ▸ hs

/-- Going on to a use is asking for what it asks and going on to its parts. -/
theorem cons_use_iff : Draws s step asks (u :: parts) Q ↔
    Draws s step (asks ++ s.asks u) (s.parts u ++ parts) Q := by
  have heq : s.Demand asks (u :: parts) = s.Demand (asks ++ s.asks u) (s.parts u ++ parts) := by
    ext r
    simp only [mem_demand_iff, List.mem_append, List.mem_cons, or_and_right, exists_or,
      exists_eq_left, Setting.mem_requests_iff (u := u)]
    rw [or_assoc, or_assoc]
    rfl
  rw [Draws, heq]
  rfl

theorem use_iff : Draws s step [] [u] Q ↔ Draws s step (s.asks u) (s.parts u) Q := by
  rw [cons_use_iff, List.append_nil, List.nil_append]

theorem request {r : Request} (hs : Accounts step {r} Q) : Draws s step [r] [] Q := by
  refine hs.congr ?_
  ext r
  simp [mem_demand_iff]

theorem quiet (hs : Accounts step ∅ Q) : Draws s step [] [] Q := by
  refine hs.congr ?_
  ext r
  simp [mem_demand_iff]

theorem onScopes (change : ScopeStack → α × ScopeStack) :
    Draws s (Lower.onScopes change) [] [] fun _ => True := quiet (Accounts.onScopes change)

theorem inScope (hs : Draws s step asks parts Q) (kind : ScopeKind) :
    Draws s (Lower.inScope kind step) asks parts Q := Accounts.inScope hs kind

theorem within (hs : Draws s step asks parts Q) (place : PathStep) :
    Draws s (Lower.within place step) asks parts Q := Accounts.within hs place

/-! ## Steps on the program -/

theorem intern_pure (a : α) : Draws s (Lower.intern (Pure.pure a)) [] [] fun _ => True :=
  Draws.pure trivial

/-- A step on the program that ends with a result made of that of another. -/
theorem intern_map {first : Interning α} {f : α → β}
    (hs : Draws s (Lower.intern first) asks parts Q) :
    Draws s (Lower.intern (do return f (← first))) asks parts fun _ => True := by
  rw [Accounts.intern_bind]
  exact (hs.bind fun a _ => Draws.pure trivial).lists (List.append_nil _) (List.append_nil _)

theorem intern_handleOf (c : Constant) :
    Draws s (Lower.intern (handleOf c)) [.constant c] [] fun _ => True :=
  request (Accounts.handleOf c)

theorem intern_handleOfText (text : String) :
    Draws s (Lower.intern (handleOfText text)) [.text text] [] fun _ => True :=
  request (Accounts.handleOfText text)

theorem intern_mapM {first : α → Interning β} {r : α → Request} {l : List α}
    (hs : ∀ a, Draws s (Lower.intern (first a)) [r a] [] fun _ => True) :
    Draws s (Lower.intern (l.mapM first)) (l.map r) [] fun _ => True := by
  induction l with
  | nil =>
      rw [List.mapM_nil]
      exact intern_pure []
  | cons a l ih =>
      rw [List.mapM_cons, Accounts.intern_bind]
      refine ((hs a).bind (l := l.map r) (m := []) fun b _ => ?_).lists rfl rfl
      exact ih.intern_map

theorem intern_constantFromTable (c : Constant) :
    Draws s (Lower.intern (constantFromTable c)) [.constant c] [] fun _ => True :=
  (intern_handleOf c).intern_map

theorem intern_constantAccess (c : Constant) :
    Draws s (Lower.intern (constantAccess c)) c.accessAsks [] fun _ => True := by
  cases c with
  | none => exact intern_pure _
  | ellipsis => exact intern_pure _
  | bool b => cases b <;> exact intern_pure _
  | _ => exact intern_constantFromTable _

theorem intern_tupleCreation (os : List Operand) :
    Draws s (Lower.intern (tupleCreation os)) [.tuple os.length] [] fun _ => True :=
  (request (Accounts.recordTuple os.length)).intern_map

theorem intern_listCreation (os : List Operand) :
    Draws s (Lower.intern (listCreation os)) [.list os.length] [] fun _ => True :=
  (request (Accounts.recordList os.length)).intern_map

theorem intern_dictCreation (ks vs : List Operand) :
    Draws s (Lower.intern (dictCreation ks vs)) [.dict ks.length] [] fun _ => True := by
  unfold dictCreation
  rw [Accounts.intern_bind]
  refine ((request (Accounts.recordDict ks.length)).bind (l := []) (m := [])
    fun _ _ => ?_).lists rfl rfl
  dsimp only
  split <;> exact intern_pure _

theorem intern_exceptionCreation (name : String) (os : List Operand) :
    Draws s (Lower.intern (exceptionCreation name os))
      (if os.isEmpty then [] else [.tuple os.length]) [] fun _ => True := by
  unfold exceptionCreation
  dsimp only
  split
  · exact intern_pure _
  · exact (intern_tupleCreation os).intern_map

/-- A copy of the locals names them, live locals do not. -/
theorem intern_localsDict (codeName : String) (p : Provider) (mode : LocalsMode) :
    Draws s (Lower.intern (localsDict codeName p mode))
      (if mode = .copy then p.copyAsks else []) [] fun _ => True := by
  have hentry : ∀ v : Variable, Draws s (Lower.intern (localEntry v)) [.text v.name] []
      fun _ => True := fun v => (intern_handleOfText v.name).intern_map
  cases mode with
  | live => cases p <;> exact intern_pure _
  | copy =>
      cases p with
      | module _ => exact intern_pure _
      | classBody _ => exact intern_pure _
      | function f =>
          change Draws s (Lower.intern ((f.parameters.all ++ f.userVariables).mapM localEntry >>=
            fun entries => _)) _ _ _
          rw [Accounts.intern_bind]
          refine ((intern_mapM hentry).bind (l := []) (m := []) fun entries _ => ?_).lists
            (List.append_nil _) rfl
          split <;> exact intern_pure _

theorem intern_dirList (codeName : String) (p : Provider) :
    Draws s (Lower.intern (dirList codeName p)) p.copyAsks [] fun _ => True :=
  (intern_localsDict codeName p .copy).intern_map

end Draws

/-! ## Parts -/

/-- A lowering that asks for what the tree says of uses. -/
structure Lowerer.Asks (s : Setting) (lowerer : Lowerer) : Prop where
  expression : ∀ id, Draws s (lowerer.expression id) [] [(.operand, id)] fun _ => True
  condition : ∀ id inverted, Draws s (lowerer.condition id inverted) [] [(.condition, id)]
    fun _ => True
  sequence : ∀ id, Draws s (lowerer.sequence id) [] [(.lines, id)] fun _ => True

namespace Lowering

variable {s : Setting} {self : Lowerer} {id : NodeId} {ids : List NodeId} {o : Option NodeId}

theorem draws_optional (h : self.Asks s) :
    Draws s (self.optional o) [] (operands o.toList) fun r => r.isSome = o.isSome := by
  cases o with
  | none => exact Draws.pure rfl
  | some id => exact (h.expression id).bind fun _ _ => Draws.pure rfl

theorem draws_expressions (h : self.Asks s) :
    Draws s (self.expressions ids) [] (operands ids) fun os => os.length = ids.length := by
  induction ids with
  | nil => exact Draws.pure rfl
  | cons id ids ih =>
      refine ((h.expression id).bind fun _ _ => ih.bind fun os hos => Draws.pure ?_).lists rfl ?_
      · rw [List.length_cons, List.length_cons, hos]
      · simp [operands]

theorem draws_optionalSequence (h : self.Asks s) :
    Draws s (self.optionalSequence o) [] (o.toList.map (Use.lines, ·)) fun _ => True := by
  cases o with
  | none => exact Draws.pure trivial
  | some id => exact (h.sequence id).bind fun _ _ => Draws.pure trivial

theorem draws_conditions (h : self.Asks s) :
    Draws s (conditions self ids) [] (ids.map (Use.condition, ·)) fun _ => True := by
  induction ids with
  | nil => exact Draws.pure trivial
  | cons id ids ih =>
      refine ((h.condition id false).bind fun _ _ => ih.bind fun _ _ => Draws.pure trivial).lists
        rfl ?_
      simp

theorem draws_orConstant (h : self.Asks s) (c : Constant) :
    Draws s (orConstant self o c) (if o.isSome then [] else [.constant c]) (operands o.toList)
      fun _ => True := by
  cases o with
  | none => exact Draws.intern_constantFromTable c
  | some id => exact h.expression id

theorem draws_boundVariable : Draws s (boundVariable s.tree id) [] [] fun _ => True := by
  rcases boundVariable_cases s.tree id with ⟨e, v, -, -, heq⟩ | ⟨-, cause, heq⟩
  · rw [heq]
    exact Draws.pure trivial
  · rw [heq]
    exact Draws.fail _ _ _

theorem draws_scopeOf : Draws s (scopeOf s.tree id) [] [] fun p => s.tree.scope? id = some p := by
  unfold scopeOf
  split
  next p hp => exact Draws.pure hp
  next => exact Draws.fail _ _ _

theorem draws_localsAt : Draws s (localsAt s id) (s.localsAsks id) [] fun _ => True := by
  refine (draws_scopeOf.bind (l := s.localsAsks id) (m := []) fun p hp => ?_).lists rfl rfl
  refine (Draws.intern_localsDict s.codeName p _).lists ?_ rfl
  rw [Setting.localsAsks, hp]
  cases hlive : p.hasLiveLocals <;> simp [Provider.localsAsks, hlive]

/-- A module's locals are its globals, which need no names. -/
theorem draws_importLocals (globals : Operand) :
    Draws s (importLocals s id globals) (s.localsAsks id) [] fun _ => True := by
  refine (draws_scopeOf.bind (l := s.localsAsks id) (m := []) fun p hp => ?_).lists rfl rfl
  split
  next hmodule =>
    refine (Draws.pure trivial).lists ?_ rfl
    rw [Setting.localsAsks, hp]
    cases p with
    | module m => rfl
    | _ => exact nomatch hmodule
  next => exact draws_localsAt

/-! ## Containers -/

/-- Immutable constants ask, as operands, for no more than their own handles. -/
theorem draws_container (h : self.Asks s) {fold : List Constant → Constant}
    {build : List Operand → Interning Operand} {asks : List Request}
    (hbuild : ∀ os : List Operand, os.length = ids.length →
      Draws s (Lower.intern (build os)) asks [] fun _ => True) :
    Draws s (container s.tree self fold build ids) (s.tree.containerAsks fold asks ids)
      (s.tree.containerParts ids) fun _ => True := by
  unfold container Tree.containerAsks Tree.containerParts
  cases immutableConstants? s.tree ids with
  | some cs => exact Draws.intern_constantFromTable _
  | none => exact ((draws_expressions h).bind hbuild).lists rfl (List.append_nil _)

theorem draws_tuple (h : self.Asks s) :
    Draws s (tuple s.tree self ids) (s.tree.tupleAsks ids) (s.tree.containerParts ids)
      fun _ => True :=
  draws_container h fun os hos => hos ▸ Draws.intern_tupleCreation os

theorem draws_list (h : self.Asks s) :
    Draws s (list s.tree self ids) (s.tree.containerAsks .list [.list ids.length] ids)
      (s.tree.containerParts ids) fun _ => True :=
  draws_container h fun os hos => hos ▸ Draws.intern_listCreation os

theorem draws_set (h : self.Asks s) :
    Draws s (set s.tree self ids) (s.tree.containerAsks .set [] ids) (s.tree.containerParts ids)
      fun _ => True :=
  draws_container h fun _ _ => Draws.intern_pure _

theorem draws_dict (h : self.Asks s) (pairs : List (NodeId × NodeId)) :
    Draws s (dict s.tree self pairs) (s.tree.dictAsks pairs) (s.tree.dictParts pairs)
      fun _ => True := by
  unfold dict Tree.dictAsks Tree.dictParts Tree.foldedDict?
  dsimp only
  split
  next ks vs hks hvs =>
    rw [hks, hvs]
    exact Draws.intern_constantFromTable _
  next hnot =>
    have hnone : (do
        let ks ← immutableConstants? s.tree (pairs.map (·.1))
        let vs ← immutableConstants? s.tree (pairs.map (·.2))
        return Constant.dict (ks.zip vs)) = none := by
      cases hks : immutableConstants? s.tree (pairs.map (·.1)) with
      | none => rfl
      | some ks =>
          cases hvs : immutableConstants? s.tree (pairs.map (·.2)) with
          | none => rfl
          | some vs => exact absurd hvs (hnot ks vs hks)
    rw [hnone]
    have hcreation : ∀ ks vs : List Operand, ks.length = (pairs.map (·.1)).length →
        Draws s (Lower.intern (Target.dictCreation ks vs)) [.dict pairs.length] [] fun _ => True := by
      intro ks vs hks
      rw [List.length_map] at hks
      rw [← hks]
      exact Draws.intern_dictCreation ks vs
    refine ((draws_expressions h).bind fun ks hks => (draws_expressions h).bind fun vs _ =>
      hcreation ks vs hks).lists rfl ?_
    simp [operands]

theorem draws_namedArguments (h : self.Asks s) (pairs : List (NodeId × NodeId)) :
    Draws s (namedArguments s.tree self pairs) (s.tree.namedAsks pairs) (s.tree.namedParts pairs)
      fun _ => True := by
  unfold namedArguments Tree.namedAsks Tree.namedParts
  split
  · exact Draws.pure trivial
  · exact ((draws_dict h pairs).bind fun _ _ => Draws.pure trivial).lists (List.append_nil _)
      (List.append_nil _)

theorem draws_positionalTuple (h : self.Asks s) :
    Draws s (positionalTuple s.tree self ids) (s.tree.positionalAsks ids)
      (s.tree.containerParts ids) fun _ => True := by
  unfold positionalTuple Tree.positionalAsks
  split
  next hnil =>
    rw [List.isEmpty_iff.mp hnil]
    exact Draws.pure trivial
  next =>
    rw [← bind_pure_comp]
    exact ((draws_tuple h).bind fun _ _ => Draws.pure trivial).lists (List.append_nil _)
      (List.append_nil _)

/-! ## Slices -/

section

variable {lower upper : Option NodeId}

/-- A native bound asks for nothing. -/
theorem draws_bound (absent : String) (ho : isNativeBound s.tree o = true) :
    Draws s (bound s.tree self o absent) [] [] fun _ => True := by
  unfold bound
  cases o with
  | none => exact Draws.pure trivial
  | some id =>
      have hindex : ((s.tree.constant? id).bind Constant.smallIndex?).isSome = true := ho
      obtain ⟨value, hvalue⟩ := Option.isSome_iff_exists.mp hindex
      dsimp only
      rw [hvalue]
      exact Draws.pure trivial

theorem draws_bounds (hnative : hasNativeBounds s lower upper = true) :
    Draws s (bounds s.tree self lower upper) [] (s.boundParts lower upper) fun _ => True := by
  rw [Setting.boundParts, if_pos hnative]
  rw [hasNativeBounds, Bool.and_eq_true, Bool.and_eq_true] at hnative
  exact (draws_bound _ hnative.1.2).bind fun _ _ => (draws_bound _ hnative.2).bind fun _ _ =>
    Draws.pure trivial

theorem draws_boundObjects (h : self.Asks s) (hnative : ¬ hasNativeBounds s lower upper = true) :
    Draws s (boundObjects self lower upper) [] (s.boundParts lower upper) fun _ => True := by
  rw [Setting.boundParts, if_neg hnative]
  refine ((draws_optional h).bind fun _ _ => (draws_optional h).bind fun _ _ =>
    Draws.pure trivial).lists rfl ?_
  simp [operands]

theorem draws_sliceObject (h : self.Asks s) (hnative : ¬ hasNativeBounds s lower upper = true) :
    Draws s (sliceObject self lower upper) [] (s.boundParts lower upper) fun _ => True :=
  ((draws_boundObjects h hnative).bind fun _ _ => Draws.pure trivial).lists rfl
    (List.append_nil _)

/-- The object and its bounds, however these are lowered. -/
theorem draws_sliced (h : self.Asks s) {α : Type} {next : Operand → Lower α}
    (hnext : ∀ source, Draws s (next source) [] (s.boundParts lower upper) fun _ => True) :
    Draws s (self.expression id >>= next) [] ((.operand, id) :: s.boundParts lower upper)
      fun _ => True := (h.expression id).bind fun source _ => hnext source

theorem draws_sliceLookup (h : self.Asks s) :
    Draws s (sliceLookup s self id lower upper) [] ((.operand, id) :: s.boundParts lower upper)
      fun _ => True := by
  refine draws_sliced h fun source => ?_
  split
  next hnative =>
    exact ((draws_bounds hnative).bind fun _ _ => Draws.pure trivial).lists rfl (List.append_nil _)
  next hnative =>
    split
    · exact ((draws_boundObjects h hnative).bind fun _ _ => Draws.pure trivial).lists rfl
        (List.append_nil _)
    · exact ((draws_sliceObject h hnative).bind fun _ _ => Draws.pure trivial).lists rfl
        (List.append_nil _)

theorem draws_sliceAssignment (h : self.Asks s) (value : Operand) :
    Draws s (sliceAssignment s self id lower upper value) []
      ((.operand, id) :: s.boundParts lower upper) fun _ => True := by
  refine draws_sliced h fun source => ?_
  split
  next hnative =>
    exact ((draws_bounds hnative).bind fun _ _ => Draws.pure trivial).lists rfl (List.append_nil _)
  next hnative =>
    split
    · exact ((draws_boundObjects h hnative).bind fun _ _ => Draws.pure trivial).lists rfl
        (List.append_nil _)
    · exact ((draws_sliceObject h hnative).bind fun _ _ => Draws.pure trivial).lists rfl
        (List.append_nil _)

theorem draws_sliceDeletion (h : self.Asks s) :
    Draws s (sliceDeletion s self id lower upper) [] ((.operand, id) :: s.boundParts lower upper)
      fun _ => True := by
  refine draws_sliced h fun source => ?_
  split
  next hnative =>
    exact ((draws_bounds hnative).bind fun _ _ => Draws.pure trivial).lists rfl (List.append_nil _)
  next hnative =>
    exact ((draws_sliceObject h hnative).bind fun _ _ => Draws.pure trivial).lists rfl
      (List.append_nil _)

end

/-! ## Definitions -/

theorem requests_operand {e : Expr} (hkind : s.tree.kind id = .expr e) :
    s.asks (.operand, id) = s.expressionAsks id e ∧ s.parts (.operand, id) = s.expressionParts e := by
  simp [Setting.asks, Setting.parts, Tree.expr?_eq_some_iff.mpr hkind]

/-- A default value asks for the same, whether it is computed or read from the table. -/
theorem draws_constantDefault {c : Constant} (hc : immutableConstant? s.tree id = some c) :
    Draws s (Lower.intern (constantAccess c)) [] [(.operand, id)] fun _ => True := by
  obtain ⟨hasks, hparts⟩ := requests_operand (s := s) (kind_of_immutableConstant? hc)
  rw [Draws.use_iff, hasks, hparts]
  exact Draws.intern_constantAccess c

theorem draws_defaultValues (h : self.Asks s) (defaults : List (NodeId × Variable)) :
    Draws s (defaultValues s.tree self defaults) [] (operands (defaults.map (·.1)))
      fun _ => True := by
  induction defaults with
  | nil => exact Draws.pure trivial
  | cons d rest ih =>
      obtain ⟨id, v⟩ := d
      rw [defaultValues]
      split
      next c hc =>
        refine ((draws_constantDefault hc).bind fun _ _ => ih.bind fun _ _ =>
          Draws.pure trivial).lists rfl ?_
        simp [operands]
      next =>
        refine ((h.expression id).bind fun _ _ => ih.bind fun _ _ => Draws.pure trivial).lists rfl ?_
        simp [operands]

theorem intern_functionCode (f : FunctionBody) (place : Location) (accesses : List Operand)
    (codes : List String) :
    Draws s (Lower.intern (functionCode s.codeName f place accesses codes)) f.asks []
      fun _ => True := by
  have hparameter : ∀ v : Variable, Draws s (Lower.intern (parameterLine v)) [.text v.name] []
      fun _ => True := fun v => (Draws.intern_handleOfText v.name).intern_map
  have hvariable : ∀ v : Variable, Draws s (Lower.intern (variableLine v)) [.text v.name] []
      fun _ => True := fun v => (Draws.intern_handleOfText v.name).intern_map
  unfold functionCode
  rw [Accounts.intern_bind]
  refine ((Draws.intern_handleOfText f.name).bind fun handle _ => ?_).lists
    (l := f.asks) (m := []) (List.singleton_append) rfl
  dsimp only
  rw [Accounts.intern_bind]
  refine ((Draws.intern_mapM hparameter).bind fun declared _ => ?_).lists
    (List.map_append).symm rfl
  exact (Draws.intern_mapM hvariable).intern_map

theorem intern_classCode (c : ClassBody) (place : Location) (codes : List String) :
    Draws s (Lower.intern (classCode s.moduleName c place codes))
      (.text s.moduleName :: (c.classVariables.map fun v => .text v.name) ++ c.doc.toList.map .text)
      [] fun _ => True := by
  have hvariable : ∀ v : Variable, Draws s (Lower.intern (variableLine v)) [.text v.name] []
      fun _ => True := fun v => (Draws.intern_handleOfText v.name).intern_map
  have hdoc : ∀ doc : String, Draws s (Lower.intern (classDocLine doc)) [.text doc] []
      fun _ => True := fun doc => (Draws.intern_handleOfText doc).intern_map
  unfold classCode
  rw [Accounts.intern_bind]
  refine ((Draws.intern_handleOfText s.moduleName).bind fun handle _ => ?_).lists
    (List.singleton_append) rfl
  rw [Accounts.intern_bind]
  exact (Draws.intern_mapM hvariable).bind fun locals _ => (Draws.intern_mapM hdoc).intern_map

/-- The texts of a definition are registered without a request. -/
theorem draws_functionTexts (f : FunctionBody) (place : Location) (accesses values : List Operand)
    (codes : List String) :
    Draws s (do
      let code ← Lower.intern (functionCode s.codeName f place accesses codes)
      let declaration := functionDeclaration f.codeName values.length f.closureVariables
      Lower.onScopes fun scopes => ((), scopes.addFunction f.codeName ⟨declaration, code⟩)
      return functionCreation f.codeName values f.closureVariables) f.asks [] fun _ => True :=
  ((intern_functionCode f place accesses codes).bind fun _ _ => (Draws.onScopes _).bind fun _ _ =>
    Draws.pure trivial).lists (List.append_nil _) rfl

theorem draws_functionObject (h : self.Asks s) (defaults : List NodeId) :
    Draws s (functionObject s self id defaults) [] (operands defaults ++ [(.definition, id)])
      fun _ => True := by
  unfold functionObject
  split
  next f heq =>
    have hkind := Tree.expr?_eq_some_iff.mp heq
    dsimp only
    split
    next => exact Draws.fail_bind _ _ _ _
    next hlength =>
      have hfst : (defaults.zip f.parameters.defaulted).map (·.1) = defaults :=
        List.map_fst_zip (by simpa using Nat.le_of_eq (by simpa using hlength : _ = _).symm)
      have hdefinition : ∀ r : List Operand × List Operand, Draws s (do
          let codes ← Lower.inScope (.function f.codeName f.isGenerator)
            (self.optionalSequence f.body)
          let code ← Lower.intern
            (functionCode s.codeName f (s.tree.location id) r.1 (codes.getD []))
          let declaration := functionDeclaration f.codeName r.2.length f.closureVariables
          Lower.onScopes fun scopes => ((), scopes.addFunction f.codeName ⟨declaration, code⟩)
          return functionCreation f.codeName r.2 f.closureVariables) [] [(.definition, id)]
          fun _ => True := by
        intro r
        refine Draws.use_iff.mpr ?_
        have huse : s.asks (.definition, id) = f.asks ∧
            s.parts (.definition, id) = f.body.toList.map (Use.lines, ·) := by
          simp [Setting.asks, Setting.parts, hkind, Setting.definitionAsks, Setting.definitionParts]
        rw [huse.1, huse.2]
        exact (((draws_optionalSequence h).inScope _).bind fun codes _ =>
          draws_functionTexts f _ r.1 r.2 _).lists rfl (List.append_nil _)
      refine ((draws_defaultValues h _).bind fun r _ => hdefinition r).lists rfl ?_
      rw [hfst]
  next => exact Draws.fail _ _ _

theorem draws_classTexts (c : ClassBody) (bases : Operand) (place : Location) (codes : List String) :
    Draws s (do
      let body := codes ++ [returnStatement liveLocals]
      let creation ← Lower.intern
        (classCreation c.name bases (classDictCreation c.codeName c.closureVariables))
      let code ← Lower.intern (classCode s.moduleName c place body)
      let declaration := classDeclaration c.codeName c.closureVariables
      Lower.onScopes fun scopes => ((), scopes.addClass c.codeName ⟨declaration, code⟩)
      return creation) (c.asks s.moduleName) [] fun _ => True := by
  have hcreation : Draws s (Lower.intern
      (classCreation c.name bases (classDictCreation c.codeName c.closureVariables)))
      [.text c.name] [] fun _ => True := (Draws.intern_handleOfText c.name).intern_map
  refine (hcreation.bind fun _ _ => (intern_classCode c place _).bind fun _ _ =>
    (Draws.onScopes _).bind fun _ _ => Draws.pure trivial).lists ?_ rfl
  simp [ClassBody.asks]

theorem draws_classObject (h : self.Asks s) (bases : List NodeId) :
    Draws s (classObject s self id bases) (s.tree.tupleAsks bases)
      (s.tree.containerParts bases ++ [(.definition, id)]) fun _ => True := by
  unfold classObject
  split
  next c heq =>
    have hkind := Tree.expr?_eq_some_iff.mp heq
    have hdefinition : ∀ bases : Operand, Draws s (do
        let codes ← Lower.inScope (.classBody c.codeName c.name) (self.optionalSequence c.body)
        let body := codes.getD [] ++ [returnStatement liveLocals]
        let creation ← Lower.intern
          (classCreation c.name bases (classDictCreation c.codeName c.closureVariables))
        let code ← Lower.intern (classCode s.moduleName c (s.tree.location id) body)
        let declaration := classDeclaration c.codeName c.closureVariables
        Lower.onScopes fun scopes => ((), scopes.addClass c.codeName ⟨declaration, code⟩)
        return creation) [] [(.definition, id)] fun _ => True := by
      intro bases
      refine Draws.use_iff.mpr ?_
      have huse : s.asks (.definition, id) = c.asks s.moduleName ∧
          s.parts (.definition, id) = c.body.toList.map (Use.lines, ·) := by
        simp [Setting.asks, Setting.parts, hkind, Setting.definitionAsks, Setting.definitionParts]
      rw [huse.1, huse.2]
      exact (((draws_optionalSequence h).inScope _).bind fun codes _ =>
        draws_classTexts c bases _ _).lists rfl (List.append_nil _)
    exact ((draws_tuple h).bind fun bases _ => hdefinition bases).lists (List.append_nil _) rfl
  next => exact Draws.fail _ _ _

/-- A function without default values is lowered as its definition is. -/
theorem draws_functionExpression (h : self.Asks s) {f : FunctionBody}
    (hkind : s.tree.kind id = .expr (.function f)) :
    Draws s (functionObject s self id []) f.asks (f.body.toList.map (Use.lines, ·))
      fun _ => True := by
  have huse : s.asks (.definition, id) = f.asks ∧
      s.parts (.definition, id) = f.body.toList.map (Use.lines, ·) := by
    simp [Setting.asks, Setting.parts, hkind, Setting.definitionAsks, Setting.definitionParts]
  rw [← huse.1, ← huse.2]
  exact Draws.use_iff.mp (draws_functionObject h [])

theorem draws_classExpression (h : self.Asks s) {c : ClassBody}
    (hkind : s.tree.kind id = .expr (.classBody c)) :
    Draws s (classObject s self id []) (s.tree.tupleAsks [] ++ c.asks s.moduleName)
      (c.body.toList.map (Use.lines, ·)) fun _ => True := by
  have huse : s.asks (.definition, id) = c.asks s.moduleName ∧
      s.parts (.definition, id) = c.body.toList.map (Use.lines, ·) := by
    simp [Setting.asks, Setting.parts, hkind, Setting.definitionAsks, Setting.definitionParts]
  rw [← huse.1, ← huse.2]
  exact (Draws.cons_use_iff.mp (draws_classObject h [])).lists rfl (List.append_nil _)

/-! ## Forms -/

theorem draws_evalParts (h : self.Asks s) (mode : EvalMode) {source : NodeId}
    {inGlobals inLocals : Option NodeId} :
    Draws s (evalParts s.tree self id mode source inGlobals inLocals)
      (evalAsks mode inGlobals inLocals)
      (operands (source :: inGlobals.toList ++ inLocals.toList)) fun _ => True := by
  refine ((draws_orConstant h _).bind fun _ _ => (draws_orConstant h _).bind fun _ _ =>
    (Draws.intern_constantFromTable _).bind fun _ _ =>
      (Draws.intern_constantFromTable _).bind fun _ _ => (h.expression source).bind fun _ _ =>
        Draws.pure trivial).reorder (fun r => ?_) fun u => ?_
  · simp [evalAsks, Request.text]
  · simp only [operands_append, operands_cons, List.mem_append, List.mem_cons, List.not_mem_nil,
      or_false]
    tauto

/-- What is given for the scopes of an import comes first. -/
theorem draws_builtinImport (h : self.Asks s) {name : NodeId}
    {fromList inGlobals inLocals level : Option NodeId} :
    Draws s (expressionForm s self id (.builtinImport name fromList inGlobals inLocals level))
      (s.expressionAsks id (.builtinImport name fromList inGlobals inLocals level))
      (s.expressionParts (.builtinImport name fromList inGlobals inLocals level))
      fun _ => True := by
  rw [expressionForm_builtinImport]
  have hglobals : Draws s (orLowered self inGlobals (pure (globalsDict s.codeName))) []
      (operands inGlobals.toList) fun _ => True := by
    cases inGlobals with
    | none => exact Draws.pure trivial
    | some g => exact h.expression g
  have hlocals : ∀ globals : Operand, Draws s (orLowered self inLocals (importLocals s id globals))
      (if inLocals.isSome then [] else s.localsAsks id) (operands inLocals.toList)
      fun _ => True := by
    intro globals
    cases inLocals with
    | none => exact draws_importLocals globals
    | some l => exact h.expression l
  refine (hglobals.bind fun globals _ => (hlocals globals).bind fun _ _ =>
    (h.expression name).bind fun _ _ => (draws_orConstant h _).bind fun _ _ =>
      (draws_orConstant h _).bind fun _ _ => Draws.pure trivial).reorder (fun r => ?_) fun u => ?_
  · simp [Setting.expressionAsks]
  · simp only [Setting.expressionParts, Expr.children, operands_append, operands_cons,
      List.mem_append, List.mem_cons, List.not_mem_nil, or_false]
    tauto

/-- The lowering of an expression, before its code is checked. -/
theorem draws_expressionForm (h : self.Asks s) {e : Expr} (hkind : s.tree.kind id = .expr e) :
    Draws s (expressionForm s self id e) (s.expressionAsks id e) (s.expressionParts e)
      fun _ => True := by
  cases e with
  | variableRef name binding =>
      exact draws_boundVariable.bind fun _ _ => Draws.pure trivial
  | temporaryRef binding => exact draws_boundVariable.bind fun _ _ => Draws.pure trivial
  | constant value => exact Draws.intern_constantAccess value
  | operation operator operands =>
      exact ((draws_expressions h).bind fun _ _ => Draws.pure trivial).lists rfl
        (List.append_nil _)
  | disjunction operands =>
      exact ((draws_expressions h).bind fun _ _ => Draws.pure trivial).lists rfl
        (List.append_nil _)
  | conjunction operands =>
      exact ((draws_expressions h).bind fun _ _ => Draws.pure trivial).lists rfl
        (List.append_nil _)
  | comparison comparator left right =>
      exact (h.expression left).bind fun _ _ => (h.expression right).bind fun _ _ =>
        Draws.pure trivial
  | conditional condition yes no =>
      exact (h.condition condition false).bind fun _ _ => (h.expression yes).bind fun _ _ =>
        (h.expression no).bind fun _ _ => Draws.pure trivial
  | makeTuple elements => exact draws_tuple h
  | makeList elements => exact draws_list h
  | makeSet elements => exact draws_set h
  | makeDict pairs => exact draws_dict h pairs
  | call callee positional named starList starDict =>
      rw [expressionForm_call]
      refine ((h.expression callee).bind fun _ _ => (draws_positionalTuple h).bind fun _ _ =>
        (draws_namedArguments h named).bind fun _ _ => (draws_optional h).bind fun _ _ =>
          (draws_optional h).bind fun _ _ => Draws.pure trivial).lists ?_ ?_
      · simp [Setting.expressionAsks]
      · simp [Setting.expressionParts, operands]
  | attributeOf source name =>
      exact (Draws.intern_constantFromTable _).bind fun _ _ => (h.expression source).bind
        fun _ _ => Draws.pure trivial
  | specialAttributeOf source name =>
      exact (Draws.intern_constantFromTable _).bind fun _ _ => (h.expression source).bind
        fun _ _ => Draws.pure trivial
  | subscript source index =>
      exact (h.expression source).bind fun _ _ => (h.expression index).bind fun _ _ =>
        Draws.pure trivial
  | slice source lower upper => exact draws_sliceLookup h
  | sliceObject lower upper step =>
      refine ((draws_optional h).bind fun _ _ => (draws_optional h).bind fun _ _ =>
        (draws_optional h).bind fun _ _ => Draws.pure trivial).lists rfl ?_
      simp [Setting.expressionParts, Expr.children, operands]
  | function f => exact draws_functionExpression h hkind
  | functionDefaulted definition defaults => exact draws_functionObject h defaults
  | classBody c => exact draws_classExpression h hkind
  | classBased classNode bases => exact draws_classObject h bases
  | yield value forReturn =>
      exact (h.expression value).bind fun _ _ => Draws.pure trivial
  | importModule name names level =>
      exact (draws_importLocals _).bind fun _ _ => (Draws.intern_constantFromTable _).bind
        fun _ _ => (Draws.intern_constantFromTable _).bind fun _ _ =>
          (Draws.intern_constantFromTable _).bind fun _ _ => Draws.pure trivial
  | builtinImport name fromList inGlobals inLocals level => exact draws_builtinImport h
  | importName source name =>
      exact (Draws.intern_constantFromTable _).bind fun _ _ => (h.expression source).bind
        fun _ _ => Draws.pure trivial
  | range low high step =>
      refine ((h.expression low).bind fun _ _ => (draws_optional h).bind fun _ _ =>
        (draws_optional h).bind fun _ _ => Draws.pure trivial).lists rfl ?_
      simp [Setting.expressionParts, Expr.children, operands]
  | globals => exact Draws.pure trivial
  | locals => exact draws_localsAt
  | dir =>
      refine (draws_scopeOf.bind (l := s.expressionAsks id .dir) (m := []) fun p hp =>
        ?_).lists rfl rfl
      refine (Draws.intern_dirList s.codeName p).lists ?_ rfl
      simp [Setting.expressionAsks, hp]
  | unaryBuiltin fn value =>
      exact (h.expression value).bind fun _ _ => Draws.pure trivial
  | iterWithSentinel callable sentinel =>
      exact (h.expression callable).bind fun _ _ => (h.expression sentinel).bind fun _ _ =>
        Draws.pure trivial
  | nextWithDefault iterator default =>
      exact (h.expression iterator).bind fun _ _ => (h.expression default).bind fun _ _ =>
        Draws.pure trivial
  | typeOfThree name bases namespaceDict =>
      exact (h.expression name).bind fun _ _ => (h.expression bases).bind fun _ _ =>
        (h.expression namespaceDict).bind fun _ _ =>
          (Draws.intern_handleOfText s.moduleName).intern_map
  | integer kind value base =>
      rw [expressionForm]
      split
      · exact Draws.fail_bind _ _ _ _
      · refine ((draws_optional h).bind fun _ _ => (draws_optional h).bind fun _ _ =>
          Draws.pure trivial).lists rfl ?_
        simp [Setting.expressionParts, Expr.children, operands]
  | dict positional named =>
      refine ((draws_optional h).bind fun _ _ => (draws_namedArguments h named).bind fun _ _ =>
        Draws.pure trivial).lists ?_ ?_
      · simp [Setting.expressionAsks]
      · simp [Setting.expressionParts, operands]
  | openFile filename mode buffering =>
      refine ((draws_optional h).bind fun _ _ => (draws_optional h).bind fun _ _ =>
        (draws_optional h).bind fun _ _ => Draws.pure trivial).lists rfl ?_
      simp [Setting.expressionParts, Expr.children, operands]
  | eval mode source inGlobals inLocals =>
      exact ((draws_evalParts h mode).bind fun _ _ => Draws.pure trivial).lists
        (List.append_nil _) (List.append_nil _)
  | raise exceptionType value sideEffects =>
      refine ((draws_expressions h).bind fun _ _ => (h.expression exceptionType).bind fun _ _ =>
        (draws_optional h).bind fun _ _ => Draws.pure trivial).lists rfl ?_
      simp [Setting.expressionParts, Expr.children, operands]
  | makeException name arguments =>
      refine ((draws_expressions h).bind fun os hos => ?_).lists
        (l := s.expressionAsks id (.makeException name arguments)) rfl (List.append_nil _)
      have hempty : os.isEmpty = arguments.isEmpty := by
        rw [Bool.eq_iff_iff, List.isEmpty_iff_length_eq_zero, List.isEmpty_iff_length_eq_zero, hos]
      refine (Draws.intern_exceptionCreation name os).lists ?_ rfl
      rw [hempty, hos]
      rfl
  | builtin name => exact (Draws.intern_handleOfText name).intern_map
  | anonymousBuiltin name => exact Draws.pure trivial
  | exception name => exact Draws.pure trivial
  | assignment target source =>
      exact (h.expression source).bind fun _ _ => draws_boundVariable.bind fun _ _ =>
        Draws.pure trivial
  | caught part => exact Draws.pure trivial
  | listAppend list value =>
      exact (h.expression list).bind fun _ _ => (h.expression value).bind fun _ _ =>
        Draws.pure trivial
  | setAdd set value =>
      exact (h.expression set).bind fun _ _ => (h.expression value).bind fun _ _ =>
        Draws.pure trivial
  | dictSet target key value =>
      exact (h.expression target).bind fun _ _ => (h.expression value).bind fun _ _ =>
        (h.expression key).bind fun _ _ => Draws.pure trivial
  | unpackNext iterator count =>
      exact (h.expression iterator).bind fun _ _ => Draws.pure trivial

theorem draws_expression (h : self.Asks s) :
    Draws s (expression s self id) [] [(.operand, id)] fun _ => True := by
  unfold expression
  split
  next => exact Draws.fail _ _ _
  next e heq =>
    have hkind := Tree.expr?_eq_some_iff.mp heq
    obtain ⟨hasks, hparts⟩ := requests_operand (s := s) hkind
    rw [Draws.use_iff, hasks, hparts]
    refine ((draws_expressionForm h hkind).bind (l := []) (m := []) fun o _ => ?_).lists
      (List.append_nil _) (List.append_nil _)
    split
    · exact Draws.fail _ _ _
    · exact Draws.pure trivial

/-- The lowering of a condition may fall back to the expression of the same node (`hself`). -/
theorem draws_condition (h : self.Asks s) (inverted : Bool) :
    Draws s (condition s.tree self id inverted) [] [(.condition, id)] fun _ => True := by
  rw [Draws.use_iff]
  change Draws s _ [] (Setting.conditionParts id (s.tree.kind id)) _
  unfold condition
  split
  next value hkind =>
    rw [hkind]
    exact Draws.pure trivial
  next comparator left right hkind =>
    rw [hkind]
    exact (h.expression left).bind fun _ _ => (h.expression right).bind fun _ _ =>
      Draws.pure trivial
  next operands hkind =>
    rw [hkind]
    exact ((draws_conditions h).bind fun _ _ => Draws.pure trivial).lists rfl (List.append_nil _)
  next operands hkind =>
    rw [hkind]
    exact ((draws_conditions h).bind fun _ _ => Draws.pure trivial).lists rfl (List.append_nil _)
  next operand hkind =>
    rw [hkind]
    exact h.condition operand (!inverted)
  next hconstant hcomparison hdisjunction hconjunction hnot =>
    have hparts : Setting.conditionParts id (s.tree.kind id) = [(.operand, id)] := by
      unfold Setting.conditionParts
      split
      next value hkind => exact absurd hkind (hconstant value)
      next comparator left right hkind => exact absurd hkind (hcomparison comparator left right)
      next ids hkind => exact absurd hkind (hdisjunction ids)
      next ids hkind => exact absurd hkind (hconjunction ids)
      next operand hkind => exact absurd hkind (hnot operand)
      next => rfl
    rw [hparts]
    exact (h.expression id).bind fun _ _ => Draws.pure trivial

end Lowering
end CompilerBackend
