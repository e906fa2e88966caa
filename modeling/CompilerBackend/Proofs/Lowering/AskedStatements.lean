import CompilerBackend.Lowering.ModuleText
import CompilerBackend.Proofs.Lowering.AskedExpressions
import CompilerBackend.Proofs.Lowering.Statements
/-!
# What modules ask for

The lowering of a statement asks for what the tree says, and so does that of a module, with any
number of levels.

- `Fetch.Amounts.requests`: the nodes that a fetch skips ask for nothing.
- `draws_statementForm`: one case for each kind of statement.
- `asks_ofDepth`: one induction on the levels, for expressions, conditions and sequences at once.
- `accounts_moduleAt`: a module asks for `Module.asks` besides what its body comes to.
-/

namespace CompilerBackend

open Target Lowering

namespace Lowering

variable {s : Setting} {self : Lowerer} {id : NodeId} {ids : List NodeId}

/-! ## Raising -/

/-- What is behind an absent part is not lowered. -/
theorem draws_raising (h : self.Asks s) (exceptionType value traceback : Option NodeId) :
    Draws s (raising s self id exceptionType value traceback) []
      (s.statementParts id (.raise exceptionType value traceback)) fun _ => True := by
  cases exceptionType with
  | none => exact Draws.pure trivial
  | some type =>
      cases value with
      | none =>
          refine (h.expression type).bind (l := []) (m := []) fun o _ =>
            (draws_optional h (o := none)).bind (l := []) (m := []) fun v hv => ?_
          dsimp only
          rw [if_neg (by simp [hv])]
          exact (Draws.pure (Q := fun _ => True) trivial).bind fun b _ => by
            cases b <;> exact Draws.pure trivial
      | some value =>
          refine ((h.expression type).bind (l := []) fun o _ =>
            (draws_optional h (o := some value)).bind (l := [])
              (m := operands traceback.toList) fun v hv => ?_)
          dsimp only
          rw [if_pos (by simp [hv])]
          exact ((draws_optional h).bind (m := []) fun b _ => by
            cases b <;> exact Draws.pure trivial).lists rfl (List.append_nil _)

/-! ## Catching -/

section

variable {st : Stmt} {e : Expr}

theorem requests_statement (hkind : s.tree.kind id = .stmt st) :
    s.asks (.statement, id) = s.statementAsks id st ∧
      s.parts (.statement, id) = s.statementParts id st := by
  simp [Setting.asks, Setting.parts, Tree.stmt?_eq_some_iff.mpr hkind]

theorem requests_sequence (hkind : s.tree.kind id = .sequence ids) :
    s.asks (.lines, id) = [] ∧ s.parts (.lines, id) = ids.map (Use.statement, ·) := by
  simp [Setting.asks, Setting.parts, Tree.sequence?_eq_some_iff.mpr hkind]

theorem requests_handler {handler : Handler} (hkind : s.tree.kind id = .handler handler) :
    s.asks (.handler, id) = [] ∧ s.parts (.handler, id) =
      operands handler.exceptionTypes ++ handler.branch.toList.map (Use.lines, ·) := by
  simp [Setting.asks, Setting.parts, Tree.handler?_eq_some_iff.mpr hkind]

end

/-- The nodes that a fetch skips ask for nothing. -/
theorem Fetch.Amounts.requests {f : Fetch} {tried assignment source handler caught : NodeId}
    (h : f.Amounts s.tree tried assignment source handler caught) :
    s.AllRequests [(.lines, tried), (.handler, handler)] =
      s.AllRequests [(.operand, f.iterator), (.lines, f.branch)] := by
  have hsource : s.Requests (.operand, source) = s.Requests (.operand, f.iterator) := by
    rw [Setting.requests_eq, (requests_operand h.source).1, (requests_operand h.source).2]
    simp [Setting.expressionAsks, Setting.expressionParts, Expr.children]
  have hcaught : s.Requests (.operand, caught) = ∅ := by
    rw [Setting.requests_eq, (requests_operand h.caught).1, (requests_operand h.caught).2]
    simp [Setting.expressionAsks, Setting.expressionParts, Expr.children]
  have hassignment : s.Requests (.statement, assignment) = s.Requests (.operand, f.iterator) := by
    rw [Setting.requests_eq, (requests_statement h.assignment).1,
      (requests_statement h.assignment).2, ← hsource]
    simp [Setting.statementAsks, Setting.statementParts]
  have htried : s.Requests (.lines, tried) = s.Requests (.operand, f.iterator) := by
    rw [Setting.requests_eq, (requests_sequence h.tried).1, (requests_sequence h.tried).2,
      ← hassignment]
    simp
  have hhandler : s.Requests (.handler, handler) = s.Requests (.lines, f.branch) := by
    rw [Setting.requests_eq, (requests_handler h.handler).1, (requests_handler h.handler).2]
    simp [hcaught]
  simp [htried, hhandler]

theorem draws_fetching (h : self.Asks s) (f : Fetch) :
    Draws s (fetching s self f) [] [(.operand, f.iterator), (.lines, f.branch)] fun _ => True :=
  (Draws.onScopes _).bind fun _ _ => (h.expression f.iterator).bind fun _ _ =>
    (h.sequence f.branch).bind fun _ _ => draws_boundVariable.bind fun _ _ => Draws.pure trivial

theorem draws_handlerBinding (target : Option NodeId) :
    Draws s (handlerBinding s target) [] [] fun _ => True := by
  cases target with
  | none => exact Draws.pure trivial
  | some id => exact draws_boundVariable.bind fun _ _ => Draws.pure trivial

theorem draws_handlerChain (h : self.Asks s) (first : Bool) (handlers : List NodeId) :
    Draws s (handlerChain s self first handlers) [] (handlers.map (Use.handler, ·))
      fun _ => True := by
  induction handlers generalizing first with
  | nil => exact Draws.pure trivial
  | cons id rest ih =>
      rw [handlerChain]
      split
      next => exact Draws.fail _ _ _
      next handler heq =>
        obtain ⟨hasks, hparts⟩ := requests_handler (s := s) (Tree.handler?_eq_some_iff.mp heq)
        rw [List.map_cons, Draws.cons_use_iff, hasks, hparts]
        refine ((draws_expressions h).bind fun _ _ => (draws_handlerBinding _).bind fun _ _ =>
          (draws_optionalSequence h).bind fun _ _ => (ih false).bind fun _ _ =>
            Draws.pure trivial).lists rfl ?_
        simp

theorem draws_catching (h : self.Asks s) (tried : NodeId) (handlers : List NodeId)
    (noRaise : Option NodeId) :
    Draws s (catching s self tried handlers noRaise) []
      (s.statementParts id (.tryExcept tried handlers noRaise)) fun _ => True := by
  unfold catching
  split
  next f heq =>
    obtain ⟨rfl, assignment, source, handler, caught, rfl, hf⟩ := fetch?_amounts heq
    refine Accounts.congr (draws_fetching h f) ?_
    rw [Setting.Demand, ← hf.requests]
    rfl
  next =>
    refine ((Draws.onScopes _).bind fun _ _ => (h.sequence tried).bind fun _ _ =>
      (draws_handlerChain h true handlers).bind fun _ _ => (draws_optionalSequence h).bind
        fun _ _ => Draws.pure trivial).lists rfl ?_
    simp [Setting.statementParts]

/-! ## Statements -/

/-- The lowering of a statement, before its margins are checked. -/
theorem draws_statementForm (h : self.Asks s) (id : NodeId) (st : Stmt) :
    Draws s (statementForm s self id st) (s.statementAsks id st) (s.statementParts id st)
      fun _ => True := by
  cases st with
  | assign target source =>
      exact (h.expression source).bind fun _ _ => draws_boundVariable.bind fun _ _ =>
        Draws.pure trivial
  | assignAttribute source name value =>
      exact ((h.expression value).bind fun _ _ => (h.expression source).bind fun _ _ =>
        (Draws.intern_constantFromTable _).bind fun _ _ => Draws.pure trivial)
  | assignSubscript subscribed subscript value =>
      exact (h.expression value).bind fun _ _ => (h.expression subscribed).bind fun _ _ =>
        (h.expression subscript).bind fun _ _ => Draws.pure trivial
  | assignSlice source lower upper value =>
      exact (h.expression value).bind fun v _ => draws_sliceAssignment h v
  | delete target => exact draws_boundVariable.bind fun _ _ => Draws.pure trivial
  | deleteAttribute source name =>
      exact (h.expression source).bind fun _ _ => (Draws.intern_constantFromTable _).bind
        fun _ _ => Draws.pure trivial
  | deleteSubscript subscribed subscript =>
      exact (h.expression subscribed).bind fun _ _ => (h.expression subscript).bind fun _ _ =>
        Draws.pure trivial
  | deleteSlice source lower upper => exact draws_sliceDeletion h
  | block body => exact (h.sequence body).bind fun _ _ => Draws.pure trivial
  | expression value => exact (h.expression value).bind fun _ _ => Draws.pure trivial
  | print destination values newline =>
      refine ((draws_optional h).bind fun _ _ => (draws_expressions h).bind fun _ _ =>
        Draws.pure trivial).lists rfl ?_
      simp [Setting.statementParts, Stmt.children]
  | returnValue value =>
      rw [statementForm, Setting.statementParts]
      split
      · exact Draws.pure trivial
      · exact (h.expression value).bind fun _ _ => Draws.pure trivial
  | loop body unwinds =>
      exact ((draws_optionalSequence h).bind fun _ _ => Draws.pure trivial).lists rfl
        (List.append_nil _)
  | conditional condition yes no =>
      refine ((h.condition condition false).bind fun _ _ => (draws_optionalSequence h).bind
        fun _ _ => (draws_optionalSequence h).bind fun _ _ => Draws.pure trivial).lists rfl ?_
      simp [Setting.statementParts]
  | continueLoop unwinds => exact Draws.pure trivial
  | breakLoop unwinds => exact Draws.pure trivial
  | importStar source => exact (h.expression source).bind fun _ _ => Draws.pure trivial
  | tryFinally tried final =>
      exact (Draws.onScopes _).bind fun _ _ => (h.sequence tried).bind fun _ _ =>
        (h.sequence final).bind fun _ _ => Draws.pure trivial
  | tryExcept tried handlers noRaise => exact draws_catching h tried handlers noRaise
  | raise exceptionType value traceback => exact draws_raising h exceptionType value traceback
  | exec source inGlobals inLocals =>
      exact ((draws_evalParts h .exec).bind fun _ _ => Draws.pure trivial).lists
        (List.append_nil _) (List.append_nil _)
  | execInline body =>
      exact ((h.sequence body).inScope .inline).bind fun _ _ => Draws.pure trivial
  | unpackCheck iterator count =>
      exact (h.expression iterator).bind fun _ _ => Draws.pure trivial
  | declareGlobal names => exact Draws.pure trivial

theorem draws_statement (h : self.Asks s) :
    Draws s (statement s self id) [] [(.statement, id)] fun _ => True := by
  unfold statement
  split
  next => exact Draws.fail _ _ _
  next st heq =>
    obtain ⟨hasks, hparts⟩ := requests_statement (s := s) (Tree.stmt?_eq_some_iff.mp heq)
    rw [Draws.use_iff, hasks, hparts]
    refine ((draws_statementForm h id st).bind (l := []) (m := []) fun o _ => ?_).lists
      (List.append_nil _) (List.append_nil _)
    split
    · exact Draws.pure trivial
    · exact Draws.fail _ _ _

/-! ## Sequences -/

theorem draws_statementLines (h : self.Asks s) (last : Option Location) :
    Draws s (statementLines s self last ids) [] (ids.map (Use.statement, ·)) fun _ => True := by
  induction ids generalizing last with
  | nil => exact Draws.pure trivial
  | cons id rest ih =>
      rw [statementLines]
      refine ((draws_statement h).within _).bind (l := []) fun code _ => ?_
      split
      · exact ((ih last).bind fun _ _ => Draws.pure trivial).lists rfl (List.append_nil _)
      · dsimp only
        split
        · exact Draws.fail_bind _ _ _ _
        · exact ((ih _).bind fun _ _ => Draws.pure trivial).lists rfl (List.append_nil _)

theorem draws_sequence (h : self.Asks s) :
    Draws s (sequence s self id) [] [(.lines, id)] fun _ => True := by
  unfold sequence
  split
  next => exact Draws.fail _ _ _
  next statements heq =>
    obtain ⟨hasks, hparts⟩ := requests_sequence (s := s) (Tree.sequence?_eq_some_iff.mp heq)
    rw [Draws.use_iff, hasks, hparts]
    exact draws_statementLines h none

/-! ## Whole modules -/

theorem asks_ofDepth (s : Setting) (levels : Nat) : (Lowerer.ofDepth s levels).Asks s := by
  induction levels with
  | zero => exact ⟨fun _ => Accounts.throws _, fun _ _ => Accounts.throws _, fun _ => Accounts.throws _⟩
  | succ levels ih =>
      exact ⟨fun _ => draws_expression ih, fun _ inverted => draws_condition ih inverted,
        fun _ => draws_sequence ih⟩

end Lowering

def Module.asks (moduleName : String) (m : Module) : List Request :=
  .constant (docConstant m.doc) :: .text m.filename ::
    m.path.toList.map (fun entries => .constant (.list (entries.map .str))) ++
    .text moduleName :: m.globals.map fun v => .text v.name

namespace Lowering

variable {s : Setting} {id : NodeId} {m : Module}

theorem draws_finishModule (m : Module) (scope : Scope) (codes : List String) :
    Draws s (Lower.intern (finishModule m s.moduleName scope codes)) (m.asks s.moduleName) []
      fun _ => True := by
  have hpath : Draws s (Lower.intern (pathOperand m.path))
      (m.path.toList.map fun entries => .constant (.list (entries.map .str))) [] fun _ => True := by
    cases m.path with
    | none => exact Draws.intern_pure _
    | some entries => exact (Draws.intern_constantFromTable _).intern_map
  have hglobal : ∀ v : Variable, Draws s
      (Lower.intern (globalLine (moduleIdentifier s.moduleName) v)) [.text v.name] []
      fun _ => True := fun v => (Draws.intern_handleOfText v.name).intern_map
  have htext : ∀ doc filename path, Draws s
      (Lower.intern (moduleText m s.moduleName doc filename path scope codes))
      (.text s.moduleName :: m.globals.map fun v => .text v.name) [] fun _ => True := by
    intro doc filename path
    unfold moduleText
    dsimp only
    rw [Accounts.intern_bind]
    refine ((Draws.intern_handleOfText _).bind fun handle _ => ?_).lists List.singleton_append rfl
    exact (Draws.intern_mapM hglobal).intern_map
  unfold finishModule
  rw [Accounts.intern_bind]
  refine ((Draws.intern_constantFromTable _).bind fun doc _ => ?_).lists
    (l := m.asks s.moduleName) (m := []) List.singleton_append rfl
  rw [Accounts.intern_bind]
  refine ((Draws.intern_constantFromTable _).bind fun filename _ => ?_).lists
    List.singleton_append rfl
  rw [Accounts.intern_bind]
  exact hpath.bind fun path _ => htext doc filename path

/-- A module asks for what its body comes to and then for its own. -/
theorem accounts_moduleAt (hm : s.tree.module? id = some m) :
    Accounts (moduleAt s id) ({r | r ∈ m.asks s.moduleName} ∪ s.BodyRequests m) fun _ => True := by
  unfold moduleAt
  rw [hm]
  exact ((draws_optionalSequence (asks_ofDepth s s.depthBound)).bind fun codes _ =>
    (Draws.onScopes _).bind fun scope _ => draws_finishModule m scope _).lists
      (List.nil_append _) (List.append_nil _)

end Lowering
end CompilerBackend
