import CompilerBackend.Lowering.Statement
import CompilerBackend.Proofs.Lowering.Expressions
import CompilerBackend.Proofs.Target.Statements
/-!
# The lowering of statements

The lowering of a statement succeeds exactly if its slots are resolved, those aside that are passed
over, and what it gives is a block of code or nothing. A sequence is its statements in order.

- `Fetch.Amounts`: what a try statement looks like that fetches one item. Its lowering skips the
  nodes around the iterator, the target and the branch; all of these fit in any tree.
- `meets_statementForm`: one case for each kind of statement.
- `meets_sequence`: no line of a sequence is blank where names hold no blanks.
-/

namespace CompilerBackend.Lowering

open Target

variable {w : Wording} {s : Setting} {T H : Prop} {self : Lowerer} {P : NodeId → Prop}
  {top id : NodeId}

/-! ## Positions of statements -/

theorem resolved_statement_iff {st : Stmt} (hkind : s.tree.kind id = .stmt st) :
    s.Resolved (.statement, id) ↔
      ∀ p ∈ st.positions (s.tree.inGenerator id), s.Resolved p := by
  rw [Setting.Resolved, Tree.resolved_iff, Tree.positions, hkind]
  exact and_iff_right rfl

theorem resolved_sequence_iff {ids : List NodeId} (hkind : s.tree.kind id = .sequence ids) :
    s.Resolved (.sequence, id) ↔ ∀ c ∈ ids, s.Resolved (.statement, c) := by
  rw [Setting.Resolved, Tree.resolved_iff, Tree.positions, hkind]
  change _ ∧ (∀ q ∈ ids.map (Role.statement, ·), _) ↔ _
  simp [Setting.Resolved, NodeKind.fits]

theorem resolved_handler_iff {h : Handler} (hkind : s.tree.kind id = .handler h) :
    s.Resolved (.handler, id) ↔ s.AllResolved h.exceptionTypes ∧
      (∀ c ∈ h.target, s.Resolved (.target, c)) ∧ ∀ c ∈ h.branch, s.Resolved (.sequence, c) := by
  rw [Setting.Resolved, Tree.resolved_iff, Tree.positions, hkind]
  change _ ∧ (∀ q ∈ h.exceptionTypes.map (Role.expression, ·) ++
    h.target.toList.map (Role.target, ·) ++ h.branch.toList.map (Role.sequence, ·), _) ↔ _
  simp [Setting.Resolved, Setting.AllResolved, NodeKind.fits, or_imp, forall_and]

/-- Most statements ask of their children to be expressions. -/
theorem resolved_statement_iff_children {st : Stmt} (hkind : s.tree.kind id = .stmt st)
    (hpositions : st.positions (s.tree.inGenerator id) = st.children.map (Role.expression, ·)) :
    s.Resolved (.statement, id) ↔ s.AllResolved st.children := by
  rw [resolved_statement_iff hkind, hpositions]
  simp [Setting.AllResolved]

/-! ## Raising -/

/-- A traceback is lowered behind a value only. -/
theorem meets_raised (h : self.Handles w s T P) {value traceback : Option NodeId} {type : Operand}
    (hv : ∀ c ∈ value, P c) (ht : ∀ c ∈ traceback, P c) (htype : H → type.Fine w) :
    Meets w T H (do
      let v ← self.optional value
      let tb ← if v.isSome then self.optional traceback else pure none
      match tb with
      | some _ => return raiseStatement type v tb none
      | none => return raiseStatement type v none (some (tracebackMaker (s.tree.location id).line)))
      (s.AllResolved value.toList ∧ (value.isSome → s.AllResolved traceback.toList))
      (Line w) := by
  have hend : ∀ {H : Prop} {v b : Option Operand}, (H → type.Fine w) →
      (H → ∀ o ∈ v, o.Fine w) → (H → ∀ o ∈ b, o.Fine w) →
      Meets w T H (match b with
        | some _ => return raiseStatement type v b none
        | none =>
          return raiseStatement type v none (some (tracebackMaker (s.tree.location id).line)))
        True (Line w) := by
    intro H v b htype hv htb
    cases b with
    | some o =>
        refine Meets.pure fun hH => ?_
        exact line_raiseStatement (htype hH) (hv hH) (htb hH) fun _ hs => nomatch hs
    | none =>
        refine Meets.pure fun hH => ?_
        refine line_raiseStatement (htype hH) (hv hH) (fun _ ho => nomatch ho) fun s hs => ?_
        rw [← Option.some.inj hs]
        exact phrase_tracebackMaker _
  refine (meets_present h hv).bind fun v => ?_
  dsimp only
  split
  next hsome =>
    refine ((meets_optional h ht).bind fun tb =>
      hend (fun hH => htype hH.1.1) (fun hH => hH.1.2.1) And.right).iff fun _ hH => ?_
    have hvalue : value.isSome = true := by
      rw [Option.isSome_iff_ne_none] at hsome ⊢
      exact mt hH.2.2.mpr hsome
    rw [and_true]
    exact ⟨fun h _ => h, fun h => h hvalue⟩
  next hnone =>
    refine (hend (b := none) (fun hH => htype hH.1) (fun hH => hH.2.1)
      fun _ _ ho => nomatch ho).iff fun _ hH => ?_
    have hvalue : value = none := hH.2.2.mp (by simpa using hnone)
    rw [hvalue]
    exact iff_of_true trivial fun hsome => nomatch hsome

/-- What is behind an absent part is passed over. -/
theorem meets_raising (h : self.Handles w s T P) {exceptionType value traceback : Option NodeId}
    (hkind : s.tree.kind id = .stmt (.raise exceptionType value traceback))
    (hP : ∀ c ∈ exceptionType.toList ++ value.toList ++ traceback.toList, P c) :
    Meets w T H (raising s self id exceptionType value traceback) (s.Resolved (.statement, id))
      (Line w) := by
  simp only [List.forall_mem_append, Option.mem_toList] at hP
  obtain ⟨⟨htype, hvalue⟩, htraceback⟩ := hP
  rw [resolved_statement_iff hkind]
  cases exceptionType with
  | none =>
      refine (Meets.pure fun _ => line_reraiseStatement _).iff fun _ _ => ?_
      simp [Stmt.positions]
  | some type =>
      refine ((h.expression (htype type rfl)).bind fun o =>
        meets_raised h hvalue htraceback And.right).iff fun _ _ => ?_
      cases value <;> simp [Stmt.positions, Setting.AllResolved]

/-! ## Catching -/

/-- The nodes of a try statement that fetches one item. -/
structure Fetch.Amounts (t : Tree) (f : Fetch) (tried assignment source handler caught : NodeId) :
    Prop where
  tried : t.kind tried = .sequence [assignment]
  assignment : t.kind assignment = .stmt (.assign f.target source)
  source : t.kind source = .expr (.unaryBuiltin .next f.iterator)
  handler : t.kind handler = .handler ⟨[caught], none, some f.branch⟩
  caught : t.kind caught = .expr (.exception "StopIteration")

/-- On the ways down from a try statement, each of these nodes is a child of the one before. -/
theorem Fetch.Amounts.slots {t : Tree} {f : Fetch} {tried assignment source handler caught : NodeId}
    (hf : f.Amounts t tried assignment source handler caught) :
    assignment ∈ t.children tried ∧
      (source ∈ t.children assignment ∧ f.target ∈ t.children assignment) ∧
      f.iterator ∈ t.children source ∧ f.branch ∈ t.children handler := by
  simp only [Tree.children, hf.tried, hf.assignment, hf.source, hf.handler]
  simp [NodeKind.children, Stmt.children, Expr.children]

theorem single?_eq_some_iff {α : Type} {l : List α} {a : α} : single? l = some a ↔ l = [a] := by
  unfold single?
  split <;> simp_all

theorem fetch?_amounts {t : Tree} {tried : NodeId} {handlers : List NodeId}
    {noRaise : Option NodeId} {f : Fetch} (h : fetch? t tried handlers noRaise = some f) :
    noRaise = none ∧ ∃ assignment source handler caught, handlers = [handler] ∧
      f.Amounts t tried assignment source handler caught := by
  unfold fetch? at h
  -- each test that the definition makes leaves one way on
  split at h
  · exact nomatch h
  rename_i hnoRaise
  obtain ⟨handler, hhandler, h⟩ := Option.bind_eq_some_iff.mp h
  obtain ⟨statements, hstatements, h⟩ := Option.bind_eq_some_iff.mp h
  obtain ⟨assignment, hassignment, h⟩ := Option.bind_eq_some_iff.mp h
  obtain ⟨st, hst, h⟩ := Option.bind_eq_some_iff.mp h
  split at h
  case h_2 => exact nomatch h
  rename_i target source
  obtain ⟨e, he, h⟩ := Option.bind_eq_some_iff.mp h
  split at h
  case h_2 => exact nomatch h
  rename_i iterator
  split at h
  · exact nomatch h
  obtain ⟨body, hbody, h⟩ := Option.bind_eq_some_iff.mp h
  split at h
  · exact nomatch h
  rename_i htarget
  obtain ⟨caught, hcaught, h⟩ := Option.bind_eq_some_iff.mp h
  obtain ⟨c, hc, h⟩ := Option.bind_eq_some_iff.mp h
  split at h
  case h_2 => exact nomatch h
  rename_i name
  split at h
  · exact nomatch h
  rename_i hname
  obtain ⟨branch, hbranch, h⟩ := Option.bind_eq_some_iff.mp h
  split at h
  case isFalse => exact nomatch h
  rw [← Option.some.inj h]
  rw [single?_eq_some_iff] at hhandler hassignment hcaught
  rw [Option.not_isSome_iff_eq_none] at hnoRaise htarget
  rw [bne_iff_ne, not_not] at hname
  subst hassignment hname
  obtain ⟨types, bound, code⟩ := body
  dsimp only at hcaught htarget hbranch
  subst hcaught htarget hbranch
  exact ⟨hnoRaise, assignment, source, handler, caught, hhandler,
    Tree.sequence?_eq_some_iff.mp hstatements, Tree.stmt?_eq_some_iff.mp hst,
    Tree.expr?_eq_some_iff.mp he, Tree.handler?_eq_some_iff.mp hbody,
    Tree.expr?_eq_some_iff.mp hc⟩

/-- What holds of the children of a node that it holds of holds of the parts of a fetch. -/
theorem fetch?_holds {t : Tree} {Q : NodeId → Prop} {tried : NodeId} {handlers : List NodeId}
    {noRaise : Option NodeId} {f : Fetch} (hQ : ∀ {n c}, Q n → c ∈ t.children n → Q c)
    (h : fetch? t tried handlers noRaise = some f) (htried : Q tried)
    (hhandlers : ∀ c ∈ handlers, Q c) : Q f.iterator ∧ Q f.branch ∧ Q f.target := by
  obtain ⟨-, assignment, source, handler, caught, rfl, hf⟩ := fetch?_amounts h
  obtain ⟨hbody, ⟨hsource, htarget⟩, hiterator, hbranch⟩ := hf.slots
  have hassignment : Q assignment := hQ htried hbody
  refine ⟨hQ (hQ hassignment hsource) hiterator, ?_, hQ hassignment htarget⟩
  exact hQ (hhandlers handler List.mem_cons_self) hbranch

/-- The nodes that a fetch skips fit in any tree. -/
theorem Fetch.Amounts.resolved_iff {f : Fetch} {tried assignment source handler caught : NodeId}
    (h : f.Amounts s.tree tried assignment source handler caught) :
    (s.Resolved (.sequence, tried) ∧ s.Resolved (.handler, handler)) ↔
      s.Resolved (.expression, f.iterator) ∧ s.Resolved (.sequence, f.branch) ∧
        s.Resolved (.target, f.target) := by
  have hcaught : s.Resolved (.expression, caught) := by
    rw [Setting.resolved_iff_children h.caught rfl rfl]
    exact Setting.allResolved_nil.mpr trivial
  rw [resolved_sequence_iff h.tried, resolved_handler_iff h.handler, List.forall_mem_singleton,
    resolved_statement_iff h.assignment]
  simp only [Stmt.positions, List.forall_mem_cons, and_true,
    Setting.resolved_iff_children h.source rfl rfl, Expr.children, Setting.allResolved_cons,
    Setting.allResolved_nil]
  simp [hcaught]
  tauto

theorem meets_fetching (hg : Grounded w s T top) (h : self.Handles w s T P) {f : Fetch}
    {tried assignment source handler caught : NodeId}
    (hf : f.Amounts s.tree tried assignment source handler caught)
    (htried : P tried) (hhandler : P handler) (hconnected : s.tree.Connected top tried) :
    Meets w T H (fetching s self f)
      (s.Resolved (.sequence, tried) ∧ s.Resolved (.handler, handler)) (Block w) := by
  have hassignment : assignment ∈ s.tree.children tried := by
    rw [Tree.children, hf.tried]
    exact List.mem_cons_self
  have hslots : s.tree.children assignment = [source, f.target] := by
    rw [Tree.children, hf.assignment]
    rfl
  have hsource : P source := h.closed (h.closed htried hassignment) (by simp [hslots])
  have hiterator : P f.iterator := h.closed hsource (by
    rw [Tree.children, hf.source]
    exact List.mem_cons_self)
  have hbranch : P f.branch := h.closed hhandler (by
    rw [Tree.children, hf.handler]
    simp [NodeKind.children])
  have htarget : s.tree.Connected top f.target :=
    (hconnected.child hassignment).child (by simp [hslots])
  refine ((Meets.onScopes (Q := fun _ => True) fun _ scopes hscopes =>
    ⟨hscopes.takeLoopNumber, trivial⟩).bind fun n => (h.expression hiterator).bind fun o =>
      (h.sequence hbranch).bind fun codes => (meets_boundVariable hg htarget).bind fun v =>
        Meets.pure fun ho => ?_).iff fun _ _ => ?_
  · obtain ⟨⟨⟨_, hsource⟩, hcodes⟩, hv⟩ := ho
    exact block_fetchOrHandle n hsource hcodes
      (line_variableAssignment hg.codeName hv (fine_fetchedItem n)).block
  · rw [hf.resolved_iff]
    simp

theorem meets_handlerBinding (hg : Grounded w s T top) {target : Option NodeId}
    (ht : ∀ c ∈ target, s.tree.Connected top c) :
    Meets w T H (handlerBinding s target) (∀ c ∈ target, s.Resolved (.target, c))
      fun ls => ∀ l ∈ ls, Code w l := by
  cases target with
  | none => exact (Meets.pure fun _ _ hl => (nomatch hl)).iff fun _ _ => by simp
  | some id =>
      refine ((meets_boundVariable hg (ht id rfl)).bind fun v => Meets.pure fun hv l hl => ?_).iff
        fun _ _ => by simp
      rw [List.mem_singleton.mp hl]
      exact (line_variableAssignment hg.codeName hv.2 (fine_caughtPart .value)).block.code

theorem kind_of_fits_handler {third : Bool} {k : NodeKind} (h : k.fits third .handler = true) :
    ∃ handler, k = .handler handler := by
  cases k with
  | handler handler => exact ⟨handler, rfl⟩
  | _ => exact nomatch h

theorem meets_handlerChain (hg : Grounded w s T top) (h : self.Handles w s T P) (first : Bool)
    {handlers : List NodeId} (hP : ∀ c ∈ handlers, P c)
    (hc : ∀ c ∈ handlers, s.tree.Connected top c) :
    Meets w T H (handlerChain s self first handlers) (∀ c ∈ handlers, s.Resolved (.handler, c))
      fun ls => ∀ l ∈ ls, Code w l := by
  induction handlers generalizing first H with
  | nil => exact (Meets.pure fun _ _ hl => (nomatch hl)).iff fun _ _ => by simp
  | cons id rest ih =>
      have hrest := fun {H : Prop} => ih (H := H) false
        (fun c hc => hP c (List.mem_cons_of_mem id hc))
        fun c hmem => hc c (List.mem_cons_of_mem id hmem)
      have hconnected := hc id List.mem_cons_self
      rw [handlerChain, List.forall_mem_cons]
      split
      next hnone =>
        refine (Meets.fail _ _ _).iff fun _ _ => ⟨False.elim, fun hresolved => ?_⟩
        obtain ⟨handler, hkind⟩ := kind_of_fits_handler (Tree.resolved_iff.mp hresolved.1).1
        rw [Tree.handler?_eq_some_iff.mpr hkind] at hnone
        exact nomatch hnone
      next handler heq =>
        have hkind := Tree.handler?_eq_some_iff.mp heq
        have hchildren : s.tree.children id = handler.exceptionTypes ++ handler.target.toList ++
            handler.branch.toList := by rw [Tree.children, hkind]; rfl
        have hslots : ∀ c ∈ s.tree.children id, P c := fun c => h.closed (hP id List.mem_cons_self)
        rw [hchildren] at hslots
        simp only [List.forall_mem_append, Option.mem_toList] at hslots
        obtain ⟨⟨htypes, -⟩, hbranch⟩ := hslots
        have htarget : ∀ c ∈ handler.target, s.tree.Connected top c := fun c hmem =>
          hconnected.child (by
            rw [hchildren]
            simp [Option.mem_def.mp hmem])
        rw [resolved_handler_iff hkind]
        refine ((meets_expressions h htypes).bind fun types =>
          (meets_handlerBinding hg htarget).bind fun binding =>
            (meets_optionalSequence h hbranch).bind fun branch => hrest.bind fun others =>
              Meets.pure fun hls l hl => ?_).iff fun _ _ => ?_
        · obtain ⟨⟨⟨⟨_, htypes⟩, hbinding⟩, hbranch⟩, hothers⟩ := hls
          rcases List.mem_append.mp hl with hl | hl
          · refine codes_handlerLines htypes (fun c hc => ?_) first l hl
            exact (List.mem_append.mp hc).elim (hbinding c) (codes_getD hbranch c)
          · exact hothers l hl
        · simp [and_assoc]

theorem meets_catching (hg : Grounded w s T top) (h : self.Handles w s T P)
    (hid : s.tree.Connected top id) {tried : NodeId} {handlers : List NodeId}
    {noRaise : Option NodeId} (hkind : s.tree.kind id = .stmt (.tryExcept tried handlers noRaise))
    (hP : ∀ c ∈ tried :: handlers ++ noRaise.toList, P c) :
    Meets w T H (catching s self tried handlers noRaise) (s.Resolved (.statement, id))
      (Block w) := by
  have hchildren : s.tree.children id = tried :: handlers ++ noRaise.toList := by
    rw [Tree.children, hkind]
    rfl
  have hconnected : ∀ c ∈ tried :: handlers ++ noRaise.toList, s.tree.Connected top c := by
    rw [← hchildren]
    exact fun c hc => hid.child hc
  simp only [List.forall_mem_append, List.forall_mem_cons, Option.mem_toList] at hP hconnected
  obtain ⟨⟨htried, hhandlers⟩, hnoRaise⟩ := hP
  rw [resolved_statement_iff hkind]
  unfold catching
  split
  next f heq =>
    obtain ⟨rfl, assignment, source, handler, caught, rfl, hf⟩ := fetch?_amounts heq
    refine (meets_fetching hg h hf htried (hhandlers handler List.mem_cons_self)
      hconnected.1.1).iff fun _ _ => ?_
    simp [Stmt.positions]
  next =>
    refine ((Meets.onScopes (Q := fun _ => True) fun _ scopes hscopes =>
      ⟨hscopes.takeTryNumber, trivial⟩).bind fun n => (h.sequence htried).bind fun body =>
        (meets_handlerChain hg h true hhandlers hconnected.1.2).bind fun chain =>
          (meets_optionalSequence h hnoRaise).bind fun otherwise => Meets.pure fun ho => ?_).iff
            fun _ _ => ?_
    · exact block_tryExcept n ho.1.1.2 ho.1.2 ho.2
    · simp [Stmt.positions, or_imp, forall_and]

/-! ## Statements -/

/-- A lowering that takes the children of a statement as expressions, and gives a block. -/
theorem block_of_children {step : Lower String} {Φ : Prop} {st : Stmt}
    (hs : Meets w T H step Φ (Block w)) (hkind : s.tree.kind id = .stmt st)
    (hpositions : st.positions (s.tree.inGenerator id) = st.children.map (Role.expression, ·))
    (hΦ : Φ ↔ s.AllResolved st.children) :
    Meets w T H step (s.Resolved (.statement, id)) fun code => code = "" ∨ Block w code :=
  (hs.iff fun _ _ => hΦ.trans (resolved_statement_iff_children hkind hpositions).symm).imp
    fun _ _ => Or.inr

/-- A lowering that gives a block, from slots of several roles. -/
theorem block_of_positions {step : Lower String} {Φ : Prop} {st : Stmt}
    (hs : Meets w T H step Φ (Block w)) (hkind : s.tree.kind id = .stmt st)
    (hΦ : Φ ↔ ∀ p ∈ st.positions (s.tree.inGenerator id), s.Resolved p) :
    Meets w T H step (s.Resolved (.statement, id)) fun code => code = "" ∨ Block w code :=
  (hs.iff fun _ _ => hΦ.trans (resolved_statement_iff hkind).symm).imp fun _ _ => Or.inr

theorem meets_returnValue (h : self.Handles w s T P) {value : NodeId}
    (hkind : s.tree.kind id = .stmt (.returnValue value)) (hP : P value) :
    Meets w T H (statementForm s self id (.returnValue value)) (s.Resolved (.statement, id))
      fun code => code = "" ∨ Block w code := by
  rw [statementForm]
  split
  next hgenerator =>
    refine block_of_positions (Meets.pure fun _ => line_generatorEnd.block) hkind ?_
    have hinside : s.tree.inGenerator id = true := hgenerator
    simp [Stmt.positions, hinside]
  next hordinary =>
    refine block_of_positions ((h.expression hP).bind fun o => Meets.pure fun ho =>
      (line_returnStatement ho.2).block) hkind ?_
    have hinside : s.tree.inGenerator id = false := Bool.eq_false_iff.mpr hordinary
    simp [Stmt.positions, hinside]

/-- The lowering of a statement, before its margins are checked. -/
theorem meets_statementForm (hg : Grounded w s T top) (h : self.Handles w s T P)
    (hid : s.tree.Connected top id) {st : Stmt} (hkind : s.tree.kind id = .stmt st)
    (hP : ∀ c ∈ st.children, P c) :
    Meets w T H (statementForm s self id st) (s.Resolved (.statement, id))
      fun code => code = "" ∨ Block w code := by
  have hconnected : ∀ c ∈ st.children, s.tree.Connected top c := fun c hc =>
    hid.child (by rwa [Tree.children, hkind])
  cases st with
  | assign target source =>
      have hsource : P source := hP source (by simp [Stmt.children])
      have htarget := hconnected target (by simp [Stmt.children])
      refine block_of_positions ((h.expression hsource).bind fun value =>
        (meets_boundVariable hg htarget).bind fun v => Meets.pure fun ho =>
          (line_variableAssignment hg.codeName ho.2 ho.1.2).block) hkind ?_
      simp [Stmt.positions]
  | assignAttribute source name value =>
      have hvalue : P value := hP value (by simp [Stmt.children])
      have hsource : P source := hP source (by simp [Stmt.children])
      refine block_of_children ((h.expression hvalue).bind fun v => (h.expression hsource).bind
        fun o => (Meets.intern (interned_constantFromTable _)).bind fun n => Meets.pure fun ho =>
          (line_attributeAssignment ho.1.2 ho.2 ho.1.1.2).block) hkind rfl ?_
      simp [Stmt.children]
  | assignSubscript subscribed subscript value =>
      have hvalue : P value := hP value (by simp [Stmt.children])
      have hsubscribed : P subscribed := hP subscribed (by simp [Stmt.children])
      have hsubscript : P subscript := hP subscript (by simp [Stmt.children])
      refine block_of_children ((h.expression hvalue).bind fun v => (h.expression hsubscribed).bind
        fun o => (h.expression hsubscript).bind fun i => Meets.pure fun ho =>
          (line_subscriptAssignment ho.1.2 ho.2 ho.1.1.2).block) hkind rfl ?_
      simp [Stmt.children]
  | assignSlice source lower upper value =>
      simp only [Stmt.children, List.cons_append, List.forall_mem_cons, List.forall_mem_append,
        Option.mem_toList] at hP
      obtain ⟨hvalue, hsource, hlower, hupper⟩ := hP
      refine block_of_children ((h.expression hvalue).bind fun v =>
        meets_sliceAssignment h hsource hlower hupper And.right) hkind rfl ?_
      simp [Stmt.children]
  | delete target =>
      have htarget := hconnected target (by simp [Stmt.children])
      refine block_of_positions ((meets_boundVariable hg htarget).bind fun v => Meets.pure fun hv =>
        (line_variableDeletion hg.codeName hv.2).block) hkind ?_
      simp [Stmt.positions]
  | deleteAttribute source name =>
      have hsource : P source := hP source (by simp [Stmt.children])
      refine block_of_children ((h.expression hsource).bind fun o =>
        (Meets.intern (interned_constantFromTable _)).bind fun n => Meets.pure fun ho =>
          (line_attributeDeletion ho.1.2 ho.2).block) hkind rfl ?_
      simp [Stmt.children]
  | deleteSubscript subscribed subscript =>
      have hsubscribed : P subscribed := hP subscribed (by simp [Stmt.children])
      have hsubscript : P subscript := hP subscript (by simp [Stmt.children])
      refine block_of_children ((h.expression hsubscribed).bind fun o =>
        (h.expression hsubscript).bind fun i => Meets.pure fun ho =>
          (line_subscriptDeletion ho.1.2 ho.2).block) hkind rfl ?_
      simp [Stmt.children]
  | deleteSlice source lower upper =>
      simp only [Stmt.children, List.cons_append, List.forall_mem_cons, List.forall_mem_append,
        Option.mem_toList] at hP
      exact block_of_children (meets_sliceDeletion h hP.1 hP.2.1 hP.2.2) hkind rfl Iff.rfl
  | block body =>
      have hbody : P body := hP body (by simp [Stmt.children])
      refine block_of_positions ((h.sequence hbody).bind fun codes => Meets.pure fun ho =>
        Block.braced ho.2) hkind ?_
      simp [Stmt.positions]
  | expression value =>
      have hvalue : P value := hP value (by simp [Stmt.children])
      refine block_of_children ((h.expression hvalue).bind fun o => Meets.pure fun ho =>
        (line_expressionStatement ho.2).block) hkind rfl ?_
      simp [Stmt.children]
  | print destination values newline =>
      simp only [Stmt.children, List.forall_mem_append, Option.mem_toList] at hP
      refine ((meets_optional h hP.1).bind fun d => (meets_expressions h hP.2).bind fun os =>
        Meets.pure fun ho => block_print ho.1.2 ho.2 newline).iff fun _ _ => ?_
      rw [resolved_statement_iff_children hkind rfl]
      simp [Stmt.children]
  | returnValue value =>
      exact meets_returnValue h hkind (hP value (by simp [Stmt.children]))
  | loop body unwinds =>
      simp only [Stmt.children, Option.mem_toList] at hP
      refine block_of_positions ((meets_optionalSequence h hP).bind fun codes =>
        Meets.pure fun ho => block_loop ho.2 unwinds) hkind ?_
      simp [Stmt.positions]
  | conditional condition yes no =>
      simp only [Stmt.children, List.cons_append, List.forall_mem_cons, List.forall_mem_append,
        Option.mem_toList] at hP
      obtain ⟨hcondition, hyes, hno⟩ := hP
      refine block_of_positions ((h.condition false hcondition).bind fun c =>
        (meets_optionalSequence h hyes).bind fun y => (meets_optionalSequence h hno).bind fun n =>
          Meets.pure fun ho => block_branch ho.1.1.2.phrase ho.1.2 ho.2) hkind ?_
      simp [Stmt.positions, or_imp, forall_and]
  | continueLoop unwinds =>
      refine block_of_children (Meets.pure fun _ => (line_loopContinue unwinds).block) hkind rfl ?_
      simp [Stmt.children]
  | breakLoop unwinds =>
      refine block_of_children (Meets.pure fun _ => (line_loopBreak unwinds).block) hkind rfl ?_
      simp [Stmt.children]
  | importStar source =>
      have hsource : P source := hP source (by simp [Stmt.children])
      refine block_of_children ((h.expression hsource).bind fun o => Meets.pure fun ho =>
        (line_importStar hg.codeName ho.2).block) hkind rfl ?_
      simp [Stmt.children]
  | tryFinally tried final =>
      have htried : P tried := hP tried (by simp [Stmt.children])
      have hfinal : P final := hP final (by simp [Stmt.children])
      refine block_of_positions ((Meets.onScopes (Q := fun _ => True) fun _ scopes hscopes =>
        ⟨hscopes.takeTryNumber, trivial⟩).bind fun n => (h.sequence htried).bind fun body =>
          (h.sequence hfinal).bind fun last => Meets.pure fun ho =>
            block_tryFinally n ho.1.2 ho.2) hkind ?_
      simp [Stmt.positions]
  | tryExcept tried handlers noRaise =>
      exact (meets_catching hg h hid hkind hP).imp fun _ _ => Or.inr
  | raise exceptionType value traceback =>
      exact (meets_raising h hkind hP).imp fun _ _ hline => Or.inr hline.block
  | exec source inGlobals inLocals =>
      refine block_of_children ((meets_evalParts h .exec hP).bind fun parts =>
        Meets.pure fun ho => (line_execution ho.2).block) hkind rfl ?_
      exact and_iff_left trivial
  | execInline body =>
      have hbody : ∀ {H : Prop}, Meets w T H (Lower.inScope .inline (self.sequence body))
          (s.Resolved (.sequence, body)) fun ls => ∀ l ∈ ls, Code w l :=
        (h.sequence (hP body (by simp [Stmt.children]))).inScope .inline
      refine block_of_positions (hbody.bind fun codes => Meets.pure fun ho =>
        Block.braced ho.2) hkind ?_
      simp [Stmt.positions]
  | unpackCheck iterator count =>
      have hiterator : P iterator := hP iterator (by simp [Stmt.children])
      refine block_of_children ((h.expression hiterator).bind fun i => Meets.pure fun ho =>
        (line_unpackCheck count ho.2).block) hkind rfl ?_
      simp [Stmt.children]
  | declareGlobal names =>
      refine (Meets.pure (Q := fun code => code = "" ∨ Block w code) fun _ => Or.inl rfl).iff
        fun _ _ => ?_
      rw [resolved_statement_iff_children hkind rfl]
      simp [Stmt.children]

theorem kind_of_fits_statement {third : Bool} {k : NodeKind} (h : k.fits third .statement = true) :
    ∃ st, k = .stmt st := by
  cases k with
  | stmt st => exact ⟨st, rfl⟩
  | _ => exact nomatch h

theorem meets_statement (hg : Grounded w s T top) (h : self.Handles w s T P)
    (hid : s.tree.Connected top id) (hP : ∀ c ∈ s.tree.children id, P c) :
    Meets w T H (statement s self id) (s.Resolved (.statement, id))
      fun code => code = "" ∨ Block w code := by
  unfold statement
  split
  next hnone =>
    refine (Meets.fail _ _ _).iff fun _ _ => ⟨False.elim, fun hresolved => ?_⟩
    obtain ⟨st, hkind⟩ := kind_of_fits_statement (Tree.resolved_iff.mp hresolved).1
    rw [Tree.stmt?_eq_some_iff.mpr hkind] at hnone
    exact nomatch hnone
  next st heq =>
    have hkind := Tree.stmt?_eq_some_iff.mp heq
    rw [Tree.children, hkind] at hP
    refine ((meets_statementForm hg h hid hkind hP).bind (Ψ := True) fun code => ?_).iff
      fun _ _ => and_iff_left trivial
    split
    next => exact Meets.pure And.right
    next hmargin =>
      refine (Meets.fail _ _ _).iff fun hT hH => ⟨False.elim, fun _ => hmargin ?_⟩
      rcases hH.2 with rfl | hblock
      · rfl
      · exact hblock.hasNoMargin (hg.tight hT)

/-! ## Sequences -/

theorem codes_traceLines (hg : Grounded w s T top) (hid : s.tree.Connected top id) :
    ∀ l ∈ traceLines s id, Code w l := by
  intro l hl
  unfold traceLines at hl
  split at hl
  · rw [List.mem_singleton.mp hl]
    exact code_traceLine (hg.suits id hid).file (s.tree.kind id)
  · exact nomatch hl

theorem codes_markerLines (last : Option Location) (place : Location) :
    ∀ l ∈ markerLines last place, Code w l := by
  intro l hl
  unfold markerLines at hl
  split at hl
  · exact nomatch hl
  · rw [List.mem_singleton.mp hl]
    exact (line_lineMarker place).block.code

theorem meets_statementLines (hg : Grounded w s T top) (h : self.Handles w s T P)
    {ids : List NodeId} (hc : ∀ c ∈ ids, s.tree.Connected top c) (hP : ∀ c ∈ ids, P c)
    (last : Option Location) :
    Meets w T H (statementLines s self last ids) (∀ c ∈ ids, s.Resolved (.statement, c))
      fun ls => ∀ l ∈ ls, Code w l := by
  induction ids generalizing last H with
  | nil => exact (Meets.pure fun _ _ hl => (nomatch hl)).iff fun _ _ => by simp
  | cons id rest ih =>
      have hrest := fun {H : Prop} (last : Option Location) => ih (H := H)
        (fun c hmem => hc c (List.mem_cons_of_mem id hmem))
        (fun c hmem => hP c (List.mem_cons_of_mem id hmem)) last
      have hconnected := hc id List.mem_cons_self
      have htrace := codes_traceLines hg hconnected
      have hstatement : ∀ {H : Prop}, Meets w T H
          (Lower.within ⟨(s.tree.kind id).kindName, s.tree.location id⟩ (statement s self id))
          (s.Resolved (.statement, id)) fun code => code = "" ∨ Block w code :=
        (meets_statement hg h hconnected fun c => h.closed (hP id List.mem_cons_self)).within _
      rw [statementLines, List.forall_mem_cons]
      refine hstatement.bind fun code => ?_
      split
      next =>
        refine ((hrest last).bind fun others => Meets.pure fun ho l hl => ?_).iff fun _ _ =>
          and_iff_left trivial
        exact (List.mem_append.mp hl).elim (htrace l) (ho.2 l)
      next hcode =>
        have hblock : H ∧ (code = "" ∨ Block w code) → Block w code := fun hH =>
          hH.2.resolve_left fun hnil => hcode (by rw [hnil]; rfl)
        dsimp only
        split
        next hblank =>
          refine (Meets.fail_bind _ _ _ _).iff fun hT hH => ⟨False.elim, fun _ => ?_⟩
          obtain ⟨l, hl, hl'⟩ := List.any_eq_true.mp hblank
          have hrow := ((hblock hH).code.rows (hg.tight hT)).2 l hl
          rw [hrow.2] at hl'
          exact nomatch hl'
        next =>
          refine ((hrest _).bind fun others => Meets.pure fun ho l hl => ?_).iff fun _ _ =>
            and_iff_left trivial
          simp only [List.mem_append] at hl
          rcases hl with ((hl | hl) | hl) | hl
          · exact htrace l hl
          · exact codes_markerLines last _ l hl
          · exact (hblock ho.1).code.lines l hl
          · exact ho.2 l hl

theorem kind_of_fits_sequence {third : Bool} {k : NodeKind} (h : k.fits third .sequence = true) :
    ∃ statements, k = .sequence statements := by
  cases k with
  | sequence statements => exact ⟨statements, rfl⟩
  | _ => exact nomatch h

theorem meets_sequence (hg : Grounded w s T top) (h : self.Handles w s T P)
    (hid : s.tree.Connected top id) (hP : ∀ c ∈ s.tree.children id, P c) :
    Meets w T H (sequence s self id) (s.Resolved (.sequence, id))
      fun ls => ∀ l ∈ ls, Code w l := by
  unfold sequence
  split
  next hnone =>
    refine (Meets.fail _ _ _).iff fun _ _ => ⟨False.elim, fun hresolved => ?_⟩
    obtain ⟨statements, hkind⟩ := kind_of_fits_sequence (Tree.resolved_iff.mp hresolved).1
    rw [Tree.sequence?_eq_some_iff.mpr hkind] at hnone
    exact nomatch hnone
  next statements heq =>
    have hkind := Tree.sequence?_eq_some_iff.mp heq
    have hchildren : s.tree.children id = statements := by
      rw [Tree.children, hkind]
      rfl
    rw [hchildren] at hP
    rw [resolved_sequence_iff hkind]
    exact meets_statementLines hg h (fun c hc => hid.child (by rwa [hchildren])) hP none

end CompilerBackend.Lowering
