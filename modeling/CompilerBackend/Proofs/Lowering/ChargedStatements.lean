import CompilerBackend.Proofs.Lowering.ChargedExpressions
/-!
# What statements charge

The code of a statement reads what its children read, and nothing beyond: a handler that a fetch
skips, the lines of a trace and the markers read no variable. So the lines of a sequence stay
within the fees of its statements, and the lowering of nodes stays within their fees however many
levels deep it goes.

- `charges_fetching`, `charges_catching`: try statements, those that fetch one item included.
- `charges_statementForm`: one case for each kind of statement.
- `charges_sequence`: the lines of a sequence, with what stands between its statements.
- `within_ofDepth`: the lowering of nodes, however many levels deep.
-/

namespace CompilerBackend.LocalAccess

open Target Lowering

variable {a : LocalAccess} {s : Setting} {self : Lowerer} {top id : NodeId} {fee : NodeId → Nat}
  {ids : List NodeId} {o : Option NodeId}

/-- The fees of a try statement cover a fetch that it amounts to. -/
theorem Covers.fetch_le (hg : a.Covers s top fee) {f : Fetch}
    {tried assignment source handler caught : NodeId}
    (hf : f.Amounts s.tree tried assignment source handler caught)
    (htried : s.tree.Connected top tried) (hhandler : s.tree.Connected top handler) :
    fee f.iterator + fee f.branch ≤ fee tried + fee handler := by
  obtain ⟨hassignment, ⟨hsource, -⟩, -, -⟩ := hf.slots
  have hbody := hg.children_le htried
  have hfirst := hg.children_le (htried.child hassignment)
  have hnext := hg.children_le ((htried.child hassignment).child hsource)
  have hcatch := hg.children_le hhandler
  rw [Tree.children, hf.tried] at hbody
  rw [Tree.children, hf.assignment] at hfirst
  rw [Tree.children, hf.source] at hnext
  rw [Tree.children, hf.handler] at hcatch
  simp only [NodeKind.children, Stmt.children, Expr.children, Option.toList_some, fees_append,
    fees_cons, fees_nil] at hbody hfirst hnext hcatch
  omega

section

variable (h : self.Within a s top fee)
include h

/-! ## Raising and catching -/

theorem charges_raising {exceptionType value traceback : Option NodeId}
    (hc : ∀ c ∈ exceptionType.toList ++ value.toList ++ traceback.toList, s.tree.Connected top c) :
    a.Charges (raising s self id exceptionType value traceback) fun code n =>
      a.count code + n ≤ fees fee (exceptionType.toList ++ value.toList ++ traceback.toList) := by
  simp only [List.forall_mem_append, Option.mem_toList] at hc
  obtain ⟨⟨htype, hvalue⟩, htraceback⟩ := hc
  cases exceptionType with
  | none => exact .silent (count_reraiseStatement _)
  | some type =>
      simp only [fees_append, Option.toList_some, fees_cons, fees_nil]
      refine (h.expression (htype type rfl)).bind fun o n ho =>
        (charges_optional h hvalue).bind fun v m hv => ?_
      have hnone : ∀ k, k ≤ fees fee traceback.toList →
          a.count (raiseStatement o v none (some (tracebackMaker (s.tree.location id).line))) +
            (n + (m + k)) ≤
          fee type + 0 + fees fee value.toList + fees fee traceback.toList := by
        intro k hk
        rw [count_raiseStatement, Option.toList_none, usesAll_nil, Option.toList_some, total_cons,
          total_nil, count_tracebackMaker]
        omega
      refine .ite (fun _ => ?_) fun _ => .pure (hnone 0 (Nat.zero_le _))
      refine (charges_optional h htraceback).bind fun tb k htb => ?_
      cases tb with
      | none => exact .pure (hnone (k + 0) (by omega))
      | some tb =>
          refine .pure ?_
          rw [count_raiseStatement, Option.toList_none, total_nil]
          omega

theorem charges_fetching (hg : a.Covers s top fee) {f : Fetch}
    (hiterator : s.tree.Connected top f.iterator) (hbranch : s.tree.Connected top f.branch)
    (htarget : s.tree.Connected top f.target) :
    a.Charges (fetching s self f) fun code n =>
      a.count code + n ≤ fee f.iterator + fee f.branch := by
  refine Charges.takeLoopNumber.bind_free fun n _ => (h.expression hiterator).bind fun o m ho =>
    (h.sequence hbranch).bind fun codes k hcodes =>
      (charges_boundVariable hg htarget).bind_free fun v hv => .pure ?_
  have hitem : a.uses (fetchedItem n) = 0 :=
    count_name (isIdentifier_append (by decide) (isIdentifier_natural n))
  rw [count_fetchOrHandle, count_variableAssignment hg.codeName hv.1, hitem]
  omega

omit h in
theorem charges_handlerBinding (hg : a.Covers s top fee) (ht : ∀ c ∈ o, s.tree.Connected top c) :
    a.Charges (handlerBinding s o) (Free fun ls => a.total ls = 0) := by
  cases o with
  | none => exact .pure ⟨rfl, rfl⟩
  | some target =>
      refine (charges_boundVariable hg (ht target rfl)).bind_free fun v hv => .pure ⟨rfl, ?_⟩
      dsimp only
      rw [total_cons, total_nil, count_variableAssignment hg.codeName hv.1, uses_caughtPart]

theorem charges_handlerChain (hg : a.Covers s top fee) (first : Bool)
    (hc : ∀ c ∈ ids, s.tree.Connected top c) :
    a.Charges (handlerChain s self first ids) fun ls n => a.total ls + n ≤ fees fee ids := by
  induction ids generalizing first with
  | nil => exact .pure (Nat.le_refl 0)
  | cons id rest ih =>
      have hid := hc id List.mem_cons_self
      have hrest := ih false fun c hmem => hc c (List.mem_cons_of_mem id hmem)
      rw [handlerChain]
      split
      next => exact .fail _ _ _
      next handler hhandler =>
        have hkind := Tree.handler?_eq_some_iff.mp hhandler
        have hslots : ∀ c ∈ handler.exceptionTypes ++ handler.target.toList ++
            handler.branch.toList, s.tree.Connected top c := fun c hmem =>
          hid.child (by rwa [Tree.children, hkind])
        have hpaid := hg.children_le hid
        rw [Tree.children, hkind] at hpaid
        simp only [NodeKind.children, fees_append] at hpaid
        simp only [List.forall_mem_append, Option.mem_toList] at hslots
        obtain ⟨⟨htypes, htarget⟩, hbranch⟩ := hslots
        refine (charges_expressions h htypes).bind fun types n htypes =>
          (charges_handlerBinding hg htarget).bind_free fun binding hbinding =>
            (charges_optionalSequence h hbranch).bind fun branch m hbranch =>
              hrest.bind fun others k hothers => .pure ?_
        rw [total_append, total_handlerLines, total_append, hbinding, fees_cons]
        omega

theorem charges_catching (hg : a.Covers s top fee) {tried : NodeId} {handlers : List NodeId}
    {noRaise : Option NodeId}
    (hc : ∀ c ∈ tried :: handlers ++ noRaise.toList, s.tree.Connected top c) :
    a.Charges (Lowering.catching s self tried handlers noRaise) fun code n =>
      a.count code + n ≤ fees fee (tried :: handlers ++ noRaise.toList) := by
  simp only [List.forall_mem_append, List.forall_mem_cons, Option.mem_toList] at hc
  obtain ⟨⟨htried, hhandlers⟩, hnoRaise⟩ := hc
  rw [fees_append, fees_cons]
  unfold Lowering.catching
  split
  next f hfetch =>
    obtain ⟨hiterator, hbranch, htarget⟩ :=
      fetch?_holds (fun hid => hid.child) hfetch htried hhandlers
    obtain ⟨-, assignment, source, handler, caught, rfl, hf⟩ := fetch?_amounts hfetch
    have hpaid := hg.fetch_le hf htried (hhandlers handler List.mem_cons_self)
    refine (charges_fetching h hg hiterator hbranch htarget).imp fun code n hcode => ?_
    rw [fees_cons, fees_nil]
    omega
  next =>
    refine Charges.takeTryNumber.bind_free fun n _ => (h.sequence htried).bind fun body m hbody =>
      (charges_handlerChain h hg true hhandlers).bind fun chain k hchain =>
        (charges_optionalSequence h hnoRaise).bind fun codes i hcodes => .pure ?_
    rw [count_tryExcept]
    omega

/-! ## Statements -/

/-- The lowering of a statement, before its margins are checked. -/
theorem charges_statementForm (hg : a.Covers s top fee) (hid : s.tree.Connected top id) {st : Stmt}
    (hkind : s.tree.kind id = .stmt st) :
    a.Charges (statementForm s self id st) fun code n =>
      a.count code + n ≤ fees fee st.children := by
  have hc : ∀ c ∈ st.children, s.tree.Connected top c := fun c hmem =>
    hid.child (by rwa [Tree.children, hkind])
  cases st with
  | assign target source =>
      refine (h.expression (hc source (by simp [Stmt.children]))).bind fun o n ho =>
        (charges_boundVariable hg (hc target (by simp [Stmt.children]))).bind_free fun v hv =>
          .pure ?_
      rw [count_variableAssignment hg.codeName hv.1]
      simp only [Stmt.children, fees_cons]
      omega
  | assignAttribute source name value =>
      refine (h.expression (hc value (by simp [Stmt.children]))).bind fun v n hv =>
        (h.expression (hc source (by simp [Stmt.children]))).bind fun o m ho =>
          (charges_constant _).bind_free fun k hk => .pure ?_
      simp only [count_attributeAssignment, hk, Stmt.children, fees_cons, fees_nil]
      omega
  | assignSubscript subscribed subscript value =>
      simp only [Stmt.children, List.forall_mem_cons] at hc
      obtain ⟨hvalue, hsubscribed, hsubscript, -⟩ := hc
      exact .ternary (h.expression hvalue) (h.expression hsubscribed) (h.expression hsubscript)
        (fun _ _ _ => .pure ⟨rfl, count_subscriptAssignment⟩) rfl
  | assignSlice source lower upper value =>
      simp only [Stmt.children, List.cons_append, List.forall_mem_cons, List.forall_mem_append,
        Option.mem_toList] at hc
      obtain ⟨hvalue, hsource, hlower, hupper⟩ := hc
      refine (h.expression hvalue).bind fun v n hv =>
        (charges_sliceAssignment h hsource hlower hupper v).imp fun code m hcode => ?_
      simp only [Stmt.children, List.cons_append, fees_cons]
      simp only [fees_cons] at hcode
      omega
  | delete target =>
      exact (charges_boundVariable hg (hc target (by simp [Stmt.children]))).bind_free fun v hv =>
        .silent (count_variableDeletion hg.codeName hv.1)
  | deleteAttribute source name =>
      refine (h.expression (hc source (by simp [Stmt.children]))).bind fun o n ho =>
        (charges_constant _).bind_free fun k hk => .pure ?_
      simp only [count_attributeDeletion, hk, Stmt.children, fees_cons, fees_nil]
      omega
  | deleteSubscript subscribed subscript =>
      simp only [Stmt.children, List.forall_mem_cons] at hc
      obtain ⟨hsubscribed, hsubscript, -⟩ := hc
      exact .binary (h.expression hsubscribed) (h.expression hsubscript)
        (fun _ _ => .pure ⟨rfl, count_subscriptDeletion⟩) rfl
  | deleteSlice source lower upper =>
      simp only [Stmt.children, List.cons_append, List.forall_mem_cons, List.forall_mem_append,
        Option.mem_toList] at hc
      obtain ⟨hsource, hlower, hupper⟩ := hc
      exact charges_sliceDeletion h hsource hlower hupper
  | block body =>
      refine (h.sequence (hc body (by simp [Stmt.children]))).bind fun codes n hcodes => .pure ?_
      simp only [count_braced, Stmt.children, fees_cons, fees_nil]
      omega
  | expression value =>
      refine (h.expression (hc value (by simp [Stmt.children]))).bind fun o n ho => .pure ?_
      simp only [count_expressionStatement, Stmt.children, fees_cons, fees_nil]
      omega
  | print destination values newline =>
      simp only [Stmt.children, List.forall_mem_append, Option.mem_toList] at hc
      obtain ⟨hdestination, hvalues⟩ := hc
      exact .binary (charges_optional h hdestination) (charges_expressions h hvalues)
        (fun _ _ => .pure ⟨rfl, count_print newline⟩) fees_append.symm
  | returnValue value =>
      refine .ite (fun _ => .silent count_generatorEnd) fun _ => ?_
      refine (h.expression (hc value (by simp [Stmt.children]))).bind fun o n ho => .pure ?_
      simp only [count_returnStatement, Stmt.children, fees_cons, fees_nil]
      omega
  | loop body unwinds =>
      simp only [Stmt.children, Option.mem_toList] at hc
      refine (charges_optionalSequence h hc).bind fun codes n hcodes => .pure ?_
      simp only [count_loop, Stmt.children]
      omega
  | conditional condition yes no =>
      simp only [Stmt.children, List.cons_append, List.forall_mem_cons, List.forall_mem_append,
        Option.mem_toList] at hc
      obtain ⟨hcondition, hyes, hno⟩ := hc
      exact .ternary (h.condition false hcondition) (charges_optionalSequence h hyes)
        (charges_optionalSequence h hno) (fun _ _ _ => .pure ⟨rfl, count_branch⟩)
        (by simp [Stmt.children])
  | continueLoop unwinds => exact .silent (count_loopContinue unwinds)
  | breakLoop unwinds => exact .silent (count_loopBreak unwinds)
  | importStar source =>
      refine (h.expression (hc source (by simp [Stmt.children]))).bind fun o n ho => .pure ?_
      simp only [count_importStar hg.codeName, Stmt.children, fees_cons, fees_nil]
      omega
  | tryFinally tried final =>
      refine Charges.takeTryNumber.bind_free fun n _ =>
        (h.sequence (hc tried (by simp [Stmt.children]))).bind fun body m hbody =>
          (h.sequence (hc final (by simp [Stmt.children]))).bind fun last k hlast => .pure ?_
      simp only [count_tryFinally, Stmt.children, fees_cons, fees_nil]
      omega
  | tryExcept tried handlers noRaise => exact charges_catching h hg hc
  | raise exceptionType value traceback => exact charges_raising h hc
  | exec source inGlobals inLocals =>
      refine (charges_evalParts h .exec hc).bind fun e n he => .pure ?_
      rw [count_execution]
      exact he
  | execInline body =>
      refine ((h.sequence (hc body (by simp [Stmt.children]))).inScope _).bind
        fun codes n hcodes => .pure ?_
      simp only [count_braced, Stmt.children, fees_cons, fees_nil]
      omega
  | unpackCheck iterator count =>
      refine (h.expression (hc iterator (by simp [Stmt.children]))).bind fun o n ho => .pure ?_
      simp only [count_unpackCheck, Stmt.children, fees_cons, fees_nil]
      omega
  | declareGlobal names => exact .pure (Nat.zero_le _)

theorem charges_statement (hg : a.Covers s top fee) (hid : s.tree.Connected top id) :
    a.Charges (statement s self id) fun code n => a.count code + n ≤ fee id := by
  unfold statement
  split
  next => exact .fail _ _ _
  next st hst =>
    have hkind := Tree.stmt?_eq_some_iff.mp hst
    have hpaid := hg.children_le hid
    rw [Tree.children, hkind] at hpaid
    exact (charges_statementForm h hg hid hkind).bind fun code n hcode =>
      .ite (fun _ => .pure (hcode.trans hpaid)) fun _ => .fail _ _ _

/-! ## Sequences -/

omit h in
/-- The lines between statements read nothing: those of a trace, and the markers. -/
theorem total_traceLines (hg : a.Covers s top fee) (hid : s.tree.Connected top id) :
    a.total (traceLines s id) = 0 := by
  unfold traceLines
  split
  · rw [total_cons, total_nil, count_traceLine, hg.files hid]
  · rfl

omit h in
theorem total_markerLines (last : Option Location) (place : Location) :
    a.total (markerLines last place) = 0 := by
  unfold markerLines
  split
  · rfl
  · rw [total_cons, total_nil, count_lineMarker]

theorem charges_statementLines (hg : a.Covers s top fee) (hc : ∀ c ∈ ids, s.tree.Connected top c)
    (last : Option Location) :
    a.Charges (statementLines s self last ids) fun ls n => a.total ls + n ≤ fees fee ids := by
  induction ids generalizing last with
  | nil => exact .pure (Nat.le_refl 0)
  | cons id rest ih =>
      have hid := hc id List.mem_cons_self
      have hrest := fun last => ih (fun c hmem => hc c (List.mem_cons_of_mem id hmem)) last
      have htrace := total_traceLines hg hid
      rw [statementLines, fees_cons]
      refine ((charges_statement h hg hid).within _).bind fun code n hcode => ?_
      refine .ite (fun _ => ?_) fun _ => .ite (fun _ => .fail_bind _ _ _) fun _ => ?_
      · refine (hrest last).bind fun others m hothers => .pure ?_
        rw [total_append, htrace]
        omega
      · refine (hrest _).bind fun others m hothers => .pure ?_
        rw [total_append, total_append, total_append, htrace, total_markerLines, total_lines]
        omega

theorem charges_sequence (hg : a.Covers s top fee) (hid : s.tree.Connected top id) :
    a.Charges (Lowering.sequence s self id) fun ls n => a.total ls + n ≤ fee id := by
  unfold Lowering.sequence
  split
  next => exact .fail _ _ _
  next statements hsequence =>
    have hkind := Tree.sequence?_eq_some_iff.mp hsequence
    have hpaid := hg.children_le hid
    rw [Tree.children, hkind] at hpaid
    exact (charges_statementLines h hg
      (fun c hmem => hid.child (by rwa [Tree.children, hkind])) none).imp
        fun ls n hls => hls.trans hpaid

end

/-! ## All levels -/

/-- The induction is on the levels: what a node goes on to is one level down. -/
theorem within_ofDepth (hg : a.Covers s top fee) (levels : Nat) :
    (Lowerer.ofDepth s levels).Within a s top fee := by
  induction levels with
  | zero => exact ⟨fun _ _ _ _ _ hrun => (nomatch hrun), fun _ _ _ _ _ _ hrun => (nomatch hrun),
      fun _ _ _ _ _ hrun => (nomatch hrun)⟩
  | succ levels ih =>
      exact ⟨fun hid => charges_expression ih hg hid,
        fun inverted hid => charges_condition ih hg hid inverted,
        fun hid => charges_sequence ih hg hid⟩

end CompilerBackend.LocalAccess
