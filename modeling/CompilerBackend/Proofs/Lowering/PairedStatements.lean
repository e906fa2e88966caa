import CompilerBackend.Proofs.Lowering.Modules
import CompilerBackend.Proofs.Lowering.PairedExpressions
/-!
# Statements side by side

With and without a trace, the lowering of a statement gives twins, or no code in both cases. The
lines of a trace stand in front of statements, so they are all that two sequences differ in. Of the
slots of a statement, those that are passed over register nothing.

- `Coded`: the code of a statement in two lowerings.
- `paired_statementForm`: one case for each kind of statement.
- `paired_statementLines`: the lines of a trace, and the checks that both lowerings make.
- `pairs_ofDepth`: one induction on the levels, for expressions, conditions and sequences at once.
-/

namespace CompilerBackend

open Target

/-- The wording that knows nothing of names but whether they are plain and in one line. -/
def Wording.lax (plain unbroken : Prop) : Wording where
  program := {}
  stray _ := True
  converts _ := True
  tight := False
  absent c := if c = '\n' then unbroken else False
  plain := plain
  apart := False
  pairs _ _ := True

theorem lax_lax (plain unbroken : Prop) : (Wording.lax plain unbroken).Lax :=
  ⟨fun _ => trivial, fun _ => trivial, id, id⟩

theorem spared_lax {plain unbroken : Prop} {name : String} (h : unbroken → Unbroken name) :
    Spared (Wording.lax plain unbroken) name := by
  intro c hc _ habsent
  change if c = '\n' then unbroken else False at habsent
  split at habsent
  next hfeed => exact absurd (hfeed ▸ hc) (h habsent)
  next => exact habsent.elim

/-- In such a wording only line feeds and what is not plain can stand against a tree. -/
theorem grounded_lax {plain unbroken : Prop} {s : Setting} {top : NodeId}
    (hc : IsIdentifier s.codeName)
    (hfile : unbroken → ∀ n, s.tree.Connected top n → Unbroken (s.tree.location n).file)
    (hnames : ∀ n, s.tree.Connected top n → ∀ name ∈ (s.tree.kind n).names,
      (plain → ∀ c ∈ name.toList, isNameChar c = true) ∧ (unbroken → Unbroken name)) :
    Grounded (Wording.lax plain unbroken) s False top where
  pairs _ _ _ hserving := hserving.2.elim
  tight := False.elim
  codeName := hc.codeNamed
  suits n hn := by
    have hlax := lax_lax plain unbroken
    refine ⟨⟨hlax.calm _, False.elim, spared_lax fun hu => hfile hu n hn⟩, fun name hname => ?_,
      fun _ _ => hlax.calm _, fun _ _ => hlax.worded _, fun _ => hlax.allows _⟩
    obtain ⟨hplain, hunbroken⟩ := hnames n hn name hname
    exact ⟨⟨hlax.calm _, False.elim, spared_lax hunbroken⟩, hplain⟩

/-- The names and file names that the lowering of a node can come to have no line feeds. -/
def Tree.InOneLine (t : Tree) (top : NodeId) : Prop :=
  ∀ n, t.Connected top n → Unbroken (t.location n).file ∧
    ∀ name ∈ (t.kind n).names ++ (t.kind n).titles, Unbroken name

theorem Tree.inOneLine_of_nodes {t : Tree} {top : NodeId} (h : ∀ n ∈ Node.absent :: t.nodes.toList,
    (n.location.file :: (n.kind.names ++ n.kind.titles)).all (!·.toList.contains '\n') = true) :
    t.InOneLine top := by
  intro n _
  have hall := h _ (t.node_mem n)
  simp only [List.all_eq_true, Bool.not_eq_true', List.contains_eq_mem, decide_eq_false_iff_not,
    List.forall_mem_cons] at hall
  exact hall

theorem Tree.InOneLine.grounded {s : Setting} {top : NodeId} (h : s.tree.InOneLine top)
    (hc : IsIdentifier s.codeName) : Grounded (Wording.lax False True) s False top :=
  grounded_lax hc (fun _ n hn => (h n hn).1) fun n hn name hmem =>
    ⟨False.elim, fun _ => (h n hn).2 name (List.mem_append_left _ hmem)⟩

def Coded (w : Wording) (c' c : String) : Prop := (c' = "" ∧ c = "") ∨ Twin w c' c

namespace Lowering

variable {w : Wording} {s : Setting} {b : Bool} {self' self : Lowerer} {top id : NodeId}
  {ids : List NodeId}

/-! ## Slots -/

theorem lowered_stmt {st : Stmt} (hkind : s.tree.kind id = .stmt st) :
    s.tree.lowered id = (st.positions (s.tree.inGenerator id)).map Prod.snd := by
  rw [Tree.lowered, Tree.positions, hkind]

theorem lowered_sequence (hkind : s.tree.kind id = .sequence ids) : s.tree.lowered id = ids := by
  rw [Tree.lowered, Tree.positions, hkind]
  simp

theorem lowered_handler {handler : Handler} (hkind : s.tree.kind id = .handler handler) :
    s.tree.lowered id =
      handler.exceptionTypes ++ handler.target.toList ++ handler.branch.toList := by
  rw [Tree.lowered, Tree.positions, hkind]
  simp

theorem isDefinition_of_not_expr (hkind : ∀ e, s.tree.kind id ≠ .expr e) :
    s.tree.isDefinition id = false := by
  rw [Tree.isDefinition, Tree.functionName?, Tree.className?]
  cases hk : s.tree.kind id with
  | expr e => exact absurd hk (hkind e)
  | _ => rfl

/-- The nodes that a fetch skips define nothing. -/
theorem Fetch.Amounts.defines {f : Fetch} {tried assignment source handler caught : NodeId}
    (h : f.Amounts s.tree tried assignment source handler caught) {log : List NodeId}
    (hlog : s.tree.Defines [f.iterator, f.branch, f.target] log) :
    s.tree.Defines [tried, handler] log := by
  have hsource : s.tree.isDefinition source = false ∧ s.tree.lowered source = [f.iterator] :=
    ⟨isDefinition_eq_false h.source (fun _ => nofun) fun _ => nofun, lowered_expr h.source⟩
  have hcaught : s.tree.isDefinition caught = false ∧ s.tree.lowered caught = [] :=
    ⟨isDefinition_eq_false h.caught (fun _ => nofun) fun _ => nofun, lowered_expr h.caught⟩
  have htried : s.tree.Defines [tried, f.branch] log := by
    refine .fold (isDefinition_of_not_expr (by simp [h.tried])) ?_
    rw [lowered_sequence h.tried]
    refine .fold (isDefinition_of_not_expr (by simp [h.assignment])) ?_
    rw [lowered_stmt h.assignment]
    refine .fold hsource.1 ?_
    rw [hsource.2]
    exact .perm (List.Perm.cons _ (List.Perm.swap _ _ _)) hlog
  refine .perm (List.Perm.swap _ _ _) (.fold (isDefinition_of_not_expr (by simp [h.handler])) ?_)
  rw [lowered_handler h.handler]
  refine .fold hcaught.1 ?_
  rw [hcaught.2]
  exact .perm (List.Perm.swap _ _ _) htried

/-! ## Raising -/

section

variable (hg : Grounded w s False top) (hlax : w.Lax) (hw : w.lined) (h : self'.Pairs s w top self)

include hw h in
theorem paired_raised {value traceback : Option NodeId} {type : Operand}
    (hv : ∀ c ∈ value, s.tree.Connected top c) (ht : ∀ c ∈ traceback, s.tree.Connected top c)
    (htype : type.Fine w) {slots : List NodeId}
    (hslots : slots = value.toList ++ if value.isSome then traceback.toList else []) :
    Paired s.tree w
      (do
        let v ← self'.optional value
        let tb ← if v.isSome then self'.optional traceback else pure none
        match tb with
        | some _ => return raiseStatement type v tb none
        | none =>
          return raiseStatement type v none (some (tracebackMaker (s.tree.location id).line)))
      (do
        let v ← self.optional value
        let tb ← if v.isSome then self.optional traceback else pure none
        match tb with
        | some _ => return raiseStatement type v tb none
        | none =>
          return raiseStatement type v none (some (tracebackMaker (s.tree.location id).line)))
      (s.tree.Defines slots) (Twin w) := by
  have hend : ∀ {v tb : Option Operand}, (∀ o ∈ v, o.Fine w) → (∀ o ∈ tb, o.Fine w) →
      Paired s.tree w
        (match tb with
          | some _ => return raiseStatement type v tb none
          | none =>
            return raiseStatement type v none (some (tracebackMaker (s.tree.location id).line)))
        (match tb with
          | some _ => return raiseStatement type v tb none
          | none =>
            return raiseStatement type v none (some (tracebackMaker (s.tree.location id).line)))
        (s.tree.Defines []) (Twin w) := by
    intro v tb hv htb
    cases tb with
    | some o =>
        exact Paired.pure (Twin.line (line_raiseStatement htype hv htb fun _ hs => nomatch hs) hw)
    | none =>
        refine Paired.pure (Twin.line (line_raiseStatement htype hv (fun _ ho => nomatch ho)
          fun s hs => ?_) hw)
        rw [← Option.some.inj hs]
        exact phrase_tracebackMaker _
  subst hslots
  refine (paired_optional h hv).bind fun v ⟨hv, hsome⟩ => ?_
  dsimp only
  rw [hsome]
  split
  · exact ((paired_optional h ht).bind fun tb htb => hend hv htb.1).list (List.append_nil _)
  · exact (Paired.same (Q := fun tb : Option Operand => tb = none) rfl).bind fun tb htb =>
      hend hv (by simp [htb])

include hw h in
/-- What is behind an absent part is passed over. -/
theorem paired_raising {exceptionType value traceback : Option NodeId}
    (hc : ∀ c ∈ exceptionType.toList ++ value.toList ++ traceback.toList, s.tree.Connected top c)
    (inGenerator : Bool) :
    Paired s.tree w (raising (s.tracing b) self' id exceptionType value traceback)
      (raising s self id exceptionType value traceback)
      (s.tree.Defines (((Stmt.raise exceptionType value traceback).positions inGenerator).map
        Prod.snd)) (Twin w) := by
  simp only [List.forall_mem_append, Option.mem_toList] at hc
  obtain ⟨⟨htype, hvalue⟩, htraceback⟩ := hc
  cases exceptionType with
  | none => exact Paired.pure (Twin.line (line_reraiseStatement _) hw)
  | some type =>
      refine ((h.expression (htype type rfl)).bind fun o ho =>
        paired_raised hw h hvalue htraceback ho rfl).list ?_
      cases value <;> simp [Stmt.positions]

/-! ## Catching -/

include hg hw h in
theorem paired_fetching {f : Fetch} (hiterator : s.tree.Connected top f.iterator)
    (hbranch : s.tree.Connected top f.branch) (htarget : s.tree.Connected top f.target) :
    Paired s.tree w (fetching (s.tracing b) self' f) (fetching s self f)
      (s.tree.Defines [f.iterator, f.branch, f.target]) (Twin w) :=
  Paired.takeLoopNumber.bind fun n _ => (h.expression hiterator).bind fun _ ho =>
    (h.sequence hbranch).bind_rel fun _ _ hcodes => (paired_target hg htarget).bind fun _ hv =>
      Paired.pure (twin_fetchOrHandle hw n ho hcodes
        (line_variableAssignment hg.codeName hv (fine_fetchedItem n)))

include hg in
theorem paired_handlerBinding {target : Option NodeId}
    (ht : ∀ c ∈ target, s.tree.Connected top c) :
    Paired s.tree w (handlerBinding (s.tracing b) target) (handlerBinding s target)
      (s.tree.Defines target.toList) (Same fun ls => ∀ l ∈ ls, Line w l) := by
  cases target with
  | none => exact Paired.same fun _ hl => nomatch hl
  | some id =>
      refine (paired_target hg (ht id rfl)).bind fun v hv => Paired.same fun l hl => ?_
      rw [List.mem_singleton.mp hl]
      exact line_variableAssignment hg.codeName hv (fine_caughtPart .value)

include hg hw h in
theorem paired_handlerChain (first : Bool) (hc : ∀ c ∈ ids, s.tree.Connected top c) :
    Paired s.tree w (handlerChain (s.tracing b) self' first ids) (handlerChain s self first ids)
      (s.tree.Defines ids) (Twins w) := by
  induction ids generalizing first with
  | nil => exact Paired.pure Twins.nil
  | cons id rest ih =>
      have hrest := ih false fun c hmem => hc c (List.mem_cons_of_mem id hmem)
      have hid := hc id List.mem_cons_self
      rw [handlerChain, handlerChain]
      cases hhandler : s.tree.handler? id with
      | none =>
          rw [show (s.tracing b).tree.handler? id = none from hhandler]
          exact Paired.fail _ _
      | some handler =>
          rw [show (s.tracing b).tree.handler? id = some handler from hhandler]
          have hkind := Tree.handler?_eq_some_iff.mp hhandler
          have hslots : ∀ c ∈ handler.exceptionTypes ++ handler.target.toList ++
              handler.branch.toList, s.tree.Connected top c := fun c hmem =>
            hid.child (by rwa [Tree.children, hkind])
          simp only [List.forall_mem_append, Option.mem_toList] at hslots
          obtain ⟨⟨htypes, htarget⟩, hbranch⟩ := hslots
          refine Paired.fold ?_ (isDefinition_of_not_expr (by simp [hkind]))
          rw [lowered_handler hkind]
          refine ((paired_expressions h htypes).bind fun types htypes =>
            (paired_handlerBinding hg htarget).bind fun binding hbinding =>
              (paired_optionalSequence h hbranch).bind_rel fun branch' branch hbranch =>
                hrest.bind_rel fun others' others hothers => Paired.pure ?_).list ?_
          · exact (twins_handlerLines hw htypes ((Twins.lined hbinding hw).append
              (twins_getD hbranch)) first).append hothers
          · simp

include hg hw h in
theorem paired_catching (hid : s.tree.Connected top id) {tried : NodeId} {handlers : List NodeId}
    {noRaise : Option NodeId} (hkind : s.tree.kind id = .stmt (.tryExcept tried handlers noRaise)) :
    Paired s.tree w (catching (s.tracing b) self' tried handlers noRaise)
      (catching s self tried handlers noRaise)
      (s.tree.Defines (tried :: handlers ++ noRaise.toList)) (Twin w) := by
  have hc : ∀ c ∈ tried :: handlers ++ noRaise.toList, s.tree.Connected top c := fun c hmem =>
    hid.child (by rwa [Tree.children, hkind])
  simp only [List.forall_mem_append, List.forall_mem_cons, Option.mem_toList] at hc
  obtain ⟨⟨htried, hhandlers⟩, hnoRaise⟩ := hc
  unfold catching
  cases hfetch : fetch? s.tree tried handlers noRaise with
  | some f =>
      rw [show fetch? (s.tracing b).tree tried handlers noRaise = some f from hfetch]
      obtain ⟨hiterator, hbranch, htarget⟩ :=
        fetch?_holds (fun hid => hid.child) hfetch htried hhandlers
      obtain ⟨rfl, assignment, source, handler, caught, rfl, hf⟩ := fetch?_amounts hfetch
      exact (paired_fetching hg hw h hiterator hbranch htarget).weaken (fun _ => hf.defines)
        fun _ _ hR => hR
  | none =>
      rw [show fetch? (s.tracing b).tree tried handlers noRaise = none from hfetch]
      refine (Paired.takeTryNumber.bind fun n _ => (h.sequence htried).bind_rel fun _ _ hbody =>
        (paired_handlerChain hg hw h true hhandlers).bind_rel fun _ _ hchain =>
          (paired_optionalSequence h hnoRaise).bind_rel fun _ _ hotherwise => Paired.pure
            (twin_tryExcept hw n hbody hchain hotherwise)).list ?_
      simp

/-! ## Statements -/

theorem coded_of_twin {step' step : Lower String} {slots : List NodeId}
    (hs : Paired s.tree w step' step (s.tree.Defines slots) (Twin w)) :
    Paired s.tree w step' step (s.tree.Defines slots) (Coded w) := hs.imp fun _ _ => Or.inr

include hw in
theorem coded_of_line {step' step : Lower String} {slots : List NodeId}
    (hs : Paired s.tree w step' step (s.tree.Defines slots) (Same (Line w))) :
    Paired s.tree w step' step (s.tree.Defines slots) (Coded w) := by
  refine hs.imp fun c' c hc => Or.inr ?_
  obtain ⟨rfl, hc⟩ := hc
  exact Twin.line hc hw

include hw h in
theorem paired_returnValue {value : NodeId} (hc : s.tree.Connected top value) :
    Paired s.tree w (statementForm (s.tracing b) self' id (.returnValue value))
      (statementForm s self id (.returnValue value))
      (s.tree.Defines (((Stmt.returnValue value).positions (s.tree.inGenerator id)).map Prod.snd))
      (Twin w) := by
  rw [statementForm, statementForm]
  cases hgenerator : s.tree.inGenerator id with
  | true =>
      have hinside : (s.tree.enclosingFunction? id).any (·.isGenerator) = true := hgenerator
      rw [show (s.tracing b).tree = s.tree from rfl, hinside]
      exact Paired.pure (Twin.line line_generatorEnd hw)
  | false =>
      have hinside : (s.tree.enclosingFunction? id).any (·.isGenerator) = false := hgenerator
      rw [show (s.tracing b).tree = s.tree from rfl, hinside]
      exact (h.expression hc).bind fun _ ho => Paired.pure (Twin.line (line_returnStatement ho) hw)

include hg hlax hw h in
/-- The lowering of a statement, before its margins are checked. -/
theorem paired_statementForm (hid : s.tree.Connected top id) {st : Stmt}
    (hkind : s.tree.kind id = .stmt st) :
    Paired s.tree w (statementForm (s.tracing b) self' id st) (statementForm s self id st)
      (s.tree.Defines ((st.positions (s.tree.inGenerator id)).map Prod.snd)) (Coded w) := by
  have hc : ∀ c ∈ st.children, s.tree.Connected top c := fun c hmem =>
    hid.child (by rwa [Tree.children, hkind])
  have hline : ∀ {c : String}, Line w c →
      Paired s.tree w (pure c : Lower String) (pure c) (s.tree.Defines []) (Coded w) := fun hl =>
    Paired.pure (Or.inr (Twin.line hl hw))
  cases st with
  | assign target source =>
      exact (h.expression (hc source (by simp [Stmt.children]))).bind fun _ ho =>
        (paired_target hg (hc target (by simp [Stmt.children]))).bind fun _ hv =>
          hline (line_variableAssignment hg.codeName hv ho)
  | assignAttribute source name value =>
      exact (h.expression (hc value (by simp [Stmt.children]))).bind fun _ hv =>
        (h.expression (hc source (by simp [Stmt.children]))).bind fun _ ho =>
          (paired_constant hlax _).bind fun _ hn => hline (line_attributeAssignment ho hn hv)
  | assignSubscript subscribed subscript value =>
      exact (h.expression (hc value (by simp [Stmt.children]))).bind fun _ hv =>
        (h.expression (hc subscribed (by simp [Stmt.children]))).bind fun _ ho =>
          (h.expression (hc subscript (by simp [Stmt.children]))).bind fun _ hi =>
            hline (line_subscriptAssignment ho hi hv)
  | assignSlice source lower upper value =>
      simp only [Stmt.children, List.cons_append, List.forall_mem_cons, List.forall_mem_append,
        Option.mem_toList] at hc
      obtain ⟨hvalue, hsource, hlower, hupper⟩ := hc
      refine ((h.expression hvalue).bind fun v hv => coded_of_line hw
        (paired_sliceAssignment h hsource hlower hupper hv)).list ?_
      simp [Stmt.positions, Stmt.children]
  | delete target =>
      exact (paired_target hg (hc target (by simp [Stmt.children]))).bind fun _ hv =>
        hline (line_variableDeletion hg.codeName hv)
  | deleteAttribute source name =>
      exact (h.expression (hc source (by simp [Stmt.children]))).bind fun _ ho =>
        (paired_constant hlax _).bind fun _ hn => hline (line_attributeDeletion ho hn)
  | deleteSubscript subscribed subscript =>
      exact (h.expression (hc subscribed (by simp [Stmt.children]))).bind fun _ ho =>
        (h.expression (hc subscript (by simp [Stmt.children]))).bind fun _ hi =>
          hline (line_subscriptDeletion ho hi)
  | deleteSlice source lower upper =>
      simp only [Stmt.children, List.cons_append, List.forall_mem_cons, List.forall_mem_append,
        Option.mem_toList] at hc
      refine (coded_of_line hw (paired_sliceDeletion h hc.1 hc.2.1 hc.2.2)).list ?_
      simp [Stmt.positions, Stmt.children]
  | block body =>
      exact (h.sequence (hc body (by simp [Stmt.children]))).bind_rel fun _ _ hcodes =>
        Paired.pure (Or.inr (Twin.braced hcodes))
  | expression value =>
      exact (h.expression (hc value (by simp [Stmt.children]))).bind fun _ ho =>
        hline (line_expressionStatement ho)
  | print destination values newline =>
      simp only [Stmt.children, List.forall_mem_append, Option.mem_toList] at hc
      have hprint : ∀ {d : Option Operand} {os : List Operand}, (∀ o ∈ d, o.Fine w) →
          (∀ o ∈ os, o.Fine w) → Coded w (print d os newline) (print d os newline) :=
        fun hd hos => (twin_print hw hd hos newline).imp_left fun he => ⟨he, he⟩
      refine ((paired_optional h hc.1).bind fun _ hd => (paired_expressions h hc.2).bind
        fun _ hos => Paired.pure (hprint hd.1 hos)).list ?_
      simp [Stmt.positions, Stmt.children]
  | returnValue value =>
      exact coded_of_twin (paired_returnValue hw h (hc value (by simp [Stmt.children])))
  | loop body unwinds =>
      simp only [Stmt.children, Option.mem_toList] at hc
      refine ((paired_optionalSequence h hc).bind_rel fun codes' codes hcodes =>
        Paired.pure ?_).list (l := body.toList ++ []) ?_
      · cases hcodes with
        | none => exact Or.inr (twin_loop hw Twins.nil unwinds)
        | some hcodes => exact Or.inr (twin_loop hw hcodes unwinds)
      · simp [Stmt.positions]
  | conditional condition yes no =>
      simp only [Stmt.children, List.cons_append, List.forall_mem_cons, List.forall_mem_append,
        Option.mem_toList] at hc
      obtain ⟨hcondition, hyes, hno⟩ := hc
      refine ((h.condition false hcondition).bind fun c hc => (paired_optionalSequence h hyes).bind_rel
        fun yes' yes hyes => (paired_optionalSequence h hno).bind_rel fun no' no hno =>
          Paired.pure ?_).list (l := condition :: (yes.toList ++ (no.toList ++ []))) ?_
      · cases hyes with
        | none => exact Or.inr (twin_branch hw hc.phrase Twins.nil hno)
        | some hyes => exact Or.inr (twin_branch hw hc.phrase hyes hno)
      · simp [Stmt.positions]
  | continueLoop unwinds => exact hline (line_loopContinue unwinds)
  | breakLoop unwinds => exact hline (line_loopBreak unwinds)
  | importStar source =>
      exact (h.expression (hc source (by simp [Stmt.children]))).bind fun _ ho =>
        hline (line_importStar hg.codeName ho)
  | tryFinally tried final =>
      exact Paired.takeTryNumber.bind fun n _ =>
        (h.sequence (hc tried (by simp [Stmt.children]))).bind_rel fun _ _ hbody =>
          (h.sequence (hc final (by simp [Stmt.children]))).bind_rel fun _ _ hlast =>
            Paired.pure (Or.inr (twin_tryFinally hw n hbody hlast))
  | tryExcept tried handlers noRaise =>
      refine coded_of_twin ((paired_catching hg hw h hid hkind).list ?_)
      simp [Stmt.positions]
  | raise exceptionType value traceback =>
      exact coded_of_twin (paired_raising hw h hc _)
  | exec source inGlobals inLocals =>
      refine ((paired_evalParts hlax h .exec hc).bind fun _ hp => hline (line_execution hp)).list ?_
      simp [Stmt.positions, Stmt.children]
  | execInline body =>
      exact ((h.sequence (hc body (by simp [Stmt.children]))).inScope .inline).bind_rel
        fun _ _ hcodes => Paired.pure (Or.inr (Twin.braced hcodes))
  | unpackCheck iterator count =>
      exact (h.expression (hc iterator (by simp [Stmt.children]))).bind fun _ ho =>
        hline (line_unpackCheck count ho)
  | declareGlobal names => exact Paired.pure (Or.inl ⟨rfl, rfl⟩)

include hg hlax hw h in
theorem paired_statement (hid : s.tree.Connected top id) :
    Paired s.tree w (statement (s.tracing b) self' id) (statement s self id)
      (s.tree.Defines [id]) (Coded w) := by
  unfold statement
  cases hst : s.tree.stmt? id with
  | none =>
      rw [show (s.tracing b).tree.stmt? id = none from hst]
      exact Paired.fail _ _
  | some st =>
      rw [show (s.tracing b).tree.stmt? id = some st from hst]
      have hkind := Tree.stmt?_eq_some_iff.mp hst
      have hform := paired_statementForm (b := b) hg hlax hw h hid hkind
      rw [← lowered_stmt hkind] at hform
      refine ((hform.node (isDefinition_of_not_expr (by simp [hkind]))).bind_rel (m := [])
        fun c' c hc => ?_).list (List.append_nil _)
      have hmargins : Text.hasNoMargin c' = true ∧ Text.hasNoMargin c = true := by
        rcases hc with ⟨rfl, rfl⟩ | hc
        · decide
        · exact ⟨hc.traced.hasNoMargin, hc.plain.hasNoMargin⟩
      rw [if_pos hmargins.1, if_pos hmargins.2]
      exact Paired.pure hc

/-! ## Sequences -/

include hg in
/-- The lines of a trace are all that the traced lowering has in front of a statement. -/
theorem twins_traceLines (hb : b = true → w.unbroken) (hplain : s.options.traceExecution = false)
    (hid : s.tree.Connected top id) :
    Twins w (traceLines (s.tracing b) id) (traceLines s id) := by
  unfold traceLines
  rw [show (s.tracing b).options.traceExecution = b from rfl, hplain]
  cases b with
  | false => exact Twins.nil
  | true => exact Twins.trace (hg.suits id hid).file (hb rfl)

include hw in
theorem twins_markerLines (last : Option Location) (place : Location) :
    Twins w (markerLines last place) (markerLines last place) := by
  unfold markerLines
  split
  · exact Twins.nil
  · exact Twins.firm (line_lineMarker place).firm hw

include hg hlax hw h in
theorem paired_statementLines (hb : b = true → w.unbroken)
    (hplain : s.options.traceExecution = false) (hc : ∀ c ∈ ids, s.tree.Connected top c)
    (last : Option Location) :
    Paired s.tree w (statementLines (s.tracing b) self' last ids) (statementLines s self last ids)
      (s.tree.Defines ids) (Twins w) := by
  induction ids generalizing last with
  | nil => exact Paired.pure Twins.nil
  | cons id rest ih =>
      have hid := hc id List.mem_cons_self
      have hrest := fun last => ih (fun c hmem => hc c (List.mem_cons_of_mem id hmem)) last
      have htrace := twins_traceLines hg hb hplain hid
      have hstatement : Paired s.tree w
          (Lower.within ⟨(s.tree.kind id).kindName, s.tree.location id⟩
            (statement (s.tracing b) self' id))
          (Lower.within ⟨(s.tree.kind id).kindName, s.tree.location id⟩ (statement s self id))
          (s.tree.Defines [id]) (Coded w) := (paired_statement hg hlax hw h hid).within _
      rw [statementLines, statementLines]
      refine hstatement.bind_rel fun code' code hcode => ?_
      rcases hcode with ⟨rfl, rfl⟩ | hcode
      · exact ((hrest last).bind_rel fun _ _ hothers => Paired.pure (htrace.append hothers)).list
          (List.append_nil _)
      · have hlines := hcode.part.lines
        have hsome : ∀ {c : String}, Stated c → ¬ c.isEmpty = true := fun hc he =>
          hc.ne_empty (String.isEmpty_iff.mp he)
        have hsolid : ∀ {ls : List String}, (∀ l ∈ ls, CodeLine l) →
            ¬ ls.any Text.isBlankText = true := fun hls hblank => by
          obtain ⟨l, hl, hl'⟩ := List.any_eq_true.mp hblank
          rw [(hls l hl).solid] at hl'
          exact Bool.noConfusion hl'
        rw [if_neg (hsome hcode.traced), if_neg (hsome hcode.plain)]
        dsimp only
        rw [if_neg (hsolid hlines.lines), if_neg (hsolid hlines.plain_lines)]
        refine ((hrest _).bind_rel fun _ _ hothers => Paired.pure ?_).list (List.append_nil _)
        exact ((htrace.append (twins_markerLines hw last _)).append hlines).append hothers

include hg hlax hw h in
theorem paired_sequence (hb : b = true → w.unbroken) (hplain : s.options.traceExecution = false)
    (hid : s.tree.Connected top id) :
    Paired s.tree w (sequence (s.tracing b) self' id) (sequence s self id)
      (s.tree.Defines [id]) (Twins w) := by
  unfold sequence
  cases hsequence : s.tree.sequence? id with
  | none =>
      rw [show (s.tracing b).tree.sequence? id = none from hsequence]
      exact Paired.fail _ _
  | some statements =>
      rw [show (s.tracing b).tree.sequence? id = some statements from hsequence]
      have hkind := Tree.sequence?_eq_some_iff.mp hsequence
      refine Paired.node ?_ (isDefinition_of_not_expr (by simp [hkind]))
      rw [lowered_sequence hkind]
      exact paired_statementLines hg hlax hw h hb hplain
        (fun c hmem => hid.child (by rwa [Tree.children, hkind])) none

end

/-! ## All levels -/

theorem grounded_onto (hg : Grounded w s False top) (hlax : w.Lax) (p : Program) :
    Grounded (w.onto p) s False top where
  pairs _ _ _ hserving := absurd hserving.2 hlax.apart
  tight := False.elim
  codeName := hlax.codeNamed hg.codeName
  suits n hn := hlax.suits (hg.suits n hn)

/-- The induction is on the levels. What the plain lowering gives is known apart from the other. -/
theorem pairs_ofDepth (hg : Grounded w s False top) (hlax : w.Lax) (hw : w.lined)
    (hb : b = true → w.unbroken) (hplain : s.options.traceExecution = false) (levels : Nat) :
    (Lowerer.ofDepth (s.tracing b) levels).Pairs s w top (Lowerer.ofDepth s levels) := by
  have hmeets : ∀ p n, Reaching (w.onto p) s False top n := fun p n =>
    meets_ofDepth (grounded_onto hg hlax p) n
  induction levels with
  | zero => exact ⟨fun _ => Paired.throws _, fun _ _ => Paired.throws _, fun _ => Paired.throws _⟩
  | succ levels ih =>
      refine ⟨fun hid => ?_, fun inverted hid => ?_, fun hid => ?_⟩
      · exact ((paired_expression hlax ih hg hw hid).and_meets hlax fun p =>
          ((hmeets p (levels + 1)).expression hid).imp fun _ _ => hlax.fine).imp
            fun _ _ ho => ⟨ho.1.1, ho.2⟩
      · exact ((paired_condition ih hid inverted).and_meets hlax fun p =>
          ((hmeets p (levels + 1)).condition inverted hid).imp fun _ _ => hlax.term).imp
            fun _ _ hc => ⟨hc.1.1, hc.2⟩
      · exact paired_sequence hg hlax hw ih hb hplain hid

end Lowering
end CompilerBackend
