import CompilerBackend.Proofs.Lowering.Kept
import CompilerBackend.Proofs.Lowering.PairedStatements
import CompilerBackend.Proofs.Lowering.Printing
import CompilerBackend.Proofs.Lowering.Runs
/-!
# Names drawn from the counters

A temporary is named after a number that a counter of the counting scope hands out. Between two
states of affairs the names that code declares are each for a number handed out in between, so
what comes later never declares one of them again. Expressions declare nothing themselves, since
functions and classes count for bodies of their own.

- `Tally`: the names of the code that is made between two states of affairs.
- `Tallies`: a lowering gives code with such names; `Tallies.bind`, `Tallies.inline`, … are its
  rules.
- `tallies_statementForm`: one case for each kind of statement.
- `tallying_ofDepth`: the lowering of sequences, however many levels deep.
- `nodup_body`: the codes of a body declare no name twice.
-/

namespace CompilerBackend

open Target Lowering

/-! ## Names and numbers -/

def Counter.temporary : Counter → Nat → String
  | .tries => caughtFlag
  | .loops => fetchedVariable

theorem Counter.temporary_inj {c d : Counter} {n m : Nat} (h : c.temporary n = d.temporary m) :
    c = d ∧ n = m := by
  have hnumber : ∀ {a : String}, a ++ toString n = a ++ toString m → n = m := by
    intro a ha
    have hchars := congrArg String.toList ha
    rw [String.toList_append, String.toList_append, List.append_cancel_left_eq] at hchars
    exact Nat.repr_injective (String.toList_inj.mp hchars)
  have hinitial := congrArg (fun s : String => s.toList[1]?) h
  cases c <;> cases d
  · exact ⟨rfl, hnumber h⟩
  · simp [temporary, caughtFlag, fetchedVariable] at hinitial
  · simp [temporary, caughtFlag, fetchedVariable] at hinitial
  · exact ⟨rfl, hnumber h⟩

def Progress.count (g : Progress) (counter : Counter) : Nat := g.scopes.counting.count counter

/-- Each name is for a number that was handed out between two states of affairs, and none is there
twice. -/
structure Tally (g g' : Progress) (names : List String) : Prop where
  advances : g.AdvancesTo g'
  drawn : ∀ name ∈ names, ∃ counter n, name = Counter.temporary counter n ∧
    g.count counter < n ∧ n ≤ g'.count counter
  distinct : names.Nodup

namespace Tally

variable {g g' g'' : Progress} {names more : List String}

theorem nil (h : g.AdvancesTo g') : Tally g g' [] where
  advances := h
  drawn _ hname := nomatch hname
  distinct := List.nodup_nil

/-- Numbers that were handed out later are higher. -/
theorem append (h : Tally g g' names) (h' : Tally g' g'' more) : Tally g g'' (names ++ more) where
  advances := Progress.Closed.trans h.advances h'.advances
  drawn name hname := by
    rcases List.mem_append.mp hname with hname | hname
    · obtain ⟨counter, n, rfl, hlow, hhigh⟩ := h.drawn name hname
      exact ⟨counter, n, rfl, hlow, hhigh.trans (h'.advances.scopes.count_le counter)⟩
    · obtain ⟨counter, n, rfl, hlow, hhigh⟩ := h'.drawn name hname
      exact ⟨counter, n, rfl, (h.advances.scopes.count_le counter).trans_lt hlow, hhigh⟩
  distinct := by
    refine List.nodup_append.mpr ⟨h.distinct, h'.distinct, ?_⟩
    rintro name hname _ hmore rfl
    obtain ⟨counter, n, rfl, -, hhigh⟩ := h.drawn name hname
    obtain ⟨counter', m, heq, hlow, -⟩ := h'.drawn _ hmore
    obtain ⟨rfl, rfl⟩ := Counter.temporary_inj heq
    exact absurd hhigh hlow.not_ge

/-- A number that has just been handed out. -/
theorem single {c : Counter} (h : g.AdvancesTo g')
    (hcount : g'.count c = g.count c + 1) :
    Tally g g' [c.temporary (g.count c + 1)] where
  advances := h
  drawn name hname := by
    rw [List.mem_singleton.mp hname]
    exact ⟨c, _, rfl, Nat.lt_succ_self _, hcount.ge⟩
  distinct := List.nodup_singleton _

/-- Inline code counts for the body around it. -/
theorem inline (h : Tally { g with scopes := g.scopes.push .inline } g' names) :
    Tally g { g' with scopes := g'.scopes.pop } names where
  advances := Progress.Closed.inScope h.advances
  drawn name hname := by
    obtain ⟨counter, n, rfl, hlow, hhigh⟩ := h.drawn name hname
    refine ⟨counter, n, rfl, hlow, hhigh.trans_eq ?_⟩
    exact (h.advances.scopes.count_pop_inline counter).symm
  distinct := h.distinct

end Tally

/-! ## The judgement -/

/-- From a well-formed program a lowering comes to one again, and what it gives is related to names
that were drawn on the way. -/
def Tallies {α : Type} (step : Lower α) (R : α → List String → Prop) : Prop :=
  ∀ ⦃g a g'⦄, g.program.WellFormed → RunsTo step g a g' →
    g'.program.WellFormed ∧ ∃ names, R a names ∧ Tally g g' names

def Still {α : Type} (Q : α → Prop) (a : α) (names : List String) : Prop := names = [] ∧ Q a

def Declares (code : String) (names : List String) : Prop := temporaries code = names

def DeclareAll (codes names : List String) : Prop := codes.flatMap temporaries = names

namespace Tallies

variable {α β : Type} {step : Lower α} {next : α → Lower β} {R S : α → List String → Prop}
  {T : β → List String → Prop} {Q : α → Prop} {a : α}

theorem pure (h : R a []) : Tallies (Pure.pure a : Lower α) R := by
  intro g b g' hwf hrun
  obtain ⟨rfl, rfl⟩ := runsTo_pure_iff.mp hrun
  exact ⟨hwf, [], h, .nil (Progress.Closed.refl g')⟩

theorem fail (t : Tree) (id : NodeId) (cause : Cause) :
    Tallies (Lower.fail t id cause : Lower α) R :=
  fun _ _ _ _ hrun => absurd hrun not_runsTo_fail

/-- Nothing comes after a stop. -/
theorem fail_bind (t : Tree) (id : NodeId) (cause : Cause) :
    Tallies (Lower.fail t id cause >>= next) T := by
  intro g b g' hwf hrun
  obtain ⟨_, _, hfail, -⟩ := runsTo_bind_iff.mp hrun
  exact absurd hfail not_runsTo_fail

/-- The names of what comes next stand behind. -/
theorem bind (hs : Tallies step R)
    (hn : ∀ a names, R a names → Tallies (next a) fun b more => T b (names ++ more)) :
    Tallies (step >>= next) T := by
  intro g b g'' hwf hrun
  obtain ⟨a, g', hstep, hnext⟩ := runsTo_bind_iff.mp hrun
  obtain ⟨hwf', names, ha, htally⟩ := hs hwf hstep
  obtain ⟨hwf'', more, hb, htally'⟩ := hn a names ha hwf' hnext
  exact ⟨hwf'', names ++ more, hb, htally.append htally'⟩

/-- A step that declares nothing. -/
theorem bind_still (hs : Tallies step (Still Q)) (hn : ∀ a, Q a → Tallies (next a) T) :
    Tallies (step >>= next) T := by
  refine hs.bind fun a names h => ?_
  obtain ⟨rfl, ha⟩ := h
  exact hn a ha

theorem imp (hs : Tallies step R) (h : ∀ a names, R a names → S a names) : Tallies step S := by
  intro g a g' hwf hrun
  obtain ⟨hwf', names, ha, htally⟩ := hs hwf hrun
  exact ⟨hwf', names, h a names ha, htally⟩

theorem ite {c : Prop} [Decidable c] {other : Lower α} (hyes : c → Tallies step R)
    (hno : ¬ c → Tallies other R) : Tallies (if c then step else other) R := by
  split
  next hc => exact hyes hc
  next hc => exact hno hc

theorem within (hs : Tallies step R) (place : PathStep) : Tallies (Lower.within place step) R :=
  fun _ _ _ hwf hrun => hs hwf (runsTo_within_iff.mp hrun)

theorem inline (hs : Tallies step R) : Tallies (Lower.inScope .inline step) R := by
  intro g a g' hwf hrun
  obtain ⟨ha, rfl⟩ := Prod.mk.inj hrun
  obtain ⟨hwf', names, hR, htally⟩ := hs (g := { g with scopes := g.scopes.push .inline }) hwf
    (Prod.ext ha rfl)
  exact ⟨hwf', names, hR, htally.inline⟩

/-! ## Numbers -/

theorem takeTryNumber :
    Tallies (Lower.onScopes ScopeStack.takeTryNumber) fun n names => names = [caughtFlag n] := by
  intro g n g' hwf hrun
  obtain ⟨hn, rfl⟩ := Prod.mk.inj hrun
  obtain rfl : g.count .tries + 1 = n := Except.ok.inj hn
  refine ⟨hwf, _, rfl, .single (c := .tries) (Progress.Closed.takeTryNumber g) ?_⟩
  exact congrArg (·.count .tries)
    (ScopeStack.AdvancesTo.takeTryNumber g.scopes).counting_modifyCounting

theorem takeLoopNumber :
    Tallies (Lower.onScopes ScopeStack.takeLoopNumber) fun n names =>
      names = [fetchedVariable n] := by
  intro g n g' hwf hrun
  obtain ⟨hn, rfl⟩ := Prod.mk.inj hrun
  obtain rfl : g.count .loops + 1 = n := Except.ok.inj hn
  refine ⟨hwf, _, rfl, .single (c := .loops) (Progress.Closed.takeLoopNumber g) ?_⟩
  exact congrArg (·.count .loops)
    (ScopeStack.AdvancesTo.takeLoopNumber g.scopes).counting_modifyCounting

/-! ## What declares nothing -/

theorem of_keeps (hk : step.Keeps Progress.AdvancesTo) (h : ∀ g, g.program.WellFormed →
    (step.run g).2.program.WellFormed ∧ ∀ a, (step.run g).1 = .ok a → Q a) :
    Tallies step (Still Q) := by
  intro g a g' hwf hrun
  have hadvances := hk g
  obtain ⟨hwf', ha⟩ := h g hwf
  rw [hrun] at hadvances hwf' ha
  exact ⟨hwf', [], ⟨rfl, ha a rfl⟩, .nil hadvances⟩

theorem intern {first : Interning α} (h : ∀ p : Program, p.WellFormed →
    (first p).2.WellFormed ∧ Q (first p).1) (ha : Adds first) :
    Tallies (Lower.intern first) (Still Q) := by
  refine of_keeps (.intern ha) fun g hwf => ?_
  obtain ⟨hwf', hQ⟩ := h g.program hwf
  exact ⟨hwf', fun a ha => Except.ok.inj ha ▸ hQ⟩

/-- A number that nothing is named after. -/
theorem takeTryNumber_unused :
    Tallies (Lower.onScopes ScopeStack.takeTryNumber) (Still fun _ => True) :=
  of_keeps .takeTryNumber fun _ hwf => ⟨hwf, fun _ _ => trivial⟩

/-- What is known of two lowerings side by side is known of the first one. -/
theorem still {t : Tree} {w : Wording} {step' : Lower α} {logs : List NodeId → Prop}
    (hp : Paired t w step' step logs (Same Q)) (hk : step'.Keeps Progress.AdvancesTo) :
    Tallies step' (Still Q) := by
  intro g a g' hwf hrun
  obtain ⟨hwf', _, rfl, ha⟩ := hp.runs hwf hrun
  have hadvances := hk g
  rw [hrun] at hadvances
  exact ⟨hwf', [], ⟨rfl, ha⟩, .nil hadvances⟩

/-- What a lowering gives if the program after it is well-formed. -/
theorem and_gives (hs : Tallies step (Still Q)) {Q' : α → Prop} (hg : Gives step Q') :
    Tallies step (Still fun a => Q a ∧ Q' a) := by
  intro g a g' hwf hrun
  obtain ⟨hwf', names, ⟨hnames, ha⟩, htally⟩ := hs hwf hrun
  refine ⟨hwf', names, ⟨hnames, ha, hg g ?_ a ?_⟩, htally⟩
  · rw [hrun]
    exact hwf'
  · rw [hrun]

end Tallies

/-- What is made so far, and what one statement of a lowering goes on to: side by side with the one
without a trace, it leaves the scopes as they were, and its sequences draw what they declare. -/
structure Lowerer.Tallying (s : Setting) (w : Wording) (top : NodeId) (lowerer' lowerer : Lowerer) :
    Prop where
  pairs : lowerer'.Pairs s w top lowerer
  keeps : lowerer'.Keeps Progress.AdvancesTo fun _ => True
  gives : ∀ id, CompilerBackend.Gives (lowerer'.expression id) Operand.Silent
  sequence : ∀ {id}, s.tree.Connected top id → Tallies (lowerer'.sequence id) DeclareAll

/-! ## Quiet lines -/

theorem Operand.Silent.quiet {o : Operand} (h : o.Silent) : Quiet (expressionStatement o) := by
  obtain ⟨a, ha, hcode⟩ := h
  exact ⟨a, (Bool.and_eq_true _ _ ▸ ha).1, hcode⟩

namespace Lowering

theorem quiet_storage (codeName : String) (v : Variable) : Quiet (storage codeName v) := by
  obtain ⟨a, b, ha, hab⟩ := storage_start codeName v
  rw [hab]
  exact quiet_append (Bool.and_eq_true _ _ ▸ ha).1 b

theorem quiet_variableAssignment (codeName : String) (v : Variable) (o : Operand) :
    Quiet (variableAssignment codeName v o) :=
  (((((quiet_storage codeName v).append _).append _).append _).append _).terminated

theorem quiet_returnStatement (o : Operand) : Quiet (returnStatement o) :=
  (quiet_append (by rfl) _).terminated

theorem quiet_loopExit {a b : String} (ha : isQuiet a = true) (hb : isQuiet b = true) (c : Bool) :
    Quiet (if c then a else b) := by
  split
  · exact quiet_text ha
  · exact quiet_text hb

section

variable {w : Wording} {s : Setting} {b : Bool} {self' self : Lowerer} {top id : NodeId}
  {ids : List NodeId} {o : Option NodeId} (hg : Grounded w s False top) (hlax : w.Lax)
  (hw : w.lined) (h : self'.Tallying s w top self)

/-! ## Parts of statements -/

include h in
theorem tallies_expression (hid : s.tree.Connected top id) :
    Tallies (self'.expression id) (Still (Operand.Fine w)) :=
  .still (h.pairs.expression hid) (h.keeps.expression trivial)

include h in
theorem tallies_optional (hc : ∀ c ∈ o, s.tree.Connected top c) :
    Tallies (self'.optional o) (Still fun r => (∀ p ∈ r, p.Fine w) ∧ r.isSome = o.isSome) :=
  .still (paired_optional h.pairs hc) (h.keeps.optional fun _ _ => trivial)

include h in
theorem tallies_expressions (hc : ∀ c ∈ ids, s.tree.Connected top c) :
    Tallies (self'.expressions ids) (Still fun os => ∀ o ∈ os, o.Fine w) :=
  .still (paired_expressions h.pairs hc) (h.keeps.expressions fun _ _ => trivial)

include h in
theorem tallies_optionalSequence (hc : ∀ c ∈ o, s.tree.Connected top c) :
    Tallies (self'.optionalSequence o) fun codes names =>
      codes.isSome = o.isSome ∧ DeclareAll (codes.getD []) names := by
  cases o with
  | none => exact .pure ⟨rfl, rfl⟩
  | some id =>
      refine (h.sequence (hc id rfl)).bind fun codes names hcodes => .pure ⟨rfl, ?_⟩
      rw [List.append_nil]
      exact hcodes

include hg in
theorem tallies_target (hid : s.tree.Connected top id) :
    Tallies (boundVariable s.tree id) (Still fun v => Named w v.name) :=
  .still (paired_target hg hid) (keeps_boundVariable id)

include hlax in
theorem tallies_constant (c : Constant) :
    Tallies (Lower.intern (constantFromTable c)) (Still (Operand.Fine w)) :=
  .intern (fun _ hp => Interned.given (fun _ => (interned_constantFromTable c).imp
    fun _ _ ho => hlax.fine ho) hp) (.constantFromTable c)

include hw in
/-- A statement of one line that declares nothing. -/
theorem tallies_line {code : String} (hline : Line w code) (hquiet : Quiet code) :
    Tallies (pure code : Lower String) Declares := .pure (temporaries_line hw hline hquiet)

include hw in
theorem tallies_still_line {step : Lower String} (hs : Tallies step (Still (Line w)))
    (hquiet : Gives step Quiet) : Tallies step Declares := by
  refine (hs.and_gives hquiet).imp fun code names hcode => ?_
  obtain ⟨rfl, hline, hquiet⟩ := hcode
  exact temporaries_line hw hline hquiet

theorem gives_sliceAssignment (source : NodeId) (lower upper : Option NodeId) (value : Operand) :
    Gives (Lowering.sliceAssignment s self source lower upper value) Quiet := by
  refine Gives.bind fun o => ?_
  split
  · exact Gives.bind fun _ => Gives.pure (quiet_call (by rfl) _).terminated
  · split
    · exact Gives.bind fun _ => Gives.pure (quiet_call (by rfl) _).terminated
    · exact Gives.bind fun _ => Gives.pure (quiet_call (by rfl) _).terminated

theorem gives_sliceDeletion (source : NodeId) (lower upper : Option NodeId) :
    Gives (Lowering.sliceDeletion s self source lower upper) Quiet := by
  refine Gives.bind fun o => ?_
  split
  · exact Gives.bind fun _ => Gives.pure (quiet_call (by rfl) _).terminated
  · exact Gives.bind fun _ => Gives.pure (quiet_call (by rfl) _).terminated

/-! ## Raising and catching -/

include hw h in
theorem tallies_raising {exceptionType value traceback : Option NodeId}
    (hc : ∀ c ∈ exceptionType.toList ++ value.toList ++ traceback.toList, s.tree.Connected top c) :
    Tallies (raising (s.tracing b) self' id exceptionType value traceback) Declares := by
  simp only [List.forall_mem_append, Option.mem_toList] at hc
  obtain ⟨⟨htype, hvalue⟩, htraceback⟩ := hc
  cases exceptionType with
  | none =>
      exact tallies_line hw (line_reraiseStatement _) (quiet_loopExit (by rfl) (by rfl) _)
  | some type =>
      refine (tallies_expression h (htype type rfl)).bind_still fun o ho =>
        (tallies_optional h hvalue).bind_still fun v hv => ?_
      have hnone : Tallies (pure (raiseStatement o v none
          (some (tracebackMaker (s.tree.location id).line))) : Lower String) Declares := by
        refine tallies_line hw (line_raiseStatement ho hv.1 (by simp) fun maker hm => ?_)
          (quiet_call (by rfl) _).terminated
        rw [← Option.some.inj hm]
        exact phrase_tracebackMaker _
      refine Tallies.ite (fun _ => ?_) fun _ => hnone
      refine (tallies_optional h htraceback).bind_still fun tb htb => ?_
      cases tb with
      | none => exact hnone
      | some tb =>
          exact tallies_line hw (line_raiseStatement ho hv.1 htb.1 (by simp))
            (quiet_call (by rfl) _).terminated

include hg hw h in
theorem tallies_fetching {f : Fetch} (hiterator : s.tree.Connected top f.iterator)
    (hbranch : s.tree.Connected top f.branch) (htarget : s.tree.Connected top f.target) :
    Tallies (fetching (s.tracing b) self' f) Declares := by
  refine Tallies.takeLoopNumber.bind fun n names hn => (tallies_expression h hiterator).bind_still
    fun o ho => (h.sequence hbranch).bind fun codes more hcodes =>
      (tallies_target hg htarget).bind_still fun v hv => .pure ?_
  have hassigned : temporaries (variableAssignment s.codeName v (fetchedItem n)) = [] :=
    temporaries_line hw (line_variableAssignment hg.codeName hv (fine_fetchedItem n))
      (quiet_variableAssignment _ _ _)
  change temporaries (fetchOrHandle n o codes (variableAssignment s.codeName v (fetchedItem n))) = _
  rw [temporaries_fetchOrHandle hw n ho hassigned, hcodes, hn, List.append_nil]
  rfl

include hg hw in
theorem tallies_handlerBinding (ht : ∀ c ∈ o, s.tree.Connected top c) :
    Tallies (handlerBinding (s.tracing b) o) DeclareAll := by
  cases o with
  | none => exact .pure rfl
  | some target =>
      refine (tallies_target hg (ht target rfl)).bind_still fun v hv => .pure ?_
      rw [DeclareAll, List.flatMap_singleton]
      exact temporaries_line hw (line_variableAssignment hg.codeName hv (fine_caughtPart .value))
        (quiet_variableAssignment _ _ _)

include hg hw h in
theorem tallies_handlerChain (first : Bool) (hc : ∀ c ∈ ids, s.tree.Connected top c) :
    Tallies (handlerChain (s.tracing b) self' first ids) DeclareAll := by
  induction ids generalizing first with
  | nil => exact .pure rfl
  | cons id rest ih =>
      have hrest := ih false fun c hmem => hc c (List.mem_cons_of_mem id hmem)
      rw [handlerChain]
      cases hhandler : s.tree.handler? id with
      | none =>
          rw [show (s.tracing b).tree.handler? id = none from hhandler]
          exact .fail _ _ _
      | some handler =>
          rw [show (s.tracing b).tree.handler? id = some handler from hhandler]
          have hkind := Tree.handler?_eq_some_iff.mp hhandler
          have hslots : ∀ c ∈ handler.exceptionTypes ++ handler.target.toList ++
              handler.branch.toList, s.tree.Connected top c := fun c hmem =>
            (hc id List.mem_cons_self).child (by rwa [Tree.children, hkind])
          simp only [List.forall_mem_append, Option.mem_toList] at hslots
          obtain ⟨⟨htypes, htarget⟩, hbranch⟩ := hslots
          refine (tallies_expressions h htypes).bind_still fun types htypes =>
            (tallies_handlerBinding hg hw htarget).bind fun binding bound hbound =>
              (tallies_optionalSequence h hbranch).bind fun branch inside hinside =>
                hrest.bind fun others behind hbehind => .pure ?_
          rw [DeclareAll, List.flatMap_append, temporaries_handlerLines hw htypes,
            List.flatMap_append, hbound, hinside.2, hbehind, List.append_nil, List.append_assoc]

include hg hw h in
theorem tallies_catching (hid : s.tree.Connected top id) {tried : NodeId} {handlers : List NodeId}
    {noRaise : Option NodeId} (hkind : s.tree.kind id = .stmt (.tryExcept tried handlers noRaise)) :
    Tallies (Lowering.catching (s.tracing b) self' tried handlers noRaise) Declares := by
  have hc : ∀ c ∈ tried :: handlers ++ noRaise.toList, s.tree.Connected top c := fun c hmem =>
    hid.child (by rwa [Tree.children, hkind])
  simp only [List.forall_mem_append, List.forall_mem_cons, Option.mem_toList] at hc
  obtain ⟨⟨htried, hhandlers⟩, hnoRaise⟩ := hc
  unfold Lowering.catching
  cases hfetch : fetch? s.tree tried handlers noRaise with
  | some f =>
      rw [show fetch? (s.tracing b).tree tried handlers noRaise = some f from hfetch]
      obtain ⟨hiterator, hbranch, htarget⟩ :=
        fetch?_holds (fun hid => hid.child) hfetch htried hhandlers
      exact tallies_fetching hg hw h hiterator hbranch htarget
  | none =>
      rw [show fetch? (s.tracing b).tree tried handlers noRaise = none from hfetch]
      cases noRaise with
      | none =>
          -- the number is taken, and nothing is named after it
          refine Tallies.takeTryNumber_unused.bind_still fun n _ => (h.sequence htried).bind
            fun body names hbody => (tallies_handlerChain hg hw h true hhandlers).bind
              fun chain more hchain => .pure ?_
          rw [Declares, temporaries_tryExcept_none, hbody, hchain, List.append_nil]
      | some otherwise =>
          refine Tallies.takeTryNumber.bind fun n names hn => (h.sequence htried).bind
            fun body inside hbody => (tallies_handlerChain hg hw h true hhandlers).bind
              fun chain more hchain => (tallies_optionalSequence h hnoRaise).bind
                fun codes behind hcodes => .pure ?_
          obtain ⟨last, rfl⟩ := Option.isSome_iff_exists.mp hcodes.1
          have hlast : last.flatMap temporaries = behind := hcodes.2
          rw [Declares, temporaries_tryExcept_some hw, hbody, hchain, hlast, hn, List.append_nil]
          rfl

/-! ## Statements -/

include hg hlax hw h in
/-- The lowering of a statement, before its margins are checked. -/
theorem tallies_statementForm (hid : s.tree.Connected top id) {st : Stmt}
    (hkind : s.tree.kind id = .stmt st) :
    Tallies (statementForm (s.tracing b) self' id st) Declares := by
  have hc : ∀ c ∈ st.children, s.tree.Connected top c := fun c hmem =>
    hid.child (by rwa [Tree.children, hkind])
  have hcall : ∀ {f : String} {arguments : List String}, isQuiet f = true →
      Quiet (terminated (applied f arguments)) := fun hf => (quiet_call hf _).terminated
  cases st with
  | assign target source =>
      exact (tallies_expression h (hc source (by simp [Stmt.children]))).bind_still fun _ ho =>
        (tallies_target hg (hc target (by simp [Stmt.children]))).bind_still fun _ hv =>
          tallies_line hw (line_variableAssignment hg.codeName hv ho)
            (quiet_variableAssignment _ _ _)
  | assignAttribute source name value =>
      exact (tallies_expression h (hc value (by simp [Stmt.children]))).bind_still fun _ hv =>
        (tallies_expression h (hc source (by simp [Stmt.children]))).bind_still fun _ ho =>
          (tallies_constant hlax _).bind_still fun _ hn =>
            tallies_line hw (line_attributeAssignment ho hn hv) (hcall (by rfl))
  | assignSubscript subscribed subscript value =>
      exact (tallies_expression h (hc value (by simp [Stmt.children]))).bind_still fun _ hv =>
        (tallies_expression h (hc subscribed (by simp [Stmt.children]))).bind_still fun _ ho =>
          (tallies_expression h (hc subscript (by simp [Stmt.children]))).bind_still fun _ hi =>
            tallies_line hw (line_subscriptAssignment ho hi hv) (hcall (by rfl))
  | assignSlice source lower upper value =>
      simp only [Stmt.children, List.cons_append, List.forall_mem_cons, List.forall_mem_append,
        Option.mem_toList] at hc
      obtain ⟨hvalue, hsource, hlower, hupper⟩ := hc
      exact (tallies_expression h hvalue).bind_still fun v hv => tallies_still_line hw
        (.still (paired_sliceAssignment h.pairs hsource hlower hupper hv)
          (keeps_sliceAssignment h.keeps trivial (fun _ _ => trivial) (fun _ _ => trivial) v))
        (gives_sliceAssignment source lower upper v)
  | delete target =>
      exact (tallies_target hg (hc target (by simp [Stmt.children]))).bind_still fun _ hv =>
        tallies_line hw (line_variableDeletion hg.codeName hv)
          (((quiet_storage _ _).append _).append _).terminated
  | deleteAttribute source name =>
      exact (tallies_expression h (hc source (by simp [Stmt.children]))).bind_still fun _ ho =>
        (tallies_constant hlax _).bind_still fun _ hn =>
          tallies_line hw (line_attributeDeletion ho hn) (hcall (by rfl))
  | deleteSubscript subscribed subscript =>
      exact (tallies_expression h (hc subscribed (by simp [Stmt.children]))).bind_still fun _ ho =>
        (tallies_expression h (hc subscript (by simp [Stmt.children]))).bind_still fun _ hi =>
          tallies_line hw (line_subscriptDeletion ho hi) (hcall (by rfl))
  | deleteSlice source lower upper =>
      simp only [Stmt.children, List.cons_append, List.forall_mem_cons, List.forall_mem_append,
        Option.mem_toList] at hc
      exact tallies_still_line hw (.still (paired_sliceDeletion h.pairs hc.1 hc.2.1 hc.2.2)
        (keeps_sliceDeletion h.keeps trivial (fun _ _ => trivial) fun _ _ => trivial))
        (gives_sliceDeletion source lower upper)
  | block body =>
      refine (h.sequence (hc body (by simp [Stmt.children]))).bind fun codes names hcodes =>
        .pure ?_
      rw [Declares, temporaries_braced, hcodes, List.append_nil]
  | expression value =>
      exact ((tallies_expression h (hc value (by simp [Stmt.children]))).and_gives
        (h.gives value)).bind_still fun _ ho =>
          tallies_line hw (line_expressionStatement ho.1) ho.2.quiet
  | print destination values newline =>
      simp only [Stmt.children, List.forall_mem_append, Option.mem_toList] at hc
      exact (tallies_optional h hc.1).bind_still fun _ hd => (tallies_expressions h hc.2).bind_still
        fun _ hos => .pure (temporaries_print hw hd.1 hos newline)
  | returnValue value =>
      refine Tallies.ite (fun _ => tallies_line hw line_generatorEnd (quiet_text (by rfl)))
        fun _ => ?_
      exact (tallies_expression h (hc value (by simp [Stmt.children]))).bind_still fun _ ho =>
        tallies_line hw (line_returnStatement ho) (quiet_returnStatement _)
  | loop body unwinds =>
      simp only [Stmt.children, Option.mem_toList] at hc
      refine (tallies_optionalSequence h hc).bind fun codes names hcodes => .pure ?_
      rw [Declares, temporaries_loop, show _ = _ from hcodes.2, List.append_nil]
  | conditional condition yes no =>
      simp only [Stmt.children, List.cons_append, List.forall_mem_cons, List.forall_mem_append,
        Option.mem_toList] at hc
      obtain ⟨hcondition, hyes, hno⟩ := hc
      refine (Tallies.still (h.pairs.condition false hcondition)
        (h.keeps.condition trivial false)).bind_still fun c hterm =>
          (tallies_optionalSequence h hyes).bind fun yes names hyes =>
            (tallies_optionalSequence h hno).bind fun no more hno => .pure ?_
      rw [Declares, temporaries_branch hw hterm.phrase, show _ = _ from hyes.2,
        show _ = _ from hno.2, List.append_nil]
  | continueLoop unwinds =>
      exact tallies_line hw (line_loopContinue unwinds) (quiet_loopExit (by rfl) (by rfl) unwinds)
  | breakLoop unwinds =>
      exact tallies_line hw (line_loopBreak unwinds) (quiet_loopExit (by rfl) (by rfl) unwinds)
  | importStar source =>
      exact (tallies_expression h (hc source (by simp [Stmt.children]))).bind_still fun _ ho =>
        tallies_line hw (line_importStar hg.codeName ho) (hcall (by rfl))
  | tryFinally tried final =>
      refine Tallies.takeTryNumber.bind fun n names hn =>
        (h.sequence (hc tried (by simp [Stmt.children]))).bind fun body inside hbody =>
          (h.sequence (hc final (by simp [Stmt.children]))).bind fun last behind hlast => .pure ?_
      rw [Declares, temporaries_tryFinally hw, hbody, hlast, hn, List.append_nil]
      rfl
  | tryExcept tried handlers noRaise => exact tallies_catching hg hw h hid hkind
  | raise exceptionType value traceback => exact tallies_raising hw h hc
  | exec source inGlobals inLocals =>
      exact (Tallies.still (paired_evalParts hlax h.pairs .exec hc)
        (keeps_evalParts h.keeps .exec fun _ _ => trivial)).bind_still fun _ hp =>
          tallies_line hw (line_execution hp) (Operand.silent_owned _).quiet
  | execInline body =>
      refine (h.sequence (hc body (by simp [Stmt.children]))).inline.bind
        fun codes names hcodes => .pure ?_
      rw [Declares, temporaries_braced, hcodes, List.append_nil]
  | unpackCheck iterator count =>
      exact (tallies_expression h (hc iterator (by simp [Stmt.children]))).bind_still fun _ ho =>
        tallies_line hw (line_unpackCheck count ho) (hcall (by rfl))
  | declareGlobal names => exact .pure temporaries_empty

include hg hlax hw h in
theorem tallies_statement (hid : s.tree.Connected top id) :
    Tallies (statement (s.tracing b) self' id) Declares := by
  unfold statement
  cases hst : s.tree.stmt? id with
  | none =>
      rw [show (s.tracing b).tree.stmt? id = none from hst]
      exact .fail _ _ _
  | some st =>
      rw [show (s.tracing b).tree.stmt? id = some st from hst]
      refine (tallies_statementForm hg hlax hw h hid (Tree.stmt?_eq_some_iff.mp hst)).bind
        fun code names hcode => .ite (fun _ => .pure ?_) fun _ => .fail _ _ _
      rw [List.append_nil]
      exact hcode

/-! ## Sequences -/

include hg in
/-- The lines around statements declare nothing: those of a trace, and the markers. -/
theorem temporaries_traceLines (hb : b = true → w.unbroken) (hid : s.tree.Connected top id) :
    (traceLines (s.tracing b) id).flatMap temporaries = [] := by
  unfold traceLines
  rw [show (s.tracing b).options.traceExecution = b from rfl]
  cases b with
  | false => rfl
  | true =>
      rw [if_pos rfl, List.flatMap_singleton]
      exact ((((quiet_append (by rfl) _).append _).append _).append _).temporaries_eq_nil
        ((piece_traceLine (hg.suits id hid).file _).unbroken (hb rfl))

include hw in
theorem temporaries_markerLines (last : Option Location) (place : Location) :
    (markerLines last place).flatMap temporaries = [] := by
  unfold markerLines
  split
  · rfl
  · rw [List.flatMap_singleton]
    exact temporaries_line hw (line_lineMarker place) (quiet_call (by rfl) _).terminated

include hg hlax hw h in
theorem tallies_statementLines (hb : b = true → w.unbroken) (hc : ∀ c ∈ ids, s.tree.Connected top c)
    (last : Option Location) :
    Tallies (statementLines (s.tracing b) self' last ids) DeclareAll := by
  induction ids generalizing last with
  | nil => exact .pure rfl
  | cons id rest ih =>
      have hid := hc id List.mem_cons_self
      have hrest := fun last => ih (fun c hmem => hc c (List.mem_cons_of_mem id hmem)) last
      have htrace := temporaries_traceLines hg hb hid
      rw [statementLines]
      refine ((tallies_statement hg hlax hw h hid).within _).bind fun code names hcode => ?_
      refine .ite (fun hempty => ?_) fun _ => .ite (fun _ => .fail_bind _ _ _) fun _ => ?_
      · refine (hrest last).bind fun others more hothers => .pure ?_
        have hnames : names = [] := by
          rw [← hcode, String.isEmpty_iff.mp hempty, temporaries_empty]
        rw [DeclareAll, List.flatMap_append, htrace, hothers, hnames, List.append_nil]
      · refine (hrest _).bind fun others more hothers => .pure ?_
        rw [DeclareAll, List.flatMap_append, List.flatMap_append, List.flatMap_append, htrace,
          temporaries_markerLines hw, temporaries_lines, hcode, hothers, List.nil_append,
          List.nil_append, List.append_nil]

include hg hlax hw h in
theorem tallies_sequence (hb : b = true → w.unbroken) (hid : s.tree.Connected top id) :
    Tallies (sequence (s.tracing b) self' id) DeclareAll := by
  unfold sequence
  cases hsequence : s.tree.sequence? id with
  | none =>
      rw [show (s.tracing b).tree.sequence? id = none from hsequence]
      exact .fail _ _ _
  | some statements =>
      rw [show (s.tracing b).tree.sequence? id = some statements from hsequence]
      have hkind := Tree.sequence?_eq_some_iff.mp hsequence
      exact tallies_statementLines hg hlax hw h hb
        (fun c hmem => hid.child (by rwa [Tree.children, hkind])) none

include h in
/-- The codes of a body declare no name twice. -/
theorem nodup_body (hc : ∀ c ∈ o, s.tree.Connected top c) {g g' : Progress}
    {codes : Option (List String)} (hwf : g.program.WellFormed)
    (hrun : RunsTo (self'.optionalSequence o) g codes g') :
    ((codes.getD []).flatMap temporaries).Nodup := by
  obtain ⟨-, names, ⟨-, hnames⟩, htally⟩ := tallies_optionalSequence h hc hwf hrun
  rw [show (codes.getD []).flatMap temporaries = names from hnames]
  exact htally.distinct

end

/-! ## All levels -/

/-- The induction is on the levels; of the lowering side by side all levels are known. -/
theorem tallying_ofDepth {w : Wording} {s : Setting} {b : Bool} {top : NodeId}
    (hg : Grounded w s False top) (hlax : w.Lax) (hw : w.lined) (hb : b = true → w.unbroken)
    (hplain : s.options.traceExecution = false) (levels : Nat) :
    (Lowerer.ofDepth (s.tracing b) levels).Tallying s w top (Lowerer.ofDepth s levels) := by
  induction levels with
  | zero =>
      exact ⟨pairs_ofDepth hg hlax hw hb hplain 0, advances_ofDepth _ 0, fun _ => gives_ofDepth 0,
        fun _ _ _ _ _ hrun => nomatch hrun⟩
  | succ levels ih =>
      exact ⟨pairs_ofDepth hg hlax hw hb hplain (levels + 1), advances_ofDepth _ (levels + 1),
        fun _ => gives_ofDepth (levels + 1), tallies_sequence hg hlax hw ih hb⟩

end Lowering
end CompilerBackend
