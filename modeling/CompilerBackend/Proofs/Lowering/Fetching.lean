import CompilerBackend.Proofs.Lowering.Statements
import CompilerBackend.Proofs.Lowering.Yields
import CompilerBackend.Proofs.Target.Flow
import CompilerBackend.Proofs.Tree.Completion
/-!
# Fetching an item

A try statement that does nothing but fetch the next item of an iterator is lowered to a fetch, a
test for the absence of an item with the code of the handler, and the assignment behind it. Nothing
but the handler keeps the assignment from an absent item, so it must not complete.

- `fetch?_eq_some_iff`: which statements are fetches.
- `Fetch.RunsAs`: what the code of a fetch runs with an item and without one.
- `abortative_fetch_assigns_item`: the analysis that the choice of this form rests on is right, and
  so no fetch assigns an absent item.
-/

namespace CompilerBackend

open Text Target Lowering

namespace Lowering

variable {t : Tree} {tried : NodeId} {handlers : List NodeId} {noRaise : Option NodeId} {f : Fetch}

/-- Where the parts look like those of a fetch, two questions are left: whether the iterator can
raise, and whether control can go on behind the branch. -/
theorem Fetch.Amounts.fetch?_eq {assignment source handler caught : NodeId}
    (hf : f.Amounts t tried assignment source handler caught) :
    fetch? t tried [handler] none =
      if t.mayRaise f.iterator then none
      else if t.isAbortative f.branch then some f else none := by
  have hbody := Tree.sequence?_eq_some_iff.mpr hf.tried
  have hassignment := Tree.stmt?_eq_some_iff.mpr hf.assignment
  have hsource := Tree.expr?_eq_some_iff.mpr hf.source
  have hhandler := Tree.handler?_eq_some_iff.mpr hf.handler
  have hcaught := Tree.expr?_eq_some_iff.mpr hf.caught
  simp [fetch?, single?, hbody, hassignment, hsource, hhandler, hcaught]

/-- A try statement is a fetch exactly if it looks like one, its iterator cannot raise, and control
never goes on behind its branch. -/
theorem fetch?_eq_some_iff : fetch? t tried handlers noRaise = some f ↔
    (noRaise = none ∧ ∃ assignment source handler caught, handlers = [handler] ∧
      f.Amounts t tried assignment source handler caught) ∧
    t.mayRaise f.iterator = false ∧ t.isAbortative f.branch = true := by
  constructor
  · intro h
    have hamounts := fetch?_amounts h
    refine ⟨hamounts, ?_⟩
    obtain ⟨rfl, assignment, source, handler, caught, rfl, hf⟩ := hamounts
    rw [hf.fetch?_eq] at h
    split at h
    next => cases h
    next hraise =>
      split at h
      next hbranch => exact ⟨Bool.eq_false_of_not_eq_true hraise, hbranch⟩
      next => cases h
  · rintro ⟨⟨rfl, assignment, source, handler, caught, rfl, hf⟩, hiterator, hbranch⟩
    rw [hf.fetch?_eq, hiterator, hbranch]
    rfl

end Lowering

namespace Target

/-- The code that a fetch is lowered to, for some number and parts. -/
def IsFetch (code : String) : Prop :=
  ∃ n source handler assignment, code = fetchOrHandle n source handler assignment

/-- Texts that begin with different characters. -/
theorem append_ne_append {a b : String} {c d : Char} (ha : a.toList.head? = some c)
    (hb : b.toList.head? = some d) (hne : c ≠ d) (r r' : String) : a ++ r ≠ b ++ r' := by
  intro h
  have hhead := congrArg (fun s : String => s.toList.head?) h
  simp only [String.toList_append, List.head?_append, ha, hb, Option.some_or] at hhead
  exact hne (Option.some.inj hhead)

/-- A guarded block begins in another way than a fetch. -/
theorem not_isFetch_tryExcept (n : Nat) (tried handlers : List String)
    (noRaise : Option (List String)) : ¬ IsFetch (tryExcept n tried handlers noRaise) := by
  rintro ⟨n', source, handler, assignment, h⟩
  have hfetch : "PyObject *".toList.head? = some 'P' := by rfl
  have htry : "try\n".toList.head? = some 't' := by rfl
  have hflag : "bool ".toList.head? = some 'b' := by rfl
  unfold tryExcept fetchOrHandle at h
  cases noRaise with
  | none =>
      dsimp only at h
      simp only [String.append_assoc] at h
      exact append_ne_append htry hfetch (by decide) _ _ h
  | some codes =>
      dsimp only at h
      simp only [String.append_assoc] at h
      exact append_ne_append hflag hfetch (by decide) _ _ h

theorem head_storage (codeName : String) (v : Variable) :
    (storage codeName v).toList.head? = some '_' := by
  unfold storage
  cases v.kind with
  | functionLocal | parameter | classLocal => exact head_append (by decide) _
  | closure => exact head_append (by decide) _
  | moduleGlobal => exact head_append (head_append (head_append (by decide) _) _) _
  | temporary => exact head_append (by decide) _

/-- The line of an assignment has no part of its own in the flow of control. -/
theorem alternatives_variableAssignment (codeName : String) (v : Variable) (o : Operand) :
    alternatives (chunks (cutLines (variableAssignment codeName v o))) =
      ([("else", [])], chunks (cutLines (variableAssignment codeName v o))) := by
  have hhead : (variableAssignment codeName v o).toList.head? = some '_' := by
    unfold variableAssignment storeStatement terminated applied
    exact head_append (head_append (head_append (head_append (head_append
      (head_storage codeName v) _) _) _) _) _
  obtain ⟨tail, htail⟩ := List.head?_eq_some_iff.mp hhead
  have htext : variableAssignment codeName v o = "_" ++ String.ofList tail := by
    have hrest : (String.ofList tail).toList = tail := String.toList_ofList
    rw [← String.toList_inj, htail, String.toList_append, hrest]
    rfl
  obtain ⟨l, ls, hcut, cs, hl⟩ := cutLines_append (a := "_") (by simp [Unbroken]) (String.ofList tail)
  have hunderscore : l.toList.head? = some '_' := by
    rw [← hl]
    rfl
  obtain ⟨hsort, hbrace⟩ := lineSort_of_underscore hunderscore
  rw [htext, hcut, chunks_cons hbrace]
  exact alternatives_of_plain hsort

end Target

/-! ## The choice of a fetch -/

/-- The runs of the code of a fetch. Behind an item the assignment is run. Without one the lines of
the branch are, and the assignment only if control comes to their end; so if control comes there
only where the branch can complete normally, the assignment is run behind an item and nowhere
else. -/
structure Lowering.Fetch.RunsAs (s : Setting) (f : Fetch) (n : Nat) (iterator assignment : String)
    (handler : List String) (code : String) : Prop where
  runs : ∀ host τ e, Runs host (chunks (cutLines code)) τ e ↔
    Fetched host n iterator (Runs host (chunks (cutLines assignment)))
      (fun τ e => ∃ τ₁ e₁, Runs host (chunks (handler.flatMap lines)) τ₁ e₁ ∧
        GoesOn host (chunks (cutLines assignment)) τ₁ e₁ τ e) τ e
  unassigned : ∀ host, (∀ τ, Runs host (chunks (handler.flatMap lines)) τ .completes →
      s.tree.Completes (some f.branch) .normal) →
    ∀ τ e, Runs host (chunks (cutLines code)) τ e ↔
      Fetched host n iterator (Runs host (chunks (cutLines assignment)))
        (Runs host (chunks (handler.flatMap lines))) τ e

/-- A try statement whose code is a fetch: what its parts look like, what their code is, and that
its assignment is run with an item only. -/
structure Lowering.Fetch.Sound (s : Setting) (tried : NodeId) (handlers : List NodeId)
    (noRaise : Option NodeId) (code : String) (f : Fetch) : Prop where
  noRaise_eq : noRaise = none
  amounts : ∃ assignment source handler caught, handlers = [handler] ∧
    f.Amounts s.tree tried assignment source handler caught
  calm : s.tree.mayRaise f.iterator = false
  code_eq : ∃ n source handler v, code = fetchOrHandle n source handler
      (variableAssignment s.codeName v (fetchedItem n)) ∧
    Yields (s.lowerer.expression f.iterator) source ∧
    Yields (s.lowerer.sequence f.branch) handler ∧ Yields (boundVariable s.tree f.target) v ∧
    (Unbroken source.asArgument → f.RunsAs s n source.asArgument
      (variableAssignment s.codeName v (fetchedItem n)) handler code)
  notNormal : ¬ s.tree.Completes (some f.branch) .normal

variable {s : Setting} {id tried : NodeId} {handlers : List NodeId} {noRaise : Option NodeId}
  {code : String}

theorem yields_catching (hst : s.tree.stmt? id = some (.tryExcept tried handlers noRaise))
    (hcode : Yields (s.statement id) code) :
    Yields (Lowering.catching s s.lowerer tried handlers noRaise) code := by
  obtain ⟨st, hst', hform⟩ := hcode.of_statement
  rw [hst] at hst'
  cases hst'
  exact hform

/-- What amounts to a fetch has the code of one. -/
theorem Lowering.fetching_code {f : Fetch} (h : Yields (fetching s s.lowerer f) code) :
    ∃ n source handler v, code = fetchOrHandle n source handler
        (variableAssignment s.codeName v (fetchedItem n)) ∧
      Yields (s.lowerer.expression f.iterator) source ∧
      Yields (s.lowerer.sequence f.branch) handler ∧ Yields (boundVariable s.tree f.target) v := by
  obtain ⟨n, -, h⟩ := h.of_bind
  obtain ⟨source, hsource, h⟩ := h.of_bind
  obtain ⟨handler, hhandler, h⟩ := h.of_bind
  obtain ⟨v, hv, h⟩ := h.of_bind
  exact ⟨n, source, handler, v, yields_pure_iff.mp h, hsource, hhandler, hv⟩

theorem Lowering.Fetch.runsAs {f : Fetch} {source : Operand} {handler : List String} (n : Nat)
    (v : Variable) (hhandler : Yields (s.lowerer.sequence f.branch) handler)
    (hbranch : ¬ s.tree.Completes (some f.branch) .normal) (hflat : Unbroken source.asArgument) :
    f.RunsAs s n source.asArgument (variableAssignment s.codeName v (fetchedItem n)) handler
      (fetchOrHandle n source handler (variableAssignment s.codeName v (fetchedItem n))) := by
  have hstored := alternatives_variableAssignment s.codeName v (fetchedItem n)
  refine ⟨fun _ _ _ => runs_fetchOrHandle_iff hflat hhandler.lines_ne_nil hstored,
    fun host hends τ e => ?_⟩
  have habsent : (fun τ e => ∃ τ₁ e₁, Runs host (chunks (handler.flatMap lines)) τ₁ e₁ ∧
      GoesOn host (chunks (cutLines (variableAssignment s.codeName v (fetchedItem n)))) τ₁ e₁ τ e) =
      Runs host (chunks (handler.flatMap lines)) := by
    funext τ e
    refine propext ⟨?_, fun h => ?_⟩
    · rintro ⟨τ₁, e₁, h, hon⟩
      have hne : e₁ ≠ .completes := by
        rintro rfl
        exact hbranch (hends τ₁ h)
      rw [GoesOn, if_neg hne] at hon
      obtain ⟨rfl, rfl⟩ := hon
      exact h
    · have hne : e ≠ .completes := by
        rintro rfl
        exact hbranch (hends τ h)
      exact ⟨τ, e, h, by rw [GoesOn, if_neg hne]; exact ⟨rfl, rfl⟩⟩
  rw [runs_fetchOrHandle_iff hflat hhandler.lines_ne_nil hstored, habsent]

/-- The code of a try statement is a fetch exactly if the statement amounts to one. -/
theorem isFetch_iff (hst : s.tree.stmt? id = some (.tryExcept tried handlers noRaise))
    (hcode : Yields (s.statement id) code) :
    IsFetch code ↔ ∃ f, fetch? s.tree tried handlers noRaise = some f := by
  have hcatching := yields_catching hst hcode
  unfold Lowering.catching at hcatching
  constructor
  · intro hform
    cases hf : fetch? s.tree tried handlers noRaise with
    | none =>
        rw [hf] at hcatching
        obtain ⟨n, -, hcatching⟩ := hcatching.of_bind
        obtain ⟨body, -, hcatching⟩ := hcatching.of_bind
        obtain ⟨chain, -, hcatching⟩ := hcatching.of_bind
        obtain ⟨otherwise, -, hcatching⟩ := hcatching.of_bind
        rw [yields_pure_iff.mp hcatching] at hform
        exact absurd hform (not_isFetch_tryExcept n body chain otherwise)
    | some f => exact ⟨f, rfl⟩
  · rintro ⟨f, hf⟩
    rw [hf] at hcatching
    obtain ⟨n, source, handler, v, heq, -⟩ := fetching_code hcatching
    exact ⟨n, source, handler, _, heq⟩

/-- **Control never goes on behind an abortative node**, whatever conditions, rounds of loops and
exceptions do. So the code of a try statement is a fetch only where the assignment in it is never
run without an item: there is no code for the case without an exception, the only handler catches
`StopIteration` alone and binds nothing, the iterator cannot raise, and the branch of the handler
cannot complete normally. -/
theorem abortative_fetch_assigns_item :
    (∀ (t : Tree) (id : NodeId), t.isAbortative id = true → ¬ t.Completes (some id) .normal) ∧
      ∀ (s : Setting) (id tried : NodeId) (handlers : List NodeId) (noRaise : Option NodeId)
        (code : String), s.tree.stmt? id = some (.tryExcept tried handlers noRaise) →
        Yields (s.statement id) code → IsFetch code →
          ∃ f : Fetch, f.Sound s tried handlers noRaise code := by
  refine ⟨fun t id => Tree.not_completes_normal, ?_⟩
  intro s id tried handlers noRaise code hst hcode hform
  obtain ⟨f, hf⟩ := (isFetch_iff hst hcode).mp hform
  have hfetching := yields_catching hst hcode
  rw [Lowering.catching, hf] at hfetching
  obtain ⟨⟨hnoRaise, hamounts⟩, hcalm, habortative⟩ := fetch?_eq_some_iff.mp hf
  have hbranch := Tree.not_completes_normal habortative
  obtain ⟨n, source, handler, v, rfl, hsource, hhandler, hv⟩ := fetching_code hfetching
  exact ⟨f, hnoRaise, hamounts, hcalm, ⟨n, source, handler, v, rfl, hsource, hhandler, hv,
    fun hflat => Fetch.runsAs n v hhandler hbranch hflat⟩, hbranch⟩

/-! ## A loop over an iterator -/

/-- `try: x = next(it)` with `except StopIteration: break`. -/
def fetchingOne : Tree where
  nodes :=
    let entry (kind : NodeKind) (parent : Option NodeId) : Node :=
      ⟨kind, parent, { file := "spam.py", line := 1 }⟩
    #[entry (.expr (.temporaryRef ⟨"it", .temporary⟩)) (some ⟨1⟩),
      entry (.expr (.unaryBuiltin .next ⟨0⟩)) (some ⟨3⟩),
      entry (.expr (.variableRef "x" (some ⟨"x", .functionLocal⟩))) (some ⟨3⟩),
      entry (.stmt (.assign ⟨2⟩ ⟨1⟩)) (some ⟨4⟩),
      entry (.sequence [⟨3⟩]) (some ⟨9⟩),
      entry (.expr (.exception "StopIteration")) (some ⟨8⟩),
      entry (.stmt (.breakLoop false)) (some ⟨7⟩),
      entry (.sequence [⟨6⟩]) (some ⟨8⟩),
      entry (.handler ⟨[⟨5⟩], none, some ⟨7⟩⟩) (some ⟨9⟩),
      entry (.stmt (.tryExcept ⟨4⟩ [⟨8⟩] none)) none]

/-- Control does not come to the end of the lines of the handler. -/
theorem not_runs_fetchingOne {handler τ : List String} {host : Host}
    (hhandler : Yields ((Setting.lowerer ⟨fetchingOne, {}, "spam", "spam"⟩).sequence ⟨7⟩) handler) :
    ¬ Runs host (chunks (handler.flatMap lines)) τ .completes := by
  have hlines : handler.flatMap lines = ["frame_guard.setLineNumber( 1 );", "break;"] := by
    obtain ⟨g, hg⟩ := hhandler
    have hrun : (((Setting.lowerer ⟨fetchingOne, {}, "spam", "spam"⟩).sequence ⟨7⟩).run g).1 =
        .ok ["frame_guard.setLineNumber( 1 );", "break;"] := by
      rfl
    rw [hrun] at hg
    rw [← Except.ok.inj hg]
    rfl
  have hmarker : lineSort "frame_guard.setLineNumber( 1 );" = .plain := by rfl
  have hbreak : lineSort "break;" = .leaves .breaks := by rfl
  rw [hlines, chunks_cons (by decide), chunks_cons (by decide), runs_line_iff hmarker]
  rintro (⟨-, -, hend⟩ | ⟨τ', hruns, -⟩)
  · cases hend
  · rcases hruns.jumps hbreak (by decide) with hend | hend <;> cases hend

/-- The iterator is a variable of the compiler's own, and the handler breaks, so the code is a
fetch; and the assignment is run behind an item and nowhere else. -/
theorem abortative_fetch_assigns_item_breaking :
    fetchingOne.isAbortative ⟨7⟩ = true ∧ fetchingOne.Completes (some ⟨7⟩) .breaks ∧
      ¬ fetchingOne.Completes (some ⟨7⟩) .normal ∧
      ∃ code, Yields (Setting.statement ⟨fetchingOne, {}, "spam", "spam"⟩ ⟨9⟩) code ∧
        IsFetch code ∧
        (∃ f : Fetch, f.Sound ⟨fetchingOne, {}, "spam", "spam"⟩ ⟨4⟩ [⟨8⟩] none code) ∧
        ∀ handler, Yields ((Setting.lowerer ⟨fetchingOne, {}, "spam", "spam"⟩).sequence ⟨7⟩) handler →
          ∀ host τ, ¬ Runs host (chunks (handler.flatMap lines)) τ .completes := by
  have habortative : fetchingOne.isAbortative ⟨7⟩ = true := by decide +kernel
  have hbreaks : fetchingOne.Completes (some ⟨7⟩) .breaks := by
    have hs : fetchingOne.sequence? ⟨7⟩ = some ([] ++ ⟨6⟩ :: []) := by rfl
    apply Tree.Completes.sequenceLeft hs
    · exact fun b hb => absurd hb List.not_mem_nil
    · exact .ending (s := .breakLoop false) rfl List.mem_cons_self
    · decide
  have hst : fetchingOne.stmt? ⟨9⟩ = some (.tryExcept ⟨4⟩ [⟨8⟩] none) := by rfl
  obtain ⟨code, hcode⟩ : ∃ code,
      Yields (Setting.statement ⟨fetchingOne, {}, "spam", "spam"⟩ ⟨9⟩) code :=
    exists_yields (g := {}) (by decide +kernel)
  have hform : IsFetch code := by
    rw [isFetch_iff (s := ⟨fetchingOne, {}, "spam", "spam"⟩) hst hcode]
    exact ⟨⟨⟨2⟩, ⟨0⟩, ⟨7⟩⟩, by decide +kernel⟩
  exact ⟨habortative, hbreaks, abortative_fetch_assigns_item.1 _ _ habortative, code, hcode, hform,
    abortative_fetch_assigns_item.2 ⟨fetchingOne, {}, "spam", "spam"⟩ ⟨9⟩ ⟨4⟩ [⟨8⟩] none code hst
      hcode hform, fun handler hhandler host τ => not_runs_fetchingOne hhandler⟩

end CompilerBackend
