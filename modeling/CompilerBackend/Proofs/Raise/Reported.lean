import CompilerBackend.Proofs.Raise.Loop
import CompilerBackend.Proofs.Raise.Matching
import Mathlib.Logic.Relation
/-!
# Raises that are reported as caught

A raise that is all that a try statement tries is reported if one of the clauses catches it for
certain. Clauses in front of that one may be undecided, and then one of those may be the clause that
runs.

- `knownHandler_mem_stepAt_iff`: when the step at a node makes the report.
- `Run.exists_reporting`, `Run.reports`: where the reports of a propagation come from, and that none
  on the tree it leaves is missing.
- `reported_clause_runs_iff`: when the clause that was found is the one that runs.
-/

namespace CompilerBackend
namespace Tree

variable {t u : Tree} {id tried : NodeId} {handlers rest : List NodeId}
  {exceptionType : Option NodeId} {place : Location} {e : RaiseEvent}

/-- The statement raises, and opens the block that a try statement with these handlers tries. -/
structure OpensTry (t : Tree) (id tried : NodeId) (exceptionType : Option NodeId)
    (handlers rest : List NodeId) : Prop where
  raise : ∃ value traceback, t.kind id = .stmt (.raise exceptionType value traceback)
  parent : t.parent id = some tried
  block : t.kind tried = .sequence (id :: rest)
  statement : ∃ s noRaise, t.parent tried = some s ∧
    t.kind s = .stmt (.tryExcept tried handlers noRaise)

/-- Where no rule applies, a raise that opens a block is all there is in it. -/
theorem OpensTry.alone (o : t.OpensTry id tried exceptionType handlers rest) (h : t.WellFormed)
    (hid : t.Reachable id) (hsettled : t.Settled id) : rest = [] := by
  obtain ⟨value, traceback, hraise⟩ := o.raise
  have hnodup := h.nodup_children (h.holder hid o.parent).1
  have hlast := hsettled.last hraise o.parent o.block
  rw [children, o.block] at hnodup
  by_contra hne
  rw [List.getLast?_cons, List.getLast?_eq_some_getLast hne, Option.getD_some,
    Option.some.injEq] at hlast
  exact (List.nodup_cons.mp hnodup).1 (hlast ▸ List.getLast_mem hne)

def clauses (t : Tree) (handlers : List NodeId) : List Handler := handlers.filterMap t.handler?

/-- What the clauses of a try statement make of a raise, one verdict each. -/
def verdicts (t : Tree) (handlers : List NodeId) (exceptionType : Option NodeId) : List Verdict :=
  (t.clauses handlers).map fun c => t.catches c.exceptionTypes exceptionType

/-! ## The step -/

theorem find?_always_isSome_iff :
    (handlers.find? fun h => (t.handler? h).any fun c =>
        t.catches c.exceptionTypes exceptionType == .always).isSome = true ↔
      .always ∈ t.verdicts handlers exceptionType := by
  rw [List.find?_isSome, verdicts, clauses, List.mem_map]
  simp only [List.mem_filterMap, Option.any_eq_true, beq_iff_eq]
  constructor
  · rintro ⟨h, hmem, c, hc, hcatches⟩
    exact ⟨c, ⟨h, hmem, hc⟩, hcatches⟩
  · rintro ⟨c, ⟨h, hmem, hc⟩, hcatches⟩
    exact ⟨h, hmem, c, hc, hcatches⟩

/-- A known handler is found where a try statement tries the sequence, and one of its clauses
catches what the statement raises. -/
theorem knownHandler?_isSome_iff : (t.knownHandler? id tried).isSome = true ↔
    ∃ s handlers noRaise exceptionType value traceback, t.parent tried = some s ∧
      t.kind s = .stmt (.tryExcept tried handlers noRaise) ∧
      t.kind id = .stmt (.raise exceptionType value traceback) ∧
      .always ∈ t.verdicts handlers exceptionType := by
  constructor
  · intro h
    obtain ⟨found, hfound⟩ := Option.isSome_iff_exists.mp h
    obtain ⟨s, hs, hbehind⟩ := Option.bind_eq_some_iff.mp hfound
    obtain ⟨st, hst, htry⟩ := Option.bind_eq_some_iff.mp hbehind
    split at htry
    next block handlers noRaise =>
        dsimp only at htry
        split at htry
        next => exact absurd htry.symm (Option.some_ne_none found)
        next hsame =>
            have hblock : block = tried := by simpa using hsame
            obtain ⟨raiser, hraiser, hfind⟩ := Option.bind_eq_some_iff.mp htry
            split at hfind
            next exceptionType value traceback =>
                exact ⟨s, handlers, noRaise, exceptionType, value, traceback, hs,
                  stmt?_eq_some_iff.mp (hblock ▸ hst), stmt?_eq_some_iff.mp hraiser,
                  find?_always_isSome_iff.mp (Option.isSome_iff_exists.mpr ⟨found, hfind⟩)⟩
            next => exact absurd hfind.symm (Option.some_ne_none found)
    next => exact absurd htry.symm (Option.some_ne_none found)
  · rintro ⟨s, handlers, noRaise, exceptionType, value, traceback, hs, hst, hraise, halways⟩
    rw [knownHandler?, hs, Option.bind_eq_bind, Option.bind_some, stmt?_eq_some_iff.mpr hst,
      Option.bind_eq_bind, Option.bind_some]
    simp only [bne_self_eq_false, Bool.false_eq_true, if_false, stmt?_eq_some_iff.mpr hraise,
      Option.bind_eq_bind, Option.bind_some]
    exact find?_always_isSome_iff.mpr halways

/-- Cutting an evaluation short reports no handler. -/
theorem knownHandler_not_mem_cutAtRaise : .knownHandler place ∉ (t.cutAtRaise id).events := by
  unfold cutAtRaise
  split
  · exact List.not_mem_nil
  · dsimp only
    split_ifs
    · exact List.not_mem_nil
    · simp
    · split
      · simp
      · exact List.not_mem_nil

/-- Behind a raise, the report is made if nothing was cut, the raise comes first, and a handler is
known. -/
theorem knownHandler_mem_cutBehindRaise_iff : .knownHandler place ∈ (t.cutBehindRaise id).events ↔
    place = t.location id ∧ ∃ tried, t.parent id = some tried ∧ t.kind tried = .sequence [id] ∧
      (t.knownHandler? id tried).isSome = true := by
  constructor
  · intro h
    unfold cutBehindRaise at h
    split at h
    next => exact absurd h List.not_mem_nil
    next tried hparent =>
        split at h
        next => exact absurd h List.not_mem_nil
        next statements hseq =>
            split at h
            next => simp at h
            next hcut =>
                split_ifs at h with hreport
                · rw [Bool.and_eq_true, decide_eq_true_eq] at hreport
                  obtain ⟨hfirst, hknown⟩ := hreport
                  obtain ⟨rest, rfl⟩ := List.head?_eq_some_iff.mp hfirst
                  have hkind := sequence?_eq_some_iff.mp hseq
                  obtain rfl : rest = [] := truncateAfter?_eq_none_iff.mp hcut tried [] rest
                    ⟨hparent, hkind, List.not_mem_nil⟩
                  exact ⟨by simpa using h, tried, hparent, hkind, hknown⟩
                · exact absurd h List.not_mem_nil
  · rintro ⟨rfl, tried, hparent, hkind, hknown⟩
    have hcut : t.truncateAfter? id = none := by
      have w : Placed t id tried [] [] := ⟨hparent, hkind, List.not_mem_nil⟩
      rw [truncateAfter?_eq w.parent_eq w.kind_eq w.not_mem_left, if_pos rfl]
    simp only [cutBehindRaise, hparent, sequence?_eq_some_iff.mpr hkind, hcut, List.head?_cons,
      hknown, decide_true, Bool.and_self, if_true, List.mem_singleton]

/-- The report is made at a raise that is all that a try statement tries, if one of the clauses
catches it for certain. -/
theorem knownHandler_mem_stepAt_iff : .knownHandler place ∈ (t.stepAt id).events ↔
    place = t.location id ∧ ∃ tried exceptionType handlers,
      t.OpensTry id tried exceptionType handlers [] ∧
        .always ∈ t.verdicts handlers exceptionType := by
  constructor
  · intro h
    unfold stepAt at h
    split at h
    · split at h
      · split at h
        · exact absurd h knownHandler_not_mem_cutAtRaise
        · exact absurd h List.not_mem_nil
      · exact absurd h List.not_mem_nil
    · split at h
      next =>
          obtain ⟨hplace, tried, hparent, hblock, hknown⟩ :=
            knownHandler_mem_cutBehindRaise_iff.mp h
          obtain ⟨s, handlers, noRaise, exceptionType, value, traceback, hs, htry, hraise,
            halways⟩ := knownHandler?_isSome_iff.mp hknown
          exact ⟨hplace, tried, exceptionType, handlers,
            ⟨⟨value, traceback, hraise⟩, hparent, hblock, s, noRaise, hs, htry⟩, halways⟩
      next => exact absurd h List.not_mem_nil
  · rintro ⟨rfl, tried, exceptionType, handlers, hopens, halways⟩
    obtain ⟨value, traceback, hraise⟩ := hopens.raise
    obtain ⟨s, noRaise, hs, htry⟩ := hopens.statement
    have hstep : t.stepAt id = t.cutBehindRaise id := by
      have hnot : t.isRaise id = false := by
        rw [isRaise, expr?, hraise]
        rfl
      rw [stepAt, hnot, stmt?_eq_some_iff.mpr hraise]
      rfl
    rw [hstep]
    exact knownHandler_mem_cutBehindRaise_iff.mpr ⟨rfl, tried, hopens.parent, hopens.block,
      knownHandler?_isSome_iff.mpr
        ⟨s, handlers, noRaise, exceptionType, value, traceback, hs, htry, hraise, halways⟩⟩

/-! ## The run -/

theorem mem_events_firstStep (h : t.WellFormed) {ids : List NodeId}
    (hids : ∀ i ∈ ids, t.Reachable i) (he : e ∈ (t.firstStep ids).events) :
    ∃ i ∈ ids, e ∈ (t.stepAt i).events := by
  induction ids with
  | nil => exact absurd he List.not_mem_nil
  | cons i ids ih =>
      rw [firstStep_cons] at he
      cases stepAt_cases h (hids i List.mem_cons_self) with
      | rewrites hc _ =>
          rw [if_pos hc] at he
          exact ⟨i, List.mem_cons_self, he⟩
      | stays hc htree _ =>
          rw [if_neg (Bool.eq_false_iff.mp hc), htree] at he
          rcases List.mem_append.mp he with he | he
          · exact ⟨i, List.mem_cons_self, he⟩
          · obtain ⟨j, hj, he⟩ := ih (fun j hj => hids j (List.mem_cons_of_mem i hj)) he
            exact ⟨j, List.mem_cons_of_mem i hj, he⟩

/-- A walk that changes nothing looks at every node. -/
theorem events_stepAt_subset_firstStep (h : t.WellFormed) {ids : List NodeId}
    (hids : ∀ i ∈ ids, t.Reachable i) (hc : (t.firstStep ids).changed = false) {i : NodeId}
    (hi : i ∈ ids) (he : e ∈ (t.stepAt i).events) : e ∈ (t.firstStep ids).events := by
  induction ids with
  | nil => exact absurd hi List.not_mem_nil
  | cons j ids ih =>
      rw [firstStep_cons] at hc ⊢
      cases stepAt_cases h (hids j List.mem_cons_self) with
      | rewrites hj _ =>
          rw [if_pos hj, hj] at hc
          exact Bool.noConfusion hc
      | stays hj htree _ =>
          rw [if_neg (Bool.eq_false_iff.mp hj), htree] at hc ⊢
          rcases List.mem_cons.mp hi with rfl | hi
          · exact List.mem_append_left _ he
          · exact List.mem_append_right _
              (ih (fun k hk => hids k (List.mem_cons_of_mem j hk)) hc hi)

theorem mem_events_round (h : t.WellFormed) (he : e ∈ t.round.events) :
    ∃ i, t.Reachable i ∧ e ∈ (t.stepAt i).events := by
  rw [round] at he
  cases hroot : t.root with
  | none =>
      rw [hroot] at he
      exact absurd he List.not_mem_nil
  | some root =>
      rw [hroot] at he
      obtain ⟨i, hi, he⟩ := mem_events_firstStep h (fun i hi => (h.mem_preOrder hroot).mp hi) he
      exact ⟨i, (h.mem_preOrder hroot).mp hi, he⟩

theorem events_stepAt_subset_round (h : t.WellFormed) (hc : t.round.changed = false) {i : NodeId}
    (hi : t.Reachable i) (he : e ∈ (t.stepAt i).events) : e ∈ t.round.events := by
  obtain ⟨root, hroot, hreach⟩ := hi
  have hround : t.round = t.firstStep (t.preOrder root) := by rw [round, hroot]
  rw [hround] at hc ⊢
  exact events_stepAt_subset_firstStep h (fun j hj => (h.mem_preOrder hroot).mp hj) hc
    ((h.mem_preOrder hroot).mpr ⟨root, hroot, hreach⟩) he

namespace Run

variable {n : Nat} {s : RaiseStep}

/-- What a run reports, a step reports at a reachable node of a tree that the run comes by. -/
theorem exists_reporting (r : Run t n s) (h : t.WellFormed) (he : e ∈ s.events) :
    ∃ u, Relation.ReflTransGen Restarts t u ∧
      ∃ i, u.Reachable i ∧ e ∈ (u.stepAt i).events := by
  induction r with
  | stops _ => exact ⟨_, .refl, mem_events_round h he⟩
  | again hc _ ih =>
      rcases List.mem_append.mp he with he | he
      · exact ⟨_, .refl, mem_events_round h he⟩
      · obtain ⟨u, hu, hreport⟩ := ih ((rewrite_round h hc).wellFormed h) he
        exact ⟨u, .head ⟨hc, rfl⟩ hu, hreport⟩

/-- What there is to report on the tree that is left is reported. -/
theorem reports (r : Run t n s) (h : t.WellFormed) {i : NodeId} (hi : s.tree.Reachable i)
    (he : e ∈ (s.tree.stepAt i).events) : e ∈ s.events := by
  induction r with
  | stops hc =>
      rw [(settled_round h hc).1] at hi he
      exact events_stepAt_subset_round h hc hi he
  | again hc _ ih => exact List.mem_append_right _ (ih ((rewrite_round h hc).wellFormed h) hi he)

end Run

/-! ## The clause that runs -/

/-- The first verdict that leaves something open is that of the clause that catches for certain, if
there is no other in front of it. -/
theorem find?_ne_never_iff {before after : List Verdict} (h : .always ∉ before) :
    (before ++ .always :: after).find? (· != .never) = some .always ↔
      ∀ verdict ∈ before, verdict = .never := by
  rw [List.find?_append]
  constructor
  · intro hfind verdict hmem
    by_contra hne
    obtain ⟨first, hfirst⟩ : ∃ first, before.find? (· != .never) = some first :=
      Option.isSome_iff_exists.mp (List.find?_isSome.mpr ⟨verdict, hmem, bne_iff_ne.mpr hne⟩)
    rw [hfirst, Option.some_or] at hfind
    exact h (Option.some.inj hfind ▸ List.mem_of_find?_eq_some hfirst)
  · intro hall
    have hnone : before.find? (· != .never) = none := by
      rw [List.find?_eq_none]
      exact fun verdict hmem hne => bne_iff_ne.mp hne (hall verdict hmem)
    rw [hnone, Option.none_or, List.find?_cons_of_pos (by decide)]

/-- The clauses of which one catches for certain, split at the first of that kind. -/
theorem exists_first_always (h : .always ∈ t.verdicts handlers exceptionType) :
    ∃ before c after, t.clauses handlers = before ++ c :: after ∧
      t.catches c.exceptionTypes exceptionType = .always ∧
      ∀ b ∈ before, t.catches b.exceptionTypes exceptionType ≠ .always := by
  obtain ⟨before, after, hsplit, hbefore⟩ := List.eq_append_cons_of_mem h
  obtain ⟨front, back, hclauses, rfl, hback⟩ := List.map_eq_append_iff.mp hsplit
  obtain ⟨c, rest, rfl, hc, -⟩ := List.map_eq_cons_iff.mp hback
  exact ⟨front, c, rest, hclauses, hc, fun b hb heq => hbefore (heq ▸ List.mem_map_of_mem hb)⟩

/-- A report is about a raise that is all that a try statement tries, and some clause catches it in
every run. The first clause of which that is certain is the one that runs, in every run, exactly if
the first verdict other than never is always; if it is undecided, an earlier clause runs in some. On
the tree that is left, no report is missing. -/
theorem reported_clause_runs_iff (h : t.WellFormed) {E : Type*} (builtin : String ↪ E) :
    (∀ place, .knownHandler place ∈ t.propagateRaises.events →
      ∃ u id tried exceptionType handlers, Relation.ReflTransGen Restarts t u ∧ u.Reachable id ∧
        u.location id = place ∧ u.OpensTry id tried exceptionType handlers [] ∧
        ∃ before c after, u.clauses handlers = before ++ c :: after ∧
          (∀ v, u.Catches builtin v c.exceptionTypes exceptionType) ∧
          (∀ b ∈ before, ∃ v, ¬ u.Catches builtin v b.exceptionTypes exceptionType) ∧
          ((u.verdicts handlers exceptionType).find? (· != .never) = some .always ↔
            ∀ v, ∀ b ∈ before, ¬ u.Catches builtin v b.exceptionTypes exceptionType)) ∧
    ∀ id tried exceptionType handlers rest, t.propagateRaises.tree.Reachable id →
      t.propagateRaises.tree.OpensTry id tried exceptionType handlers rest →
      .always ∈ t.propagateRaises.tree.verdicts handlers exceptionType →
      .knownHandler (t.propagateRaises.tree.location id) ∈ t.propagateRaises.events := by
  obtain ⟨k, run⟩ := exists_run h
  have : Nonempty (Valuation E) := ⟨⟨fun _ => ∅, builtin ""⟩⟩
  constructor
  · intro place hplace
    obtain ⟨u, hu, id, hid, hstep⟩ := run.exists_reporting h hplace
    obtain ⟨rfl, tried, exceptionType, handlers, hopens, halways⟩ :=
      knownHandler_mem_stepAt_iff.mp hstep
    obtain ⟨before, c, after, hclauses, hc, hbefore⟩ := exists_first_always halways
    have hfits := fun b : Handler => fits_catches u builtin b.exceptionTypes exceptionType
    refine ⟨u, id, tried, exceptionType, handlers, hu, hid, rfl, hopens, before, c, after, hclauses,
      (hfits c).always_iff.mp hc, fun b hb => ?_, ?_⟩
    · have hnot := hbefore b hb
      rw [Ne, (hfits b).always_iff, not_forall] at hnot
      exact hnot
    · rw [verdicts, hclauses, List.map_append, List.map_cons, hc, find?_ne_never_iff]
      · rw [List.forall_mem_map]
        constructor
        · exact fun hall v b hb => (hfits b).never_iff.mp (hall b hb) v
        · exact fun hnone b hb => (hfits b).never_iff.mpr fun v => hnone v b hb
      · intro hmem
        obtain ⟨b, hb, hverdict⟩ := List.mem_map.mp hmem
        exact hbefore b hb hverdict
  · intro id tried exceptionType handlers rest hid hopens halways
    obtain rfl := hopens.alone (run.wellFormed h) hid (run.settled h hid)
    exact run.reports h hid
      (knownHandler_mem_stepAt_iff.mpr ⟨rfl, tried, exceptionType, handlers, hopens, halways⟩)

/-- A raise of `ValueError` that a clause of that name catches, behind one for `MyError`. -/
def guardedRaise : Tree where
  nodes :=
    let entry (kind : NodeKind) (parent : Option NodeId) : Node :=
      ⟨kind, parent, { file := "spam.py", line := 1 }⟩
    #[entry (.module { name := "spam", filename := "spam.py", body := some ⟨1⟩ }) none,
      entry (.sequence [⟨2⟩]) (some ⟨0⟩),
      entry (.stmt (.tryExcept ⟨3⟩ [⟨6⟩, ⟨8⟩] none)) (some ⟨1⟩),
      entry (.sequence [⟨4⟩]) (some ⟨2⟩),
      entry (.stmt (.raise (some ⟨5⟩) none none)) (some ⟨3⟩),
      entry (.expr (.exception "ValueError")) (some ⟨4⟩),
      entry (.handler { exceptionTypes := [⟨7⟩] }) (some ⟨2⟩),
      entry (.expr (.variableRef "MyError" (some ⟨"MyError", .moduleGlobal⟩))) (some ⟨6⟩),
      entry (.handler { exceptionTypes := [⟨9⟩] }) (some ⟨2⟩),
      entry (.expr (.exception "ValueError")) (some ⟨8⟩)]
  root := some ⟨0⟩

/-- The second clause is reported, but the first one may be the one that runs. -/
theorem reported_clause_runs_iff_guardedRaise :
    guardedRaise.WellFormed ∧
      .knownHandler (guardedRaise.location ⟨4⟩) ∈ guardedRaise.propagateRaises.events ∧
      guardedRaise.verdicts [⟨6⟩, ⟨8⟩] (some ⟨5⟩) = [.undecided, .always] ∧
      ((guardedRaise.verdicts [⟨6⟩, ⟨8⟩] (some ⟨5⟩)).find? (· != .never)) = some .undecided := by
  have hwf : guardedRaise.WellFormed := WellFormed.of_arena rfl rfl (by decide) (by decide)
  have htree : guardedRaise.propagateRaises.tree = guardedRaise :=
    (propagateRaises_tree_eq_iff hwf).mpr (by decide +kernel)
  have hreach : guardedRaise.Reachable ⟨4⟩ := hwf.mem_live.mp (by decide)
  have hopens : guardedRaise.OpensTry ⟨4⟩ ⟨3⟩ (some ⟨5⟩) [⟨6⟩, ⟨8⟩] [] :=
    ⟨⟨none, none, rfl⟩, rfl, rfl, ⟨2⟩, none, rfl, rfl⟩
  have hverdicts : guardedRaise.verdicts [⟨6⟩, ⟨8⟩] (some ⟨5⟩) = [.undecided, .always] := by decide
  have hreports := (reported_clause_runs_iff hwf (.refl String)).2 ⟨4⟩ ⟨3⟩ (some ⟨5⟩) [⟨6⟩, ⟨8⟩] []
  rw [htree] at hreports
  refine ⟨hwf, hreports hreach hopens ?_, hverdicts, ?_⟩
  · rw [hverdicts]
    decide
  · rw [hverdicts]
    decide

end Tree
end CompilerBackend
