import CompilerBackend.Proofs.Raise.Measure
/-!
# The loop of the propagation

`Run t n s` is the loop without a bound on its rounds: on `t` it performs `n` rewrites and
returns `s`. On a well-formed tree the bounded loop follows it (`exists_run`), because its bound
is larger than the measure that each rewrite makes smaller. What a run does follows from what one
round does:

- `Run.wellFormed`: the tree is well formed again.
- `Run.settled`: no rule applies to it any more.
- `Run.measure_add_le`: there are no more rewrites than the measure allows.
- `Run.preserves`: what a rewrite keeps, it keeps.
- `propagateRaises_tree_eq_iff`: what is reported as no change is none.
-/

namespace CompilerBackend
namespace Tree

variable {t t' : Tree} {n : Nat} {s : RaiseStep}

/-- One round: the walk from the root up to the first step that changes the tree. -/
def round (t : Tree) : RaiseStep :=
  match t.root with
  | some root => t.firstStep (t.preOrder root)
  | none => { tree := t }

/-- The loop performs `n` rewrites and returns. -/
inductive Run : Tree → Nat → RaiseStep → Prop where
  | stops {t : Tree} (unchanged : t.round.changed = false) : Run t 0 t.round
  | again {t : Tree} {n : Nat} {s : RaiseStep} (changed : t.round.changed = true)
      (rest : Run t.round.tree n s) :
      Run t (n + 1) { s.after t.round.events with changed := true }

/-- A round that rewrites the tree, after which the loop starts again. -/
def Restarts (t t' : Tree) : Prop := t.round.changed = true ∧ t.round.tree = t'

/-! ## One round -/

theorem firstStep_cons (t : Tree) (i : NodeId) (ids : List NodeId) :
    t.firstStep (i :: ids) =
      if (t.stepAt i).changed then t.stepAt i
      else ((t.stepAt i).tree.firstStep ids).after (t.stepAt i).events := rfl

theorem firstStep_cases (h : t.WellFormed) {ids : List NodeId} (hids : ∀ i ∈ ids, t.Reachable i) :
    Outcome t (∀ i ∈ ids, t.Settled i) (t.firstStep ids) := by
  induction ids with
  | nil => exact .stays rfl rfl fun i hi => absurd hi List.not_mem_nil
  | cons i ids ih =>
      rw [firstStep_cons]
      cases stepAt_cases h (hids i List.mem_cons_self) with
      | rewrites hc hr =>
          rw [if_pos hc]
          exact .rewrites hc hr
      | stays hc htree hi =>
          -- a step that changes nothing hands on the very tree it was given
          rw [if_neg (Bool.eq_false_iff.mp hc), htree]
          cases ih fun j hj => hids j (List.mem_cons_of_mem i hj) with
          | rewrites hc hr => exact .rewrites hc hr
          | stays hc hsame hall =>
              refine .stays hc hsame fun j hj => ?_
              rcases List.mem_cons.mp hj with rfl | hj
              · exact hi
              · exact hall j hj

/-- A round rewrites the tree, or leaves it alone because every reachable node is settled. -/
theorem round_cases (h : t.WellFormed) :
    Outcome t (∀ i, t.Reachable i → t.Settled i) t.round := by
  rw [round]
  cases hroot : t.root with
  | none =>
      refine .stays rfl rfl ?_
      rintro i ⟨root, hr, -⟩
      exact absurd (hr.symm.trans hroot) (Option.some_ne_none root)
  | some root =>
      refine (firstStep_cases h fun i hi => (h.mem_preOrder hroot).mp hi).imp fun hall i hi => ?_
      exact hall i ((h.mem_preOrder hroot).mpr hi)

theorem rewrite_round (h : t.WellFormed) (hc : t.round.changed = true) :
    Rewrite t t.round.tree := by
  cases round_cases h with
  | rewrites _ hr => exact hr
  | stays hf _ _ => exact absurd (hc.symm.trans hf) nofun

theorem settled_round (h : t.WellFormed) (hc : t.round.changed = false) :
    t.round.tree = t ∧ ∀ i, t.Reachable i → t.Settled i := by
  cases round_cases h with
  | rewrites ht _ => exact absurd (ht.symm.trans hc) nofun
  | stays _ hsame hall => exact ⟨hsame, hall⟩

theorem Restarts.rewrite (r : Restarts t t') (h : t.WellFormed) : Rewrite t t' := by
  obtain ⟨hc, rfl⟩ := r
  exact rewrite_round h hc

theorem propagateFrom_succ (fuel : Nat) (t : Tree) :
    propagateFrom (fuel + 1) t =
      if t.round.changed then
        { (propagateFrom fuel t.round.tree).after t.round.events with changed := true }
      else t.round := by
  rw [propagateFrom, round]
  cases t.root <;> rfl

/-! ## The whole loop -/

/-- A bound above the measure is never reached. -/
theorem exists_run_propagateFrom {fuel : Nat} (h : t.WellFormed) (hf : t.raiseMeasure < fuel) :
    ∃ n, Run t n (propagateFrom fuel t) := by
  induction fuel generalizing t with
  | zero => exact absurd hf (Nat.not_lt_zero _)
  | succ fuel ih =>
      rw [propagateFrom_succ]
      -- a round that changes the tree leaves a smaller measure for one unit less
      by_cases hc : t.round.changed = true
      · have hr := rewrite_round h hc
        have hlt := hr.measure_lt h
        obtain ⟨n, run⟩ := ih (hr.wellFormed h) (by omega)
        rw [if_pos hc]
        exact ⟨n + 1, .again hc run⟩
      · rw [if_neg hc]
        exact ⟨0, .stops (Bool.eq_false_iff.mpr hc)⟩

/-- The propagation is a run of the unbounded loop. -/
theorem exists_run (h : t.WellFormed) : ∃ n, Run t n t.propagateRaises :=
  exists_run_propagateFrom h h.raiseMeasure_lt_stepBound

namespace Run

/-- The loop returns one result, after one number of rewrites. -/
theorem unique {n' : Nat} {s' : RaiseStep} (r : Run t n s) (r' : Run t n' s') :
    n = n' ∧ s = s' := by
  induction r generalizing n' s' with
  | stops hc =>
      cases r' with
      | stops _ => exact ⟨rfl, rfl⟩
      | again hc' _ =>
          rw [hc] at hc'
          exact Bool.noConfusion hc'
  | again hc _ ih =>
      cases r' with
      | stops hc' =>
          rw [hc] at hc'
          exact Bool.noConfusion hc'
      | again _ rest =>
          obtain ⟨rfl, rfl⟩ := ih rest
          exact ⟨rfl, rfl⟩

/-- What a rewrite keeps, the loop keeps. -/
theorem preserves {P : Tree → Prop} (r : Run t n s) (h : t.WellFormed) (base : P t)
    (step : ∀ u u', u.WellFormed → Rewrite u u' → P u → P u') : P s.tree := by
  induction r with
  | stops hc =>
      rw [(settled_round h hc).1]
      exact base
  | again hc _ ih =>
      have hr := rewrite_round h hc
      exact ih (hr.wellFormed h) (step _ _ h hr base)

theorem wellFormed (r : Run t n s) (h : t.WellFormed) : s.tree.WellFormed :=
  r.preserves h h fun _ _ hu hr _ => hr.wellFormed hu

theorem settled (r : Run t n s) (h : t.WellFormed) {i : NodeId} (hi : s.tree.Reachable i) :
    s.tree.Settled i := by
  induction r with
  | stops hc =>
      obtain ⟨htree, hall⟩ := settled_round h hc
      rw [htree] at hi ⊢
      exact hall i hi
  | again hc _ ih => exact ih ((rewrite_round h hc).wellFormed h) hi

theorem measure_add_le (r : Run t n s) (h : t.WellFormed) :
    s.tree.raiseMeasure + n ≤ t.raiseMeasure := by
  induction r with
  | stops hc => exact le_of_eq (congrArg raiseMeasure (settled_round h hc).1)
  | @again t n s hc _ ih =>
      have hr := rewrite_round h hc
      have hlt := hr.measure_lt h
      have hle : s.tree.raiseMeasure + n ≤ t.round.tree.raiseMeasure := ih (hr.wellFormed h)
      show s.tree.raiseMeasure + (n + 1) ≤ t.raiseMeasure
      omega

/-- The result says whether there was a rewrite. -/
theorem changed_eq (r : Run t n s) : s.changed = decide (0 < n) := by
  cases r with
  | stops hc => exact hc
  | again _ _ => rfl

/-- The tree is the very same exactly if nothing was rewritten. -/
theorem tree_eq_iff (r : Run t n s) (h : t.WellFormed) : s.tree = t ↔ n = 0 := by
  constructor
  · intro heq
    have hle := r.measure_add_le h
    rw [heq] at hle
    omega
  · rintro rfl
    cases r with
    | stops hc => exact (settled_round h hc).1

/-- No round changes the tree that a run leaves. -/
theorem round_changed_eq_false (r : Run t n s) (h : t.WellFormed) :
    s.tree.round.changed = false := by
  induction r with
  | stops hc =>
      rw [(settled_round h hc).1]
      exact hc
  | again hc _ ih => exact ih ((rewrite_round h hc).wellFormed h)

/-- A run over the tree that a run has left returns that tree at once. -/
theorem again_eq {s' : RaiseStep} {n' : Nat} (r : Run t n s) (h : t.WellFormed)
    (r' : Run s.tree n' s') : n' = 0 ∧ s'.tree = s.tree := by
  obtain ⟨hn, -⟩ := r'.unique (.stops (r.round_changed_eq_false h))
  exact ⟨hn, (r'.tree_eq_iff (r.wellFormed h)).mpr hn⟩

end Run

/-- The propagation reports a change exactly if it makes one. -/
theorem propagateRaises_tree_eq_iff (h : t.WellFormed) :
    t.propagateRaises.tree = t ↔ t.propagateRaises.changed = false := by
  obtain ⟨k, run⟩ := exists_run h
  rw [run.tree_eq_iff h, run.changed_eq, decide_eq_false_iff_not, Nat.pos_iff_ne_zero, not_not]

end Tree
end CompilerBackend
