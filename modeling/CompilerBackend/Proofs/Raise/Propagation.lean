import CompilerBackend.Proofs.Raise.Loop
import Mathlib.Logic.Relation
/-!
# What the propagation of raises guarantees

On a tree that is well formed below its root, the propagation keeps it well formed, returns after
finitely many rewrites, and leaves a tree to which no rule applies. Arenas with detached nodes
are included: only what lies below the root is asked to be a tree.
-/

namespace CompilerBackend
namespace Tree

variable {t : Tree}

/-- The statement `f(g(), h(), raise E)` before a print. The raise comes up through the call,
becomes a statement behind `g()` and `h()`, and hides the print. -/
def raisingCall : Tree where
  nodes :=
    let entry (line : Nat) (kind : NodeKind) (parent : Option NodeId) : Node :=
      ⟨kind, parent, { file := "raising.py", line }⟩
    #[entry 1 (.module { name := "raising", filename := "raising.py", body := some ⟨1⟩ }) none,
      entry 1 (.sequence [⟨2⟩, ⟨11⟩]) (some ⟨0⟩),
      entry 1 (.stmt (.expression ⟨3⟩)) (some ⟨1⟩),
      entry 1 (.expr (.call ⟨4⟩ [⟨5⟩, ⟨6⟩, ⟨7⟩] [] none none)) (some ⟨2⟩),
      entry 1 (.expr (.builtin "f")) (some ⟨3⟩),
      entry 2 (.expr (.call ⟨8⟩ [] [] none none)) (some ⟨3⟩),
      entry 3 (.expr (.call ⟨9⟩ [] [] none none)) (some ⟨3⟩),
      entry 4 (.expr (.raise ⟨10⟩ none [])) (some ⟨3⟩),
      entry 2 (.expr (.builtin "g")) (some ⟨5⟩),
      entry 3 (.expr (.builtin "h")) (some ⟨6⟩),
      entry 4 (.expr (.exception "E")) (some ⟨7⟩),
      entry 5 (.stmt (.print none [⟨12⟩] true)) (some ⟨1⟩),
      entry 5 (.expr (.constant (.int 1))) (some ⟨11⟩)]
  root := some ⟨0⟩

theorem wellFormed_raisingCall : raisingCall.WellFormed :=
  WellFormed.of_arena rfl rfl (by decide) (by decide)

/-! ## The tree stays a tree -/

/-- The propagation keeps what lies below the root a tree: a child that is reached has its
holder as parent, no other holder, and no way back up to it. -/
theorem propagateRaises_wellFormed (h : t.WellFormed) :
    t.propagateRaises.tree.WellFormed ∧
      ∀ n c, t.propagateRaises.tree.Reachable n → c ∈ t.propagateRaises.tree.children n →
        t.propagateRaises.tree.parent c = some n ∧
          ¬ t.propagateRaises.tree.Reaches c n ∧
            ∀ m, t.propagateRaises.tree.Reachable m →
              c ∈ t.propagateRaises.tree.children m → m = n := by
  obtain ⟨k, run⟩ := exists_run h
  have h' := run.wellFormed h
  refine ⟨h', fun n c hn hc => ⟨h'.parent_child hn hc, ?_, fun m hm hcm => ?_⟩⟩
  · exact (h'.isTree hn).not_reaches_of_child (Reaches.refl _ n) hc
  · exact Option.some.inj ((h'.parent_child hm hcm).symm.trans (h'.parent_child hn hc))

/-- The type of the raise ends up below the new statement alone. -/
theorem propagateRaises_wellFormed_raisingCall :
    raisingCall.WellFormed ∧ raisingCall.propagateRaises.tree.WellFormed ∧
      raisingCall.propagateRaises.tree.parent ⟨10⟩ = some ⟨15⟩ ∧
        ¬ raisingCall.propagateRaises.tree.Reaches ⟨10⟩ ⟨15⟩ := by
  obtain ⟨hwf, hheld⟩ := propagateRaises_wellFormed wellFormed_raisingCall
  have hreach : raisingCall.propagateRaises.tree.Reachable ⟨15⟩ :=
    hwf.mem_live.mp (by decide)
  obtain ⟨hparent, hback, -⟩ := hheld ⟨15⟩ ⟨10⟩ hreach (by decide)
  exact ⟨wellFormed_raisingCall, hwf, hparent, hback⟩

/-! ## The loop returns -/

theorem wellFormed_of_restarts {u : Tree} (h : t.WellFormed)
    (r : Relation.ReflTransGen Restarts t u) : u.WellFormed := by
  induction r with
  | refl => exact h
  | tail _ hr ih => exact (hr.rewrite ih).wellFormed ih

/-- A statement that evaluates a raise can be replaced by more nodes than are gone. -/
theorem exists_growing_rewrite : ∃ u id, u.WellFormed ∧ u.Reachable id ∧
    (u.kind id).isStmt = true ∧ Restarts u (u.cutAtRaise id).tree ∧
      u.live.card < (u.cutAtRaise id).tree.live.card := by
  -- the first round brings the raise up to its statement, the second replaces that one by three
  have hchanged : raisingCall.round.changed = true := by decide
  have hwf : raisingCall.round.tree.WellFormed :=
    (rewrite_round wellFormed_raisingCall hchanged).wellFormed wellFormed_raisingCall
  refine ⟨raisingCall.round.tree, ⟨2⟩, hwf, ?_, by decide, ⟨by decide +kernel, rfl⟩,
    by decide⟩
  rw [← hwf.mem_live]
  decide

/-- Every rewrite of the loop makes the measure smaller, also one that leaves more reachable nodes
than there were. So the loop returns after no more rewrites than the measure says, and what it
returns is what the bounded loop computes. -/
theorem propagateRaises_terminates (h : t.WellFormed) :
    (∀ u u', Relation.ReflTransGen Restarts t u → Restarts u u' →
      u'.raiseMeasure < u.raiseMeasure) ∧
    (∃ k ≤ t.raiseMeasure, Run t k t.propagateRaises ∧
      ∀ k' s, Run t k' s → k' = k ∧ s = t.propagateRaises) ∧
    ∃ u id, u.WellFormed ∧ u.Reachable id ∧ (u.kind id).isStmt = true ∧
      Restarts u (u.cutAtRaise id).tree ∧
        u.live.card < (u.cutAtRaise id).tree.live.card := by
  refine ⟨?_, ?_, exists_growing_rewrite⟩
  · intro u u' hu hr
    have hwf := wellFormed_of_restarts h hu
    exact (hr.rewrite hwf).measure_lt hwf
  · obtain ⟨k, run⟩ := exists_run h
    have hle := run.measure_add_le h
    exact ⟨k, by omega, run, fun k' s run' => run'.unique run⟩

theorem propagateRaises_terminates_raisingCall : raisingCall.WellFormed ∧
    ∃ k ≤ raisingCall.raiseMeasure, Run raisingCall k raisingCall.propagateRaises := by
  obtain ⟨k, hk, run, -⟩ := (propagateRaises_terminates wellFormed_raisingCall).2.1
  exact ⟨wellFormed_raisingCall, k, hk, run⟩

/-! ## The normal form -/

/-- No rule applies to the tree that is left: a raise expression stands where nothing gives way
to it, a raise statement ends its sequence. Another propagation leaves the whole arena as it is,
and the first one did so exactly if it reported no change. -/
theorem propagateRaises_normal (h : t.WellFormed) :
    (∀ n exceptionType value effects, t.propagateRaises.tree.Reachable n →
      t.propagateRaises.tree.kind n = .expr (.raise exceptionType value effects) →
      t.propagateRaises.tree.root = some n ∨
        ∃ p, t.propagateRaises.tree.parent n = some p ∧
          ¬ t.propagateRaises.tree.CutsShort p) ∧
    (∀ n q statements exceptionType value traceback, t.propagateRaises.tree.Reachable q →
      t.propagateRaises.tree.kind q = .sequence statements → n ∈ statements →
      t.propagateRaises.tree.kind n = .stmt (.raise exceptionType value traceback) →
      statements.getLast? = some n) ∧
    (t.propagateRaises.tree.propagateRaises.changed = false ∧
      t.propagateRaises.tree.propagateRaises.tree = t.propagateRaises.tree) ∧
    (t.propagateRaises.changed = false ↔ t.propagateRaises.tree = t) := by
  obtain ⟨k, run⟩ := exists_run h
  have h' := run.wellFormed h
  refine ⟨?_, ?_, ?_, ?_⟩
  · intro n exceptionType value effects hn hk
    cases hp : t.propagateRaises.tree.parent n with
    | none => exact Or.inl (h'.root_of_parent_none hn hp)
    | some p => exact Or.inr ⟨p, rfl, (run.settled h hn).raise hk hp⟩
  · intro n q statements exceptionType value traceback hq hk hn hs
    have hc : n ∈ t.propagateRaises.tree.children q := by
      rw [children, hk]
      exact hn
    exact (run.settled h (hq.child hc)).last hs (h'.parent_child hq hc) hk
  · obtain ⟨k', run'⟩ := exists_run h'
    obtain ⟨hk', htree⟩ := run.again_eq h run'
    refine ⟨?_, htree⟩
    rw [run'.changed_eq, hk']
    rfl
  · rw [run.tree_eq_iff h, run.changed_eq, decide_eq_false_iff_not, Nat.pos_iff_ne_zero,
      not_not]

/-- A tree that is changed, but only once. -/
theorem propagateRaises_normal_raisingCall : raisingCall.WellFormed ∧
    raisingCall.propagateRaises.tree ≠ raisingCall ∧
      raisingCall.propagateRaises.tree.propagateRaises.changed = false ∧
        raisingCall.propagateRaises.tree.propagateRaises.tree =
          raisingCall.propagateRaises.tree := by
  obtain ⟨-, -, ⟨hchanged, htree⟩, hiff⟩ := propagateRaises_normal wellFormed_raisingCall
  have hfirst : raisingCall.propagateRaises.changed = true := by decide
  refine ⟨wellFormed_raisingCall, fun hsame => ?_, hchanged, htree⟩
  rw [hiff.mpr hsame] at hfirst
  exact Bool.noConfusion hfirst

end Tree
end CompilerBackend
