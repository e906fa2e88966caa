import CompilerBackend.Proofs.Raise.Propagation
/-!
# How the passes end

One pass leaves a tree that a further pass does not change, so a second pass is only there to find
this out. The end of the passes is reported by their number: if it is the number that was allowed,
the passes are said to have been stopped. Where no pass was allowed, or one and it was needed, that
is said of a tree with nothing left to do.

- `passesFrom_of_fixed`, `passesFrom_of_not_fixed`: what passes leave, and how many there were.
- `isFixed_passesFrom_iff`, `count_passesFrom_eq_iff`: when they leave a fixed tree, and when they
  are all that were allowed.
- `passLog_end`: what is logged of it, with `passLog_stopped_fixed` for a tree with nothing left.
-/

namespace CompilerBackend
namespace Tree

variable {t : Tree} {n limit : Nat}

/-- A further propagation leaves the tree as it is. -/
def IsFixed (t : Tree) : Prop := t.propagateRaises.tree = t

/-! ## One pass -/

theorem isFixed_iff (h : t.WellFormed) : t.IsFixed ↔ t.propagateRaises.changed = false :=
  propagateRaises_tree_eq_iff h

theorem isFixed_propagateRaises (h : t.WellFormed) : t.propagateRaises.tree.IsFixed := by
  obtain ⟨k, run⟩ := exists_run h
  obtain ⟨k', run'⟩ := exists_run (run.wellFormed h)
  exact (run.again_eq h run').2

theorem passesFrom_succ (n : Nat) (t : Tree) :
    t.passesFrom (n + 1) =
      if t.propagateRaises.changed then
        ⟨(t.propagateRaises.tree.passesFrom n).tree,
          (t.propagateRaises.tree.passesFrom n).count + 1,
          t.propagateRaises.events ++ (t.propagateRaises.tree.passesFrom n).events⟩
      else ⟨t.propagateRaises.tree, 0, t.propagateRaises.events⟩ := rfl

/-! ## All passes -/

theorem passesFrom_of_fixed (h : t.WellFormed) (hfixed : t.IsFixed) :
    (t.passesFrom n).tree = t ∧ (t.passesFrom n).count = 0 := by
  cases n with
  | zero => exact ⟨rfl, rfl⟩
  | succ n =>
      rw [passesFrom_succ, if_neg (Bool.eq_false_iff.mp ((isFixed_iff h).mp hfixed))]
      exact ⟨hfixed, rfl⟩

/-- The first pass does all there is to do. -/
theorem passesFrom_of_not_fixed (h : t.WellFormed) (hfixed : ¬ t.IsFixed) :
    (t.passesFrom (n + 1)).tree = t.propagateRaises.tree ∧ (t.passesFrom (n + 1)).count = 1 := by
  obtain ⟨k, run⟩ := exists_run h
  obtain ⟨htree, hcount⟩ :=
    passesFrom_of_fixed (n := n) (run.wellFormed h) (isFixed_propagateRaises h)
  rw [isFixed_iff h, Bool.not_eq_false] at hfixed
  rw [passesFrom_succ, if_pos hfixed]
  exact ⟨htree, congrArg (· + 1) hcount⟩

/-- What is left is fixed, unless there was something to do and no pass to do it. -/
theorem isFixed_passesFrom_iff (h : t.WellFormed) :
    (t.passesFrom limit).tree.IsFixed ↔ (limit = 0 → t.IsFixed) := by
  by_cases hfixed : t.IsFixed
  · rw [(passesFrom_of_fixed h hfixed).1]
    exact iff_of_true hfixed fun _ => hfixed
  · cases limit with
    | zero => exact ⟨fun hleft _ => hleft, fun hleft => hleft rfl⟩
    | succ n =>
        rw [(passesFrom_of_not_fixed h hfixed).1]
        exact iff_of_true (isFixed_propagateRaises h) fun hlimit =>
          absurd hlimit (Nat.succ_ne_zero n)

/-- All passes that were allowed changed the tree if there were none, or if the one that was needed
was the only one. -/
theorem count_passesFrom_eq_iff (h : t.WellFormed) :
    (t.passesFrom limit).count = limit ↔ limit = 0 ∨ limit = 1 ∧ ¬ t.IsFixed := by
  by_cases hfixed : t.IsFixed
  · rw [(passesFrom_of_fixed h hfixed).2]
    constructor
    · exact fun hlimit => Or.inl hlimit.symm
    · rintro (rfl | ⟨-, hnot⟩)
      · rfl
      · exact absurd hfixed hnot
  · cases limit with
    | zero => exact iff_of_true rfl (Or.inl rfl)
    | succ n =>
        rw [(passesFrom_of_not_fixed h hfixed).2]
        constructor
        · exact fun hlimit => Or.inr ⟨hlimit.symm, hfixed⟩
        · rintro (hlimit | ⟨hlimit, -⟩)
          · exact absurd hlimit (Nat.succ_ne_zero n)
          · exact hlimit.symm

/-! ## The log -/

theorem level_entry (event : RaiseEvent) : event.entry.level = .debug := by
  cases event <;> rfl

theorem dropLast_passLog :
    (t.passLog limit).dropLast = (t.passesFrom limit).events.map RaiseEvent.entry :=
  List.dropLast_concat

theorem getLast?_passLog_stopped (h : (t.passesFrom limit).count = limit) :
    (t.passLog limit).getLast? = some ⟨.warn, none,
      "optimization stopped after " ++ toString (t.passesFrom limit).count ++ " passes"⟩ := by
  rw [passLog, List.getLast?_concat, PassEnd.of, if_pos h]
  rfl

theorem getLast?_passLog_finished (h : (t.passesFrom limit).count ≠ limit) :
    (t.passLog limit).getLast? = some ⟨.debug, none,
      "optimization finished after " ++ toString (t.passesFrom limit).count ++ " passes"⟩ := by
  rw [passLog, List.getLast?_concat, PassEnd.of, if_neg h]
  rfl

/-- The one warning that is logged is that the passes were stopped, and it stands at the end. It is
logged of every tree that a further propagation would change. It is also logged of trees with
nothing left to do, but only if no pass was allowed, or if one was allowed and needed; otherwise the
passes are said to have finished. -/
theorem passLog_end (h : t.WellFormed) (limit : Nat) :
    (∀ entry ∈ (t.passLog limit).dropLast, entry.level = .debug) ∧
    (¬ (t.passesFrom limit).tree.IsFixed → (t.passLog limit).getLast? = some ⟨.warn, none,
      "optimization stopped after " ++ toString (t.passesFrom limit).count ++ " passes"⟩) ∧
    ((t.passesFrom limit).tree.IsFixed →
      ((limit = 0 ∨ limit = 1 ∧ ¬ t.IsFixed) → (t.passLog limit).getLast? = some ⟨.warn, none,
        "optimization stopped after " ++ toString (t.passesFrom limit).count ++ " passes"⟩) ∧
      (¬ (limit = 0 ∨ limit = 1 ∧ ¬ t.IsFixed) → (t.passLog limit).getLast? = some ⟨.debug, none,
        "optimization finished after " ++ toString (t.passesFrom limit).count ++ " passes"⟩)) := by
  refine ⟨?_, fun hleft => ?_, fun _ => ⟨fun hall => ?_, fun hsome => ?_⟩⟩
  · rw [dropLast_passLog, List.forall_mem_map]
    exact fun event _ => level_entry event
  · rw [isFixed_passesFrom_iff h, Classical.not_imp] at hleft
    exact getLast?_passLog_stopped ((count_passesFrom_eq_iff h).mpr (Or.inl hleft.1))
  · exact getLast?_passLog_stopped ((count_passesFrom_eq_iff h).mpr hall)
  · exact getLast?_passLog_finished fun heq => hsome ((count_passesFrom_eq_iff h).mp heq)

theorem not_isFixed_raisingCall : ¬ raisingCall.IsFixed := by
  rw [isFixed_iff wellFormed_raisingCall, Bool.not_eq_false]
  decide +kernel

/-- One pass was allowed and did all there was to do; it is said to have been stopped, not to have
finished. -/
theorem passLog_stopped_fixed :
    raisingCall.WellFormed ∧ (raisingCall.passesFrom 1).tree.IsFixed ∧
      (raisingCall.passLog 1).getLast? =
        some ⟨.warn, none, "optimization stopped after 1 passes"⟩ ∧
      ∀ n : Nat, (raisingCall.passLog 1).getLast? ≠
        some ⟨.debug, none, "optimization finished after " ++ toString n ++ " passes"⟩ := by
  have hwf := wellFormed_raisingCall
  have hfixed : (raisingCall.passesFrom 1).tree.IsFixed :=
    (isFixed_passesFrom_iff hwf).mpr fun hlimit => absurd hlimit Nat.one_ne_zero
  have hcount := (passesFrom_of_not_fixed (n := 0) hwf not_isFixed_raisingCall).2
  have hlast := getLast?_passLog_stopped hcount
  rw [hcount] at hlast
  refine ⟨hwf, hfixed, hlast, fun n heq => ?_⟩
  have hlevel := congrArg LogEntry.level (Option.some.inj (hlast.symm.trans heq))
  exact LogLevel.noConfusion hlevel

/-- One pass is needed: with no other one allowed it is said to have been stopped, else to have
finished. -/
theorem passLog_end_raisingCall :
    raisingCall.WellFormed ∧ ¬ raisingCall.IsFixed ∧ (raisingCall.passesFrom 1).tree.IsFixed ∧
      (raisingCall.passLog 1).getLast? =
        some ⟨.warn, none, "optimization stopped after 1 passes"⟩ ∧
      (raisingCall.passLog 2).getLast? =
        some ⟨.debug, none, "optimization finished after 1 passes"⟩ := by
  have hwf := wellFormed_raisingCall
  have hfixed := not_isFixed_raisingCall
  have hone : (raisingCall.passesFrom 1).tree.IsFixed :=
    (isFixed_passesFrom_iff hwf).mpr fun hlimit => absurd hlimit Nat.one_ne_zero
  have htwo : (raisingCall.passesFrom 2).tree.IsFixed :=
    (isFixed_passesFrom_iff hwf).mpr fun hlimit => absurd hlimit (Nat.succ_ne_zero 1)
  obtain ⟨hstopped, -⟩ := (passLog_end hwf 1).2.2 hone
  obtain ⟨-, hfinished⟩ := (passLog_end hwf 2).2.2 htwo
  rw [(passesFrom_of_not_fixed (n := 0) hwf hfixed).2] at hstopped
  rw [(passesFrom_of_not_fixed (n := 1) hwf hfixed).2] at hfinished
  refine ⟨hwf, hfixed, hone, hstopped (Or.inr ⟨rfl, hfixed⟩), hfinished ?_⟩
  rintro (hlimit | ⟨hlimit, -⟩)
  · exact absurd hlimit (Nat.succ_ne_zero 1)
  · exact absurd hlimit (Nat.succ_ne_self 1)

end Tree
end CompilerBackend
