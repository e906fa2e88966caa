import CompilerBackend.Proofs.Raise.WellFormed
import CompilerBackend.Proofs.Tree.PreOrder
import CompilerBackend.Raise.Propagation
import Mathlib.Algebra.BigOperators.Group.Finset.Basic
import Mathlib.Algebra.Order.BigOperators.Group.Finset
import Mathlib.Algebra.Ring.Nat
/-!
# What a rewrite uses up

The number of reachable nodes is no measure: a raise with `k` side effects becomes `k + 1`
statements in the place of one. What pays for them are the side effects themselves. A node counts
2, but 1 if a sequence or an expression statement holds it, and a side effect that becomes an
expression statement goes from 2 to 1 while its statement adds 1. The statement that gave way and
the raise expression are gone, and only one new statement is left to pay for.
-/

namespace CompilerBackend

def NodeKind.slotCost : NodeKind → Nat
  | .sequence _ => 1
  | .stmt (.expression _) => 1
  | _ => 2

theorem NodeKind.slotCost_pos (k : NodeKind) : 1 ≤ k.slotCost := by
  unfold NodeKind.slotCost
  split <;> omega

theorem NodeKind.slotCost_le_two (k : NodeKind) : k.slotCost ≤ 2 := by
  unfold NodeKind.slotCost
  split <;> omega

theorem NodeKind.slotCost_redirect (k : NodeKind) (old new : NodeId) :
    (k.redirect old new).slotCost = k.slotCost := by
  cases k with
  | stmt s => cases s <;> rfl
  | _ => rfl

namespace Tree

variable {t t' : Tree} {id n p : NodeId}

def cost (t : Tree) (n : NodeId) : Nat :=
  match t.parent n with
  | some p => (t.kind p).slotCost
  | none => 2

def raiseMeasure (t : Tree) : Nat :=
  match t.root with
  | some root => ((t.preOrder root).map t.cost).sum
  | none => 0

theorem cost_of_parent (hp : t.parent n = some p) : t.cost n = (t.kind p).slotCost := by
  rw [cost, hp]

theorem one_le_cost (t : Tree) (n : NodeId) : 1 ≤ t.cost n := by
  rw [cost]
  split
  · exact NodeKind.slotCost_pos _
  · omega

theorem cost_le_two (t : Tree) (n : NodeId) : t.cost n ≤ 2 := by
  rw [cost]
  split
  · exact NodeKind.slotCost_le_two _
  · omega

/-- The node counts as before if its holder is of the same sort as before. -/
theorem cost_congr (hp : t'.parent n = t.parent n)
    (hk : ∀ p, t.parent n = some p → (t'.kind p).slotCost = (t.kind p).slotCost) :
    t'.cost n = t.cost n := by
  rw [cost, cost, hp]
  cases hn : t.parent n with
  | none => rfl
  | some p => exact hk p hn

/-! ## The measure as a sum over a set -/

def live (t : Tree) : Finset NodeId :=
  match t.root with
  | some root => (t.preOrder root).toFinset
  | none => ∅

theorem WellFormed.mem_live (h : t.WellFormed) : n ∈ t.live ↔ t.Reachable n := by
  rw [live]
  cases hroot : t.root with
  | none =>
      refine ⟨fun hn => absurd hn (Finset.notMem_empty n), ?_⟩
      rintro ⟨root, hr, -⟩
      exact absurd (hr.symm.trans hroot) (Option.some_ne_none root)
  | some root => exact List.mem_toFinset.trans (h.mem_preOrder hroot)

theorem WellFormed.raiseMeasure_eq (h : t.WellFormed) :
    t.raiseMeasure = ∑ n ∈ t.live, t.cost n := by
  rw [raiseMeasure, live]
  cases hroot : t.root with
  | none => rfl
  | some root => exact (List.sum_toFinset t.cost (h root hroot).2.nodup_preOrder).symm

/-- Counting a set in which all reachable nodes are counts enough. -/
theorem WellFormed.raiseMeasure_le (h : t.WellFormed) {s : Finset NodeId}
    (hs : ∀ n, t.Reachable n → n ∈ s) : t.raiseMeasure ≤ ∑ n ∈ s, t.cost n := by
  rw [h.raiseMeasure_eq]
  exact Finset.sum_le_sum_of_subset fun n hn => hs n (h.mem_live.mp hn)

theorem WellFormed.raiseMeasure_erase (h : t.WellFormed) (hn : t.Reachable n) :
    t.raiseMeasure = t.cost n + ∑ m ∈ t.live.erase n, t.cost m := by
  rw [h.raiseMeasure_eq]
  exact (Finset.add_sum_erase t.live t.cost (h.mem_live.mpr hn)).symm

/-- A node that no longer counts makes the measure smaller if no other node counts more. -/
theorem WellFormed.raiseMeasure_lt (h : t.WellFormed) (h' : t'.WellFormed)
    (hn : t.Reachable n) (gone : ∀ m, t'.Reachable m → t.Reachable m ∧ m ≠ n)
    (cost_le : ∀ m, t'.Reachable m → t'.cost m ≤ t.cost m) :
    t'.raiseMeasure < t.raiseMeasure := by
  have hsub : t'.live ⊆ t.live.erase n := by
    intro m hm
    obtain ⟨hmr, hmn⟩ := gone m (h'.mem_live.mp hm)
    exact Finset.mem_erase.mpr ⟨hmn, h.mem_live.mpr hmr⟩
  have hle : t'.raiseMeasure ≤ ∑ m ∈ t.live.erase n, t.cost m := by
    rw [h'.raiseMeasure_eq]
    calc ∑ m ∈ t'.live, t'.cost m
        ≤ ∑ m ∈ t'.live, t.cost m :=
          Finset.sum_le_sum fun m hm => cost_le m (h'.mem_live.mp hm)
      _ ≤ ∑ m ∈ t.live.erase n, t.cost m := Finset.sum_le_sum_of_subset hsub
  have hpos := t.one_le_cost n
  rw [h.raiseMeasure_erase hn]
  omega

/-- If the members of a subset count one more, the sum is larger by their number. -/
theorem sum_add_card {s k : Finset NodeId} {f g : NodeId → Nat} (hk : k ⊆ s)
    (inside : ∀ m ∈ k, f m + 1 = g m) (outside : ∀ m ∈ s, m ∉ k → f m = g m) :
    ∑ m ∈ s, f m + k.card = ∑ m ∈ s, g m := by
  have hout : ∑ m ∈ s \ k, f m = ∑ m ∈ s \ k, g m := by
    refine Finset.sum_congr rfl fun m hm => ?_
    rw [Finset.mem_sdiff] at hm
    exact outside m hm.1 hm.2
  calc ∑ m ∈ s, f m + k.card
      = ∑ m ∈ s \ k, f m + (∑ m ∈ k, f m + k.card) := by
        rw [← Nat.add_assoc, Finset.sum_sdiff hk]
    _ = ∑ m ∈ s \ k, g m + ∑ m ∈ k, (f m + 1) := by
        rw [hout, Finset.sum_add_distrib, Finset.card_eq_sum_ones]
    _ = ∑ m ∈ s \ k, g m + ∑ m ∈ k, g m := by rw [Finset.sum_congr rfl inside]
    _ = ∑ m ∈ s, g m := Finset.sum_sdiff hk

/-! ## The three rewrites -/

/-- Behind an operation or a call, a raise counts 2; wherever it goes, it counts no more. -/
theorem Lifted.measure_lt {c : Cut t id} {e : Expr} (l : Lifted c t') (h : t.WellFormed)
    (hid : t.Reachable id) (he : t.kind id = .expr e) :
    t'.raiseMeasure < t.raiseMeasure := by
  have closed := l.closed h hid
  have hslot : ∀ p, (t'.kind p).slotCost = (t.kind p).slotCost := by
    intro p
    by_cases hpr : p = c.raise
    · rw [hpr, l.kind_raise, c.kind_raise]
      rfl
    · by_cases hp : t.parent id = some p
      · rw [l.kind_holder p hp, NodeKind.slotCost_redirect]
      · rw [l.kind_other p hpr hp]
  have htwo : ∀ {m}, m ∈ t.children id → t.cost m = 2 := by
    intro m hm
    rw [cost_of_parent (h.parent_child hid hm), he]
    rfl
  refine h.raiseMeasure_lt closed.wellFormed hid (fun m hm => closed.of_reachable hm) ?_
  intro m hm
  have hne := (closed.of_reachable hm).2
  by_cases hmr : m = c.raise
  · rw [hmr, htwo c.raise_mem]
    exact t'.cost_le_two _
  · by_cases hmoved : m ∈ c.moved
    · rw [htwo (Cut.mem_children_of_moved hmoved)]
      exact t'.cost_le_two _
    · exact le_of_eq (cost_congr (l.parent_other m hne hmr hmoved) fun p _ => hslot p)

theorem Truncated.measure_lt {holder : NodeId} {left right : List NodeId}
    (r : Truncated t id holder left right t') (h : t.WellFormed) (hid : t.Reachable id)
    (w : Placed t id holder left right) (hr : right ≠ []) :
    t'.raiseMeasure < t.raiseMeasure := by
  have closed := r.closed h hid w
  obtain ⟨d, hd⟩ := List.exists_mem_of_ne_nil right hr
  have hslot : ∀ p, (t'.kind p).slotCost = (t.kind p).slotCost := by
    intro p
    by_cases hp : p = holder
    · rw [hp, r.kind_holder, w.kind_eq]
      rfl
    · rw [r.kind_other p hp]
  have hdreach := (w.reachable_holder h hid).child (mem_holder w hd)
  refine h.raiseMeasure_lt closed.wellFormed hdreach ?_ ?_
  · intro m hm
    obtain ⟨hmr, hnot⟩ := closed.of_reachable hm
    exact ⟨hmr, fun e => hnot (e ▸ hd)⟩
  · intro m hm
    exact le_of_eq (cost_congr (r.parent_other m (closed.of_reachable hm).2) fun p _ => hslot p)

namespace Spread

variable {c : Cut t id} {holder : NodeId} {left right : List NodeId} {s : Stmt}

/-- Nothing is evaluated before the one child of an expression statement. -/
theorem slotCost_of_moved (hs : t.kind id = .stmt s) (hn : n ∈ c.moved) :
    (t.kind id).slotCost = 2 := by
  have hbefore : c.before ≠ [] := List.ne_nil_of_mem (List.mem_of_mem_filter hn)
  have hchildren := c.children_eq
  rw [children, hs] at hchildren
  rw [hs]
  cases s with
  | expression value =>
      have hlen := congrArg List.length hchildren
      have hpos := List.length_pos_iff.mpr hbefore
      rw [List.length_append, List.length_cons] at hlen
      have hone : (NodeKind.children (.stmt (.expression value))).length = 1 := rfl
      omega
  | _ => rfl

/-- A side effect counts one less once an expression statement holds it. -/
theorem cost_kept (r : Spread c holder left right t') (h : t.WellFormed)
    (hid : t.Reachable id) (hs : t.kind id = .stmt s) (hn : n ∈ c.kept) :
    t'.cost n + 1 = t.cost n := by
  obtain ⟨i, hi⟩ := List.mem_iff_getElem?.mp hn
  have hnew : t'.cost n = 1 := by
    rw [cost_of_parent (r.parent_effect i n hi), r.kind_effect i n hi]
    rfl
  have hold : t.cost n = 2 := by
    rcases List.mem_append.mp hn with hm | hm
    · rw [cost_of_parent (h.parent_child hid (Cut.mem_children_of_moved hm))]
      exact slotCost_of_moved hs hm
    · rw [cost_of_parent (h.parent_child (Cut.reachable_raise hid c)
        (Cut.mem_children_of_effects hm)), c.kind_raise]
      rfl
  omega

theorem cost_other (r : Spread c holder left right t') (h : t.WellFormed)
    (hid : t.Reachable id) (w : Placed t id holder left right) (hn : t.Reachable n)
    (hne : n ≠ id) (hk : n ∉ c.kept) : t'.cost n = t.cost n := by
  have hhas : ∀ {m}, t.Reachable m → t.Has m := fun hm =>
    h.has_of_reachable hm hid c.raise_mem
  by_cases hshown : n ∈ c.exceptionType :: c.value.toList
  · rw [cost_of_parent (r.parent_shown n hshown), r.kind_last,
      cost_of_parent (c.held_of_shown h hid hshown).2.1, c.kind_raise]
    rfl
  · refine cost_congr (r.parent_other n (hhas hn) hne hk hshown) fun p hp => ?_
    by_cases hpr : p = c.raise
    · rw [hpr, r.kind_raise, c.kind_raise]
      rfl
    · by_cases hph : p = holder
      · rw [hph, r.kind_holder, w.kind_eq]
        rfl
      · rw [r.kind_other p (hhas (h.holder hn hp).1) hph hpr]

theorem cost_fresh (r : Spread c holder left right t')
    (hn : n ∈ t.freshIds (c.kept.length + 1)) : t'.cost n = 1 := by
  rw [cost_of_parent (r.parent_fresh n hn), r.kind_holder]
  rfl

/-- The side effects lose as much as their statements add, and the statement of the raise adds
less than the two nodes that are gone. -/
theorem measure_lt (r : Spread c holder left right t') (h : t.WellFormed)
    (hid : t.Reachable id) (hs : t.kind id = .stmt s) (w : Placed t id holder left right) :
    t'.raiseMeasure < t.raiseMeasure := by
  have closed := r.closed h hid w
  have hraise := Cut.reachable_raise hid c
  let old := (t.live.erase id).erase c.raise
  let new := (t.freshIds (c.kept.length + 1)).toFinset
  have mem_old : ∀ {m}, m ∈ old ↔ t.Reachable m ∧ m ≠ id ∧ m ≠ c.raise := by
    intro m
    rw [Finset.mem_erase, Finset.mem_erase, h.mem_live]
    exact ⟨fun hm => ⟨hm.2.2, hm.2.1, hm.1⟩, fun hm => ⟨hm.2.2, hm.2.1, hm.1⟩⟩
  have hall : t'.raiseMeasure ≤ ∑ m ∈ old ∪ new, t'.cost m := by
    refine closed.wellFormed.raiseMeasure_le fun m hm => ?_
    rw [Finset.mem_union, mem_old, List.mem_toFinset]
    exact closed.of_reachable hm
  -- the new ids are outside the arena as it was, so the two sets are apart
  have hsplit : ∑ m ∈ old ∪ new, t'.cost m = ∑ m ∈ old, t'.cost m + ∑ m ∈ new, t'.cost m := by
    refine Finset.sum_union (Finset.disjoint_left.mpr fun m hm hnew => ?_)
    have hmr := (mem_old.mp hm).1
    exact not_mem_freshIds (h.has_of_reachable hmr hid c.raise_mem) (List.mem_toFinset.mp hnew)
  have hnew : ∑ m ∈ new, t'.cost m = c.kept.length + 1 := by
    rw [Finset.sum_congr rfl fun m hm => r.cost_fresh (List.mem_toFinset.mp hm),
      ← Finset.card_eq_sum_ones, List.toFinset_card_of_nodup (nodup_freshIds t _),
      length_freshIds]
  have hold : ∑ m ∈ old, t'.cost m + c.kept.length = ∑ m ∈ old, t.cost m := by
    rw [← List.toFinset_card_of_nodup (c.nodup_kept h hid)]
    refine sum_add_card ?_ ?_ ?_
    · intro m hm
      have hheld := c.held_of_kept h hid (List.mem_toFinset.mp hm)
      exact mem_old.mpr ⟨hheld.1, hheld.2.2⟩
    · intro m hm
      exact r.cost_kept h hid hs (List.mem_toFinset.mp hm)
    · intro m hm hk
      have hmem := mem_old.mp hm
      exact r.cost_other h hid w hmem.1 hmem.2.1 fun hm => hk (List.mem_toFinset.mpr hm)
  have hbefore : t.raiseMeasure = t.cost id + (t.cost c.raise + ∑ m ∈ old, t.cost m) := by
    have hmem : c.raise ∈ t.live.erase id :=
      Finset.mem_erase.mpr ⟨c.raise_ne h hid, h.mem_live.mpr hraise⟩
    rw [h.raiseMeasure_erase hid, ← Finset.add_sum_erase _ t.cost hmem]
  have hone := t.one_le_cost id
  have hone' := t.one_le_cost c.raise
  omega

end Spread

theorem Rewrite.measure_lt (r : Rewrite t t') (h : t.WellFormed) :
    t'.raiseMeasure < t.raiseMeasure := by
  cases r with
  | lift hid _ he c l => exact l.measure_lt h hid he
  | spread hid _ hs c w s => exact s.measure_lt h hid hs w
  | truncate hid _ w hr r => exact r.measure_lt h hid w hr

/-! ## How many steps there can be -/

/-- Every reachable node but the root has a parent, so it is in the arena. -/
theorem WellFormed.card_live_le (h : t.WellFormed) : t.live.card ≤ t.size + 1 := by
  cases hroot : t.root with
  | none =>
      rw [live, hroot]
      exact Nat.zero_le _
  | some root =>
      have hsub : t.live ⊆ insert root ((Finset.range t.size).image NodeId.mk) := by
        intro n hn
        rw [Finset.mem_insert, Finset.mem_image]
        have hreach := h.mem_live.mp hn
        cases hp : t.parent n with
        | none =>
            exact Or.inl (Option.some.inj ((h.root_of_parent_none hreach hp).symm.trans hroot))
        | some p => exact Or.inr ⟨n.index, Finset.mem_range.mpr (Has.of_parent hp), rfl⟩
      calc t.live.card
          ≤ (insert root ((Finset.range t.size).image NodeId.mk)).card :=
            Finset.card_le_card hsub
        _ ≤ ((Finset.range t.size).image NodeId.mk).card + 1 := Finset.card_insert_le ..
        _ ≤ (Finset.range t.size).card + 1 := Nat.add_le_add_right Finset.card_image_le 1
        _ = t.size + 1 := by rw [Finset.card_range]

/-- The bound on the steps is larger than the measure. -/
theorem WellFormed.raiseMeasure_lt_stepBound (h : t.WellFormed) :
    t.raiseMeasure < t.stepBound := by
  have hsum : t.raiseMeasure ≤ t.live.card * 2 := by
    rw [h.raiseMeasure_eq]
    exact Finset.sum_le_card_nsmul t.live t.cost 2 fun n _ => t.cost_le_two n
  have hcard := h.card_live_le
  have hsquare : 2 * (2 * t.size + 2) ≤ t.stepBound :=
    Nat.mul_le_mul_right _ (by omega)
  omega

end Tree
end CompilerBackend
