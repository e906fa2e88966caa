import CompilerBackend.Proofs.Raise.Origin
import CompilerBackend.Proofs.Tree.Agreement
/-!
# What the new statements evaluate

When a raise becomes statements, its side effects, its type and its value go on as they are: only
their holders are new, and what encloses the new holders is what enclosed the old ones.

- `Spread.reachable_evaluated`: what the raise evaluates is evaluated by the new statements.
- `Spread.sameAt`: nothing changes at it, nor below it.
- `Spread.agree`: so the trees agree there.
-/

namespace CompilerBackend
namespace Tree

variable {t t' : Tree} {id n m e holder : NodeId} {left right : List NodeId} {st : Stmt}

/-- Two nodes of a tree are not below each other. -/
theorem IsTree.antisymm {top : NodeId} (h : t.IsTree top) (hn : t.Reaches top n)
    (hm : t.Reaches n m) (hback : t.Reaches m n) : m = n := by
  obtain ⟨p, hp⟩ := hm
  obtain ⟨q, hq⟩ := hback
  have hloop : t.nodeAt? n (p ++ q) = some n := by
    rw [nodeAt?_append, hp]
    exact hq
  have hnil : p ++ q = [] := (h.of_reaches hn).once hloop rfl
  rw [(List.append_eq_nil_iff.mp hnil).1] at hp
  exact (Option.some.inj hp).symm

namespace Cut

theorem mem_of_evaluated {c : Cut t id} (he : e ∈ c.evaluated) :
    e ∈ c.moved ++ t.children c.raise := by
  rw [c.children_raise, ← List.append_assoc]
  exact he

/-- Neither the node nor its raise stands below what the raise evaluates. -/
theorem not_below (c : Cut t id) (h : t.WellFormed) (hid : t.Reachable id) (he : e ∈ c.evaluated) :
    ¬ t.Reaches e id ∧ ¬ t.Reaches e c.raise := by
  have hraise : t.Reaches id c.raise := (Reaches.refl t id).child c.raise_mem
  have hmem := mem_of_evaluated he
  obtain ⟨-, -, hne, hner⟩ := c.held_of_mem h hid hmem
  have hbelow : t.Reaches id e := by
    rcases List.mem_append.mp hmem with hm | hm
    · exact (Reaches.refl t id).child (mem_children_of_moved hm)
    · exact hraise.child hm
  have hnode : ¬ t.Reaches e id := fun hback =>
    hne ((h.isTree hid).antisymm (Reaches.refl t id) hbelow hback)
  refine ⟨hnode, fun hback => ?_⟩
  -- the raise is held by the node alone
  rcases hback.holder with heq | ⟨p, hp, hheld⟩
  · exact hner heq.symm
  · have hlink := (h.isTree (hid.below hbelow)).linked hp hheld
    rw [c.parent_raise h hid] at hlink
    rw [← Option.some.inj hlink] at hp
    exact hnode hp

end Cut

namespace Spread

variable {c : Cut t id}

/-- What the raise evaluates is evaluated by the new statements. -/
theorem reachable_evaluated (r : Spread c holder left right t') (h : t.WellFormed)
    (hid : t.Reachable id) (w : Placed t id holder left right) (he : e ∈ c.evaluated) :
    t'.Reachable e := by
  have hfresh : ∀ n ∈ t.freshIds (c.kept.length + 1), t'.Reachable n := fun n hn =>
    r.reachable_fresh h hid w hn
  rcases List.mem_append.mp he with hkept | hshown
  · obtain ⟨i, hi⟩ := List.mem_iff_getElem?.mp hkept
    have hlt : i < c.kept.length := (List.getElem?_eq_some_iff.mp hi).1
    apply (hfresh (t.fresh i) (mem_freshIds.mpr ⟨i, by omega, rfl⟩)).child
    rw [r.children_effect hi]
    exact List.mem_cons_self
  · apply (hfresh _ (mem_freshIds.mpr ⟨c.kept.length, by omega, rfl⟩)).child
    rwa [r.children_last]

/-- Nothing changes at what the raise evaluates, nor anywhere below it. -/
theorem sameAt (r : Spread c holder left right t') (h : t.WellFormed) (hid : t.Reachable id)
    (hy : t.yieldsToRaise id = true) (hs : t.kind id = .stmt st)
    (w : Placed t id holder left right) (he : e ∈ c.evaluated) (hm : t.Reaches e m) :
    SameAt t t' m := by
  obtain ⟨hnode, hraise⟩ := c.not_below h hid he
  have hheld : t.Reachable e := (c.held_of_mem h hid (Cut.mem_of_evaluated he)).1
  have hplain : ∀ {d}, t.Reaches e d → t.Has d ∧ d ≠ holder ∧ d ≠ c.raise := by
    intro d hd
    refine ⟨h.has_of_reachable (hheld.below hd) hid c.raise_mem, ?_, ?_⟩
    · rintro rfl
      apply hnode
      apply hd.child
      rw [w.children_eq]
      exact List.mem_append_right _ List.mem_cons_self
    · rintro rfl
      exact hraise hd
  have hreachable : t'.Reachable m := by
    refine hm.induct (P := t'.Reachable) (r.reachable_evaluated h hid w he) fun d b hd ih hb => ?_
    obtain ⟨hhas, hdh, hdr⟩ := hplain hd
    apply ih.child
    rwa [r.children_other hhas hdh hdr]
  obtain ⟨hhas, hmh, hmr⟩ := hplain hm
  have hcarried := r.carried h hid hy hs w
  constructor
  · exact r.kind_other m hhas hmh hmr
  · exact r.location_old m hhas
  · rw [hcarried.enclosing_eq hreachable, origin_of_has hhas]
  · rw [hcarried.isHandlerLocal_eq hreachable, origin_of_has hhas]

/-- The trees agree at what the raise evaluates. -/
theorem agree (r : Spread c holder left right t') (h : t.WellFormed) (hid : t.Reachable id)
    (hy : t.yieldsToRaise id = true) (hs : t.kind id = .stmt st)
    (w : Placed t id holder left right) (he : e ∈ c.evaluated) : t.Agree t' t.depthBound e := by
  have hheld : t.Reachable e := (c.held_of_mem h hid (Cut.mem_of_evaluated he)).1
  have hfits : t.FitsIn t.depthBound e := (h.isTree hheld).fitsIn (Reaches.refl t e)
  exact agree_of_fitsIn hfits fun m hm => r.sameAt h hid hy hs w he hm

end Spread
end Tree
end CompilerBackend
