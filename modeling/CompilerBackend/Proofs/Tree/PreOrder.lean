import CompilerBackend.Tree.Walk
import CompilerBackend.Proofs.Tree.WellFormed
import Mathlib.Data.List.Nodup
/-!
# The pre-order of a tree

`descend` is the pre-order by recursion on levels. The walk with an explicit stack returns it
wherever the levels are finitely many (`preOrder_eq_descend`), and below the top of a tree it
lists every node that is reached (`IsTree.mem_preOrder`) once (`IsTree.nodup_preOrder`). It is the
top followed by the pre-orders of the children (`FitsIn.preOrder_eq`), and depends on nothing but
the children of what is reached (`preOrder_congr`).
-/

namespace CompilerBackend
namespace Tree

def descend (t : Tree) : Nat → NodeId → List NodeId
  | 0, _ => []
  | k + 1, id => id :: (t.children id).flatMap (t.descend k)

variable {t : Tree} {top n m c : NodeId}

/-- Visits that are left over can be counted before or behind those of the children. -/
theorem foldr_visits_add (t : Tree) (k rest : Nat) (cs : List NodeId) :
    cs.foldr (fun c r => t.visits k c + r) 1 + rest =
      cs.foldr (fun c r => t.visits k c + r) rest + 1 := by
  induction cs with
  | nil => exact Nat.add_comm 1 rest
  | cons c cs ih =>
      rw [List.foldr_cons, List.foldr_cons, Nat.add_assoc, ih]
      rfl

/-- The walk takes all that lies below the top of its stack before it comes to the rest. -/
theorem walk_of_fitsIn {k : Nat} (h : t.FitsIn k n) (rest : Nat) (stack : List NodeId) :
    t.walk (t.visits k n + rest) (n :: stack) = t.descend k n ++ t.walk rest stack := by
  induction k generalizing n rest stack with
  | zero => exact h.elim
  | succ k ih =>
      -- the children are a stack of their own on top of the rest
      have forest : ∀ cs : List NodeId, (∀ c ∈ cs, t.FitsIn k c) →
          t.walk (cs.foldr (fun c rest => t.visits k c + rest) rest) (cs ++ stack) =
            cs.flatMap (t.descend k) ++ t.walk rest stack := by
        intro cs
        induction cs with
        | nil => exact fun _ => rfl
        | cons c cs ihcs =>
            intro hcs
            rw [List.foldr_cons, List.cons_append, ih (hcs c List.mem_cons_self),
              ihcs fun d hd => hcs d (List.mem_cons_of_mem c hd),
              List.flatMap_cons, List.append_assoc]
      rw [visits, foldr_visits_add, walk, forest (t.children n) h]
      rfl

/-- The stack and the recursion visit the same nodes in the same order. -/
theorem preOrder_eq_descend (h : t.FitsIn t.depthBound n) :
    t.preOrder n = t.descend t.depthBound n := by
  have hwalk := walk_of_fitsIn h 0 []
  rw [Nat.add_zero, walk, List.append_nil] at hwalk
  exact hwalk

theorem Reaches.cases_child (h : t.Reaches n m) :
    m = n ∨ ∃ c ∈ t.children n, t.Reaches c m := by
  obtain ⟨p, hp⟩ := h
  cases p with
  | nil => exact Or.inl (Option.some.inj hp).symm
  | cons i p =>
      rw [nodeAt?, Option.bind_eq_some_iff] at hp
      obtain ⟨c, hc, hp⟩ := hp
      exact Or.inr ⟨c, List.mem_of_getElem? hc, p, hp⟩

theorem Reaches.of_child (hc : c ∈ t.children n) (h : t.Reaches c m) : t.Reaches n m :=
  ((Reaches.refl t n).child hc).trans h

theorem mem_descend {k : Nat} (h : t.FitsIn k n) : m ∈ t.descend k n ↔ t.Reaches n m := by
  induction k generalizing n with
  | zero => exact h.elim
  | succ k ih =>
      rw [descend, List.mem_cons, List.mem_flatMap]
      constructor
      · rintro (rfl | ⟨c, hc, hm⟩)
        · exact Reaches.refl t m
        · exact Reaches.of_child hc ((ih (h c hc)).mp hm)
      · intro hm
        rcases hm.cases_child with rfl | ⟨c, hc, hcm⟩
        · exact Or.inl rfl
        · exact Or.inr ⟨c, hc, (ih (h c hc)).mpr hcm⟩

/-- Levels that nothing lies on add nothing. -/
theorem descend_of_le {j k : Nat} (h : t.FitsIn k n) (hjk : k ≤ j) :
    t.descend j n = t.descend k n := by
  induction k generalizing j n with
  | zero => exact h.elim
  | succ k ih =>
      obtain ⟨j, rfl⟩ : ∃ i, j = i + 1 := ⟨j - 1, by omega⟩
      rw [descend, descend]
      exact congrArg (n :: ·) (List.flatMap_congr fun c hc => ih (h c hc) (by omega))

/-- The pre-order has the same recursion as what is below a node. -/
theorem FitsIn.preOrder_eq {k : Nat} (h : t.FitsIn k n) :
    t.preOrder n = n :: (t.children n).flatMap t.preOrder := by
  have hfits := h.depthBound
  rw [preOrder_eq_descend hfits, Tree.depthBound, descend]
  refine congrArg (n :: ·) (List.flatMap_congr fun c hc => ?_)
  have hc' : t.FitsIn t.size c := hfits c hc
  rw [preOrder_eq_descend (hc'.mono (Nat.le_succ _))]
  exact (descend_of_le hc' (Nat.le_succ _)).symm

theorem descend_congr {t' : Tree} {k : Nat} (h : t.FitsIn k n)
    (same : ∀ m, t.Reaches n m → t'.children m = t.children m) :
    t'.FitsIn k n ∧ t'.descend k n = t.descend k n := by
  induction k generalizing n with
  | zero => exact h.elim
  | succ k ih =>
      have hn := same n (Reaches.refl t n)
      have below : ∀ c ∈ t.children n, t'.FitsIn k c ∧ t'.descend k c = t.descend k c :=
        fun c hc => ih (h c hc) fun m hm => same m (Reaches.of_child hc hm)
      refine ⟨fun c hc => (below c (hn ▸ hc)).1, ?_⟩
      rw [descend, descend, hn]
      exact congrArg (n :: ·) (List.flatMap_congr fun c hc => (below c hc).2)

namespace IsTree

/-- Only one child leads to a node below. -/
theorem child_unique (h : t.IsTree top) (hn : t.Reaches top n) {d : NodeId}
    (hc : c ∈ t.children n) (hd : d ∈ t.children n) (hcm : t.Reaches c m)
    (hdm : t.Reaches d m) : c = d := by
  obtain ⟨i, hi⟩ := List.mem_iff_getElem?.mp hc
  obtain ⟨j, hj⟩ := List.mem_iff_getElem?.mp hd
  obtain ⟨p, hp⟩ := hcm
  obtain ⟨q, hq⟩ := hdm
  have hip : t.nodeAt? n (i :: p) = some m := by
    rw [nodeAt?, hi]
    exact hp
  have hjq : t.nodeAt? n (j :: q) = some m := by
    rw [nodeAt?, hj]
    exact hq
  have hij : i = j := (List.cons.inj ((h.of_reaches hn).once hip hjq)).1
  subst hij
  exact Option.some.inj (hi.symm.trans hj)

theorem nodup_descend (h : t.IsTree top) {k : Nat} (hn : t.Reaches top n)
    (hk : t.FitsIn k n) : (t.descend k n).Nodup := by
  induction k generalizing n with
  | zero => exact List.nodup_nil
  | succ k ih =>
      rw [descend, List.nodup_cons, List.mem_flatMap, List.nodup_flatMap]
      refine ⟨?_, ?_, ?_⟩
      · rintro ⟨c, hc, hm⟩
        exact h.not_reaches_of_child hn hc ((mem_descend (hk c hc)).mp hm)
      · intro c hc
        exact ih (hn.child hc) (hk c hc)
      · -- what lies below one child does not lie below another
        refine (h.nodup_children hn).pairwise_of_forall_ne ?_
        intro c hc d hd hne m hcm hdm
        exact hne (h.child_unique hn hc hd ((mem_descend (hk c hc)).mp hcm)
          ((mem_descend (hk d hd)).mp hdm))

theorem mem_preOrder (h : t.IsTree top) : n ∈ t.preOrder top ↔ t.Reaches top n := by
  have hfits := h.fitsIn (Reaches.refl t top)
  rw [preOrder_eq_descend hfits]
  exact mem_descend hfits

theorem nodup_preOrder (h : t.IsTree top) : (t.preOrder top).Nodup := by
  have hfits := h.fitsIn (Reaches.refl t top)
  rw [preOrder_eq_descend hfits]
  exact h.nodup_descend (Reaches.refl t top) hfits

theorem preOrder_eq (h : t.IsTree n) :
    t.preOrder n = n :: (t.children n).flatMap t.preOrder :=
  (h.fitsIn (Reaches.refl t n)).preOrder_eq

end IsTree

/-- Two arenas of one size in which the nodes below `n` have the same children. -/
theorem preOrder_congr {t' : Tree} (h : t.IsTree n) (hsize : t'.size = t.size)
    (same : ∀ m, t.Reaches n m → t'.children m = t.children m) :
    t'.preOrder n = t.preOrder n := by
  have hfits := h.fitsIn (Reaches.refl t n)
  have hfits' : t'.FitsIn t'.depthBound n := by
    rw [depthBound, hsize]
    exact (descend_congr hfits same).1
  rw [preOrder_eq_descend hfits, preOrder_eq_descend hfits', depthBound, hsize]
  exact (descend_congr hfits same).2

/-- The walk from the root visits exactly the reachable nodes. -/
theorem WellFormed.mem_preOrder (h : t.WellFormed) {root : NodeId} (hroot : t.root = some root) :
    n ∈ t.preOrder root ↔ t.Reachable n := by
  rw [(h root hroot).2.mem_preOrder]
  constructor
  · intro hn
    exact ⟨root, hroot, hn⟩
  · rintro ⟨r, hr, hn⟩
    rwa [Option.some.inj (hroot.symm.trans hr)]

end Tree
end CompilerBackend
