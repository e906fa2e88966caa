import CompilerBackend.Proofs.Tree.Enclosing
import CompilerBackend.Proofs.Tree.PreOrder
import Mathlib
/-!
# Operands that are repeated

The locals of an import are those at the import; in a module they are its globals. So an import
that is given globals and no locals, in a module, uses its globals twice, and what is in them is
used twice as often as what is around the import. On a tree the nodes below one can be counted with
that multiplicity step by step: what is below a node is what is below its children, once more for
the globals that it repeats.

- `Tree.sharedGlobals?`: the operand that an import uses twice.
- `Tree.repetitions`: how many of the nodes on the way to a node repeat what it is in.
- `Tree.load`: the nodes below a node, counted as often as the code of the node has them;
  `IsTree.load_eq` is the step.
- `IsTree.load_top_le`: the count below the top if it is all about one node.
-/

namespace CompilerBackend
namespace Tree

def sharedGlobals? (t : Tree) (id : NodeId) : Option NodeId :=
  match t.kind id with
  | .expr (.builtinImport _ _ inGlobals none _) =>
    if (t.scope? id).any Provider.isModule then inGlobals else none
  | _ => none

def repetitions (t : Tree) (id : NodeId) : Nat :=
  ((id :: t.ancestors id).zip (t.ancestors id)).countP fun (n, holder) =>
    t.sharedGlobals? holder == some n

/-- What a node adds to the count at a node around it: as much as its code is repeated there. -/
def weight (t : Tree) (P : NodeKind → Bool) (n m : NodeId) : Nat :=
  if P (t.kind m) then 2 ^ (t.repetitions m - t.repetitions n) else 0

/-- The nodes of a kind from a node down, counted as often as the code of the node has them. -/
def load (t : Tree) (P : NodeKind → Bool) (n : NodeId) : Nat :=
  ((t.preOrder n).map (t.weight P n)).sum

variable {t : Tree} {P : NodeKind → Bool} {top n m c g : NodeId}

theorem mem_children_of_sharedGlobals? (h : t.sharedGlobals? n = some g) : g ∈ t.children n := by
  unfold sharedGlobals? at h
  split at h
  next hkind =>
    split_ifs at h
    rw [h] at hkind
    rw [children, hkind]
    simp [NodeKind.children, Expr.children]
  next => cases h

/-! ## One step down -/

theorem repetitions_of_parent_none (hp : t.parent n = none) : t.repetitions n = 0 := by
  have hancestors : t.ancestors n = [] := by
    rw [ancestors, hp]
    rfl
  rw [repetitions, hancestors]
  rfl

section

variable (h : t.IsTree top) (hp : t.parent top = none)
include h hp

/-- A child is repeated as often as the node that holds it, and once more in its shared globals. -/
theorem IsTree.repetitions_child (hn : t.Reaches top n) (hc : c ∈ t.children n) :
    t.repetitions c = t.repetitions n + if t.sharedGlobals? n = some c then 1 else 0 := by
  rw [repetitions, h.ancestors_child hp hn hc, List.zip_cons_cons, List.countP_cons]
  simp only [beq_iff_eq]
  rfl

theorem IsTree.repetitions_le (hn : t.Reaches top n) (hm : t.Reaches n m) :
    t.repetitions n ≤ t.repetitions m :=
  Reaches.induct (P := fun i => t.repetitions n ≤ t.repetitions i) hm (Nat.le_refl _)
    fun i c hi hle hc => by
      rw [h.repetitions_child hp (hn.trans hi) hc]
      omega

/-- From a node, what is below a child counts as from the child, and twice in its shared globals. -/
theorem IsTree.weight_child (hn : t.Reaches top n) (hc : c ∈ t.children n) (hm : t.Reaches c m) :
    t.weight P n m =
      t.weight P c m + if t.sharedGlobals? n = some c then t.weight P c m else 0 := by
  have hle := h.repetitions_le hp (hn.child hc) hm
  have hchild := h.repetitions_child hp hn hc
  unfold weight
  split
  next =>
    by_cases hshared : t.sharedGlobals? n = some c
    · -- one import more is around `c` than around `n`: one more power of two
      rw [if_pos hshared] at hchild
      have hmore : t.repetitions m - t.repetitions n =
          t.repetitions m - t.repetitions c + 1 := by omega
      rw [if_pos hshared, hmore, Nat.pow_succ, Nat.mul_two]
    · rw [if_neg hshared, Nat.add_zero] at hchild
      rw [if_neg hshared, Nat.add_zero, hchild]
  next => split <;> rfl

/-- What is below a child, counted at the node that holds it. -/
theorem IsTree.sum_weight_child (hn : t.Reaches top n) (hc : c ∈ t.children n) :
    ((t.preOrder c).map (t.weight P n)).sum =
      t.load P c + if t.sharedGlobals? n = some c then t.load P c else 0 := by
  have hbelow : ∀ m ∈ t.preOrder c, t.Reaches c m := fun m hm =>
    (h.of_reaches (hn.child hc)).mem_preOrder.mp hm
  have hweights : (t.preOrder c).map (t.weight P n) = (t.preOrder c).map fun m =>
      t.weight P c m + if t.sharedGlobals? n = some c then t.weight P c m else 0 :=
    List.map_congr_left fun m hm => h.weight_child hp hn hc (hbelow m hm)
  rw [hweights, List.sum_map_add, load]
  split
  · rfl
  · simp

/-- The count at a node: the node itself, its children, and once more what it repeats. -/
theorem IsTree.load_eq (hn : t.Reaches top n) :
    t.load P n = (if P (t.kind n) then 1 else 0) + ((t.children n).map (t.load P)).sum +
      ((t.sharedGlobals? n).toList.map (t.load P)).sum := by
  have hself : t.weight P n n = if P (t.kind n) then 1 else 0 := by
    rw [weight, Nat.sub_self, Nat.pow_zero]
  have hchildren : (((t.children n).flatMap t.preOrder).map (t.weight P n)).sum =
      ((t.children n).map fun c =>
        t.load P c + if t.sharedGlobals? n = some c then t.load P c else 0).sum := by
    rw [List.map_flatMap, List.flatMap_def, List.sum_flatten, List.map_map]
    exact congrArg List.sum (List.map_congr_left fun c hc => h.sum_weight_child hp hn hc)
  have hrepeated : ((t.children n).map fun c =>
      if t.sharedGlobals? n = some c then t.load P c else 0).sum =
        ((t.sharedGlobals? n).toList.map (t.load P)).sum := by
    cases hshared : t.sharedGlobals? n with
    | none => simp
    | some g =>
        -- the shared globals are one of the children, so they are counted again once
        have hmem := mem_children_of_sharedGlobals? hshared
        rw [List.sum_map_eq_nsmul_single g _ fun c hne _ => if_neg fun heq =>
          hne (Option.some.inj heq).symm, List.count_eq_one_of_mem (h.nodup_children hn) hmem]
        simp
  rw [load, (h.of_reaches hn).preOrder_eq, List.map_cons, List.sum_cons, hself, hchildren,
    List.sum_map_add, hrepeated, Nat.add_assoc]

/-! ## At the top -/

omit h in
theorem load_top : t.load P top =
    ((t.preOrder top).map fun n => if P (t.kind n) then 2 ^ t.repetitions n else 0).sum := by
  rw [load]
  refine congrArg List.sum (List.map_congr_left fun n _ => ?_)
  rw [weight, repetitions_of_parent_none hp, Nat.sub_zero]

/-- Only one node counts, as often as it is repeated. -/
theorem IsTree.load_top_le (hone : ∀ n, t.Reaches top n → P (t.kind n) = true → n = m) :
    t.load P top ≤ 2 ^ t.repetitions m := by
  have hzero : ∀ n, n ≠ m → n ∈ t.preOrder top →
      (if P (t.kind n) then 2 ^ t.repetitions n else 0) = 0 := fun n hne hn =>
    if_neg fun hP => hne (hone n (h.mem_preOrder.mp hn) hP)
  rw [load_top hp, List.sum_map_eq_nsmul_single m _ hzero, Nat.nsmul_eq_mul]
  have hcount := List.nodup_iff_count_le_one.mp h.nodup_preOrder m
  split
  · exact (Nat.mul_le_mul_right _ hcount).trans_eq (Nat.one_mul _)
  · exact Nat.zero_le _

end
end Tree
end CompilerBackend
