import CompilerBackend.Proofs.Tree.Enclosing
import CompilerBackend.Proofs.Tree.PreOrder
/-!
# One tree, three walks

A stack, a recursion and the links upward go through the same nodes. The walk with a stack is the
recursive pre-order (`FitsIn.preOrder_eq`).

- `dumpFrom_eq_join`: a dump has one line for each node of the pre-order, indented by the length of
  the path to it.
- `isChain_chainFrom`, `IsTree.nodup_ancestors`, `IsTree.getLast?_ancestors`: the ancestors of a
  node go up one parent at a time, without repetition, to the root.
- `IsTree.mem_ancestors`, `IsTree.of_mem_ancestors`: an ancestor is what has the node strictly below
  it.
-/

namespace CompilerBackend
namespace Tree

variable {t : Tree} {top n m c a d : NodeId}

/-! ## Lines of a dump -/

theorem join_flatMap {α : Type} (l : List α) (f : α → List String) :
    String.join (l.flatMap f) = String.join (l.map fun x => String.join (f x)) := by
  induction l with
  | nil => rfl
  | cons x l ih =>
      rw [List.flatMap_cons, String.join_append, ih, List.map_cons, String.join_cons]

theorem join_replicate_blanks (d : Nat) :
    String.join (List.replicate d "  ") = String.ofList (List.replicate (2 * d) ' ') := by
  induction d with
  | zero => rfl
  | succ d ih =>
      rw [List.replicate_succ, String.join_cons, ih, Nat.mul_add_one, Nat.add_comm,
        List.replicate_add, String.ofList_append]
      rfl

/-- The line of a node, part by part. -/
theorem dumpLine_eq (t : Tree) (d : Nat) (n : NodeId) :
    t.dumpLine d n = String.join (List.replicate d "  ") ++ (t.kind n).kindName ++
      ((t.kind n).detail?.elim "" fun detail => " " ++ detail) ++ " @" ++
      toString (t.location n).line ++ "\n" := by
  rw [join_replicate_blanks, dumpLine, kind, location]
  cases (t.node n).kind.detail? <;> rfl

/-- Nodes that are reached along one path have one depth. -/
theorem Unshared.exists_depth (h : t.Unshared top) :
    ∃ depth : NodeId → Nat, ∀ p n, t.nodeAt? top p = some n → depth n = p.length := by
  have hdepth : ∀ n, ∃ d, ∀ p, t.nodeAt? top p = some n → d = p.length := by
    intro n
    by_cases hn : t.Reaches top n
    · obtain ⟨q, hq⟩ := hn
      exact ⟨q.length, fun p hp => congrArg List.length (h n q p hq hp)⟩
    · exact ⟨0, fun p hp => absurd ⟨p, hp⟩ hn⟩
  choose depth hdepth using hdepth
  exact ⟨depth, fun p n => hdepth n p⟩

/-- The printer goes down as the pre-order does, and the level it counts is the length of the
path. -/
theorem dumpFrom_eq_join {depth : NodeId → Nat}
    (hdepth : ∀ p n, t.nodeAt? top p = some n → depth n = p.length) {k : Nat} {p : List Nat}
    (hp : t.nodeAt? top p = some n) (hk : t.FitsIn k n) :
    t.dumpFrom k p.length n =
      String.join ((t.descend k n).map fun m => t.dumpLine (depth m) m) := by
  induction k generalizing n p with
  | zero => exact hk.elim
  | succ k ih =>
      have hchild : ∀ c ∈ t.children n, t.dumpFrom k (p.length + 1) c =
          String.join ((t.descend k c).map fun m => t.dumpLine (depth m) m) := by
        intro c hc
        obtain ⟨i, hi⟩ := List.mem_iff_getElem?.mp hc
        have hstep : t.nodeAt? top (p ++ [i]) = some c := nodeAt?_snoc_iff.mpr ⟨n, hp, hi⟩
        have hbelow := ih hstep (hk c hc)
        rwa [List.length_append, List.length_singleton] at hbelow
      rw [dumpFrom, descend, List.map_cons, String.join_cons, List.map_flatMap, join_flatMap,
        hdepth p n hp, List.map_congr_left hchild]

/-! ## Ancestors -/

/-- Each node of a chain is the parent of the one before. -/
theorem isChain_chainFrom (t : Tree) (k : Nat) (n : NodeId) :
    (n :: t.chainFrom k (t.parent n)).IsChain fun c p => t.parent c = some p := by
  induction k generalizing n with
  | zero => exact .singleton n
  | succ k ih =>
      cases hp : t.parent n with
      | none => exact .singleton n
      | some p => exact List.isChain_cons_cons.mpr ⟨hp, ih p⟩

namespace IsTree

variable (h : t.IsTree top) (hp : t.parent top = none)
include h hp

/-- An ancestor is a node of the tree that has the node strictly below it. -/
theorem of_mem_ancestors (hd : t.Reaches top d) (ha : a ∈ t.ancestors d) :
    t.Reaches a d ∧ d ≠ a := by
  refine hd.induct (P := fun d => a ∈ t.ancestors d → t.Reaches a d ∧ d ≠ a) ?_ ?_ ha
  · intro ha
    rw [ancestors, hp] at ha
    exact absurd ha List.not_mem_nil
  · intro m c hm ih hc ha
    have hback := h.not_reaches_of_child hm hc
    rw [h.ancestors_child hp hm hc] at ha
    rcases List.mem_cons.mp ha with rfl | ha
    · refine ⟨(Reaches.refl t a).child hc, ?_⟩
      rintro rfl
      exact hback (Reaches.refl t c)
    · have hbelow := (ih ha).1
      refine ⟨hbelow.child hc, ?_⟩
      rintro rfl
      exact hback hbelow

theorem nodup_ancestors (hd : t.Reaches top d) : (t.ancestors d).Nodup := by
  refine hd.induct (P := fun d => (t.ancestors d).Nodup) ?_ ?_
  · rw [ancestors, hp]
    exact List.nodup_nil
  · intro m c hm ih hc
    rw [h.ancestors_child hp hm hc, List.nodup_cons]
    exact ⟨fun ha => (h.of_mem_ancestors hp hm ha).2 rfl, ih⟩

/-- The way up ends at the root. -/
theorem getLast?_ancestors (hd : t.Reaches top d) :
    (d :: t.ancestors d).getLast? = some top := by
  refine hd.induct (P := fun d => (d :: t.ancestors d).getLast? = some top) ?_ ?_
  · rw [ancestors, hp]
    rfl
  · intro m c hm ih hc
    rwa [h.ancestors_child hp hm hc, List.getLast?_cons_cons]

end IsTree

/-! ## Agreement -/

/-- Where no node is reached twice, the walk with a stack is the recursive pre-order, and the dump
is one line for each of its nodes. Where the parent links agree as well and the start is a root,
the ancestors of a node are what has the node strictly below it, from its parent up to the
root. -/
theorem traversals_agree (h : t.Unshared n) :
    (∀ m, t.Reaches n m → t.preOrder m = m :: (t.children m).flatMap t.preOrder) ∧
    (∃ depth : NodeId → Nat, (∀ p m, t.nodeAt? n p = some m → depth m = p.length) ∧
      t.dump n = String.join ((t.preOrder n).map fun m =>
        String.join (List.replicate (depth m) "  ") ++ (t.kind m).kindName ++
          ((t.kind m).detail?.elim "" fun detail => " " ++ detail) ++ " @" ++
          toString (t.location m).line ++ "\n")) ∧
    ((∀ m c, t.Reaches n m → c ∈ t.children m → t.parent c = some m) → t.parent n = none →
      ∀ d, t.Reaches n d →
        (∀ a, t.IsTree a → (a ∈ t.ancestors d ↔ d ∈ t.preOrder a ∧ d ≠ a)) ∧
        (d :: t.ancestors d).IsChain (fun c p => t.parent c = some p) ∧
        (t.ancestors d).Nodup ∧ (d :: t.ancestors d).getLast? = some n) := by
  refine ⟨fun m hm => (h.of_reaches hm).fitsIn.preOrder_eq, ?_, ?_⟩
  · obtain ⟨depth, hdepth⟩ := h.exists_depth
    refine ⟨depth, hdepth, ?_⟩
    have hdump := dumpFrom_eq_join hdepth (p := []) rfl h.fitsIn
    rw [← preOrder_eq_descend h.fitsIn] at hdump
    rw [dump]
    exact hdump.trans (congrArg _ (List.map_congr_left fun m _ => dumpLine_eq t (depth m) m))
  · intro hlinked hp d hd
    have htree : t.IsTree n := ⟨fun {m p q} => h m p q, fun {m c} => hlinked m c⟩
    refine ⟨fun a ha => ?_, isChain_chainFrom t t.depthBound d, htree.nodup_ancestors hp hd,
      htree.getLast?_ancestors hp hd⟩
    rw [ha.mem_preOrder]
    exact ⟨htree.of_mem_ancestors hp hd, fun hbelow => ha.mem_ancestors hbelow.1 hbelow.2⟩

/-- A module that evaluates a pair whose second component is a tuple of its own. -/
def nestedPair : Tree where
  nodes :=
    let entry (kind : NodeKind) (parent : Option NodeId) : Node :=
      ⟨kind, parent, { file := "pair.py", line := 1 }⟩
    #[entry (.expr (.constant (.int 1))) (some ⟨3⟩),
      entry (.expr (.constant (.int 2))) (some ⟨2⟩),
      entry (.expr (.makeTuple [⟨1⟩])) (some ⟨3⟩),
      entry (.expr (.makeTuple [⟨0⟩, ⟨2⟩])) (some ⟨4⟩),
      entry (.stmt (.expression ⟨3⟩)) (some ⟨5⟩),
      entry (.sequence [⟨4⟩]) (some ⟨6⟩),
      entry (.module { name := "pair", filename := "pair.py", body := some ⟨5⟩ }) none]
  root := some ⟨6⟩

theorem traversals_agree_nestedPair :
    nestedPair.Unshared ⟨6⟩ ∧
    nestedPair.preOrder ⟨3⟩ = ⟨3⟩ :: [⟨0⟩, ⟨2⟩].flatMap nestedPair.preOrder ∧
    (∃ depth : NodeId → Nat, depth ⟨1⟩ = 5 ∧
      nestedPair.dump ⟨6⟩ = String.join ((nestedPair.preOrder ⟨6⟩).map fun m =>
        String.join (List.replicate (depth m) "  ") ++ (nestedPair.kind m).kindName ++
          ((nestedPair.kind m).detail?.elim "" fun detail => " " ++ detail) ++ " @" ++
          toString (nestedPair.location m).line ++ "\n")) ∧
    nestedPair.parent ⟨6⟩ = none ∧ nestedPair.Reaches ⟨6⟩ ⟨1⟩ ∧ nestedPair.IsTree ⟨3⟩ ∧
    ⟨1⟩ ∈ nestedPair.preOrder ⟨3⟩ ∧ ⟨3⟩ ∈ nestedPair.ancestors ⟨1⟩ ∧
    (nestedPair.ancestors ⟨1⟩).Nodup ∧
    (⟨1⟩ :: nestedPair.ancestors ⟨1⟩).getLast? = some ⟨6⟩ := by
  have htree : nestedPair.IsTree ⟨6⟩ :=
    (WellFormed.of_arena rfl rfl (by decide) (by decide) ⟨6⟩ rfl).2
  have hreach : nestedPair.Reaches ⟨6⟩ ⟨1⟩ := ⟨[0, 0, 0, 1, 0], rfl⟩
  have hpair : nestedPair.Reaches ⟨6⟩ ⟨3⟩ := ⟨[0, 0, 0], rfl⟩
  have hmem : (⟨1⟩ : NodeId) ∈ nestedPair.preOrder ⟨3⟩ := by decide
  obtain ⟨order, ⟨depth, hdepth, hdump⟩, up⟩ := traversals_agree htree.unshared
  obtain ⟨hiff, -, hnodup, hlast⟩ := up (fun m c => htree.linked) rfl ⟨1⟩ hreach
  exact ⟨htree.unshared, order ⟨3⟩ hpair, ⟨depth, hdepth [0, 0, 0, 1, 0] ⟨1⟩ rfl, hdump⟩, rfl,
    hreach, htree.of_reaches hpair, hmem,
    (hiff ⟨3⟩ (htree.of_reaches hpair)).mpr ⟨hmem, by decide⟩, hnodup, hlast⟩

end Tree
end CompilerBackend
