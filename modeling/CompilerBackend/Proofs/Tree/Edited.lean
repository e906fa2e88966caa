import CompilerBackend.Proofs.Tree.Exchange
import CompilerBackend.Proofs.Tree.Edit
/-!
# Edits keep a tree a tree

Replacing a node, splicing statements into a sequence and cutting a sequence short are exchanges
of children, so each of them leaves a well-formed tree whose pre-order differs in one segment.

- `replaceWith_swaps`, `splice?_swaps`, `truncateAfter?_swaps`: the three edits.
- `Truncated.swaps_aside`: a sequence that is cut outside the tree does no harm as long as what
  it drops is outside as well. A detached sequence keeps its list, and a statement on that list
  may have moved back into the tree (`truncateAfter?_staleList`).
- `run_spliceInPlace`, `run_truncateInPlace`: carried out in place, an edit that is refused has
  changed nothing.
-/

namespace CompilerBackend
namespace Tree

variable {t t' : Tree} {root old new id holder n : NodeId} {left right news : List NodeId}

/-- The tree stays a tree, and in the pre-order from its root the segment of the nodes taken out
gives way to the pre-orders of the nodes put in. -/
structure Swaps (t : Tree) (root : NodeId) (taken news : List NodeId) (t' : Tree)
    (root' : NodeId) : Prop where
  wellFormed : t'.WellFormed
  root_eq : t'.root = some root'
  preOrder_eq : ∃ before after,
    t.preOrder root = before ++ taken.flatMap t.preOrder ++ after ∧
      t'.preOrder root' = before ++ news.flatMap t.preOrder ++ after

theorem Exchange.swaps {before taken after : List NodeId}
    (x : Exchange t holder before taken news after t') (g : t.Grafts taken news)
    (h : t.WellFormed) (hroot : t.root = some root) (hh : t.Reachable holder) :
    t.Swaps root taken news t' root :=
  ⟨x.wellFormed g h hh, x.root_eq.trans hroot, x.preOrder_root g h hh hroot⟩

/-! ## Replacing a node -/

/-- What may replace a node: a tree from strictly below it, or one that the tree has no part of. -/
structure Replaces (t : Tree) (old new : NodeId) : Prop where
  ne : new ≠ old
  has : t.Has new
  isTree : t.IsTree new
  place : t.Reaches old new ∨ ∀ m, t.Reaches new m → ¬ t.Reachable m

/-- What may replace a node does not lead to it. -/
theorem Replaces.not_reaches (w : Replaces t old new) (h : t.WellFormed)
    (hold : t.Reachable old) : ¬ t.Reaches new old := by
  intro hr
  rcases w.place with hbelow | hout
  · -- from the node to the new one and back again
    rcases hbelow.cases_child with heq | ⟨c, hc, hcn⟩
    · exact w.ne heq
    · exact (h.isTree hold).not_reaches_of_child (Reaches.refl t old) hc (hcn.trans hr)
  · exact hout old hr hold

theorem Replaces.grafts (w : Replaces t old new) (h : t.WellFormed) (hold : t.Reachable old) :
    t.Grafts [old] [new] where
  nodup := List.nodup_singleton new
  isTree := by
    intro i hi
    rw [List.mem_singleton.mp hi]
    exact w.isTree
  apart := by
    intro i hi j hj hij
    exact absurd ((List.mem_singleton.mp hi).trans (List.mem_singleton.mp hj).symm) hij
  shared := by
    intro i hi m hm hreach
    rw [List.mem_singleton.mp hi] at hm
    rcases w.place with hbelow | hout
    · exact ⟨old, List.mem_singleton_self old, hbelow.trans hm⟩
    · exact absurd hreach (hout m hm)
  avoids := by
    intro i hi o ho
    rw [List.mem_singleton.mp hi, List.mem_singleton.mp ho]
    exact w.not_reaches h hold

/-- A node with a holder is exchanged among the holder's children. -/
theorem exchange_replaceWith (h : t.WellFormed) (hold : t.Reachable old)
    (hp : t.parent old = some holder) (hne : new ≠ old) (hhas : t.Has new) :
    ∃ before after, Exchange t holder before [old] [new] after (t.replaceWith old new) := by
  obtain ⟨hh, hmem⟩ := h.holder hold hp
  obtain ⟨l, r, hlr⟩ := List.append_of_mem hmem
  have hnd := h.nodup_children hh
  rw [hlr, List.nodup_append, List.nodup_cons] at hnd
  have same : ∀ ids : List NodeId, old ∉ ids →
      (ids.map fun d => if d = old then new else d) = ids := by
    intro ids hids
    calc (ids.map fun d => if d = old then new else d) = ids.map id :=
          List.map_congr_left fun d hd => if_neg fun (e : d = old) => hids (e ▸ hd)
      _ = ids := List.map_id ids
  refine ⟨l, r, ?_⟩
  constructor
  case children_eq => rw [hlr, List.append_assoc, List.singleton_append]
  case children_holder =>
    rw [children, kind_replaceWith_holder hp (Has.of_child hmem), children_redirect]
    show List.map _ (t.children holder) = _
    rw [hlr, List.map_append, List.map_cons, if_pos rfl, same l, same r, List.append_assoc,
      List.singleton_append]
    · exact hnd.2.1.1
    · exact fun hl => hnd.2.2 old hl old List.mem_cons_self rfl
  case children_other =>
    intro n hn
    rw [children, kind_replaceWith_ne fun hpn => hn (Option.some.inj (hpn.symm.trans hp))]
    rfl
  case parent_news =>
    intro n hn
    rw [List.mem_singleton.mp hn, parent_replaceWith_new hne hhas, hp]
  case parent_other =>
    intro n ho hn
    exact parent_replaceWith_ne (fun e => ho (List.mem_singleton.mpr e))
      fun e => hn (List.mem_singleton.mpr e)
  case size_eq => exact size_replaceWith t old new
  case root_eq =>
    rw [root_replaceWith, if_neg fun hn => ?_]
    exact Option.some_ne_none holder (hp.symm.trans hn.1)

/-- The root is exchanged by naming another one: no slot changes. -/
theorem replaceWith_root_swaps (w : Replaces t old new) (h : t.WellFormed)
    (hroot : t.root = some old) : t.Swaps old [old] [new] (t.replaceWith old new) new := by
  have hp : t.parent old = none := (h old hroot).1
  have hold : t.Reachable old := ⟨old, hroot, Reaches.refl t old⟩
  have same : ∀ n, (t.replaceWith old new).children n = t.children n := by
    intro n
    rw [children, kind_replaceWith_ne fun hn => Option.some_ne_none n (hn.symm.trans hp)]
    rfl
  have hroot' : (t.replaceWith old new).root = some new := by
    rw [root_replaceWith, if_pos ⟨hp, hroot⟩]
  refine ⟨?_, hroot', [], [], ?_, ?_⟩
  · refine WellFormed.of_closed (P := t.Reaches new) hroot' ?_ (Reaches.refl t new) ?_
    · rw [parent_replaceWith_new w.ne w.has, hp]
    · intro n hn
      rw [same]
      refine ⟨w.isTree.nodup_children hn, fun c hc => ⟨hn.child hc, ?_⟩⟩
      have hco : c ≠ old := by
        rintro rfl
        exact w.not_reaches h hold (hn.child hc)
      have hcn : c ≠ new := by
        rintro rfl
        exact w.isTree.not_reaches_of_child hn hc hn
      rw [parent_replaceWith_ne hco hcn]
      exact w.isTree.linked hn hc
  · simp only [List.flatMap_singleton, List.nil_append, List.append_nil]
  · rw [preOrder_congr w.isTree (size_replaceWith t old new) fun m _ => same m]
    simp only [List.flatMap_singleton, List.nil_append, List.append_nil]

def rootAfter (root old new : NodeId) : NodeId := if root = old then new else root

theorem replaceWith_swaps (w : Replaces t old new) (h : t.WellFormed)
    (hroot : t.root = some root) (hold : t.Reachable old) :
    t.Swaps root [old] [new] (t.replaceWith old new) (rootAfter root old new) := by
  by_cases heq : root = old
  · subst heq
    rw [rootAfter, if_pos rfl]
    exact replaceWith_root_swaps w h hroot
  · rw [rootAfter, if_neg heq]
    cases hp : t.parent old with
    | none =>
        have hroot' := h.root_of_parent_none hold hp
        exact absurd (Option.some.inj (hroot.symm.trans hroot')) heq
    | some holder =>
        obtain ⟨before, after, x⟩ := exchange_replaceWith h hold hp w.ne w.has
        exact x.swaps (w.grafts h hold) h hroot (h.holder hold hp).1

/-! ## Statements of a sequence -/

theorem exchange_splice (w : Placed t old holder left right) (hnot : old ∉ news)
    (hhas : ∀ n ∈ news, t.Has n) :
    ∃ t', t.splice? old news = some t' ∧ Exchange t holder left [old] news right t' := by
  refine ⟨_, splice?_eq w.parent_eq w.kind_eq w.not_mem_left news, ?_⟩
  constructor
  case children_eq => rw [w.children_eq, List.append_assoc, List.singleton_append]
  case children_holder =>
    rw [children, kind_setParent, kind_setParents, kind_setKind_self (Has.of_child w.mem_children)]
    rfl
  case children_other =>
    intro n hn
    rw [children, kind_setParent, kind_setParents, kind_setKind_ne t hn]
    rfl
  case parent_news =>
    intro n hn
    have hne : n ≠ old := fun e => hnot (e ▸ hn)
    have hn' : (t.setKind holder (.sequence (left ++ news ++ right))).Has n := by
      rw [Has, size_setKind]
      exact hhas n hn
    rw [parent_setParent_ne _ hne, parent_setParents_of_mem hn hn']
  case parent_other =>
    intro n ho hn
    rw [parent_setParent_ne _ fun e => ho (List.mem_singleton.mpr e),
      parent_setParents_of_not_mem _ hn, parent_setKind]
  case size_eq => rw [size_setParent, size_setParents, size_setKind]
  case root_eq => rw [root_setParent, root_setParents, root_setKind]

theorem splice?_swaps (g : t.Grafts [old] news) (hhas : ∀ n ∈ news, t.Has n) (h : t.WellFormed)
    (hroot : t.root = some root) (hold : t.Reachable old)
    (w : Placed t old holder left right) :
    ∃ t', t.splice? old news = some t' ∧ t.Swaps root [old] news t' root := by
  have hnot : old ∉ news := fun hn =>
    g.avoids old hn old (List.mem_singleton_self old) (Reaches.refl t old)
  obtain ⟨t', heq, x⟩ := exchange_splice w hnot hhas
  exact ⟨t', heq, x.swaps g h hroot (w.reachable_holder h hold)⟩

theorem Truncated.exchange (w : Placed t id holder left right)
    (r : Truncated t id holder left right t') :
    Exchange t holder (left ++ [id]) right [] [] t' where
  children_eq := by
    rw [w.children_eq]
    simp only [List.append_assoc, List.singleton_append, List.append_nil]
  children_holder := by
    rw [children, r.kind_holder]
    simp only [NodeKind.children, List.append_nil]
  children_other := by
    intro n hn
    rw [children, r.kind_other n hn]
    rfl
  parent_news := fun n hn => absurd hn List.not_mem_nil
  parent_other := fun n hn _ => r.parent_other n hn
  size_eq := r.size_eq
  root_eq := r.root_eq

theorem truncateAfter?_swaps (h : t.WellFormed) (hroot : t.root = some root)
    (hid : t.Reachable id) (w : Placed t id holder left right) (hr : right ≠ []) :
    ∃ t', t.truncateAfter? id = some t' ∧ t.Swaps root right [] t' root := by
  obtain ⟨t', r, heq⟩ := truncated_truncateAfter w hr
  exact ⟨t', heq, (r.exchange w).swaps (Grafts.nil t right) h hroot (w.reachable_holder h hid)⟩

/-- Cut outside the tree, a sequence that drops nothing of the tree leaves the tree alone. -/
theorem Truncated.swaps_aside (r : Truncated t id holder left right t') (h : t.WellFormed)
    (hroot : t.root = some root) (hid : ¬ t.Reachable id) (w : Placed t id holder left right)
    (hout : ∀ d ∈ right, ¬ t.Reachable d) : t.Swaps root [] [] t' root := by
  have hbase : t.Reachable root := ⟨root, hroot, Reaches.refl t root⟩
  have same : ∀ n, t.Reachable n → t'.children n = t.children n := by
    intro n hn
    refine (r.exchange w).children_other n ?_
    rintro rfl
    exact hid (hn.child w.mem_children)
  have kept : ∀ n, t.Reachable n → t'.parent n = t.parent n := fun n hn =>
    r.parent_other n fun hmem => hout n hmem hn
  refine ⟨?_, r.root_eq.trans hroot, t.preOrder root, [], ?_, ?_⟩
  · refine WellFormed.of_closed (P := t.Reachable) (r.root_eq.trans hroot) ?_ hbase ?_
    · rw [kept root hbase]
      exact (h root hroot).1
    · intro n hn
      rw [same n hn]
      refine ⟨h.nodup_children hn, fun c hc => ⟨hn.child hc, ?_⟩⟩
      rw [kept c (hn.child hc)]
      exact h.parent_child hn hc
  · rw [List.flatMap_nil, List.append_nil, List.append_nil]
  · rw [List.flatMap_nil, List.append_nil, List.append_nil]
    exact preOrder_congr (h root hroot).2 r.size_eq fun m hm => same m (hbase.below hm)

/-! ## Edits in place -/

theorem run_adoptAll (p : Option NodeId) (ids : List NodeId) (t : Tree) :
    (adoptAll p ids).run t = ((), t.setParents ids p) := by
  induction ids generalizing t with
  | nil => rfl
  | cons i ids ih => exact ih (t.setParent i p)

/-- What a program that edits in place answers and leaves, from the edit of a tree. -/
def edited (t : Tree) : Option Tree → Bool × Tree
  | none => (false, t)
  | some t' => (true, t')

theorem run_spliceInPlace (t : Tree) (old : NodeId) (news : List NodeId) :
    (spliceInPlace old news).run t = t.edited (t.splice? old news) := by
  simp only [spliceInPlace, splice?, sequenceAround?, StateT.run_bind, StateT.run_get, pure_bind]
  cases hp : t.parent old with
  | none => rfl
  | some p =>
      simp only [Option.bind_eq_bind, Option.bind_some, StateT.run_bind, StateT.run_get, pure_bind]
      cases hs : t.sequence? p with
      | none => rfl
      | some statements =>
          simp only [Option.bind_some]
          split
          · simp only [StateT.run_bind, StateT.run_modify, pure_bind, run_adoptAll]
            rfl
          · rfl

theorem run_truncateInPlace (t : Tree) (id : NodeId) :
    (truncateInPlace id).run t = t.edited (t.truncateAfter? id) := by
  simp only [truncateInPlace, truncateAfter?, sequenceAround?, StateT.run_bind, StateT.run_get,
    pure_bind]
  cases hp : t.parent id with
  | none => rfl
  | some p =>
      simp only [Option.bind_eq_bind, Option.bind_some, StateT.run_bind, StateT.run_get, pure_bind]
      cases hs : t.sequence? p with
      | none => rfl
      | some statements =>
          simp only [Option.bind_some]
          split
          · simp only [Option.bind_some]
            split
            · rfl
            · simp only [StateT.run_bind, StateT.run_modify, pure_bind, run_adoptAll]
              rfl
          · rfl

/-- An edit in place that answers no has left the arena as it was. -/
theorem edited_of_refused {e : Option Tree} (h : (t.edited e).1 = false) : (t.edited e).2 = t := by
  cases e with
  | none => rfl
  | some t' => exact absurd h Bool.noConfusion

/-! ## All edits -/

/-- The three edits keep the tree a tree and change its pre-order in one segment. A sequence
outside the tree may be cut as long as nothing that it drops is in the tree. In whatever arena,
an edit of a sequence that is refused leaves everything as it was. -/
theorem edits_swap_segments (h : t.WellFormed) (hroot : t.root = some root) :
    (∀ old new, t.Reachable old → t.Replaces old new →
      t.Swaps root [old] [new] (t.replaceWith old new) (rootAfter root old new)) ∧
    (∀ old news holder statements, t.Reachable old → t.parent old = some holder →
      t.kind holder = .sequence statements → t.Grafts [old] news → (∀ n ∈ news, t.Has n) →
      ∃ t', t.splice? old news = some t' ∧ t.Swaps root [old] news t' root) ∧
    (∀ id holder left right, t.Placed id holder left right → right ≠ [] →
      ∃ t', t.truncateAfter? id = some t' ∧
        (t.Reachable id → t.Swaps root right [] t' root) ∧
        (¬ t.Reachable id → (∀ d ∈ right, ¬ t.Reachable d) → t.Swaps root [] [] t' root)) ∧
    ∀ (u : Tree) (id : NodeId) (news : List NodeId),
      ((spliceInPlace id news).run u = u.edited (u.splice? id news) ∧
        (truncateInPlace id).run u = u.edited (u.truncateAfter? id)) ∧
      (((spliceInPlace id news).run u).1 = false → ((spliceInPlace id news).run u).2 = u) ∧
      (((truncateInPlace id).run u).1 = false → ((truncateInPlace id).run u).2 = u) := by
  refine ⟨?_, ?_, ?_, ?_⟩
  · intro old new hold w
    exact replaceWith_swaps w h hroot hold
  · intro old news holder statements hold hp hk g hhas
    obtain ⟨left, right, w⟩ := exists_placed h hold hp hk
    exact splice?_swaps g hhas h hroot hold w
  · intro id holder left right w hr
    by_cases hid : t.Reachable id
    · obtain ⟨t', heq, hswap⟩ := truncateAfter?_swaps h hroot hid w hr
      exact ⟨t', heq, fun _ => hswap, fun hnot => absurd hid hnot⟩
    · obtain ⟨t', r, heq⟩ := truncated_truncateAfter w hr
      exact ⟨t', heq, fun hyes => absurd hyes hid, fun _ hout => r.swaps_aside h hroot hid w hout⟩
  · intro u id news
    have hsplice := run_spliceInPlace u id news
    have htruncate := run_truncateInPlace u id
    refine ⟨⟨hsplice, htruncate⟩, ?_, ?_⟩
    · rw [hsplice]
      exact edited_of_refused
    · rw [htruncate]
      exact edited_of_refused

/-- A block with a break and a continue statement, alone in the body of a module. -/
def nestedBlock : Tree where
  nodes :=
    let entry (kind : NodeKind) (parent : Option NodeId) : Node :=
      ⟨kind, parent, { file := "nested.py", line := 1 }⟩
    #[entry (.stmt (.breakLoop false)) (some ⟨2⟩),
      entry (.stmt (.continueLoop false)) (some ⟨2⟩),
      entry (.sequence [⟨0⟩, ⟨1⟩]) (some ⟨3⟩),
      entry (.stmt (.block ⟨2⟩)) (some ⟨4⟩),
      entry (.sequence [⟨3⟩]) (some ⟨5⟩),
      entry (.module { name := "nested", filename := "nested.py", body := some ⟨4⟩ }) none]
  root := some ⟨5⟩

theorem wellFormed_nestedBlock : nestedBlock.WellFormed :=
  WellFormed.of_arena rfl rfl (by decide) (by decide)

/-- The statements of a block take its place one by one. -/
theorem grafts_nestedBlock : nestedBlock.Grafts [⟨3⟩] [⟨0⟩, ⟨1⟩] := by
  have hroot : nestedBlock.Reachable ⟨5⟩ := ⟨⟨5⟩, rfl, Reaches.refl _ _⟩
  have reach : ∀ i ∈ [(⟨0⟩ : NodeId), ⟨1⟩], nestedBlock.Reaches ⟨3⟩ i := by
    intro i hi
    simp only [List.mem_cons, List.not_mem_nil, or_false] at hi
    rcases hi with rfl | rfl
    · exact ⟨[0, 0], rfl⟩
    · exact ⟨[0, 1], rfl⟩
  have leaf : ∀ i ∈ [(⟨0⟩ : NodeId), ⟨1⟩], ∀ m, nestedBlock.Reaches i m → m = i := by
    intro i hi m hm
    rcases hm.cases_child with heq | ⟨c, hc, -⟩
    · exact heq
    · simp only [List.mem_cons, List.not_mem_nil, or_false] at hi
      rcases hi with rfl | rfl <;> exact absurd hc List.not_mem_nil
  have top : nestedBlock.Reachable ⟨3⟩ := ⟨⟨5⟩, rfl, [0, 0], rfl⟩
  refine ⟨by decide, ?_, ?_, ?_, ?_⟩
  · exact fun i hi => wellFormed_nestedBlock.isTree (top.below (reach i hi))
  · intro i hi j hj hij m him hjm
    exact hij ((leaf i hi m him).symm.trans (leaf j hj m hjm))
  · exact fun i hi m hm _ => ⟨⟨3⟩, List.mem_singleton_self _, (reach i hi).trans hm⟩
  · intro i hi o ho hio
    rw [List.mem_singleton.mp ho] at hio
    have heq := leaf i hi ⟨3⟩ hio
    rw [← heq] at hi
    exact absurd hi (by decide)

theorem edits_swap_segments_nestedBlock :
    nestedBlock.WellFormed ∧ nestedBlock.root = some ⟨5⟩ ∧
    (nestedBlock.Replaces ⟨3⟩ ⟨1⟩ ∧
      nestedBlock.Swaps ⟨5⟩ [⟨3⟩] [⟨1⟩] (nestedBlock.replaceWith ⟨3⟩ ⟨1⟩) ⟨5⟩) ∧
    (nestedBlock.Grafts [⟨3⟩] [⟨0⟩, ⟨1⟩] ∧
      ∃ t', nestedBlock.splice? ⟨3⟩ [⟨0⟩, ⟨1⟩] = some t' ∧
        nestedBlock.Swaps ⟨5⟩ [⟨3⟩] [⟨0⟩, ⟨1⟩] t' ⟨5⟩) ∧
    (nestedBlock.Placed ⟨0⟩ ⟨2⟩ [] [⟨1⟩] ∧
      ∃ t', nestedBlock.truncateAfter? ⟨0⟩ = some t' ∧ nestedBlock.Swaps ⟨5⟩ [⟨1⟩] [] t' ⟨5⟩) := by
  have hold : nestedBlock.Reachable ⟨3⟩ := ⟨⟨5⟩, rfl, [0, 0], rfl⟩
  have replaces : nestedBlock.Replaces ⟨3⟩ ⟨1⟩ :=
    ⟨by decide, by decide, grafts_nestedBlock.isTree ⟨1⟩ (by decide), Or.inl ⟨[0, 1], rfl⟩⟩
  have placed : nestedBlock.Placed ⟨0⟩ ⟨2⟩ [] [⟨1⟩] := ⟨rfl, rfl, List.not_mem_nil⟩
  have root : nestedBlock.root = some ⟨5⟩ := rfl
  have main := edits_swap_segments wellFormed_nestedBlock root
  obtain ⟨t', ht', hswap, -⟩ := main.2.2.1 ⟨0⟩ ⟨2⟩ [] [⟨1⟩] placed (List.cons_ne_nil _ _)
  refine ⟨wellFormed_nestedBlock, rfl, ⟨replaces, main.1 ⟨3⟩ ⟨1⟩ hold replaces⟩,
    ⟨grafts_nestedBlock, ?_⟩, placed, t', ht', hswap ⟨⟨5⟩, rfl, [0, 0, 0, 0], rfl⟩⟩
  exact main.2.1 ⟨3⟩ [⟨0⟩, ⟨1⟩] ⟨4⟩ [⟨3⟩] hold rfl rfl grafts_nestedBlock (by decide)

/-- A sequence outside the tree is no safe place to cut: once the continue statement has moved
out of the block, the list of the detached block still names it, and a cut behind the break
statement clears its link to the module's body. -/
theorem truncateAfter?_staleList :
    nestedBlock.WellFormed ∧ nestedBlock.root = some ⟨5⟩ ∧
    ∃ t₁, nestedBlock.splice? ⟨3⟩ [⟨1⟩] = some t₁ ∧ t₁.WellFormed ∧ t₁.root = some ⟨5⟩ ∧
      ∃ t₂, t₁.truncateAfter? ⟨0⟩ = some t₂ ∧ ¬ t₂.WellFormed := by
  refine ⟨wellFormed_nestedBlock, rfl, _, rfl, ?_, rfl, _, rfl, ?_⟩
  · exact @WellFormed.of_closed _ ⟨5⟩ (fun n => n ∈ [⟨5⟩, ⟨4⟩, ⟨1⟩]) rfl rfl
      (by decide) (by decide)
  · intro h
    have hlink := (h ⟨5⟩ rfl).2.linked (n := ⟨4⟩) (c := ⟨1⟩) ⟨[0], rfl⟩ (by decide)
    exact absurd hlink (by decide)

end Tree
end CompilerBackend
