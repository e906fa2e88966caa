import CompilerBackend.Tree.Edit
import CompilerBackend.Proofs.Tree.WellFormed
/-!
# What replacing, splicing and truncating leave

Kind and parent of every node after an edit. The edits of a sequence are described from the
split of its statements at the one that the edit is about (`Placed`); a cut behind a statement is
refused where there is no such split or nothing behind it (`truncateAfter?_eq_none_iff`).
-/

namespace CompilerBackend
namespace Tree

variable {t : Tree} {old new p id n : NodeId}

/-! ## Replacing a node -/

/-- A slot holds the new node where it held the old one. -/
@[simp] theorem children_redirect (k : NodeKind) (old new : NodeId) :
    (k.redirect old new).children = k.children.map fun d => if d = old then new else d :=
  NodeKind.children_mapChildren _ k

/-- What a replacement does to slots and root, before it links the two nodes anew. -/
structure Redirected (t : Tree) (old new : NodeId) (u : Tree) : Prop where
  kind_holder : ∀ p, t.parent old = some p → t.Has p → u.kind p = (t.kind p).redirect old new
  kind_other : ∀ n, t.parent old ≠ some n → u.kind n = t.kind n
  parent_eq : ∀ n, u.parent n = t.parent n
  location_eq : ∀ n, u.location n = t.location n
  size_eq : u.size = t.size
  root_eq : u.root = if t.parent old = none ∧ t.root = some old then some new else t.root

theorem replaceWith_eq (t : Tree) (old new : NodeId) :
    ∃ u, Redirected t old new u ∧
      t.replaceWith old new = (u.setParent new (t.parent old)).setParent old none := by
  refine ⟨_, ?_, rfl⟩
  cases hp : t.parent old with
  | some p =>
      refine ⟨?_, ?_, parent_setKind t p _, location_setKind t p _, size_setKind t p _, ?_⟩
      · intro q hq hhas
        rw [← Option.some.inj (hp.symm.trans hq)] at hhas ⊢
        exact kind_setKind_self hhas _
      · intro n hn
        have hne : n ≠ p := fun h => hn (hp.trans (congrArg some h.symm))
        exact kind_setKind_ne t hne _
      · have hnot : ¬ (t.parent old = none ∧ t.root = some old) := fun hn =>
          absurd (hp.symm.trans hn.1) (Option.some_ne_none p)
        rw [if_neg hnot]
        rfl
  | none =>
      have hholder : ∀ p, t.parent old = some p → False := fun p hq =>
        absurd (hq.symm.trans hp) (Option.some_ne_none p)
      by_cases hr : t.root = some old
      · simp only [if_pos hr]
        refine ⟨fun p hq => (hholder p hq).elim, fun _ _ => rfl, fun _ => rfl, fun _ => rfl,
          rfl, ?_⟩
        rw [if_pos ⟨hp, hr⟩]
        rfl
      · simp only [if_neg hr]
        refine ⟨fun p hq => (hholder p hq).elim, fun _ _ => rfl, fun _ => rfl, fun _ => rfl,
          rfl, ?_⟩
        rw [if_neg fun hn => hr hn.2]

theorem kind_replaceWith_holder (hp : t.parent old = some p) (hhas : t.Has p) (new : NodeId) :
    (t.replaceWith old new).kind p = (t.kind p).redirect old new := by
  obtain ⟨u, hu, heq⟩ := replaceWith_eq t old new
  rw [heq, kind_setParent, kind_setParent]
  exact hu.kind_holder p hp hhas

theorem kind_replaceWith_ne (hn : t.parent old ≠ some n) (new : NodeId) :
    (t.replaceWith old new).kind n = t.kind n := by
  obtain ⟨u, hu, heq⟩ := replaceWith_eq t old new
  rw [heq, kind_setParent, kind_setParent]
  exact hu.kind_other n hn

theorem parent_replaceWith_new (hne : new ≠ old) (hhas : t.Has new) :
    (t.replaceWith old new).parent new = t.parent old := by
  obtain ⟨u, hu, heq⟩ := replaceWith_eq t old new
  have hhas' : u.Has new := by
    rw [Has, hu.size_eq]
    exact hhas
  rw [heq, parent_setParent_ne _ hne, parent_setParent_self hhas']

/-- Only the two nodes that change places get other parents. -/
theorem parent_replaceWith_ne (ho : n ≠ old) (hn : n ≠ new) :
    (t.replaceWith old new).parent n = t.parent n := by
  obtain ⟨u, hu, heq⟩ := replaceWith_eq t old new
  rw [heq, parent_setParent_ne _ ho, parent_setParent_ne _ hn]
  exact hu.parent_eq n

@[simp] theorem location_replaceWith (t : Tree) (old new n : NodeId) :
    (t.replaceWith old new).location n = t.location n := by
  obtain ⟨u, hu, heq⟩ := replaceWith_eq t old new
  rw [heq, location_setParent, location_setParent]
  exact hu.location_eq n

@[simp] theorem size_replaceWith (t : Tree) (old new : NodeId) :
    (t.replaceWith old new).size = t.size := by
  obtain ⟨u, hu, heq⟩ := replaceWith_eq t old new
  rw [heq, size_setParent, size_setParent]
  exact hu.size_eq

theorem root_replaceWith (t : Tree) (old new : NodeId) :
    (t.replaceWith old new).root =
      if t.parent old = none ∧ t.root = some old then some new else t.root := by
  obtain ⟨u, hu, heq⟩ := replaceWith_eq t old new
  rw [heq, root_setParent, root_setParent]
  exact hu.root_eq

/-! ## The place of a statement -/

theorem takeWhile_ne_split {left right : List NodeId} (h : n ∉ left) :
    (left ++ n :: right).takeWhile (· != n) = left := by
  rw [List.takeWhile_append_of_pos, List.takeWhile_cons_of_neg, List.append_nil]
  · simp
  · intro a ha
    rw [bne_iff_ne]
    rintro rfl
    exact h ha

theorem dropWhile_ne_split {left right : List NodeId} (h : n ∉ left) :
    (left ++ n :: right).dropWhile (· != n) = n :: right := by
  rw [List.dropWhile_append_of_pos, List.dropWhile_cons_of_neg]
  · simp
  · intro a ha
    rw [bne_iff_ne]
    rintro rfl
    exact h ha

theorem sequenceAround?_eq {left right : List NodeId} (hp : t.parent n = some p)
    (hk : t.kind p = .sequence (left ++ n :: right)) (hn : n ∉ left) :
    t.sequenceAround? n = some (p, left, right) := by
  have hmem : (left ++ n :: right).contains n = true := by simp
  simp only [sequenceAround?, hp, sequence?, hk, NodeKind.sequence?, Option.bind_eq_bind,
    Option.bind_some, hmem, if_true, takeWhile_ne_split hn, dropWhile_ne_split hn,
    List.drop_succ_cons, List.drop_zero]

theorem splice?_eq {left right : List NodeId} (hp : t.parent old = some p)
    (hk : t.kind p = .sequence (left ++ old :: right)) (hn : old ∉ left)
    (ids : List NodeId) :
    t.splice? old ids =
      some (((t.setKind p (.sequence (left ++ ids ++ right))).setParents ids (some p)).setParent
        old none) := by
  simp only [splice?, sequenceAround?_eq hp hk hn, Option.bind_eq_bind, Option.bind_some]

theorem truncateAfter?_eq {left right : List NodeId} (hp : t.parent n = some p)
    (hk : t.kind p = .sequence (left ++ n :: right)) (hn : n ∉ left) :
    t.truncateAfter? n =
      if right = [] then none
      else some ((t.setKind p (.sequence (left ++ [n]))).setParents right none) := by
  simp only [truncateAfter?, sequenceAround?_eq hp hk hn, Option.bind_eq_bind,
    Option.bind_some, List.isEmpty_iff]

/-! ## A statement in its sequence -/

/-- The sequence that holds a statement, split at it. -/
structure Placed (t : Tree) (id holder : NodeId) (left right : List NodeId) : Prop where
  parent_eq : t.parent id = some holder
  kind_eq : t.kind holder = .sequence (left ++ id :: right)
  not_mem_left : id ∉ left

/-- A reachable statement that a sequence holds stands at one place in it. -/
theorem exists_placed (h : t.WellFormed) (hid : t.Reachable id) {holder : NodeId}
    {statements : List NodeId} (hp : t.parent id = some holder)
    (hk : t.kind holder = .sequence statements) : ∃ left right, Placed t id holder left right := by
  have hmem : id ∈ statements := by
    have hchild := (h.holder hid hp).2
    rwa [children, hk] at hchild
  obtain ⟨left, right, heq, hleft⟩ := List.eq_append_cons_of_mem hmem
  exact ⟨left, right, hp, hk.trans (congrArg _ heq), hleft⟩

namespace Placed

variable {holder : NodeId} {left right : List NodeId}

theorem children_eq (w : Placed t id holder left right) :
    t.children holder = left ++ id :: right := by
  rw [children, w.kind_eq]
  rfl

theorem mem_children (w : Placed t id holder left right) : id ∈ t.children holder := by
  rw [w.children_eq]
  exact List.mem_append_right _ List.mem_cons_self

theorem reachable_holder (w : Placed t id holder left right) (h : t.WellFormed)
    (hid : t.Reachable id) : t.Reachable holder :=
  (h.holder hid w.parent_eq).1

theorem holder_ne (w : Placed t id holder left right) (h : t.WellFormed)
    (hid : t.Reachable id) : holder ≠ id :=
  (h.child_ne (w.reachable_holder h hid) w.mem_children).symm

end Placed

/-- The split that an edit looks up is the one there is. -/
theorem sequenceAround?_eq_some_iff {left right : List NodeId} :
    t.sequenceAround? id = some (p, left, right) ↔ Placed t id p left right := by
  constructor
  · intro h
    obtain ⟨q, hq, h⟩ := Option.bind_eq_some_iff.mp h
    obtain ⟨statements, hs, h⟩ := Option.bind_eq_some_iff.mp h
    split at h
    next hmem =>
      obtain ⟨l, r, heq, hl⟩ := List.eq_append_cons_of_mem (List.contains_iff_mem.mp hmem)
      rw [heq, takeWhile_ne_split hl, dropWhile_ne_split hl] at h
      obtain ⟨rfl, rfl, rfl⟩ : q = p ∧ l = left ∧ r = right := by simpa using h
      exact ⟨hq, heq ▸ sequence?_eq_some_iff.mp hs, hl⟩
    next => exact absurd h.symm (Option.some_ne_none _)
  · intro w
    exact sequenceAround?_eq w.parent_eq w.kind_eq w.not_mem_left

/-- A cut is refused exactly where no sequence holds the statement with others behind it. -/
theorem truncateAfter?_eq_none_iff :
    t.truncateAfter? id = none ↔ ∀ p left right, Placed t id p left right → right = [] := by
  constructor
  · intro h p left right w
    by_contra hr
    rw [truncateAfter?_eq w.parent_eq w.kind_eq w.not_mem_left, if_neg hr] at h
    exact Option.some_ne_none _ h
  · intro h
    cases ha : t.sequenceAround? id with
    | none => simp only [truncateAfter?, ha, Option.bind_eq_bind, Option.bind_none]
    | some a =>
        obtain ⟨p, left, right⟩ := a
        have w := sequenceAround?_eq_some_iff.mp ha
        rw [truncateAfter?_eq w.parent_eq w.kind_eq w.not_mem_left, if_pos (h p left right w)]

/-- What is left when the statements behind one are dropped. -/
structure Truncated (t : Tree) (id holder : NodeId) (left right : List NodeId) (t' : Tree) :
    Prop where
  kind_holder : t'.kind holder = .sequence (left ++ [id])
  kind_other : ∀ n, n ≠ holder → t'.kind n = t.kind n
  parent_other : ∀ n, n ∉ right → t'.parent n = t.parent n
  location_eq : ∀ n, t'.location n = t.location n
  size_eq : t'.size = t.size
  root_eq : t'.root = t.root

theorem truncated_truncateAfter {holder : NodeId} {left right : List NodeId}
    (w : Placed t id holder left right) (hr : right ≠ []) :
    ∃ t', Truncated t id holder left right t' ∧ t.truncateAfter? id = some t' := by
  have heq := truncateAfter?_eq w.parent_eq w.kind_eq w.not_mem_left
  rw [if_neg hr] at heq
  refine ⟨_, ?_, heq⟩
  constructor
  case kind_holder =>
    rw [kind_setParents, kind_setKind_self (Has.of_child w.mem_children)]
  case kind_other =>
    intro n hn
    rw [kind_setParents, kind_setKind_ne t hn]
  case parent_other =>
    intro n hn
    rw [parent_setParents_of_not_mem _ hn, parent_setKind]
  case location_eq =>
    intro n
    rw [location_setParents, location_setKind]
  case size_eq =>
    rw [size_setParents, size_setKind]
  case root_eq =>
    rw [root_setParents, root_setKind]

end Tree
end CompilerBackend
