import CompilerBackend.Raise.Step
import CompilerBackend.Proofs.Tree.Edit
import CompilerBackend.Proofs.Tree.WellFormed
/-!
# Where a raise cuts an evaluation

A `Cut` splits the children of a node at its first raise. Three structures say what the steps
around it leave at every node of the arena: `Lifted` for a raise that takes the place of an
expression, `Spread` for a raise that becomes statements of a sequence, `Truncated` for a
sequence that ends at a raise statement. Everything else about a step is read off these.

Only a well-formed tree allows such a description: with nodes shared between holders, one
change of a parent link would undo another.
-/

namespace CompilerBackend
namespace Tree

/-- The children of a node, split at one that raises. -/
structure Cut (t : Tree) (id : NodeId) where
  before : List NodeId
  raise : NodeId
  after : List NodeId
  exceptionType : NodeId
  value : Option NodeId
  effects : List NodeId
  children_eq : t.children id = before ++ raise :: after
  kind_raise : t.kind raise = .expr (.raise exceptionType value effects)

variable {t t' : Tree} {id n : NodeId}

namespace Cut

/-- What moves into the raise: all that is evaluated before it and may have side effects. -/
def moved (c : Cut t id) : List NodeId := c.before.filter t.mayHaveSideEffects

/-- The side effects of the raise afterwards. -/
def kept (c : Cut t id) : List NodeId := c.moved ++ c.effects

theorem raise_mem (c : Cut t id) : c.raise ∈ t.children id := by
  rw [c.children_eq]
  exact List.mem_append_right _ List.mem_cons_self

theorem children_raise (c : Cut t id) :
    t.children c.raise = c.effects ++ c.exceptionType :: c.value.toList := by
  rw [children, c.kind_raise]
  rfl

theorem moved_sublist (c : Cut t id) : c.moved.Sublist (t.children id) := by
  rw [c.children_eq]
  exact List.filter_sublist.trans (List.sublist_append_left _ _)

theorem mem_children_of_moved {c : Cut t id} (hn : n ∈ c.moved) : n ∈ t.children id :=
  c.moved_sublist.subset hn

theorem mem_children_of_effects {c : Cut t id} (hn : n ∈ c.effects) :
    n ∈ t.children c.raise := by
  rw [c.children_raise]
  exact List.mem_append_left _ hn

theorem reachable_raise (hid : t.Reachable id) (c : Cut t id) : t.Reachable c.raise :=
  hid.child c.raise_mem

section WellFormed

variable (h : t.WellFormed) (hid : t.Reachable id) (c : Cut t id)
include h hid

theorem raise_ne : c.raise ≠ id := h.child_ne hid c.raise_mem

theorem parent_raise : t.parent c.raise = some id := h.parent_child hid c.raise_mem

theorem raise_not_moved : c.raise ∉ c.moved := by
  have hnd := h.nodup_children hid
  rw [c.children_eq] at hnd
  intro hm
  exact (List.nodup_append.mp hnd).2.2 _ (List.mem_of_mem_filter hm) _ List.mem_cons_self rfl

theorem id_not_moved : id ∉ c.moved :=
  fun hm => h.child_ne hid (mem_children_of_moved hm) rfl

theorem holder_ne_raise {p : NodeId} (hp : t.parent id = some p) : p ≠ c.raise := by
  obtain ⟨hpr, hidp⟩ := h.holder hid hp
  exact (h.grandchild_ne hpr hidp c.raise_mem).symm

/-- What moves is held by the node, what was there already by the raise. -/
theorem moved_disjoint {m : NodeId} (hn : n ∈ c.moved) (hm : m ∈ t.children c.raise) :
    n ≠ m :=
  h.child_ne_child hid (Cut.reachable_raise hid c) (c.raise_ne h hid).symm
    (mem_children_of_moved hn) hm

/-- The children of the raise afterwards are distinct. -/
theorem nodup_moved_append : (c.moved ++ t.children c.raise).Nodup := by
  rw [List.nodup_append]
  exact ⟨c.moved_sublist.nodup (h.nodup_children hid),
    h.nodup_children (Cut.reachable_raise hid c), fun _ hn _ hm => c.moved_disjoint h hid hn hm⟩

theorem nodup_kept_append : (c.kept ++ c.exceptionType :: c.value.toList).Nodup := by
  have hnd := c.nodup_moved_append h hid
  rwa [c.children_raise, ← List.append_assoc] at hnd

theorem nodup_kept : c.kept.Nodup := (List.nodup_append.mp (c.nodup_kept_append h hid)).1

/-- All that the raise evaluates afterwards was held by the node or by the raise. -/
theorem held_of_mem {n : NodeId} (hn : n ∈ c.moved ++ t.children c.raise) :
    t.Reachable n ∧ (t.parent n = some id ∨ t.parent n = some c.raise) ∧ n ≠ id ∧
      n ≠ c.raise := by
  have hraise := Cut.reachable_raise hid c
  rcases List.mem_append.mp hn with hm | hm
  · have hc := mem_children_of_moved hm
    refine ⟨hid.child hc, Or.inl (h.parent_child hid hc), h.child_ne hid hc, ?_⟩
    rintro rfl
    exact c.raise_not_moved h hid hm
  · exact ⟨hraise.child hm, Or.inr (h.parent_child hraise hm),
      h.grandchild_ne hid c.raise_mem hm, h.child_ne hraise hm⟩

theorem held_of_kept {n : NodeId} (hn : n ∈ c.kept) :
    t.Reachable n ∧ (t.parent n = some id ∨ t.parent n = some c.raise) ∧ n ≠ id ∧
      n ≠ c.raise := by
  refine c.held_of_mem h hid ?_
  rw [c.children_raise, ← List.append_assoc]
  exact List.mem_append_left _ hn

/-- The type and the value stay with the raise and are none of its side effects. -/
theorem held_of_shown {n : NodeId} (hn : n ∈ c.exceptionType :: c.value.toList) :
    t.Reachable n ∧ t.parent n = some c.raise ∧ n ∉ c.kept ∧ n ≠ id ∧ n ≠ c.raise := by
  have hraise := Cut.reachable_raise hid c
  have hmem : n ∈ t.children c.raise := by
    rw [c.children_raise]
    exact List.mem_append_right _ hn
  have hdisj := (List.nodup_append.mp (c.nodup_kept_append h hid)).2.2
  exact ⟨hraise.child hmem, h.parent_child hraise hmem, fun hk => hdisj n hk n hn rfl,
    h.grandchild_ne hid c.raise_mem hmem, h.child_ne hraise hmem⟩

theorem has_of_kept {n : NodeId} (hn : n ∈ c.kept) : t.Has n := by
  rcases (c.held_of_kept h hid hn).2.1 with hp | hp <;> exact Has.of_parent hp

theorem has_of_shown {n : NodeId} (hn : n ∈ c.exceptionType :: c.value.toList) : t.Has n :=
  Has.of_parent (c.held_of_shown h hid hn).2.1

end WellFormed
end Cut

/-! ## A raise in the place of an expression -/

/-- What is left when the raise takes the place of the node: the raise evaluates first what
moves into it, the holder of the node holds the raise, and all other nodes are as they were. -/
structure Lifted (c : Cut t id) (t' : Tree) : Prop where
  kind_raise : t'.kind c.raise = .expr (.raise c.exceptionType c.value c.kept)
  kind_holder : ∀ p, t.parent id = some p → t'.kind p = (t.kind p).redirect id c.raise
  kind_other : ∀ n, n ≠ c.raise → t.parent id ≠ some n → t'.kind n = t.kind n
  parent_raise : t'.parent c.raise = t.parent id
  parent_moved : ∀ n ∈ c.moved, t'.parent n = some c.raise
  parent_other : ∀ n, n ≠ id → n ≠ c.raise → n ∉ c.moved → t'.parent n = t.parent n
  location_eq : ∀ n, t'.location n = t.location n
  size_eq : t'.size = t.size
  root_eq : t'.root = if t.parent id = none then some c.raise else t.root

theorem prependEffects_eq (c : Cut t id) :
    t.prependEffects c.raise c.moved =
      (t.setKind c.raise (.expr (.raise c.exceptionType c.value c.kept))).setParents c.moved
        (some c.raise) := by
  rw [prependEffects, expr?, c.kind_raise]
  rfl

/-- The tree before the raise changes place: its side effects are there, and it still stands
below the node. -/
structure Gathered (c : Cut t id) (t' : Tree) : Prop where
  kind_raise : t'.kind c.raise = .expr (.raise c.exceptionType c.value c.kept)
  kind_other : ∀ n, n ≠ c.raise → t'.kind n = t.kind n
  parent_moved : ∀ n ∈ c.moved, t'.parent n = some c.raise
  parent_other : ∀ n, n ∉ c.moved → t'.parent n = t.parent n
  location_eq : ∀ n, t'.location n = t.location n
  size_eq : t'.size = t.size
  root_eq : t'.root = t.root

theorem gathered_prependEffects (h : t.WellFormed) (hid : t.Reachable id) (c : Cut t id) :
    Gathered c (t.prependEffects c.raise c.moved) where
  kind_raise := by
    rw [prependEffects_eq, kind_setParents, kind_setKind_self (Has.of_expr c.kind_raise)]
  kind_other := fun n hn => by
    rw [prependEffects_eq, kind_setParents, kind_setKind_ne t hn]
  parent_moved := fun n hn => by
    rw [prependEffects_eq]
    refine parent_setParents_of_mem hn ?_ _
    rw [Has, size_setKind]
    exact h.has_child hid (Cut.mem_children_of_moved hn)
  parent_other := fun n hn => by
    rw [prependEffects_eq, parent_setParents_of_not_mem _ hn, parent_setKind]
  location_eq := fun n => by
    rw [prependEffects_eq, location_setParents, location_setKind]
  size_eq := by
    rw [prependEffects_eq, size_setParents, size_setKind]
  root_eq := by
    rw [prependEffects_eq, root_setParents, root_setKind]

/-- Moving the side effects first and the raise afterwards leaves no link undone. -/
theorem lifted_replaceWith (h : t.WellFormed) (hid : t.Reachable id) (c : Cut t id) :
    Lifted c ((t.prependEffects c.raise c.moved).replaceWith id c.raise) := by
  have g := gathered_prependEffects h hid c
  generalize t.prependEffects c.raise c.moved = u at g ⊢
  have hne := c.raise_ne h hid
  have hparent : u.parent id = t.parent id := g.parent_other id (c.id_not_moved h hid)
  constructor
  case kind_raise =>
    have hnot : u.parent id ≠ some c.raise := by
      rw [hparent]
      exact fun hp => c.holder_ne_raise h hid hp rfl
    rw [kind_replaceWith_ne hnot]
    exact g.kind_raise
  case kind_holder =>
    intro p hp
    have hhas : u.Has p := by
      rw [Has, g.size_eq]
      exact Has.of_child (h.holder hid hp).2
    rw [kind_replaceWith_holder (hparent.trans hp) hhas,
      g.kind_other p (c.holder_ne_raise h hid hp)]
  case kind_other =>
    intro n hn hp
    rw [kind_replaceWith_ne (by rw [hparent]; exact hp)]
    exact g.kind_other n hn
  case parent_raise =>
    rw [parent_replaceWith_new hne (Has.of_expr g.kind_raise), hparent]
  case parent_moved =>
    intro n hn
    have hnid : n ≠ id := fun e => c.id_not_moved h hid (e ▸ hn)
    have hnr : n ≠ c.raise := fun e => c.raise_not_moved h hid (e ▸ hn)
    rw [parent_replaceWith_ne hnid hnr]
    exact g.parent_moved n hn
  case parent_other =>
    intro n hnid hnr hn
    rw [parent_replaceWith_ne hnid hnr]
    exact g.parent_other n hn
  case location_eq =>
    intro n
    rw [location_replaceWith]
    exact g.location_eq n
  case size_eq =>
    rw [size_replaceWith]
    exact g.size_eq
  case root_eq =>
    rw [root_replaceWith, hparent, g.root_eq]
    by_cases hp : t.parent id = none
    · rw [if_pos hp, if_pos ⟨hp, h.root_of_parent_none hid hp⟩]
    · rw [if_neg hp, if_neg fun hn => hp hn.1]

end Tree
end CompilerBackend
