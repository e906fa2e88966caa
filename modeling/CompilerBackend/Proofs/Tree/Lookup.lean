import CompilerBackend.Tree.Edit
import Mathlib.Data.List.Basic
/-!
# What an edit leaves at each node

Kind, parent and location of a node after every primitive edit of the arena. An edit at an id
outside the arena changes nothing, so each equation asks whether the id is inside.

The facts that later proofs use most: a node with a parent or with children is inside
(`Has.of_parent`, `Has.of_child`), and an id that is handed out next is not
(`not_has_nextId`).
-/

namespace CompilerBackend

@[ext] theorem NodeId.ext_index {a b : NodeId} (h : a.index = b.index) : a = b := by
  cases a
  cases b
  exact congrArg NodeId.mk h

namespace Tree

/-- The id stands for a node of the arena. -/
def Has (t : Tree) (id : NodeId) : Prop := id.index < t.size

instance (t : Tree) (id : NodeId) : Decidable (t.Has id) :=
  inferInstanceAs (Decidable (id.index < t.size))

/-- The `i`-th of the ids that are handed out next. -/
def fresh (t : Tree) (i : Nat) : NodeId := ⟨t.size + i⟩

theorem fresh_zero (t : Tree) : t.fresh 0 = t.nextId := rfl

theorem fresh_inj {t : Tree} {i j : Nat} (h : t.fresh i = t.fresh j) : i = j := by
  have hi : t.size + i = t.size + j := congrArg NodeId.index h
  omega

theorem not_has_fresh (t : Tree) (i : Nat) : ¬ t.Has (t.fresh i) := by
  show ¬ t.size + i < t.size
  omega

theorem Has.ne_fresh {t : Tree} {id : NodeId} (h : t.Has id) (i : Nat) : id ≠ t.fresh i := by
  rintro rfl
  exact not_has_fresh t i h

/-- An id stands for a node of the arena or for the absent one. -/
theorem node_mem (t : Tree) (id : NodeId) : t.node id ∈ Node.absent :: t.nodes.toList := by
  rw [node, Array.getD_eq_getD_getElem?]
  cases hn : t.nodes[id.index]? with
  | none => exact List.mem_cons_self
  | some n => exact List.mem_cons_of_mem _ (Array.mem_toList_iff.mpr (Array.mem_of_getElem? hn))

theorem node_eq_getD (t : Tree) (id : NodeId) :
    t.node id = (t.nodes[id.index]?).getD Node.absent := by
  rw [node, Array.getD_eq_getD_getElem?]

theorem node_of_not_has {t : Tree} {id : NodeId} (h : ¬ t.Has id) : t.node id = Node.absent := by
  have hle : t.nodes.size ≤ id.index := Nat.le_of_not_lt h
  rw [node_eq_getD, Array.getElem?_eq_none hle]
  rfl

/-- Only nodes of the arena have a parent. -/
theorem Has.of_parent {t : Tree} {id p : NodeId} (h : t.parent id = some p) : t.Has id := by
  by_contra hn
  rw [parent, node_of_not_has hn] at h
  exact absurd h.symm (Option.some_ne_none p)

/-- Only nodes of the arena have children. -/
theorem Has.of_child {t : Tree} {id c : NodeId} (h : c ∈ t.children id) : t.Has id := by
  by_contra hn
  rw [children, kind, node_of_not_has hn] at h
  exact absurd h List.not_mem_nil

theorem Has.of_expr {t : Tree} {id : NodeId} {e : Expr} (h : t.kind id = .expr e) :
    t.Has id := by
  by_contra hn
  rw [kind, node_of_not_has hn] at h
  exact NodeKind.noConfusion h

theorem Has.of_stmt {t : Tree} {id : NodeId} {s : Stmt} (h : t.kind id = .stmt s) :
    t.Has id := by
  by_contra hn
  rw [kind, node_of_not_has hn] at h
  exact NodeKind.noConfusion h

theorem sequence?_eq_some_iff {t : Tree} {id : NodeId} {statements : List NodeId} :
    t.sequence? id = some statements ↔ t.kind id = .sequence statements := by
  rw [sequence?]
  cases t.kind id <;> simp [NodeKind.sequence?]

theorem stmt?_eq_some_iff {t : Tree} {id : NodeId} {s : Stmt} :
    t.stmt? id = some s ↔ t.kind id = .stmt s := by
  rw [stmt?]
  cases t.kind id <;> simp [NodeKind.stmt?]

theorem expr?_eq_some_iff {t : Tree} {id : NodeId} {e : Expr} :
    t.expr? id = some e ↔ t.kind id = .expr e := by
  rw [expr?]
  cases t.kind id <;> simp [NodeKind.expr?]

theorem handler?_eq_some_iff {t : Tree} {id : NodeId} {h : Handler} :
    t.handler? id = some h ↔ t.kind id = .handler h := by
  rw [handler?]
  cases t.kind id <;> simp [NodeKind.handler?]

theorem module?_eq_some_iff {t : Tree} {id : NodeId} {m : Module} :
    t.module? id = some m ↔ t.kind id = .module m := by
  rw [module?]
  cases t.kind id <;> simp [NodeKind.module?]

theorem constant?_eq_some_iff {t : Tree} {id : NodeId} {c : Constant} :
    t.constant? id = some c ↔ t.kind id = .expr (.constant c) := by
  rw [constant?, NodeKind.constant?.eq_def]
  split
  next value heq => simp [heq]
  next h => exact ⟨fun hc => (nomatch hc), fun hk => absurd hk (h c)⟩

/-! ## One node changed in place -/

theorem node_modifyNode (t : Tree) (i : NodeId) (f : Node → Node) (n : NodeId) :
    (t.modifyNode i f).node n = if n = i ∧ t.Has i then f (t.node n) else t.node n := by
  rw [node_eq_getD, node_eq_getD]
  show ((t.nodes.modify i.index f)[n.index]?).getD _ = _
  rw [Array.getElem?_modify]
  by_cases hn : n = i
  · subst hn
    by_cases hi : t.Has n
    · have hlt : n.index < t.nodes.size := hi
      rw [if_pos rfl, if_pos ⟨rfl, hi⟩, Array.getElem?_eq_getElem hlt]
      rfl
    · have hle : t.nodes.size ≤ n.index := Nat.le_of_not_lt hi
      rw [if_pos rfl, if_neg (fun h => hi h.2), Array.getElem?_eq_none hle]
      rfl
  · have hne : ¬ i.index = n.index := fun h => hn (NodeId.ext_index h.symm)
    rw [if_neg hne, if_neg (fun h => hn h.1)]

@[simp] theorem size_modifyNode (t : Tree) (i : NodeId) (f : Node → Node) :
    (t.modifyNode i f).size = t.size := Array.size_modify

@[simp] theorem size_setKind (t : Tree) (i : NodeId) (k : NodeKind) :
    (t.setKind i k).size = t.size := size_modifyNode ..

@[simp] theorem root_setKind (t : Tree) (i : NodeId) (k : NodeKind) :
    (t.setKind i k).root = t.root := rfl

theorem kind_setKind (t : Tree) (i : NodeId) (k : NodeKind) (n : NodeId) :
    (t.setKind i k).kind n = if n = i ∧ t.Has i then k else t.kind n := by
  rw [kind, setKind, node_modifyNode]
  split <;> rfl

theorem kind_setKind_self {t : Tree} {i : NodeId} (h : t.Has i) (k : NodeKind) :
    (t.setKind i k).kind i = k := by
  rw [kind_setKind, if_pos ⟨rfl, h⟩]

theorem kind_setKind_ne (t : Tree) {i n : NodeId} (h : n ≠ i) (k : NodeKind) :
    (t.setKind i k).kind n = t.kind n := by
  rw [kind_setKind, if_neg (fun hn => h hn.1)]

@[simp] theorem parent_setKind (t : Tree) (i : NodeId) (k : NodeKind) (n : NodeId) :
    (t.setKind i k).parent n = t.parent n := by
  rw [parent, setKind, node_modifyNode]
  split <;> rfl

@[simp] theorem location_setKind (t : Tree) (i : NodeId) (k : NodeKind) (n : NodeId) :
    (t.setKind i k).location n = t.location n := by
  rw [location, setKind, node_modifyNode]
  split <;> rfl

@[simp] theorem size_setParent (t : Tree) (i : NodeId) (p : Option NodeId) :
    (t.setParent i p).size = t.size := size_modifyNode ..

@[simp] theorem root_setParent (t : Tree) (i : NodeId) (p : Option NodeId) :
    (t.setParent i p).root = t.root := rfl

@[simp] theorem kind_setParent (t : Tree) (i : NodeId) (p : Option NodeId) (n : NodeId) :
    (t.setParent i p).kind n = t.kind n := by
  rw [kind, setParent, node_modifyNode]
  split <;> rfl

@[simp] theorem location_setParent (t : Tree) (i : NodeId) (p : Option NodeId) (n : NodeId) :
    (t.setParent i p).location n = t.location n := by
  rw [location, setParent, node_modifyNode]
  split <;> rfl

theorem parent_setParent (t : Tree) (i : NodeId) (p : Option NodeId) (n : NodeId) :
    (t.setParent i p).parent n = if n = i ∧ t.Has i then p else t.parent n := by
  rw [parent, setParent, node_modifyNode]
  split <;> rfl

theorem parent_setParent_self {t : Tree} {i : NodeId} (h : t.Has i) (p : Option NodeId) :
    (t.setParent i p).parent i = p := by
  rw [parent_setParent, if_pos ⟨rfl, h⟩]

theorem parent_setParent_ne (t : Tree) {i n : NodeId} (h : n ≠ i) (p : Option NodeId) :
    (t.setParent i p).parent n = t.parent n := by
  rw [parent_setParent, if_neg (fun hn => h hn.1)]

/-! ## One parent for several nodes -/

theorem setParents_cons (t : Tree) (i : NodeId) (ids : List NodeId) (p : Option NodeId) :
    t.setParents (i :: ids) p = (t.setParent i p).setParents ids p := rfl

@[simp] theorem size_setParents (t : Tree) (ids : List NodeId) (p : Option NodeId) :
    (t.setParents ids p).size = t.size := by
  induction ids generalizing t with
  | nil => rfl
  | cons i ids ih => rw [setParents_cons, ih, size_setParent]

@[simp] theorem root_setParents (t : Tree) (ids : List NodeId) (p : Option NodeId) :
    (t.setParents ids p).root = t.root := by
  induction ids generalizing t with
  | nil => rfl
  | cons i ids ih => rw [setParents_cons, ih, root_setParent]

@[simp] theorem kind_setParents (t : Tree) (ids : List NodeId) (p : Option NodeId)
    (n : NodeId) : (t.setParents ids p).kind n = t.kind n := by
  induction ids generalizing t with
  | nil => rfl
  | cons i ids ih => rw [setParents_cons, ih, kind_setParent]

@[simp] theorem location_setParents (t : Tree) (ids : List NodeId) (p : Option NodeId)
    (n : NodeId) : (t.setParents ids p).location n = t.location n := by
  induction ids generalizing t with
  | nil => rfl
  | cons i ids ih => rw [setParents_cons, ih, location_setParent]

theorem parent_setParents_of_not_mem (t : Tree) {ids : List NodeId} {n : NodeId}
    (h : n ∉ ids) (p : Option NodeId) : (t.setParents ids p).parent n = t.parent n := by
  induction ids generalizing t with
  | nil => rfl
  | cons i ids ih =>
      rw [List.mem_cons, not_or] at h
      rw [setParents_cons, ih _ h.2, parent_setParent_ne t h.1]

theorem parent_setParents_of_mem {t : Tree} {ids : List NodeId} {n : NodeId} (h : n ∈ ids)
    (hn : t.Has n) (p : Option NodeId) : (t.setParents ids p).parent n = p := by
  induction ids generalizing t with
  | nil => exact absurd h List.not_mem_nil
  | cons i ids ih =>
      have hn' : (t.setParent i p).Has n := by
        rw [Has, size_setParent]
        exact hn
      rw [setParents_cons]
      by_cases hmem : n ∈ ids
      · exact ih hmem hn'
      · rcases List.mem_cons.mp h with rfl | hm
        · rw [parent_setParents_of_not_mem _ hmem, parent_setParent_self hn]
        · exact absurd hm hmem

/-! ## One more node -/

theorem add_eq (t : Tree) (k : NodeKind) (l : Location) :
    t.add k l = { t.setParents k.children (some t.nextId) with
      nodes := (t.setParents k.children (some t.nextId)).nodes.push ⟨k, none, l⟩ } := rfl

@[simp] theorem size_add (t : Tree) (k : NodeKind) (l : Location) :
    (t.add k l).size = t.size + 1 := by
  rw [add_eq]
  show (Array.push _ _).size = _
  rw [Array.size_push]
  exact congrArg (· + 1) (size_setParents ..)

@[simp] theorem root_add (t : Tree) (k : NodeKind) (l : Location) :
    (t.add k l).root = t.root := root_setParents ..

theorem Has.add {t : Tree} {n : NodeId} (h : t.Has n) (k : NodeKind) (l : Location) :
    (t.add k l).Has n := by
  rw [Has, size_add]
  exact Nat.lt_succ_of_lt h

theorem has_add_nextId (t : Tree) (k : NodeKind) (l : Location) : (t.add k l).Has t.nextId := by
  rw [Has, size_add]
  exact Nat.lt_succ_self t.size

theorem fresh_add (t : Tree) (k : NodeKind) (l : Location) (i : Nat) :
    (t.add k l).fresh i = t.fresh (i + 1) := by
  refine NodeId.ext_index ?_
  show (t.add k l).size + i = t.size + (i + 1)
  rw [size_add]
  omega

theorem node_add_nextId (t : Tree) (k : NodeKind) (l : Location) :
    (t.add k l).node t.nextId = ⟨k, none, l⟩ := by
  have hsize : t.nextId.index = (t.setParents k.children (some t.nextId)).nodes.size :=
    (size_setParents ..).symm
  rw [node_eq_getD, add_eq]
  show ((Array.push _ _)[t.nextId.index]?).getD _ = _
  rw [hsize, Array.getElem?_push_size]
  rfl

theorem node_add_ne (t : Tree) {n : NodeId} (h : n ≠ t.nextId) (k : NodeKind) (l : Location) :
    (t.add k l).node n = (t.setParents k.children (some t.nextId)).node n := by
  have hne : n.index ≠ (t.setParents k.children (some t.nextId)).nodes.size := by
    intro hi
    exact h (NodeId.ext_index (hi.trans (size_setParents ..)))
  rw [node_eq_getD, node_eq_getD, add_eq]
  show ((Array.push _ _)[n.index]?).getD _ = _
  rw [Array.getElem?_push, if_neg hne]

theorem kind_add_nextId (t : Tree) (k : NodeKind) (l : Location) :
    (t.add k l).kind t.nextId = k := by
  rw [kind, node_add_nextId]

theorem kind_add_ne (t : Tree) {n : NodeId} (h : n ≠ t.nextId) (k : NodeKind)
    (l : Location) : (t.add k l).kind n = t.kind n := by
  rw [kind, node_add_ne t h]
  exact kind_setParents ..

theorem location_add_nextId (t : Tree) (k : NodeKind) (l : Location) :
    (t.add k l).location t.nextId = l := by
  rw [location, node_add_nextId]

theorem location_add_ne (t : Tree) {n : NodeId} (h : n ≠ t.nextId) (k : NodeKind)
    (l : Location) : (t.add k l).location n = t.location n := by
  rw [location, node_add_ne t h]
  exact location_setParents ..

/-- The new node becomes the parent of its children. -/
theorem parent_add_of_mem {t : Tree} {n : NodeId} {k : NodeKind} (h : n ∈ k.children)
    (hn : t.Has n) (l : Location) : (t.add k l).parent n = some t.nextId := by
  have hne : n ≠ t.nextId := hn.ne_fresh 0
  rw [parent, node_add_ne t hne]
  exact parent_setParents_of_mem h hn _

theorem parent_add_of_not_mem {t : Tree} {n : NodeId} {k : NodeKind} (h : n ∉ k.children)
    (hn : t.Has n) (l : Location) : (t.add k l).parent n = t.parent n := by
  have hne : n ≠ t.nextId := hn.ne_fresh 0
  rw [parent, node_add_ne t hne]
  exact parent_setParents_of_not_mem t h _

end Tree
end CompilerBackend
