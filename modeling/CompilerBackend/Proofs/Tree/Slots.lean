import CompilerBackend.Proofs.Tree.Behaviour
import Mathlib
/-!
# Replacing a child

`children` lists the slots of a node, and replacing a child goes over the slots once more, one by
one, and notes whether it found anything to replace. `visit` is that second walk, for any action on
a slot; two of its runs settle what a replacement does.

- `visit_noting`: a walk whose answers depend on the slot only maps the slots and has seen the
  list of children, in order. Replacing a child is such a walk (`replaceChild_eq`).
- `refill_shape`: a walk that fills the slots of a node's shape with the node's children gives the
  node back. So shape and children tell everything about a node, and no slot is forgotten by
  either list.
- `replaceChild_eq_iff`: the flag, the children and all the rest after a replacement.
-/

namespace CompilerBackend

/-! ## Walks whose answers depend on the slot only -/

section Noting

variable {σ : Type} (g : NodeId → NodeId) (h : σ → NodeId → σ)

/-- An action that answers by the slot alone and keeps a note of it. -/
def noting (slot : NodeId) : StateM σ NodeId := fun s => (g slot, h s slot)

@[simp] theorem run_noting (slot : NodeId) (s : σ) :
    (noting g h slot).run s = pure (g slot, h s slot) := rfl

@[simp] theorem run_mapM_noting (l : List NodeId) (s : σ) :
    (l.mapM (noting g h)).run s = pure (l.map g, l.foldl h s) := by
  induction l generalizing s with
  | nil => rfl
  | cons slot l ih => simp [List.mapM_cons, ih]

@[simp] theorem run_optionMapM_noting (o : Option NodeId) (s : σ) :
    (o.mapM (noting g h)).run s = pure (o.map g, o.toList.foldl h s) := by
  cases o <;> rfl

@[simp] theorem run_visitPair_noting (l : List (NodeId × NodeId)) (s : σ) :
    (l.mapM (visitPair (noting g h))).run s = pure (mapPairs g l, (pairSlots l).foldl h s) := by
  induction l generalizing s with
  | nil => rfl
  | cons p l ih => simp [List.mapM_cons, ih, visitPair, mapPairs, pairSlots]

theorem Expr.run_visit_noting (e : Expr) (s : σ) :
    (e.visit (noting g h)).run s = pure (e.mapChildren g, e.children.foldl h s) := by
  cases e <;> simp [visit, mapChildren, children, List.foldl_append]

theorem Stmt.run_visit_noting (stmt : Stmt) (s : σ) :
    (stmt.visit (noting g h)).run s = pure (stmt.mapChildren g, stmt.children.foldl h s) := by
  cases stmt <;> simp [visit, mapChildren, children, List.foldl_append]

/-- A walk whose answers depend on the slot only maps the slots, and has noted the children in
order. -/
theorem NodeKind.run_visit_noting (k : NodeKind) (s : σ) :
    (k.visit (noting g h)).run s = pure (k.mapChildren g, k.children.foldl h s) := by
  cases k with
  | expr e => simp [visit, mapChildren, children, Expr.run_visit_noting]
  | stmt stmt => simp [visit, mapChildren, children, Stmt.run_visit_noting]
  | module m => simp [visit, mapChildren, children]
  | sequence statements => simp [visit, mapChildren, children]
  | handler clause => simp [visit, mapChildren, children, List.foldl_append]

end Noting

theorem swapSlot_eq (old new : NodeId) :
    swapSlot old new =
      noting (fun id => if id = old then new else id) (fun found id => found || id == old) := by
  funext slot found
  by_cases h : slot = old
  · rw [swapSlot, if_pos h, noting, if_pos h, beq_iff_eq.mpr h, Bool.or_true]
    rfl
  · rw [swapSlot, if_neg h, noting, if_neg h, beq_eq_false_iff_ne.mpr h, Bool.or_false]
    rfl

theorem foldl_found (old : NodeId) (l : List NodeId) (found : Bool) :
    l.foldl (fun found id => found || id == old) found = (found || l.contains old) := by
  induction l generalizing found with
  | nil => simp
  | cons id l ih =>
      rw [List.foldl_cons, ih, List.contains_cons, Bool.or_assoc, BEq.comm]

/-- Going over the slots does at once what `redirect` makes of the node and `holds` says of it. -/
theorem NodeKind.replaceChild_eq (k : NodeKind) (old new : NodeId) :
    k.replaceChild old new = (k.redirect old new, k.holds old) := by
  rw [replaceChild, swapSlot_eq, run_visit_noting, foldl_found, Bool.false_or]
  rfl

/-! ## Filling the slots of a shape -/

/-- An action that fills each slot with the next id of a list. -/
def nextId (_ : NodeId) : StateM (List NodeId) NodeId := fun ids => (ids.headD ⟨0⟩, ids.tail)

section Refill

variable (g : NodeId → NodeId) (rest : List NodeId)

@[simp] theorem run_nextId (slot id : NodeId) :
    (nextId slot).run (id :: rest) = pure (id, rest) := rfl

-- what a slot held does not matter to the action, so a mapped list is filled as the list itself
@[simp] theorem nextId_comp : nextId ∘ g = nextId := rfl

@[simp] theorem run_mapM_nextId (l : List NodeId) :
    (l.mapM nextId).run (l ++ rest) = pure (l, rest) := by
  induction l with
  | nil => rfl
  | cons id l ih => simp [List.mapM_cons, ih]

@[simp] theorem run_optionMapM_nextId (o : Option NodeId) :
    ((o.map g).mapM nextId).run (o.toList ++ rest) = pure (o, rest) := by
  cases o <;> rfl

@[simp] theorem run_visitPair_nextId (l : List (NodeId × NodeId)) :
    ((mapPairs g l).mapM (visitPair nextId)).run (pairSlots l ++ rest) = pure (l, rest) := by
  induction l with
  | nil => rfl
  | cons p l ih =>
      have hpairs : mapPairs g (p :: l) = (g p.1, g p.2) :: mapPairs g l := rfl
      have hslots : pairSlots (p :: l) = p.1 :: p.2 :: pairSlots l := rfl
      simp [hpairs, hslots, List.mapM_cons, ih, visitPair]

theorem Expr.run_visit_nextId (e : Expr) :
    ((e.mapChildren g).visit nextId).run (e.children ++ rest) = pure (e, rest) := by
  cases e <;> simp [visit, mapChildren, children]

theorem Stmt.run_visit_nextId (s : Stmt) :
    ((s.mapChildren g).visit nextId).run (s.children ++ rest) = pure (s, rest) := by
  cases s <;> simp [visit, mapChildren, children]

/-- A walk that fills the slots with the children of a node makes the node, whatever the slots held
before. -/
theorem NodeKind.run_visit_nextId (k : NodeKind) :
    ((k.mapChildren g).visit nextId).run (k.children ++ rest) = pure (k, rest) := by
  cases k with
  | expr e => simp [visit, mapChildren, children, Expr.run_visit_nextId]
  | stmt s => simp [visit, mapChildren, children, Stmt.run_visit_nextId]
  | module m => simp [visit, mapChildren, children]
  | sequence statements => simp [visit, mapChildren, children]
  | handler clause => simp [visit, mapChildren, children]

end Refill

namespace NodeKind

def refill (k : NodeKind) (ids : List NodeId) : NodeKind :=
  ((k.visit nextId).run ids).run.1

theorem refill_shape (k : NodeKind) : k.shape.refill k.children = k := by
  have h := run_visit_nextId (fun _ => ⟨0⟩) [] k
  rw [List.append_nil] at h
  rw [refill, shape, h]
  rfl

/-- A node is its shape and its children. -/
theorem eq_of_shape_of_children {k k' : NodeKind} (hshape : k.shape = k'.shape)
    (hchildren : k.children = k'.children) : k = k' := by
  rw [← refill_shape k, hshape, hchildren, refill_shape]

theorem holds_iff (k : NodeKind) (old : NodeId) : k.holds old = true ↔ old ∈ k.children := by
  rw [holds, List.contains_iff_mem]

/-- **Replacing a child agrees with the list of children.** Going over the slots of a node finds
`old` exactly if it is one of the children, and leaves the one node that has `new` for every `old`
among its children, in the same order, and is as before in all that is no slot. That is what
`redirect` makes and what `holds` says. -/
theorem replaceChild_eq_iff (k k' : NodeKind) (old new : NodeId) (found : Bool) :
    k.replaceChild old new = (k.redirect old new, k.holds old) ∧
      (k.replaceChild old new = (k', found) ↔
        (found = true ↔ old ∈ k.children) ∧
          k'.children = k.children.map (fun id => if id = old then new else id) ∧
          k'.shape = k.shape) := by
  refine ⟨replaceChild_eq k old new, ?_⟩
  rw [replaceChild_eq, ← holds_iff]
  constructor
  · intro h
    obtain ⟨rfl, rfl⟩ := Prod.mk.inj h
    exact ⟨Iff.rfl, children_mapChildren _ k, shape_mapChildren _ k⟩
  · rintro ⟨hfound, hchildren, hshape⟩
    have hkind : k' = k.redirect old new := by
      apply eq_of_shape_of_children
      · rw [hshape]
        exact (shape_mapChildren _ k).symm
      · rw [hchildren]
        exact (children_mapChildren _ k).symm
    have hflag : k.holds old = found := by
      rw [Bool.eq_iff_iff]
      exact hfound.symm
    rw [hkind, hflag]

end NodeKind

-- a pair keeps its order of writing, and its value is visited after its key
example : (NodeKind.expr (.makeDict [(⟨1⟩, ⟨2⟩), (⟨3⟩, ⟨1⟩)])).replaceChild ⟨1⟩ ⟨9⟩ =
    (.expr (.makeDict [(⟨9⟩, ⟨2⟩), (⟨3⟩, ⟨9⟩)]), true) := by rfl

end CompilerBackend
