import CompilerBackend.Tree.Scope
import CompilerBackend.Proofs.Tree.WellFormed
/-!
# The providers around a node

What is looked up from a node is looked up in the modules, functions and classes that enclose it.
On a tree their list grows by one step from a node to its children, however long the chain of
parents is.

- `Provider.bare`: all of a provider that a look-up can tell.
- `Tree.around`: what a question finds in the nodes around a node; `around_child` is the step.
- `Tree.enclosing`: the providers around a node, nearest first.
- `scope?_map_bare`, `attributeName_congr`, `isHandlerLocal_congr`: look-ups read such lists.
-/

namespace CompilerBackend

def Provider.bare : Provider → Provider
  | .module m => .module { m with body := none }
  | .function f => .function { f with body := none }
  | .classBody c => .classBody { c with body := none }

def NodeKind.bare? (k : NodeKind) : Option Provider := k.provider?.map Provider.bare

@[simp] theorem NodeKind.bare?_mapChildren (f : NodeId → NodeId) (k : NodeKind) :
    (k.mapChildren f).bare? = k.bare? := by
  cases k with
  | expr e => cases e <;> rfl
  | _ => rfl

/-- What a node says to whether the exception is at hand below it: a handler has it, a provider
cuts it off. -/
def NodeKind.handling? : NodeKind → Option Bool
  | .handler _ => some true
  | k => k.provider?.map fun _ => false

@[simp] theorem NodeKind.handling?_mapChildren (f : NodeId → NodeId) (k : NodeKind) :
    (k.mapChildren f).handling? = k.handling? := by
  cases k with
  | expr e => cases e <;> rfl
  | _ => rfl

theorem NodeKind.handling?_eq_none {k : NodeKind} (hbare : k.bare? = none)
    (hhandler : k.handler? = none) : k.handling? = none := by
  cases k with
  | handler h => exact nomatch hhandler
  | module m => exact nomatch hbare
  | expr e => cases e <;> first | rfl | exact nomatch hbare
  | _ => rfl

namespace Tree

variable {t t' : Tree} {top n n' c : NodeId} {β : Type} {g : NodeKind → Option β}

def around (g : NodeKind → Option β) (t : Tree) (id : NodeId) : List β :=
  (t.ancestors id).filterMap fun a => g (t.kind a)

def enclosing (t : Tree) (id : NodeId) : List Provider :=
  (t.ancestors id).filterMap fun a => (t.kind a).bare?

/-! ## One step down -/

/-- The chain of parents ends at the top, so a longer bound gives the same chain. -/
theorem IsTree.chainFrom_eq (h : t.IsTree top) (hp : t.parent top = none) {p : List Nat}
    (hn : t.nodeAt? top p = some n) {j k : Nat} (hj : p.length ≤ j) (hk : p.length ≤ k) :
    t.chainFrom j (t.parent n) = t.chainFrom k (t.parent n) := by
  induction p using List.reverseRecOn generalizing n j k with
  | nil =>
      rw [← Option.some.inj hn, hp]
      cases j <;> cases k <;> rfl
  | append_singleton p i ih =>
      rw [List.length_append, List.length_singleton] at hj hk
      obtain ⟨j, rfl⟩ : ∃ i, j = i + 1 := ⟨j - 1, by omega⟩
      obtain ⟨k, rfl⟩ : ∃ i, k = i + 1 := ⟨k - 1, by omega⟩
      obtain ⟨m, hm, hi⟩ := nodeAt?_snoc_iff.mp hn
      rw [h.linked ⟨p, hm⟩ (List.mem_of_getElem? hi), chainFrom, chainFrom,
        ih hm (Nat.le_of_succ_le_succ hj) (Nat.le_of_succ_le_succ hk)]

theorem IsTree.ancestors_child (h : t.IsTree top) (hp : t.parent top = none)
    (hn : t.Reaches top n) (hc : c ∈ t.children n) : t.ancestors c = n :: t.ancestors n := by
  have hparent := h.linked hn hc
  obtain ⟨p, hn⟩ := hn
  have hlength := h.path_length_le hn
  rw [ancestors, hparent, depthBound, chainFrom,
    h.chainFrom_eq hp hn hlength (Nat.le_succ_of_le hlength)]
  rfl

theorem WellFormed.ancestors_child (h : t.WellFormed) (hn : t.Reachable n)
    (hc : c ∈ t.children n) : t.ancestors c = n :: t.ancestors n := by
  obtain ⟨root, hroot, hreaches⟩ := hn
  exact (h root hroot).2.ancestors_child (h root hroot).1 hreaches hc

/-- The top is among the parents of every node strictly below it. -/
theorem IsTree.mem_chainFrom (h : t.IsTree top) {p : List Nat} {i k : Nat}
    (hp : t.nodeAt? top (p ++ [i]) = some n) (hk : p.length < k) :
    top ∈ t.chainFrom k (t.parent n) := by
  induction p using List.reverseRecOn generalizing n i k with
  | nil =>
      obtain ⟨k, rfl⟩ : ∃ j, k = j + 1 := ⟨k - 1, by omega⟩
      obtain ⟨m, hm, hi⟩ := nodeAt?_snoc_iff.mp hp
      obtain rfl : top = m := Option.some.inj hm
      rw [h.linked (Reaches.refl t top) (List.mem_of_getElem? hi), chainFrom]
      exact List.mem_cons_self
  | append_singleton p j ih =>
      rw [List.length_append, List.length_singleton] at hk
      obtain ⟨k, rfl⟩ : ∃ j, k = j + 1 := ⟨k - 1, by omega⟩
      obtain ⟨m, hm, hi⟩ := nodeAt?_snoc_iff.mp hp
      rw [h.linked ⟨_, hm⟩ (List.mem_of_getElem? hi), chainFrom]
      exact List.mem_cons_of_mem m (ih hm (by omega))

/-- A node is an ancestor of all that is strictly below it. -/
theorem IsTree.mem_ancestors (h : t.IsTree top) (hn : t.Reaches top n) (hne : n ≠ top) :
    top ∈ t.ancestors n := by
  obtain ⟨p, hp⟩ := hn
  have hnil : p ≠ [] := by
    rintro rfl
    exact hne (Option.some.inj hp).symm
  obtain ⟨q, i, rfl⟩ := (List.eq_nil_or_concat p).resolve_left hnil
  rw [List.concat_eq_append] at hp
  have hlength := h.path_length_le hp
  rw [List.length_append, List.length_singleton] at hlength
  exact h.mem_chainFrom hp (by rw [depthBound]; omega)

/-- A node is around its children, and what is around the node is around them too. -/
theorem WellFormed.around_child (h : t.WellFormed) (hn : t.Reachable n) (hc : c ∈ t.children n) :
    t.around g c = (g (t.kind n)).toList ++ t.around g n := by
  rw [around, h.ancestors_child hn hc, List.filterMap_cons]
  cases g (t.kind n) <;> rfl

theorem around_of_parent_none (hp : t.parent n = none) : t.around g n = [] := by
  rw [around, ancestors, hp]
  rfl

/-! ## Looking up -/

theorem enclosing_eq (t : Tree) (n : NodeId) :
    t.enclosing n = ((t.ancestors n).filterMap t.provider?).map Provider.bare := by
  rw [List.map_filterMap]
  rfl

theorem scope?_eq_head? (t : Tree) (n : NodeId) :
    t.scope? n = ((t.ancestors n).filterMap t.provider?).head? := by
  rw [scope?, enclosingProvider?]
  induction t.ancestors n with
  | nil => rfl
  | cons a rest ih =>
      rw [List.find?_cons, List.filterMap_cons]
      cases hp : t.provider? a with
      | none => exact ih
      | some p => exact hp

/-- The scope is the first of the providers. -/
theorem scope?_map_bare (t : Tree) (n : NodeId) :
    (t.scope? n).map Provider.bare = (t.enclosing n).head? := by
  rw [scope?_eq_head?, enclosing_eq, List.head?_map]

/-- The name of a class decides what its private names become; functions end the search. -/
def classNames : List Provider → Option String
  | [] => none
  | .module _ :: rest => classNames rest
  | .function _ :: _ => none
  | .classBody c :: _ => some c.name

theorem enclosingClass?_map_name (t : Tree) (n : NodeId) :
    (t.enclosingClass? n).map (·.name) = classNames (t.enclosing n) := by
  rw [enclosingClass?, enclosing]
  induction t.ancestors n with
  | nil => rfl
  | cons a rest ih =>
      rw [List.findSome?_cons, List.filterMap_cons]
      cases hk : t.kind a with
      | expr e => cases e <;> first | exact ih | rfl
      | _ => exact ih

theorem attributeName_eq (t : Tree) (name : String) (n : NodeId) :
    t.attributeName name n =
      if isPrivateName name then
        ((classNames (t.enclosing n)).map fun c => "_" ++ c ++ name).getD name
      else name := by
  rw [attributeName, ← enclosingClass?_map_name]
  cases t.enclosingClass? n <;> rfl

theorem attributeName_congr (h : t'.enclosing n' = t.enclosing n) (name : String) :
    t'.attributeName name n' = t.attributeName name n := by
  rw [attributeName_eq, attributeName_eq, h]

theorem isHandlerLocal_congr
    (h : t'.around NodeKind.handling? n' = t.around NodeKind.handling? n) :
    t'.isHandlerLocal n' = t.isHandlerLocal n := by
  have hfirst : ∀ (t : Tree) n,
      t.isHandlerLocal n = ((t.around NodeKind.handling? n).head?).getD false := by
    intro t n
    rw [isHandlerLocal, around]
    induction t.ancestors n with
    | nil => rfl
    | cons a rest ih =>
        rw [List.findSome?_cons, List.filterMap_cons]
        cases hk : t.kind a with
        | handler _ | module _ => rfl
        | expr e => cases e <;> first | exact ih | rfl
        | _ => exact ih
  rw [hfirst, hfirst, h]

/-- What does not depend on the body is the same in scopes that agree. -/
theorem scope?_congr (h : t'.enclosing n' = t.enclosing n) {β : Type*} {f : Provider → β}
    (hf : ∀ p, f p.bare = f p) : (t'.scope? n').map f = (t.scope? n).map f := by
  have hbare : f ∘ Provider.bare = f := funext hf
  rw [← hbare, ← Option.map_map, ← Option.map_map, scope?_map_bare, scope?_map_bare, h]

end Tree
end CompilerBackend
