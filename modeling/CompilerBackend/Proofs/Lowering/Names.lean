import CompilerBackend.Proofs.Tree.Enclosing
import CompilerBackend.Proofs.Lowering.Position
import CompilerBackend.Proofs.Target.Definitions
/-!
# The names in a tree

Which names of a tree go into target text, and what is assumed of them. A lowering looks down
the slots of a node and up its parent links for the scope around it, so the names that matter are
those of the nodes connected to the one it starts from.

- `NodeKind.names`, `NodeKind.titles`, `NodeKind.gluedTexts`: names that stand apart, names in
  comments, and names between fixed texts.
- `Suits`: what one node's names are held to; `Tree.Connected`: the nodes that matter.
- `IsTree.scope_isSome`: in the tree of a module every node has a scope.
-/

namespace CompilerBackend

open Target

/-! ## Names of a node -/

def Expr.names : Expr → List String
  | .variableRef _ binding => binding.toList.map (·.name)
  | .temporaryRef binding => [binding.name]
  | .function f => f.codeName :: (f.parameters.all ++ f.userVariables ++ f.temporaries ++
      f.closureVariables).map (·.name)
  | .classBody c => c.codeName :: (c.closureVariables ++ c.classVariables ++ c.temporaries).map
      (·.name)
  | .makeException name _ => [name]
  | .anonymousBuiltin name => [name]
  | .exception name => [name]
  | _ => []

def NodeKind.names : NodeKind → List String
  | .module m => (m.globals ++ m.temporaries).map (·.name)
  | .expr e => e.names
  | _ => []

def NodeKind.titles : NodeKind → List String
  | .expr (.function f) => [f.name]
  | .expr (.classBody c) => [c.name]
  | _ => []

def NodeKind.gluedTexts : NodeKind → List String
  | .expr (.anonymousBuiltin name) => ["Py" ++ name ++ "_Type"]
  | .expr (.function f) => [implementationName f]
  | _ => []

def NodeKind.isNamedCall : NodeKind → Bool
  | .expr (.call _ [] (_ :: _) none none) => true
  | _ => false

theorem Expr.mem_names_of_bound {e : Expr} {v : Variable} (h : e.boundVariable? = some v) :
    v.name ∈ e.names := by
  cases e with
  | variableRef _ _ => simpa [names] using ⟨v, h, rfl⟩
  | temporaryRef _ => simpa [names] using (congrArg Variable.name (Option.some.inj h)).symm
  | _ => exact nomatch h

theorem NodeKind.mem_names_of_provider {k : NodeKind} {p : Provider} (hp : k.provider? = some p)
    {n : String} (hn : n ∈ localNames p) : n ∈ k.names := by
  unfold NodeKind.provider? at hp
  split at hp
  · rw [← Option.some.inj hp] at hn
    exact nomatch hn
  · rw [← Option.some.inj hp] at hn
    obtain ⟨v, hv, rfl⟩ := List.mem_map.mp hn
    exact List.mem_cons_of_mem _ (List.mem_map_of_mem
      (List.mem_append_left _ (List.mem_append_left _ hv)))
  · rw [← Option.some.inj hp] at hn
    exact nomatch hn
  · exact nomatch hp

/-- What target text needs of the names at a node. -/
structure Suits (w : Wording) (k : NodeKind) (l : Location) : Prop where
  file : Shown w l.file
  names : ∀ n ∈ k.names, Named w n
  titles : ∀ n ∈ k.titles, Calm w n
  glued : ∀ s ∈ k.gluedTexts, Worded w s
  named : k.isNamedCall = true → w.Allows emptyTupleName

/-! ## Connected nodes -/

namespace Tree

variable {t : Tree} {top n m c : NodeId}

def Connected (t : Tree) (top : NodeId) : NodeId → Prop :=
  Relation.ReflTransGen (fun n m => m ∈ t.children n ∨ t.parent n = some m) top

theorem Connected.refl (t : Tree) (top : NodeId) : t.Connected top top := Relation.ReflTransGen.refl

theorem Connected.child (h : t.Connected top n) (hc : c ∈ t.children n) : t.Connected top c :=
  h.tail (Or.inl hc)

theorem Connected.parent (h : t.Connected top n) (hp : t.parent n = some m) :
    t.Connected top m := h.tail (Or.inr hp)

theorem Connected.below (h : t.Connected top n) (hm : t.Reaches n m) : t.Connected top m :=
  hm.induct h fun _ _ _ hm hc => hm.child hc

/-- In the tree of a root, connected nodes are those that it reaches. -/
theorem IsTree.reaches_of_connected (h : t.IsTree top) (hp : t.parent top = none)
    (hn : t.Connected top n) : t.Reaches top n := by
  induction hn with
  | refl => exact Reaches.refl t top
  | tail _ hstep ih =>
      rcases hstep with hc | hparent
      · exact ih.child hc
      · rcases ih.holder with rfl | ⟨m, hm, hc⟩
        · rw [hp] at hparent
          exact nomatch hparent
        · rw [h.linked hm hc] at hparent
          rw [← Option.some.inj hparent]
          exact hm

theorem Connected.of_mem_chainFrom {k : Nat} {id : Option NodeId}
    (h : ∀ i ∈ id, t.Connected top i) (hm : m ∈ t.chainFrom k id) : t.Connected top m := by
  induction k generalizing id with
  | zero => exact nomatch hm
  | succ k ih =>
      cases id with
      | none => exact nomatch hm
      | some i =>
          rcases List.mem_cons.mp hm with rfl | hm
          · exact h m rfl
          · exact ih (fun j hj => (h i rfl).parent hj) hm

/-- The scope of a connected node is a connected node. -/
theorem Connected.scope (h : t.Connected top n) {p : Provider} (hp : t.scope? n = some p) :
    ∃ m, t.Connected top m ∧ (t.kind m).provider? = some p := by
  obtain ⟨m, hm, hprovider⟩ := Option.bind_eq_some_iff.mp hp
  exact ⟨m, Connected.of_mem_chainFrom (fun i hi => h.parent hi) (List.mem_of_find?_eq_some hm),
    hprovider⟩

/-- In the tree of a module every other node has a scope. -/
theorem IsTree.scope_isSome (h : t.IsTree top) {root : Module} (hkind : t.kind top = .module root)
    (hn : t.Reaches top n) (hne : n ≠ top) : (t.scope? n).isSome = true := by
  have hmem : top ∈ t.ancestors n := h.mem_ancestors hn hne
  have hprovider : (t.provider? top).isSome = true := by
    rw [provider?, hkind]
    rfl
  have hfound : (t.enclosingProvider? n).isSome = true :=
    List.find?_isSome.mpr ⟨top, hmem, hprovider⟩
  obtain ⟨a, ha⟩ := Option.isSome_iff_exists.mp hfound
  rw [scope?, ha, Option.bind_some]
  have hsome := List.find?_some (p := fun a => (t.provider? a).isSome) ha
  exact hsome

end Tree
end CompilerBackend
