import CompilerBackend.Proofs.Tree.Completion
import CompilerBackend.Proofs.Tree.Enclosing
import CompilerBackend.Tree.Walk
/-!
# Trees that agree below a node

What is read below a node is the kinds of the nodes there, the places they come from, and what
encloses them. Two trees that have these in common give the same answers, whatever else they hold
and however large their arenas are.

- `SameAt`: a node is the same in both trees; the bodies of the providers around it may differ.
- `Agree`: it is so at a node and at all levels below it, of which there are fewer than a bound.
- `Agree.mayRaise_eq`, `Agree.isAbortative_eq`, `Agree.dump_eq`: answers that are found by a descent.
-/

namespace CompilerBackend

theorem any_congr_of_mem {α : Type*} {l : List α} {p q : α → Bool} (h : ∀ a ∈ l, p a = q a) :
    l.any p = l.any q := by
  rw [Bool.eq_iff_iff, List.any_eq_true, List.any_eq_true]
  exact exists_congr fun a => and_congr_right fun ha => by rw [h a ha]

namespace Tree

variable {t t' : Tree} {n c : NodeId} {i j k : Nat}

/-- The node is the same in both trees, and so is what a look-up finds around it. -/
structure SameAt (t t' : Tree) (n : NodeId) : Prop where
  kind_eq : t'.kind n = t.kind n
  location_eq : t'.location n = t.location n
  enclosing_eq : t'.enclosing n = t.enclosing n
  isHandlerLocal_eq : t'.isHandlerLocal n = t.isHandlerLocal n

namespace SameAt

theorem refl (t : Tree) (n : NodeId) : SameAt t t n := ⟨rfl, rfl, rfl, rfl⟩

variable (h : SameAt t t' n)
include h

theorem expr?_eq : t'.expr? n = t.expr? n := congrArg NodeKind.expr? h.kind_eq

theorem stmt?_eq : t'.stmt? n = t.stmt? n := congrArg NodeKind.stmt? h.kind_eq

theorem sequence?_eq : t'.sequence? n = t.sequence? n := congrArg NodeKind.sequence? h.kind_eq

theorem handler?_eq : t'.handler? n = t.handler? n := congrArg NodeKind.handler? h.kind_eq

theorem constant?_eq : t'.constant? n = t.constant? n := congrArg NodeKind.constant? h.kind_eq

theorem isImmutableConstant_eq : t'.isImmutableConstant n = t.isImmutableConstant n := by
  rw [isImmutableConstant, isImmutableConstant, h.constant?_eq]

theorem isIndexable_eq : t'.isIndexable n = t.isIndexable n := by
  rw [isIndexable, isIndexable, h.constant?_eq]

theorem dumpLine_eq (depth : Nat) : t'.dumpLine depth n = t.dumpLine depth n := by
  have hkind : (t'.node n).kind = (t.node n).kind := h.kind_eq
  have hlocation : (t'.node n).location = (t.node n).location := h.location_eq
  rw [dumpLine, dumpLine, hkind, hlocation]

end SameAt

theorem abortsBy_congr {s : Stmt} {p q : NodeId → Bool} (h : ∀ c ∈ s.children, p c = q c) :
    abortsBy p s = abortsBy q s := by
  have hoption : ∀ o : Option NodeId, (∀ c ∈ o.toList, p c = q c) → o.any p = o.any q := by
    intro o ho
    cases o with
    | none => rfl
    | some c => exact ho c List.mem_cons_self
  cases s with
  | conditional condition yes no =>
      have hyes := hoption yes fun c hc => h c (by simp [Stmt.children, Option.mem_toList.mp hc])
      have hno := hoption no fun c hc => h c (by simp [Stmt.children, Option.mem_toList.mp hc])
      rw [abortsBy, abortsBy, hyes, hno]
  | tryFinally tried final =>
      rw [abortsBy, abortsBy, h tried (by simp [Stmt.children]), h final (by simp [Stmt.children])]
  | block body => exact h body List.mem_cons_self
  | _ => rfl

/-- The trees are the same at the node and at each level below it. There are fewer levels than the
bound, so a descent with so many steps reaches all of them. -/
def Agree (t t' : Tree) : Nat → NodeId → Prop
  | 0, _ => False
  | k + 1, n => SameAt t t' n ∧ ∀ c ∈ t.children n, Agree t t' k c

def AllAgree (t t' : Tree) (k : Nat) (ids : List NodeId) : Prop := ∀ c ∈ ids, Agree t t' k c

@[simp] theorem allAgree_nil : AllAgree t t' k [] := fun _ hc => nomatch hc

@[simp] theorem allAgree_cons {ids : List NodeId} :
    AllAgree t t' k (n :: ids) ↔ Agree t t' k n ∧ AllAgree t t' k ids := List.forall_mem_cons

@[simp] theorem allAgree_append {ids ids' : List NodeId} :
    AllAgree t t' k (ids ++ ids') ↔ AllAgree t t' k ids ∧ AllAgree t t' k ids' :=
  List.forall_mem_append

@[simp] theorem allAgree_some : AllAgree t t' k (some n).toList ↔ Agree t t' k n := by
  simp [AllAgree]

/-- Trees that are the same everywhere below a node agree there. -/
theorem agree_of_fitsIn (hfits : t.FitsIn k n) (h : ∀ m, t.Reaches n m → SameAt t t' m) :
    Agree t t' k n := by
  induction k generalizing n with
  | zero => exact hfits
  | succ k ih =>
      refine ⟨h n (Reaches.refl t n), fun c hc => ih (hfits c hc) fun m hm => h m ?_⟩
      exact ((Reaches.refl t n).child hc).trans hm

namespace Agree

theorem same (h : Agree t t' k n) : SameAt t t' n := by
  cases k with
  | zero => exact h.elim
  | succ k => exact h.1

theorem mono (h : Agree t t' j n) (hjk : j ≤ k) : Agree t t' k n := by
  induction j generalizing k n with
  | zero => exact h.elim
  | succ j ih =>
      obtain ⟨k, rfl⟩ : ∃ i, k = i + 1 := ⟨k - 1, by omega⟩
      exact ⟨h.1, fun c hc => ih (h.2 c hc) (by omega)⟩

/-- A tree agrees with itself where it agrees with another one. -/
theorem self (h : Agree t t' k n) : Agree t t k n := by
  induction k generalizing n with
  | zero => exact h.elim
  | succ k ih => exact ⟨SameAt.refl t n, fun c hc => ih (h.2 c hc)⟩

theorem child (h : Agree t t' k n) (hc : c ∈ t.children n) : Agree t t' k c := by
  cases k with
  | zero => exact h.elim
  | succ k => exact (h.2 c hc).mono (Nat.le_succ k)

/-- The slots of a node whose kind is known. -/
theorem slots {κ : NodeKind} (h : Agree t t' k n) (hkind : t.kind n = κ) :
    AllAgree t t' k κ.children := fun c hc => h.child (by rwa [children, hkind])

/-- They are one level down. -/
theorem slots_below {κ : NodeKind} (h : Agree t t' (k + 1) n) (hkind : t.kind n = κ) :
    AllAgree t t' k κ.children := fun c hc => h.2 c (by rwa [children, hkind])

/-! ## Descents -/

/-- A descent with more steps than there are levels ends at the leaves in both trees. -/
theorem mayRaiseFrom_eq (h : Agree t t' k n) (hi : k ≤ i) (hj : k ≤ j) :
    t'.mayRaiseFrom i n = t.mayRaiseFrom j n := by
  induction k generalizing n i j with
  | zero => exact h.elim
  | succ k ih =>
      obtain ⟨i, rfl⟩ : ∃ i', i = i' + 1 := ⟨i - 1, by omega⟩
      obtain ⟨j, rfl⟩ : ∃ j', j = j' + 1 := ⟨j - 1, by omega⟩
      have hsame : ∀ c ∈ t.children n, t'.mayRaiseFrom i c = t.mayRaiseFrom j c := fun c hc =>
        ih (h.2 c hc) (by omega) (by omega)
      have hconstant : ∀ c ∈ t.children n, t'.isImmutableConstant c = t.isImmutableConstant c :=
        fun c hc => (h.child hc).same.isImmutableConstant_eq
      rw [mayRaiseFrom, mayRaiseFrom, h.1.expr?_eq]
      cases he : t.expr? n with
      | none => rfl
      | some e =>
          rw [children, expr?_eq_some_iff.mp he] at hsame hconstant
          -- only containers ask about what is below, and sets and dictionaries about constants too
          cases e with
          | makeTuple elements => exact any_congr_of_mem hsame
          | makeList elements => exact any_congr_of_mem hsame
          | makeSet elements =>
              exact any_congr_of_mem fun c hc => by rw [hconstant c hc, hsame c hc]
          | makeDict pairs =>
              apply any_congr_of_mem
              rintro ⟨key, value⟩ hp
              have hkey : key ∈ pairSlots pairs := List.mem_flatMap.mpr ⟨_, hp, by simp⟩
              have hvalue : value ∈ pairSlots pairs := List.mem_flatMap.mpr ⟨_, hp, by simp⟩
              dsimp only
              rw [hconstant key hkey, hsame value hvalue]
          | makeException name arguments => exact any_congr_of_mem hsame
          | _ => rfl

theorem isAbortativeFrom_eq (h : Agree t t' k n) (hi : k ≤ i) (hj : k ≤ j) :
    t'.isAbortativeFrom i n = t.isAbortativeFrom j n := by
  induction k generalizing n i j with
  | zero => exact h.elim
  | succ k ih =>
      obtain ⟨i, rfl⟩ : ∃ i', i = i' + 1 := ⟨i - 1, by omega⟩
      obtain ⟨j, rfl⟩ : ∃ j', j = j' + 1 := ⟨j - 1, by omega⟩
      have hsame : ∀ c ∈ t.children n, t'.isAbortativeFrom i c = t.isAbortativeFrom j c :=
        fun c hc => ih (h.2 c hc) (by omega) (by omega)
      rw [children] at hsame
      cases hk : t.kind n with
      | sequence statements =>
          rw [hk] at hsame
          have hs := sequence?_eq_some_iff.mpr hk
          rw [isAbortativeFrom_of_sequence hs, isAbortativeFrom_of_sequence (h.1.sequence?_eq.trans hs)]
          exact any_congr_of_mem hsame
      | stmt s =>
          rw [hk] at hsame
          have hs := stmt?_eq_some_iff.mpr hk
          rw [isAbortativeFrom_of_stmt hs, isAbortativeFrom_of_stmt (h.1.stmt?_eq.trans hs)]
          exact abortsBy_congr hsame
      | _ => rw [isAbortativeFrom, isAbortativeFrom, h.1.kind_eq, hk]

theorem dumpFrom_eq (h : Agree t t' k n) (hi : k ≤ i) (hj : k ≤ j) (depth : Nat) :
    t'.dumpFrom i depth n = t.dumpFrom j depth n := by
  induction k generalizing n i j depth with
  | zero => exact h.elim
  | succ k ih =>
      obtain ⟨i, rfl⟩ : ∃ i', i = i' + 1 := ⟨i - 1, by omega⟩
      obtain ⟨j, rfl⟩ : ∃ j', j = j' + 1 := ⟨j - 1, by omega⟩
      have hchildren : t'.children n = t.children n := congrArg NodeKind.children h.1.kind_eq
      have hsame : (t.children n).map (t'.dumpFrom i (depth + 1)) =
          (t.children n).map (t.dumpFrom j (depth + 1)) :=
        List.map_congr_left fun c hc => ih (h.2 c hc) (by omega) (by omega) (depth + 1)
      rw [dumpFrom, dumpFrom, h.1.dumpLine_eq, hchildren, hsame]

section

variable (h : Agree t t' k n) (hk : k ≤ t.depthBound) (hk' : k ≤ t'.depthBound)
include h hk hk'

theorem mayRaise_eq : t'.mayRaise n = t.mayRaise n := h.mayRaiseFrom_eq hk' hk

theorem isAbortative_eq : t'.isAbortative n = t.isAbortative n := h.isAbortativeFrom_eq hk' hk

theorem dump_eq : t'.dump n = t.dump n := h.dumpFrom_eq hk' hk 0

end

end Agree
end Tree
end CompilerBackend
