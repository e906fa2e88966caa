import CompilerBackend.Proofs.Tree.Lookup
import Mathlib.Data.Fintype.Card
import Mathlib.Data.List.Nodup
import Mathlib.Data.List.Induction
/-!
# Well-formed trees

An arena holds any graph; it holds a tree below a node if no two paths of child slots meet and
every parent link names the node that holds the slot.

- `IsTree`, `WellFormed`: the two conditions, below a node and below the root; `Unshared` is the
  first of them alone.
- `IsTree.of_closed`: the way to show them, from a set of nodes that is closed under child slots
  and whose members are linked to their holders. Distinct paths then come for free: a parent
  link leads back the only way there is.
- `FitsIn.depthBound`: what ends at all below a node ends within the size of the arena.
- `Unshared.fitsIn`: what is below a node is at most as deep as the arena is large, so a descent by
  levels reaches every leaf.
- `IsTree.bottomUp`: induction from the leaves.
-/

namespace CompilerBackend
namespace Tree

/-! ## Paths -/

/-- The node at the end of a path of slot numbers that starts at a node. -/
def nodeAt? (t : Tree) (id : NodeId) : List Nat → Option NodeId
  | [] => some id
  | i :: path => ((t.children id)[i]?).bind fun c => t.nodeAt? c path

/-- Some path of child slots leads from `top` to `id`. -/
def Reaches (t : Tree) (top id : NodeId) : Prop := ∃ path, t.nodeAt? top path = some id

variable {t : Tree} {top n m c : NodeId}

theorem nodeAt?_append (t : Tree) (id : NodeId) (p q : List Nat) :
    t.nodeAt? id (p ++ q) = (t.nodeAt? id p).bind fun n => t.nodeAt? n q := by
  induction p generalizing id with
  | nil => rfl
  | cons i p ih =>
      rw [List.cons_append, nodeAt?, nodeAt?, Option.bind_assoc]
      exact congrArg _ (funext fun c => ih c)

theorem nodeAt?_snoc_iff {p : List Nat} {i : Nat} :
    t.nodeAt? top (p ++ [i]) = some n ↔
      ∃ m, t.nodeAt? top p = some m ∧ (t.children m)[i]? = some n := by
  rw [nodeAt?_append, Option.bind_eq_some_iff]
  simp only [nodeAt?, Option.bind_fun_some]

theorem Reaches.refl (t : Tree) (n : NodeId) : t.Reaches n n := ⟨[], rfl⟩

theorem Reaches.trans (h : t.Reaches top n) (h' : t.Reaches n m) : t.Reaches top m := by
  obtain ⟨p, hp⟩ := h
  obtain ⟨q, hq⟩ := h'
  refine ⟨p ++ q, ?_⟩
  rw [nodeAt?_append, hp]
  exact hq

theorem Reaches.child (h : t.Reaches top n) (hc : c ∈ t.children n) : t.Reaches top c := by
  obtain ⟨p, hp⟩ := h
  obtain ⟨i, hi⟩ := List.mem_iff_getElem?.mp hc
  exact ⟨p ++ [i], nodeAt?_snoc_iff.mpr ⟨n, hp, hi⟩⟩

/-- A node that is reached is the top or a child of one that is reached. -/
theorem Reaches.holder (h : t.Reaches top n) :
    n = top ∨ ∃ m, t.Reaches top m ∧ n ∈ t.children m := by
  obtain ⟨p, hp⟩ := h
  cases p using List.reverseRecOn with
  | nil => exact Or.inl (Option.some.inj hp).symm
  | append_singleton p i =>
      obtain ⟨m, hm, hi⟩ := nodeAt?_snoc_iff.mp hp
      exact Or.inr ⟨m, ⟨p, hm⟩, List.mem_of_getElem? hi⟩

/-- What holds at the top and passes from a node to its children holds wherever one gets. -/
theorem Reaches.induct {P : NodeId → Prop} (h : t.Reaches top n) (base : P top)
    (step : ∀ m c, t.Reaches top m → P m → c ∈ t.children m → P c) : P n := by
  obtain ⟨p, hp⟩ := h
  induction p using List.reverseRecOn generalizing n with
  | nil =>
      rw [← Option.some.inj hp]
      exact base
  | append_singleton p i ih =>
      obtain ⟨m, hm, hi⟩ := nodeAt?_snoc_iff.mp hp
      exact step m n ⟨p, hm⟩ (ih hm) (List.mem_of_getElem? hi)

def Unshared (t : Tree) (top : NodeId) : Prop :=
  ∀ n p q, t.nodeAt? top p = some n → t.nodeAt? top q = some n → p = q

theorem Unshared.of_reaches (h : t.Unshared top) (hn : t.Reaches top n) : t.Unshared n := by
  intro m p q hp hq
  obtain ⟨r, hr⟩ := hn
  have hrp : t.nodeAt? top (r ++ p) = some m := by
    rw [nodeAt?_append, hr]
    exact hp
  have hrq : t.nodeAt? top (r ++ q) = some m := by
    rw [nodeAt?_append, hr]
    exact hq
  exact List.append_cancel_left (h m (r ++ p) (r ++ q) hrp hrq)

/-! ## Trees -/

/-- What lies below `top` is a tree: a node is reached along one path at most, and the parent
link of a child names the node that holds it. -/
structure IsTree (t : Tree) (top : NodeId) : Prop where
  once : ∀ {n p q}, t.nodeAt? top p = some n → t.nodeAt? top q = some n → p = q
  linked : ∀ {n c}, t.Reaches top n → c ∈ t.children n → t.parent c = some n

def WellFormed (t : Tree) : Prop :=
  ∀ root, t.root = some root → t.parent root = none ∧ t.IsTree root

def Reachable (t : Tree) (n : NodeId) : Prop := ∃ root, t.root = some root ∧ t.Reaches root n

namespace IsTree

theorem unshared (h : t.IsTree top) : t.Unshared top := fun _ _ _ => h.once

theorem of_reaches (h : t.IsTree top) (hn : t.Reaches top n) : t.IsTree n where
  once := fun {m p q} => h.unshared.of_reaches hn m p q
  linked := fun hm hc => h.linked (hn.trans hm) hc

theorem nodup_children (h : t.IsTree top) (hn : t.Reaches top n) : (t.children n).Nodup := by
  rw [List.nodup_iff_getElem?_ne_getElem?]
  intro i j hij hj heq
  obtain ⟨p, hp⟩ := hn
  have hc : (t.children n)[j]? = some (t.children n)[j] := List.getElem?_eq_getElem hj
  have hpi := nodeAt?_snoc_iff.mpr ⟨n, hp, heq.trans hc⟩
  have hpj := nodeAt?_snoc_iff.mpr ⟨n, hp, hc⟩
  have hij' : i = j := by simpa using h.once hpi hpj
  omega

/-- No way leads back from a child to its holder. -/
theorem not_reaches_of_child (h : t.IsTree top) (hn : t.Reaches top n)
    (hc : c ∈ t.children n) : ¬ t.Reaches c n := by
  rintro ⟨q, hq⟩
  obtain ⟨i, hi⟩ := List.mem_iff_getElem?.mp hc
  have hloop : t.nodeAt? n (i :: q) = some n := by
    rw [nodeAt?, hi]
    exact hq
  exact List.cons_ne_nil i q ((h.of_reaches hn).once hloop rfl)

/-- A set of nodes that contains a parentless top and is closed under child slots is enough to
see that the top is the top of a tree. -/
theorem of_closed {P : NodeId → Prop} (hp : t.parent top = none) (base : P top)
    (closed : ∀ n, P n →
      (t.children n).Nodup ∧ ∀ c ∈ t.children n, P c ∧ t.parent c = some n) :
    t.IsTree top := by
  have live : ∀ {n}, t.Reaches top n → P n := fun hn =>
    hn.induct base fun m c _ hm hc => ((closed m hm).2 c hc).1
  have linked : ∀ {n c}, t.Reaches top n → c ∈ t.children n → t.parent c = some n :=
    fun hn hc => ((closed _ (live hn)).2 _ hc).2
  -- the top has no parent, so no path comes back to it
  have top_not_child : ∀ {n}, t.Reaches top n → top ∉ t.children n := by
    intro n hn hc
    have hsome := linked hn hc
    rw [hp] at hsome
    exact Option.some_ne_none n hsome.symm
  refine ⟨?_, linked⟩
  -- a path is read from its end, where the parent link names the node before
  intro n p
  induction p using List.reverseRecOn generalizing n with
  | nil =>
      intro q hp hq
      cases q using List.reverseRecOn with
      | nil => rfl
      | append_singleton q j =>
          obtain ⟨m, hm, hj⟩ := nodeAt?_snoc_iff.mp hq
          have htop : top = n := Option.some.inj hp
          subst htop
          exact absurd (List.mem_of_getElem? hj) (top_not_child ⟨q, hm⟩)
  | append_singleton p i ih =>
      intro q hp hq
      obtain ⟨m, hm, hi⟩ := nodeAt?_snoc_iff.mp hp
      cases q using List.reverseRecOn with
      | nil =>
          have htop : top = n := Option.some.inj hq
          subst htop
          exact absurd (List.mem_of_getElem? hi) (top_not_child ⟨p, hm⟩)
      | append_singleton q j =>
          obtain ⟨m', hm', hj⟩ := nodeAt?_snoc_iff.mp hq
          have hpm := linked ⟨p, hm⟩ (List.mem_of_getElem? hi)
          have hqm := linked ⟨q, hm'⟩ (List.mem_of_getElem? hj)
          have hmm : m = m' := Option.some.inj (hpm.symm.trans hqm)
          subst hmm
          have hlt : i < (t.children m).length := List.getElem?_eq_some_iff.mp hi |>.1
          have hij : i = j :=
            (List.getElem?_inj hlt (closed m (live ⟨p, hm⟩)).1).mp (hi.trans hj.symm)
          rw [ih hm hm', hij]

end IsTree

/-! ## Depth -/

/-- What lies below a node has fewer than `k` levels. -/
def FitsIn (t : Tree) : Nat → NodeId → Prop
  | 0, _ => False
  | k + 1, id => ∀ c ∈ t.children id, t.FitsIn k c

theorem FitsIn.mono {j k : Nat} (h : t.FitsIn k n) (hjk : k ≤ j) : t.FitsIn j n := by
  induction k generalizing j n with
  | zero => exact h.elim
  | succ k ih =>
      obtain ⟨j, rfl⟩ : ∃ i, j = i + 1 := ⟨j - 1, by omega⟩
      intro c hc
      exact ih (h c hc) (by omega)

/-- Everything strictly below a node fits in one level less. -/
theorem FitsIn.below {k : Nat} (h : t.FitsIn (k + 1) n) (hm : t.Reaches n m) (hne : m ≠ n) :
    t.FitsIn k m := by
  have key : m = n ∨ t.FitsIn k m := by
    refine hm.induct (P := fun i => i = n ∨ t.FitsIn k i) (Or.inl rfl) ?_
    intro i c _ hi hc
    rcases hi with rfl | hi
    · exact Or.inr (h c hc)
    · exact Or.inr ((hi.mono (Nat.le_succ k)) c hc)
  exact key.resolve_left hne

theorem exists_path_of_not_fitsIn {k : Nat} (h : ¬ t.FitsIn k n) :
    ∃ p m, p.length = k ∧ t.nodeAt? n p = some m := by
  induction k generalizing n with
  | zero => exact ⟨[], n, rfl, rfl⟩
  | succ k ih =>
      rw [FitsIn] at h
      push Not at h
      obtain ⟨c, hc, hk⟩ := h
      obtain ⟨i, hi⟩ := List.mem_iff_getElem?.mp hc
      obtain ⟨p, m, hlen, hp⟩ := ih hk
      refine ⟨i :: p, m, congrArg (· + 1) hlen, ?_⟩
      rw [nodeAt?, hi]
      exact hp

/-- Below a node with so many levels and no fewer there are nodes with each smaller number. -/
theorem exists_fitsIn_exactly {k j : Nat} (h : t.FitsIn (k + 1) n) (hnot : ¬ t.FitsIn k n)
    (hj : j ≤ k) : ∃ m, t.FitsIn (j + 1) m ∧ ¬ t.FitsIn j m := by
  induction k generalizing n with
  | zero =>
      obtain rfl : j = 0 := by omega
      exact ⟨n, h, hnot⟩
  | succ k ih =>
      by_cases heq : j = k + 1
      · exact ⟨n, heq ▸ h, heq ▸ hnot⟩
      · rw [FitsIn] at hnot
        push Not at hnot
        obtain ⟨child, hchild, hdeep⟩ := hnot
        exact ih (h child hchild) hdeep (by omega)

/-- What ends at all below a node ends within as many levels as the arena has nodes. -/
theorem FitsIn.depthBound {k : Nat} (h : t.FitsIn k n) : t.FitsIn t.depthBound n := by
  obtain ⟨k, hfits, hnot⟩ : ∃ k, t.FitsIn (k + 1) n ∧ ¬ t.FitsIn k n := by
    induction k with
    | zero => exact h.elim
    | succ k ih =>
        by_cases hk : t.FitsIn k n
        · exact ih hk
        · exact ⟨k, h, hk⟩
  refine hfits.mono ?_
  -- the nodes with more than one level are in the arena, one for each number of levels
  have hnodes : ∀ j : Fin k, ∃ m, t.FitsIn (j + 2) m ∧ ¬ t.FitsIn (j + 1) m ∧ t.Has m := by
    intro j
    obtain ⟨m, hm, hdeep⟩ := exists_fitsIn_exactly hfits hnot (j := j + 1) j.2
    have hdeeper := hdeep
    rw [FitsIn] at hdeeper
    push Not at hdeeper
    obtain ⟨child, hchild, -⟩ := hdeeper
    exact ⟨m, hm, hdeep, Has.of_child hchild⟩
  choose f hf hdeep hhas using hnodes
  let place : Fin k → Fin t.size := fun j => ⟨(f j).index, hhas j⟩
  have hle : ∀ i j, f i = f j → j ≤ i := fun i j hij => by
    by_contra hlt
    refine hdeep j (hij ▸ (hf i).mono ?_)
    have := Fin.lt_def.mp (not_le.mp hlt)
    omega
  have hinj : Function.Injective place := fun i j hij => by
    have hsame : f i = f j := NodeId.ext_index (Fin.mk.inj hij)
    exact le_antisymm (hle j i hsame.symm) (hle i j hsame)
  have hcard := Fintype.card_le_of_injective place hinj
  rw [Fintype.card_fin, Fintype.card_fin] at hcard
  rw [Tree.depthBound]
  omega

/-- The nodes along a path are distinct nodes of the arena, the last one apart, which may be the
top alone. -/
theorem Unshared.path_length_le (h : t.Unshared top) {p : List Nat}
    (hp : t.nodeAt? top p = some n) : p.length ≤ t.size := by
  -- a node before the end has a child, so it is in the arena
  have before : ∀ i : Fin p.length, ∃ m, t.nodeAt? top (p.take i) = some m ∧ t.Has m := by
    intro i
    have hsplit : p = p.take i ++ p[i] :: p.drop (i + 1) := by simp
    rw [hsplit, nodeAt?_append, Option.bind_eq_some_iff] at hp
    obtain ⟨m, hm, hrest⟩ := hp
    rw [nodeAt?, Option.bind_eq_some_iff] at hrest
    obtain ⟨c, hc, -⟩ := hrest
    exact ⟨m, hm, Has.of_child (List.mem_of_getElem? hc)⟩
  choose f hf hhas using before
  let g : Fin p.length → Fin t.size := fun i => ⟨(f i).index, hhas i⟩
  have inj : Function.Injective g := by
    intro i j hij
    have hfij : f i = f j := NodeId.ext_index (Fin.mk.inj hij)
    have htake : p.take i = p.take j := h (f i) _ _ (hf i) (hfij ▸ hf j)
    have hlen := congrArg List.length htake
    rw [List.length_take_of_le i.2.le, List.length_take_of_le j.2.le] at hlen
    exact Fin.ext hlen
  have hcard := Fintype.card_le_of_injective g inj
  rwa [Fintype.card_fin, Fintype.card_fin] at hcard

/-- A descent as deep as the arena is large reaches every leaf. -/
theorem Unshared.fitsIn (h : t.Unshared n) : t.FitsIn t.depthBound n := by
  by_contra hnot
  obtain ⟨p, m, hlen, hp⟩ := exists_path_of_not_fitsIn hnot
  have hle := h.path_length_le hp
  rw [hlen, depthBound] at hle
  omega

namespace IsTree

theorem path_length_le (h : t.IsTree top) {p : List Nat} (hp : t.nodeAt? top p = some n) :
    p.length ≤ t.size :=
  h.unshared.path_length_le hp

theorem fitsIn (h : t.IsTree top) (hn : t.Reaches top n) : t.FitsIn t.depthBound n :=
  (h.unshared.of_reaches hn).fitsIn

/-- Induction from the leaves: a property holds of every node of a tree if it passes to a node
from all that lies strictly below it. -/
theorem bottomUp (h : t.IsTree top) {P : NodeId → Prop}
    (step : ∀ n, t.Reaches top n → (∀ m, t.Reaches n m → m ≠ n → P m) → P n)
    (hn : t.Reaches top n) : P n := by
  -- induction on the levels below the node: one strictly below has fewer
  have key : ∀ k n, t.Reaches top n → t.FitsIn k n → P n := by
    intro k
    induction k with
    | zero => intro n _ hk; exact hk.elim
    | succ k ih =>
        intro n hn hk
        exact step n hn fun m hm hne => ih m (hn.trans hm) (hk.below hm hne)
  exact key t.depthBound n hn (h.fitsIn hn)

end IsTree

/-! ## Below the root -/

theorem Reachable.child (hn : t.Reachable n) (hc : c ∈ t.children n) : t.Reachable c := by
  obtain ⟨root, hroot, hr⟩ := hn
  exact ⟨root, hroot, hr.child hc⟩

theorem Reachable.below (hn : t.Reachable n) (hm : t.Reaches n m) : t.Reachable m := by
  obtain ⟨root, hroot, hr⟩ := hn
  exact ⟨root, hroot, hr.trans hm⟩

theorem Reachable.exists_root (hn : t.Reachable n) :
    ∃ root, t.root = some root ∧ t.Reachable root := by
  obtain ⟨root, hroot, -⟩ := hn
  exact ⟨root, hroot, root, hroot, Reaches.refl t root⟩

/-- A set of nodes closed under child slots contains all that is reachable if it contains the
root. -/
theorem Reachable.of_closed {root : NodeId} {P : NodeId → Prop} (hroot : t.root = some root)
    (base : P root) (closed : ∀ n, P n → ∀ c ∈ t.children n, P c) (hn : t.Reachable n) :
    P n := by
  obtain ⟨r, hr, hrn⟩ := hn
  rw [← Option.some.inj (hroot.symm.trans hr)] at hrn
  exact hrn.induct base fun m c _ hm hc => closed m hm c hc

namespace WellFormed

/-- A well-formed tree from a set of nodes closed under child slots. -/
theorem of_closed {root : NodeId} {P : NodeId → Prop} (hroot : t.root = some root)
    (hp : t.parent root = none) (base : P root)
    (closed : ∀ n, P n →
      (t.children n).Nodup ∧ ∀ c ∈ t.children n, P c ∧ t.parent c = some n) :
    t.WellFormed := by
  intro r hr
  rw [← Option.some.inj (hroot.symm.trans hr)]
  exact ⟨hp, IsTree.of_closed hp base closed⟩

/-- An arena in which every node is linked to the one that holds it: the test can be run. -/
theorem of_arena {root : NodeId} (hroot : t.root = some root) (hp : t.parent root = none)
    (hhas : t.Has root)
    (linked : ∀ i < t.size, (t.children ⟨i⟩).Nodup ∧
      ∀ c ∈ t.children ⟨i⟩, t.Has c ∧ t.parent c = some ⟨i⟩) :
    t.WellFormed :=
  of_closed (P := t.Has) hroot hp hhas fun n hn => linked n.index hn

theorem isTree (h : t.WellFormed) (hn : t.Reachable n) : t.IsTree n := by
  obtain ⟨root, hroot, hr⟩ := hn
  exact (h root hroot).2.of_reaches hr

theorem nodup_children (h : t.WellFormed) (hn : t.Reachable n) : (t.children n).Nodup :=
  (h.isTree hn).nodup_children (Reaches.refl t n)

theorem parent_child (h : t.WellFormed) (hn : t.Reachable n) (hc : c ∈ t.children n) :
    t.parent c = some n :=
  (h.isTree hn).linked (Reaches.refl t n) hc

/-- The parent link of a reachable node leads to the node that holds it. -/
theorem holder (h : t.WellFormed) (hn : t.Reachable n) (hp : t.parent n = some m) :
    t.Reachable m ∧ n ∈ t.children m := by
  obtain ⟨root, hroot, hr⟩ := hn
  rcases hr.holder with rfl | ⟨q, hq, hc⟩
  · rw [(h _ hroot).1] at hp
    exact absurd hp.symm (Option.some_ne_none m)
  · have hlink := (h root hroot).2.linked hq hc
    have hqm : q = m := Option.some.inj (hlink.symm.trans hp)
    subst hqm
    exact ⟨⟨root, hroot, hq⟩, hc⟩

theorem child_ne (h : t.WellFormed) (hn : t.Reachable n) (hc : c ∈ t.children n) : c ≠ n := by
  rintro rfl
  exact (h.isTree hn).not_reaches_of_child (Reaches.refl t c) hc (Reaches.refl t c)

theorem grandchild_ne (h : t.WellFormed) (hn : t.Reachable n) (hc : c ∈ t.children n)
    (hm : m ∈ t.children c) : m ≠ n := by
  rintro rfl
  exact (h.isTree hn).not_reaches_of_child (Reaches.refl t m) hc
    ((Reaches.refl t c).child hm)

/-- Children of two nodes are distinct nodes. -/
theorem child_ne_child (h : t.WellFormed) (hn : t.Reachable n) (hm : t.Reachable m)
    (hnm : n ≠ m) {d : NodeId} (hc : c ∈ t.children n) (hd : d ∈ t.children m) : c ≠ d := by
  rintro rfl
  exact hnm (Option.some.inj ((h.parent_child hn hc).symm.trans (h.parent_child hm hd)))

theorem has_child (h : t.WellFormed) (hn : t.Reachable n) (hc : c ∈ t.children n) : t.Has c :=
  Has.of_parent (h.parent_child hn hc)

/-- Every reachable node is in the arena as soon as one of them has a child. -/
theorem has_of_reachable (h : t.WellFormed) (hn : t.Reachable n) (hm : t.Reachable m)
    (hc : c ∈ t.children m) : t.Has n := by
  obtain ⟨root, hroot, hr⟩ := hn
  rcases hr.holder with rfl | ⟨q, hq, hcq⟩
  · obtain ⟨r, hr', p, hp⟩ := hm
    have hrn : r = n := Option.some.inj (hr'.symm.trans hroot)
    subst hrn
    cases p with
    | nil =>
        rw [← Option.some.inj hp] at hc
        exact Has.of_child hc
    | cons i p =>
        rw [nodeAt?, Option.bind_eq_some_iff] at hp
        obtain ⟨d, hd, -⟩ := hp
        exact Has.of_child (List.mem_of_getElem? hd)
  · exact Has.of_parent ((h root hroot).2.linked hq hcq)

/-- Only the root is reachable without a parent. -/
theorem root_of_parent_none (h : t.WellFormed) (hn : t.Reachable n) (hp : t.parent n = none) :
    t.root = some n := by
  obtain ⟨root, hroot, hr⟩ := hn
  rcases hr.holder with rfl | ⟨q, hq, hc⟩
  · exact hroot
  · rw [(h root hroot).2.linked hq hc] at hp
    exact absurd hp (Option.some_ne_none q)

/-- What is held is not the root. -/
theorem root_ne (h : t.WellFormed) {root p : NodeId} (hroot : t.root = some root)
    (hp : t.parent n = some p) : root ≠ n := by
  rintro rfl
  rw [(h root hroot).1] at hp
  exact Option.some_ne_none p hp.symm

end WellFormed
end Tree
end CompilerBackend
