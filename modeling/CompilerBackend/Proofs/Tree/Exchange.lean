import CompilerBackend.Proofs.Tree.PreOrder
/-!
# Subtrees in the place of some children

An edit takes a run of neighbouring children out of a node and puts other subtrees in its place.

- `Exchange`: what such an edit leaves.
- `Grafts`: which nodes may be put there. They may come from below the ones taken out, and
  nothing of what those leave behind is looked at again.
- `Exchange.wellFormed`: the tree stays a tree.
- `Exchange.preOrder_root`: its pre-order changes in one segment, from the pre-orders of what is
  taken out to those of what is put in.
-/

namespace CompilerBackend
namespace Tree

variable {t t' : Tree} {holder n m c : NodeId} {before taken news after : List NodeId}

/-- Nodes that may take the place of others: what lies below them are trees that do not meet,
do not contain a node that is taken out, and share with the tree only what lies below one. -/
structure Grafts (t : Tree) (taken news : List NodeId) : Prop where
  nodup : news.Nodup
  isTree : ∀ i ∈ news, t.IsTree i
  apart : ∀ i ∈ news, ∀ j ∈ news, i ≠ j → ∀ m, t.Reaches i m → ¬ t.Reaches j m
  shared : ∀ i ∈ news, ∀ m, t.Reaches i m → t.Reachable m → ∃ o ∈ taken, t.Reaches o m
  avoids : ∀ i ∈ news, ∀ o ∈ taken, ¬ t.Reaches i o

theorem Grafts.nil (t : Tree) (taken : List NodeId) : t.Grafts taken [] where
  nodup := List.nodup_nil
  isTree := fun _ hi => absurd hi List.not_mem_nil
  apart := fun _ hi => absurd hi List.not_mem_nil
  shared := fun _ hi => absurd hi List.not_mem_nil
  avoids := fun _ hi => absurd hi List.not_mem_nil

/-- The node is in the tree and not below one that is taken out. -/
def Kept (t : Tree) (taken : List NodeId) (n : NodeId) : Prop :=
  t.Reachable n ∧ ∀ o ∈ taken, ¬ t.Reaches o n

def Grafted (t : Tree) (news : List NodeId) (n : NodeId) : Prop := ∃ i ∈ news, t.Reaches i n

theorem Kept.not_mem (k : t.Kept taken n) : n ∉ taken :=
  fun hn => k.2 n hn (Reaches.refl t n)

/-- What is kept is not put in. -/
theorem Kept.not_grafted (k : t.Kept taken n) (g : t.Grafts taken news) : ¬ t.Grafted news n := by
  rintro ⟨i, hi, hn⟩
  obtain ⟨o, ho, hon⟩ := g.shared i hi n hn k.1
  exact k.2 o ho hon

theorem Kept.not_mem_news (k : t.Kept taken n) (g : t.Grafts taken news) : n ∉ news :=
  fun hn => k.not_grafted g ⟨n, hn, Reaches.refl t n⟩

/-- What an exchange of children leaves at each node. -/
structure Exchange (t : Tree) (holder : NodeId) (before taken news after : List NodeId)
    (t' : Tree) : Prop where
  children_eq : t.children holder = before ++ taken ++ after
  children_holder : t'.children holder = before ++ news ++ after
  children_other : ∀ n, n ≠ holder → t'.children n = t.children n
  parent_news : ∀ n ∈ news, t'.parent n = some holder
  parent_other : ∀ n, n ∉ taken → n ∉ news → t'.parent n = t.parent n
  size_eq : t'.size = t.size
  root_eq : t'.root = t.root

namespace Exchange

theorem mem_of_taken (x : Exchange t holder before taken news after t') (hc : c ∈ taken) :
    c ∈ t.children holder := by
  rw [x.children_eq]
  exact List.mem_append_left _ (List.mem_append_right _ hc)

/-- No way leads from a node that is taken out back to its holder. -/
theorem not_reaches_holder (x : Exchange t holder before taken news after t')
    (h : t.WellFormed) (hh : t.Reachable holder) (hc : c ∈ taken) : ¬ t.Reaches c holder :=
  (h.isTree hh).not_reaches_of_child (Reaches.refl t holder) (x.mem_of_taken hc)

theorem kept_holder (x : Exchange t holder before taken news after t') (h : t.WellFormed)
    (hh : t.Reachable holder) : t.Kept taken holder :=
  ⟨hh, fun _ hc => x.not_reaches_holder h hh hc⟩

theorem kept_root (x : Exchange t holder before taken news after t') (h : t.WellFormed)
    (hh : t.Reachable holder) {root : NodeId} (hroot : t.root = some root) :
    t.Kept taken root := by
  refine ⟨⟨root, hroot, Reaches.refl t root⟩, fun o ho hr => ?_⟩
  obtain ⟨r, hr', hrh⟩ := hh
  rw [Option.some.inj (hr'.symm.trans hroot)] at hrh
  exact x.not_reaches_holder h ⟨root, hroot, hrh⟩ ho (hr.trans hrh)

/-- The neighbours of the nodes taken out are kept. -/
theorem kept_neighbour (x : Exchange t holder before taken news after t') (h : t.WellFormed)
    (hh : t.Reachable holder) (hc : c ∈ before ++ after) : t.Kept taken c := by
  have hmem : c ∈ t.children holder := by
    rw [x.children_eq, List.mem_append, List.mem_append]
    rcases List.mem_append.mp hc with hb | ha
    · exact Or.inl (Or.inl hb)
    · exact Or.inr ha
  refine ⟨hh.child hmem, fun o ho hoc => ?_⟩
  have hsame : o = c := (h.isTree hh).child_unique (Reaches.refl t holder) (x.mem_of_taken ho)
    hmem hoc (Reaches.refl t c)
  have hnd := h.nodup_children hh
  rw [x.children_eq, List.append_assoc, List.nodup_append, List.nodup_append] at hnd
  rcases List.mem_append.mp hc with hb | ha
  · exact hnd.2.2 c hb o (List.mem_append_left _ ho) hsame.symm
  · exact hnd.2.1.2.2 o ho c ha hsame

/-- The children of the other nodes that are kept are kept. -/
theorem kept_child (x : Exchange t holder before taken news after t') (h : t.WellFormed)
    (hh : t.Reachable holder) (k : t.Kept taken n) (hne : n ≠ holder) (hc : c ∈ t.children n) :
    t.Kept taken c := by
  refine ⟨k.1.child hc, fun o ho hoc => ?_⟩
  rcases hoc.holder with rfl | ⟨m, hom, hcm⟩
  · exact h.child_ne_child k.1 hh hne hc (x.mem_of_taken ho) rfl
  · -- the holder of `c` is `n`, which would be below `o` as well
    have hm := (hh.child (x.mem_of_taken ho)).below hom
    have hmn : m = n :=
      Option.some.inj ((h.parent_child hm hcm).symm.trans (h.parent_child k.1 hc))
    exact k.2 o ho (hmn ▸ hom)

/-- The edit is not below what is put in. -/
theorem grafted_ne_holder (x : Exchange t holder before taken news after t')
    (g : t.Grafts taken news) (h : t.WellFormed) (hh : t.Reachable holder)
    (hn : t.Grafted news n) : n ≠ holder := by
  rintro rfl
  exact (x.kept_holder h hh).not_grafted g hn

/-! ## The tree afterwards -/

theorem closed_holder (x : Exchange t holder before taken news after t')
    (g : t.Grafts taken news) (h : t.WellFormed) (hh : t.Reachable holder) :
    (t'.children holder).Nodup ∧ ∀ c ∈ t'.children holder,
      (t.Kept taken c ∨ t.Grafted news c) ∧ t'.parent c = some holder := by
  have hnd := h.nodup_children hh
  rw [x.children_eq] at hnd
  have hside : (before ++ after).Nodup :=
    hnd.sublist (List.append_assoc before taken after ▸
      (List.sublist_append_right taken after).append_left before)
  have hclear : ∀ c ∈ before ++ after, c ∉ news := fun c hc =>
    (x.kept_neighbour h hh hc).not_mem_news g
  rw [x.children_holder]
  constructor
  · rw [List.nodup_append] at hside
    rw [List.append_assoc, List.nodup_append, List.nodup_append]
    refine ⟨hside.1, ⟨g.nodup, hside.2.1, ?_⟩, ?_⟩
    · rintro a ha b hb rfl
      exact hclear a (List.mem_append_right _ hb) ha
    · rintro a ha b hb rfl
      rcases List.mem_append.mp hb with hn | hr
      · exact hclear a (List.mem_append_left _ ha) hn
      · exact hside.2.2 a ha a hr rfl
  · intro c hc
    by_cases hn : c ∈ news
    · exact ⟨Or.inr ⟨c, hn, Reaches.refl t c⟩, x.parent_news c hn⟩
    · have hc' : c ∈ before ++ after := by
        rw [List.mem_append, List.mem_append] at hc
        rw [List.mem_append]
        exact hc.imp_left fun hb => hb.resolve_right hn
      have k := x.kept_neighbour h hh hc'
      have hmem : c ∈ t.children holder := by
        rw [x.children_eq, List.mem_append, List.mem_append]
        exact (List.mem_append.mp hc').imp_left Or.inl
      rw [x.parent_other c k.not_mem hn]
      exact ⟨Or.inl k, h.parent_child hh hmem⟩

theorem closed_kept (x : Exchange t holder before taken news after t')
    (g : t.Grafts taken news) (h : t.WellFormed) (hh : t.Reachable holder)
    (k : t.Kept taken n) (hne : n ≠ holder) :
    (t'.children n).Nodup ∧ ∀ c ∈ t'.children n,
      (t.Kept taken c ∨ t.Grafted news c) ∧ t'.parent c = some n := by
  rw [x.children_other n hne]
  refine ⟨h.nodup_children k.1, fun c hc => ?_⟩
  have kc := x.kept_child h hh k hne hc
  rw [x.parent_other c kc.not_mem (kc.not_mem_news g)]
  exact ⟨Or.inl kc, h.parent_child k.1 hc⟩

theorem closed_grafted (x : Exchange t holder before taken news after t')
    (g : t.Grafts taken news) (h : t.WellFormed) (hh : t.Reachable holder)
    (hn : t.Grafted news n) :
    (t'.children n).Nodup ∧ ∀ c ∈ t'.children n,
      (t.Kept taken c ∨ t.Grafted news c) ∧ t'.parent c = some n := by
  obtain ⟨i, hi, hin⟩ := hn
  have tree := g.isTree i hi
  rw [x.children_other n (x.grafted_ne_holder g h hh ⟨i, hi, hin⟩)]
  refine ⟨tree.nodup_children hin, fun c hc => ?_⟩
  have hic := hin.child hc
  have htaken : c ∉ taken := fun ht => g.avoids i hi c ht hic
  have hnews : c ∉ news := by
    intro hcn
    by_cases hci : c = i
    · exact tree.not_reaches_of_child hin hc (hci ▸ hin)
    · exact g.apart c hcn i hi hci c (Reaches.refl t c) hic
  rw [x.parent_other c htaken hnews]
  exact ⟨Or.inr ⟨i, hi, hic⟩, tree.linked hin hc⟩

/-- An exchange leaves a tree: of the nodes kept and the ones put in. -/
theorem wellFormed (x : Exchange t holder before taken news after t')
    (g : t.Grafts taken news) (h : t.WellFormed) (hh : t.Reachable holder) : t'.WellFormed := by
  obtain ⟨root, hroot, -⟩ := hh.exists_root
  have k := x.kept_root h hh hroot
  refine WellFormed.of_closed (P := fun n => t.Kept taken n ∨ t.Grafted news n)
    (x.root_eq.trans hroot) ?_ (Or.inl k) ?_
  · rw [x.parent_other root k.not_mem (k.not_mem_news g)]
    exact (h root hroot).1
  · rintro n (kn | hn)
    · by_cases hne : n = holder
      · rw [hne]
        exact x.closed_holder g h hh
      · exact x.closed_kept g h hh kn hne
    · exact x.closed_grafted g h hh hn

/-! ## The pre-order afterwards -/

/-- Below a node that does not lead to the edit everything is visited as before. -/
theorem preOrder_aside (x : Exchange t holder before taken news after t') (htree : t.IsTree n)
    (hn : ¬ t.Reaches n holder) : t'.preOrder n = t.preOrder n := by
  refine preOrder_congr htree x.size_eq fun m hm => x.children_other m ?_
  rintro rfl
  exact hn hm

theorem flatMap_preOrder_aside (x : Exchange t holder before taken news after t')
    {ids : List NodeId} (htree : ∀ c ∈ ids, t.IsTree c)
    (hids : ∀ c ∈ ids, ¬ t.Reaches c holder) :
    ids.flatMap t'.preOrder = ids.flatMap t.preOrder :=
  List.flatMap_congr fun c hc => x.preOrder_aside (htree c hc) (hids c hc)

theorem preOrder_holder (x : Exchange t holder before taken news after t')
    (g : t.Grafts taken news) (h : t.WellFormed) (hh : t.Reachable holder)
    (hh' : t'.Reachable holder) :
    ∃ a b, t.preOrder holder = a ++ taken.flatMap t.preOrder ++ b ∧
      t'.preOrder holder = a ++ news.flatMap t.preOrder ++ b := by
  have hside : ∀ c ∈ before ++ after, c ∈ t.children holder := by
    intro c hc
    rw [x.children_eq, List.mem_append, List.mem_append]
    exact (List.mem_append.mp hc).imp_left Or.inl
  have aside : ∀ ids : List NodeId, (∀ c ∈ ids, c ∈ before ++ after) →
      ids.flatMap t'.preOrder = ids.flatMap t.preOrder := fun ids hids =>
    x.flatMap_preOrder_aside (fun c hc => h.isTree (hh.child (hside c (hids c hc))))
      fun c hc => (h.isTree hh).not_reaches_of_child (Reaches.refl t holder)
        (hside c (hids c hc))
  have hnews : news.flatMap t'.preOrder = news.flatMap t.preOrder :=
    x.flatMap_preOrder_aside g.isTree fun c hc hr =>
      x.grafted_ne_holder g h hh ⟨c, hc, hr⟩ rfl
  refine ⟨holder :: before.flatMap t.preOrder, after.flatMap t.preOrder, ?_, ?_⟩
  · rw [(h.isTree hh).preOrder_eq, x.children_eq, List.flatMap_append, List.flatMap_append]
    rfl
  · rw [((x.wellFormed g h hh).isTree hh').preOrder_eq, x.children_holder,
      List.flatMap_append, List.flatMap_append, hnews,
      aside before fun c hc => List.mem_append_left _ hc,
      aside after fun c hc => List.mem_append_right _ hc]
    rfl

/-- Above the edit one segment changes. The induction goes up from the holder: on the way to it
lies one child, whose segment is the one of the holder, and its siblings lie aside. -/
theorem preOrder_above (x : Exchange t holder before taken news after t')
    (g : t.Grafts taken news) (h : t.WellFormed) (hh : t.Reachable holder)
    (hn : t.Reachable n) (hn' : t'.Reachable n) (hr : t.Reaches n holder) :
    ∃ a b, t.preOrder n = a ++ taken.flatMap t.preOrder ++ b ∧
      t'.preOrder n = a ++ news.flatMap t.preOrder ++ b := by
  refine (h.isTree hn).bottomUp
    (P := fun n => t.Reachable n → t'.Reachable n → t.Reaches n holder →
      ∃ a b, t.preOrder n = a ++ taken.flatMap t.preOrder ++ b ∧
        t'.preOrder n = a ++ news.flatMap t.preOrder ++ b) ?_ (Reaches.refl t n) hn hn' hr
  intro n _ ih hn hn' hr
  rcases hr.cases_child with rfl | ⟨c, hc, hch⟩
  · exact x.preOrder_holder g h hh hn'
  have hne : n ≠ holder := by
    rintro rfl
    exact (h.isTree hn).not_reaches_of_child (Reaches.refl t n) hc hch
  have hsame := x.children_other n hne
  obtain ⟨a, b, ha, hb⟩ := ih c (Reaches.of_child hc (Reaches.refl t c)) (h.child_ne hn hc)
    (hn.child hc) (hn'.child (hsame ▸ hc)) hch
  obtain ⟨l, r, hlr⟩ := List.append_of_mem hc
  have aside : ∀ ids : List NodeId, (∀ d ∈ ids, d ∈ t.children n ∧ d ≠ c) →
      ids.flatMap t'.preOrder = ids.flatMap t.preOrder := fun ids hids =>
    x.flatMap_preOrder_aside (fun d hd => h.isTree (hn.child (hids d hd).1))
      fun d hd hdh => (hids d hd).2 ((h.isTree hn).child_unique (Reaches.refl t n)
        (hids d hd).1 hc hdh hch)
  have hnd := h.nodup_children hn
  rw [hlr, List.nodup_append, List.nodup_cons] at hnd
  have hl := aside l fun d hd => by
    refine ⟨hlr ▸ List.mem_append_left _ hd, ?_⟩
    rintro rfl
    exact hnd.2.2 d hd d List.mem_cons_self rfl
  have hr := aside r fun d hd => by
    refine ⟨hlr ▸ List.mem_append_right _ (List.mem_cons_of_mem _ hd), ?_⟩
    rintro rfl
    exact hnd.2.1.1 hd
  refine ⟨n :: (l.flatMap t.preOrder ++ a), b ++ r.flatMap t.preOrder, ?_, ?_⟩
  · rw [(h.isTree hn).preOrder_eq, hlr, List.flatMap_append, List.flatMap_cons, ha]
    simp only [List.append_assoc, List.cons_append]
  · rw [((x.wellFormed g h hh).isTree hn').preOrder_eq, hsame, hlr, List.flatMap_append,
      List.flatMap_cons, hb, hl, hr]
    simp only [List.append_assoc, List.cons_append]

/-- The pre-order of the tree changes in one segment. -/
theorem preOrder_root (x : Exchange t holder before taken news after t')
    (g : t.Grafts taken news) (h : t.WellFormed) (hh : t.Reachable holder) {root : NodeId}
    (hroot : t.root = some root) :
    ∃ a b, t.preOrder root = a ++ taken.flatMap t.preOrder ++ b ∧
      t'.preOrder root = a ++ news.flatMap t.preOrder ++ b := by
  obtain ⟨r, hr, hrh⟩ := hh
  rw [Option.some.inj (hr.symm.trans hroot)] at hrh
  exact x.preOrder_above g h ⟨root, hroot, hrh⟩ ⟨root, hroot, Reaches.refl t root⟩
    ⟨root, x.root_eq.trans hroot, Reaches.refl t' root⟩ hrh

end Exchange
end Tree
end CompilerBackend
