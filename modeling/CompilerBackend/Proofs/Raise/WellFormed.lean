import CompilerBackend.Proofs.Raise.Rewrite
/-!
# A rewrite keeps the tree a tree

After each rewrite a set of nodes is closed under child slots and linked to its holders: the
nodes that were reachable, without the one that gave way (and without the detached raise or the
dropped statements), together with the statements that are new. So the tree is well formed
again, and nothing else is reachable; and operands with side effects are still there.
-/

namespace CompilerBackend
namespace Tree

variable {t t' : Tree} {id n : NodeId}

/-- A set with the root, closed under child slots and linked to its holders. -/
structure Closed (t : Tree) (P : NodeId → Prop) : Prop where
  root : ∃ root, t.root = some root ∧ t.parent root = none ∧ P root
  nodup : ∀ n, P n → (t.children n).Nodup
  child : ∀ n, P n → ∀ c ∈ t.children n, P c
  linked : ∀ n, P n → ∀ c ∈ t.children n, t.parent c = some n

namespace Closed

variable {P : NodeId → Prop}

theorem wellFormed (h : t.Closed P) : t.WellFormed := by
  obtain ⟨root, hroot, hp, base⟩ := h.root
  exact WellFormed.of_closed hroot hp base fun n hn =>
    ⟨h.nodup n hn, fun c hc => ⟨h.child n hn c hc, h.linked n hn c hc⟩⟩

theorem of_reachable (h : t.Closed P) (hn : t.Reachable n) : P n := by
  obtain ⟨root, hroot, -, base⟩ := h.root
  exact Reachable.of_closed hroot base h.child hn

end Closed

/-- The holder of a node stays in the tree, if nothing but it and the raise changes its children: no
node on the way to it is one of them. -/
theorem Cut.reachable_holder (c : Cut t id) (h : t.WellFormed) (hid : t.Reachable id) {p : NodeId}
    (hp : t.parent id = some p) (hroot : t'.root = t.root)
    (hchildren : ∀ n, t.Reachable n → n ≠ p → n ≠ c.raise → t'.children n = t.children n) :
    t'.Reachable p := by
  obtain ⟨hholder, hmem⟩ := h.holder hid hp
  have hcycle : ∀ {n}, t.Reaches id n → ¬ t.Reaches n p := fun hn hback =>
    (h.isTree hholder).not_reaches_of_child (Reaches.refl t p) hmem (hn.trans hback)
  obtain ⟨root, htop, hreach⟩ := hholder
  refine ⟨root, hroot.trans htop, ?_⟩
  refine hreach.induct (P := fun n => t.Reaches n p → t'.Reaches root n)
    (fun _ => Reaches.refl t' root) (fun m d hm ih hd hback => ?_) (Reaches.refl t p)
  have hm' : t.Reachable m := ⟨root, htop, hm⟩
  have hne : m ≠ p := by
    rintro rfl
    exact (h.isTree hm').not_reaches_of_child (Reaches.refl t m) hd hback
  have hup : t.Reaches m p := ((Reaches.refl t m).child hd).trans hback
  have hnr : m ≠ c.raise := by
    rintro rfl
    exact hcycle ((Reaches.refl t id).child c.raise_mem) hup
  refine (ih hup).child ?_
  rwa [hchildren m hm' hne hnr]

/-! ## The raise in the place of an expression -/

namespace Lifted

variable {c : Cut t id}

theorem children_raise (l : Lifted c t') :
    t'.children c.raise = c.kept ++ c.exceptionType :: c.value.toList := by
  rw [children, l.kind_raise]
  rfl

theorem children_holder (l : Lifted c t') (hp : t.parent id = some n) :
    t'.children n = (t.children n).map fun d => if d = id then c.raise else d := by
  rw [children, l.kind_holder n hp, children_redirect]
  rfl

theorem children_other (l : Lifted c t') (hn : n ≠ c.raise) (hp : t.parent id ≠ some n) :
    t'.children n = t.children n := by
  rw [children, l.kind_other n hn hp]
  rfl

/-- A child keeps its link unless its holder was the node that gave way. -/
theorem parent_child (l : Lifted c t') (h : t.WellFormed) (hid : t.Reachable id)
    (hn : t.Reachable n) (hne : n ≠ id) {d : NodeId} (hd : d ∈ t.children n) (hdid : d ≠ id) :
    t'.parent d = some n := by
  have hpd := h.parent_child hn hd
  rw [l.parent_other d hdid, hpd]
  · rintro rfl
    exact hne (Option.some.inj (hpd.symm.trans (c.parent_raise h hid)))
  · intro hm
    have hpm := h.parent_child hid (Cut.mem_children_of_moved hm)
    exact hne (Option.some.inj (hpd.symm.trans hpm))

/-- A child afterwards is an operand of the raise, the raise itself in the slot of the node, or a
child that its holder has kept. -/
theorem mem_children_cases (l : Lifted c t') (h : t.WellFormed) (hn : t.Reachable n)
    {d : NodeId} (hd : d ∈ t'.children n) :
    (n = c.raise ∧ d ∈ c.moved ++ t.children c.raise) ∨
      (n ≠ c.raise ∧ d = c.raise ∧ t.parent id = some n) ∨
        (n ≠ c.raise ∧ d ≠ id ∧ d ∈ t.children n) := by
  by_cases hnr : n = c.raise
  · rw [hnr, l.children_raise, Cut.kept, List.append_assoc, ← c.children_raise] at hd
    exact Or.inl ⟨hnr, hd⟩
  · by_cases hp : t.parent id = some n
    · rw [l.children_holder hp, List.mem_map] at hd
      obtain ⟨a, ha, rfl⟩ := hd
      by_cases hai : a = id
      · exact Or.inr (Or.inl ⟨hnr, if_pos hai, hp⟩)
      · rw [if_neg hai]
        exact Or.inr (Or.inr ⟨hnr, hai, ha⟩)
    · rw [l.children_other hnr hp] at hd
      refine Or.inr (Or.inr ⟨hnr, ?_, hd⟩)
      rintro rfl
      exact hp (h.parent_child hn hd)

theorem nodup_children (l : Lifted c t') (h : t.WellFormed) (hid : t.Reachable id)
    (hn : t.Reachable n) (hne : n ≠ id) : (t'.children n).Nodup := by
  by_cases hnr : n = c.raise
  · rw [hnr, l.children_raise]
    exact c.nodup_kept_append h hid
  · by_cases hp : t.parent id = some n
    · rw [l.children_holder hp]
      refine (h.nodup_children hn).map_on ?_
      -- the raise stands below the node, so it is no other child of the holder
      have hnot : c.raise ∉ t.children n := fun hm =>
        hne (Option.some.inj ((h.parent_child hn hm).symm.trans (c.parent_raise h hid)))
      intro a ha b hb hab
      by_cases hai : a = id <;> by_cases hbi : b = id
      · rw [hai, hbi]
      · rw [if_pos hai, if_neg hbi] at hab
        exact absurd (hab ▸ hb) hnot
      · rw [if_neg hai, if_pos hbi] at hab
        exact absurd (hab ▸ ha) hnot
      · rwa [if_neg hai, if_neg hbi] at hab
    · rw [l.children_other hnr hp]
      exact h.nodup_children hn

theorem exists_root (l : Lifted c t') (h : t.WellFormed) (hid : t.Reachable id) :
    ∃ root, t'.root = some root ∧ t'.parent root = none ∧ t.Reachable root ∧ root ≠ id := by
  cases hp : t.parent id with
  | none =>
      refine ⟨c.raise, ?_, ?_, Cut.reachable_raise hid c, c.raise_ne h hid⟩
      · rw [l.root_eq, if_pos hp]
      · rw [l.parent_raise, hp]
  | some p =>
      obtain ⟨root, hroot, hreach⟩ := hid.exists_root
      have hne := h.root_ne hroot hp
      refine ⟨root, ?_, ?_, hreach, hne⟩
      · rw [l.root_eq, if_neg (by rw [hp]; exact Option.some_ne_none p), hroot]
      · have hnr := h.root_ne hroot (c.parent_raise h hid)
        have hnm : root ∉ c.moved := fun hm =>
          h.root_ne hroot (h.parent_child hid (Cut.mem_children_of_moved hm)) rfl
        rw [l.parent_other root hne hnr hnm]
        exact (h root hroot).1

theorem closed (l : Lifted c t') (h : t.WellFormed) (hid : t.Reachable id) :
    t'.Closed fun n => t.Reachable n ∧ n ≠ id where
  root := by
    obtain ⟨root, hroot, hp, hr⟩ := l.exists_root h hid
    exact ⟨root, hroot, hp, hr⟩
  nodup := fun n hn => l.nodup_children h hid hn.1 hn.2
  child := by
    rintro n ⟨hn, -⟩ d hd
    rcases l.mem_children_cases h hn hd with ⟨-, hm⟩ | ⟨-, rfl, -⟩ | ⟨-, hdid, hm⟩
    · exact ⟨(c.held_of_mem h hid hm).1, (c.held_of_mem h hid hm).2.2.1⟩
    · exact ⟨Cut.reachable_raise hid c, c.raise_ne h hid⟩
    · exact ⟨hn.child hm, hdid⟩
  linked := by
    rintro n ⟨hn, hne⟩ d hd
    rcases l.mem_children_cases h hn hd with ⟨rfl, hm⟩ | ⟨-, rfl, hp⟩ | ⟨-, hdid, hm⟩
    · obtain ⟨-, -, hdid, hdr⟩ := c.held_of_mem h hid hm
      by_cases hmoved : d ∈ c.moved
      · exact l.parent_moved d hmoved
      · rw [l.parent_other d hdid hdr hmoved]
        exact h.parent_child hn ((List.mem_append.mp hm).resolve_left hmoved)
    · exact l.parent_raise.trans hp
    · exact l.parent_child h hid hn hne hm hdid

theorem reachable_raise (l : Lifted c t') (h : t.WellFormed) (hid : t.Reachable id) :
    t'.Reachable c.raise := by
  cases hp : t.parent id with
  | none => exact ⟨c.raise, by rw [l.root_eq, if_pos hp], Reaches.refl t' c.raise⟩
  | some p =>
      have hroot : t'.root = t.root := by
        rw [l.root_eq, if_neg (by rw [hp]; exact Option.some_ne_none p)]
      have hholder : t'.Reachable p := c.reachable_holder h hid hp hroot fun n _ hnp hnr =>
        l.children_other hnr fun heq => hnp (Option.some.inj (hp.symm.trans heq)).symm
      refine hholder.child ?_
      rw [l.children_holder hp]
      exact List.mem_map.mpr ⟨id, (h.holder hid hp).2, if_pos rfl⟩

theorem reachable_of_moved (l : Lifted c t') (h : t.WellFormed) (hid : t.Reachable id)
    (hn : n ∈ c.moved) : t'.Reachable n := by
  refine (l.reachable_raise h hid).child ?_
  rw [l.children_raise]
  exact List.mem_append_left _ (List.mem_append_left _ hn)

end Lifted

/-! ## Statements in the place of one -/

namespace Spread

variable {c : Cut t id} {holder : NodeId} {left right : List NodeId}

def Live (c : Cut t id) (n : NodeId) : Prop :=
  (t.Reachable n ∧ n ≠ id ∧ n ≠ c.raise) ∨ n ∈ t.freshIds (c.kept.length + 1)

theorem children_holder (s : Spread c holder left right t') :
    t'.children holder = left ++ t.freshIds (c.kept.length + 1) ++ right := by
  rw [children, s.kind_holder]
  rfl

theorem children_effect (s : Spread c holder left right t') {i : Nat} {e : NodeId}
    (hi : c.kept[i]? = some e) : t'.children (t.fresh i) = [e] := by
  rw [children, s.kind_effect i e hi]
  rfl

theorem children_last (s : Spread c holder left right t') :
    t'.children (t.fresh c.kept.length) = c.exceptionType :: c.value.toList := by
  rw [children, s.kind_last]
  exact List.append_nil _

theorem children_other (s : Spread c holder left right t') (hhas : t.Has n)
    (hne : n ≠ holder) (hnr : n ≠ c.raise) : t'.children n = t.children n := by
  rw [children, s.kind_other n hhas hne hnr]
  rfl

/-- A new node is one of the expression statements or the raise statement behind them. -/
theorem fresh_cases (hn : n ∈ t.freshIds (c.kept.length + 1)) :
    (∃ i e, c.kept[i]? = some e ∧ n = t.fresh i) ∨ n = t.fresh c.kept.length := by
  obtain ⟨i, hi, rfl⟩ := mem_freshIds.mp hn
  rcases Nat.lt_succ_iff_lt_or_eq.mp hi with hlt | rfl
  · exact Or.inl ⟨i, c.kept[i], List.getElem?_eq_getElem hlt, rfl⟩
  · exact Or.inr rfl

/-- A child keeps its link unless its holder was the node that gave way or the raise. -/
theorem parent_child (s : Spread c holder left right t') (h : t.WellFormed)
    (hid : t.Reachable id) (hn : t.Reachable n) (hne : n ≠ id) (hnr : n ≠ c.raise)
    {d : NodeId} (hd : d ∈ t.children n) (hdid : d ≠ id) : t'.parent d = some n := by
  have hpd := h.parent_child hn hd
  rw [s.parent_other d (Has.of_parent hpd) hdid, hpd]
  · intro hk
    rcases (c.held_of_kept h hid hk).2.1 with hp | hp
    · exact hne (Option.some.inj (hpd.symm.trans hp))
    · exact hnr (Option.some.inj (hpd.symm.trans hp))
  · intro hs
    exact hnr (Option.some.inj (hpd.symm.trans (c.held_of_shown h hid hs).2.1))

/-- Neither the node nor the raise is held by another node than before. -/
theorem child_ne (h : t.WellFormed) (hid : t.Reachable id)
    (w : Placed t id holder left right) (hn : t.Reachable n) (hnh : n ≠ holder) (hne : n ≠ id)
    {d : NodeId} (hd : d ∈ t.children n) : d ≠ id ∧ d ≠ c.raise := by
  have hpd := h.parent_child hn hd
  constructor
  · rintro rfl
    exact hnh (Option.some.inj (hpd.symm.trans w.parent_eq))
  · rintro rfl
    exact hne (Option.some.inj (hpd.symm.trans (c.parent_raise h hid)))

/-- The statements around the one that gives way. -/
theorem sibling (h : t.WellFormed) (hid : t.Reachable id) (w : Placed t id holder left right)
    {d : NodeId} (hd : d ∈ left ++ right) :
    d ∈ t.children holder ∧ d ≠ id ∧ d ≠ c.raise := by
  have hholder := w.reachable_holder h hid
  have hmem : d ∈ t.children holder := by
    rw [w.children_eq]
    rcases List.mem_append.mp hd with hl | hr
    · exact List.mem_append_left _ hl
    · exact List.mem_append_right _ (List.mem_cons_of_mem _ hr)
  have hnd := h.nodup_children hholder
  rw [w.children_eq, List.nodup_append, List.nodup_cons] at hnd
  refine ⟨hmem, ?_, ?_⟩
  · rintro rfl
    rcases List.mem_append.mp hd with hl | hr
    · exact w.not_mem_left hl
    · exact hnd.2.1.1 hr
  · rintro rfl
    have hp := (h.parent_child hholder hmem).symm.trans (c.parent_raise h hid)
    exact w.holder_ne h hid (Option.some.inj hp)

/-- What a new statement holds. -/
theorem fresh_closed (s : Spread c holder left right t') (h : t.WellFormed)
    (hid : t.Reachable id) (hn : n ∈ t.freshIds (c.kept.length + 1)) :
    (t'.children n).Nodup ∧ ∀ d ∈ t'.children n, Live c d ∧ t'.parent d = some n := by
  rcases fresh_cases hn with ⟨i, e, hi, rfl⟩ | rfl
  · rw [s.children_effect hi]
    refine ⟨List.nodup_singleton e, fun d hd => ?_⟩
    rw [List.mem_singleton.mp hd]
    have hheld := c.held_of_kept h hid (List.mem_of_getElem? hi)
    exact ⟨Or.inl ⟨hheld.1, hheld.2.2⟩, s.parent_effect i e hi⟩
  · rw [s.children_last]
    refine ⟨(List.nodup_append.mp (c.nodup_kept_append h hid)).2.1, fun d hd => ?_⟩
    have hheld := c.held_of_shown h hid hd
    exact ⟨Or.inl ⟨hheld.1, hheld.2.2.2⟩, s.parent_shown d hd⟩

/-- What the sequence holds: the statements around the one that gave way, and the new ones. -/
theorem holder_closed (s : Spread c holder left right t') (h : t.WellFormed)
    (hid : t.Reachable id) (w : Placed t id holder left right) :
    (t'.children holder).Nodup ∧
      ∀ d ∈ t'.children holder, Live c d ∧ t'.parent d = some holder := by
  have hholder := w.reachable_holder h hid
  have hnd := h.nodup_children hholder
  rw [w.children_eq, List.nodup_append, List.nodup_cons] at hnd
  have hold : ∀ d ∈ left ++ right, d ∉ t.freshIds (c.kept.length + 1) := fun d hd =>
    not_mem_freshIds (h.has_child hholder (sibling (c := c) h hid w hd).1)
  have hside : ∀ {d}, d ∈ left ++ right → Live c d ∧ t'.parent d = some holder := by
    intro d hd
    obtain ⟨hmem, hdid, hdr⟩ := sibling (c := c) h hid w hd
    exact ⟨Or.inl ⟨hholder.child hmem, hdid, hdr⟩, s.parent_child h hid hholder
      (w.holder_ne h hid) (c.holder_ne_raise h hid w.parent_eq) hmem hdid⟩
  rw [s.children_holder, List.append_assoc]
  constructor
  · rw [List.nodup_append, List.nodup_append]
    refine ⟨hnd.1, ⟨nodup_freshIds t _, hnd.2.1.2, ?_⟩, ?_⟩
    · rintro a ha b hb rfl
      exact hold a (List.mem_append_right _ hb) ha
    · rintro a ha b hb rfl
      rcases List.mem_append.mp hb with hf | hr
      · exact hold a (List.mem_append_left _ ha) hf
      · exact hnd.2.2 a ha a (List.mem_cons_of_mem _ hr) rfl
  · intro d hd
    rw [List.mem_append, List.mem_append] at hd
    rcases hd with hl | hf | hr
    · exact hside (List.mem_append_left _ hl)
    · exact ⟨Or.inr hf, s.parent_fresh d hf⟩
    · exact hside (List.mem_append_right _ hr)

theorem exists_root (s : Spread c holder left right t') (h : t.WellFormed)
    (hid : t.Reachable id) (w : Placed t id holder left right) :
    ∃ root, t'.root = some root ∧ t'.parent root = none ∧ Live c root := by
  obtain ⟨root, hroot, hreach⟩ := hid.exists_root
  have hne := h.root_ne hroot w.parent_eq
  have hnr := h.root_ne hroot (c.parent_raise h hid)
  have hkept : root ∉ c.kept := fun hk => by
    rcases (c.held_of_kept h hid hk).2.1 with hp | hp <;> exact h.root_ne hroot hp rfl
  have hshown : root ∉ c.exceptionType :: c.value.toList := fun hs =>
    h.root_ne hroot (c.held_of_shown h hid hs).2.1 rfl
  refine ⟨root, s.root_eq.trans hroot, ?_, Or.inl ⟨hreach, hne, hnr⟩⟩
  rw [s.parent_other root (h.has_of_reachable hreach hid c.raise_mem) hne hkept hshown]
  exact (h root hroot).1

theorem closed (s : Spread c holder left right t') (h : t.WellFormed) (hid : t.Reachable id)
    (w : Placed t id holder left right) : t'.Closed (Live c) := by
  have hat : ∀ n, Live c n → (t'.children n).Nodup ∧
      ∀ d ∈ t'.children n, Live c d ∧ t'.parent d = some n := by
    rintro n (⟨hn, hne, hnr⟩ | hn)
    · by_cases hnh : n = holder
      · rw [hnh]
        exact s.holder_closed h hid w
      · -- every other node holds what it held
        rw [s.children_other (h.has_of_reachable hn hid c.raise_mem) hnh hnr]
        refine ⟨h.nodup_children hn, fun d hd => ?_⟩
        have hd' := child_ne (c := c) h hid w hn hnh hne hd
        exact ⟨Or.inl ⟨hn.child hd, hd'⟩, s.parent_child h hid hn hne hnr hd hd'.1⟩
    · exact s.fresh_closed h hid hn
  exact ⟨s.exists_root h hid w, fun n hn => (hat n hn).1,
    fun n hn d hd => ((hat n hn).2 d hd).1, fun n hn d hd => ((hat n hn).2 d hd).2⟩

theorem reachable_holder (s : Spread c holder left right t') (h : t.WellFormed)
    (hid : t.Reachable id) (w : Placed t id holder left right) : t'.Reachable holder :=
  c.reachable_holder h hid w.parent_eq s.root_eq fun _ hn hne hnr =>
    s.children_other (h.has_of_reachable hn hid c.raise_mem) hne hnr

theorem reachable_fresh (s : Spread c holder left right t') (h : t.WellFormed)
    (hid : t.Reachable id) (w : Placed t id holder left right)
    (hn : n ∈ t.freshIds (c.kept.length + 1)) : t'.Reachable n := by
  refine (s.reachable_holder h hid w).child ?_
  rw [s.children_holder]
  exact List.mem_append_left _ (List.mem_append_right _ hn)

theorem reachable_of_moved (s : Spread c holder left right t') (h : t.WellFormed)
    (hid : t.Reachable id) (w : Placed t id holder left right) (hn : n ∈ c.moved) :
    t'.Reachable n := by
  obtain ⟨i, hi⟩ := List.getElem?_of_mem (List.mem_append_left c.effects hn)
  have hlt : i < c.kept.length := (List.getElem?_eq_some_iff.mp hi).1
  refine (s.reachable_fresh h hid w (mem_freshIds.mpr ⟨i, Nat.lt_succ_of_lt hlt, rfl⟩)).child ?_
  rw [s.children_effect hi]
  exact List.mem_singleton_self n

end Spread

/-! ## The end of a sequence -/

namespace Truncated

variable {holder : NodeId} {left right : List NodeId}

theorem children_holder (r : Truncated t id holder left right t') :
    t'.children holder = left ++ [id] := by
  rw [children, r.kind_holder]
  rfl

theorem children_other (r : Truncated t id holder left right t') (hn : n ≠ holder) :
    t'.children n = t.children n := by
  rw [children, r.kind_other n hn]
  rfl

theorem mem_holder (w : Placed t id holder left right) {d : NodeId} (hd : d ∈ right) :
    d ∈ t.children holder := by
  rw [w.children_eq]
  exact List.mem_append_right _ (List.mem_cons_of_mem _ hd)

/-- What the sequence still holds, it held, and none of it was dropped. -/
theorem held_of_mem (r : Truncated t id holder left right t') (h : t.WellFormed)
    (hid : t.Reachable id) (w : Placed t id holder left right) {d : NodeId}
    (hd : d ∈ t'.children holder) : d ∈ t.children holder ∧ d ∉ right := by
  have hnd := h.nodup_children (w.reachable_holder h hid)
  rw [w.children_eq, List.nodup_append, List.nodup_cons] at hnd
  rw [r.children_holder] at hd
  rw [w.children_eq]
  rcases List.mem_append.mp hd with hl | hi
  · exact ⟨List.mem_append_left _ hl, fun hr => hnd.2.2 d hl d (List.mem_cons_of_mem _ hr) rfl⟩
  · rw [List.mem_singleton.mp hi]
    exact ⟨List.mem_append_right _ List.mem_cons_self, hnd.2.1.1⟩

theorem nodup_holder (r : Truncated t id holder left right t') (h : t.WellFormed)
    (hid : t.Reachable id) (w : Placed t id holder left right) :
    (t'.children holder).Nodup := by
  have hsub : (left ++ [id]).Sublist (left ++ id :: right) :=
    (List.singleton_sublist.mpr List.mem_cons_self).append_left left
  rw [r.children_holder]
  exact hsub.nodup (w.children_eq ▸ h.nodup_children (w.reachable_holder h hid))

/-- A dropped statement is held by the sequence, so no other node holds it. -/
theorem not_mem_right (h : t.WellFormed) (hid : t.Reachable id)
    (w : Placed t id holder left right) (hn : t.Reachable n) (hnh : n ≠ holder) {d : NodeId}
    (hd : d ∈ t.children n) : d ∉ right := by
  intro hr
  have hp := h.parent_child (w.reachable_holder h hid) (mem_holder w hr)
  exact hnh (Option.some.inj ((h.parent_child hn hd).symm.trans hp))

theorem closed (r : Truncated t id holder left right t') (h : t.WellFormed)
    (hid : t.Reachable id) (w : Placed t id holder left right) :
    t'.Closed fun n => t.Reachable n ∧ n ∉ right := by
  have hchild : ∀ n, t.Reachable n → ∀ d ∈ t'.children n, d ∈ t.children n ∧ d ∉ right := by
    intro n hn d hd
    by_cases hnh : n = holder
    · subst hnh
      exact r.held_of_mem h hid w hd
    · rw [r.children_other hnh] at hd
      exact ⟨hd, not_mem_right h hid w hn hnh hd⟩
  refine ⟨?_, ?_, ?_, ?_⟩
  · obtain ⟨root, hroot, hreach⟩ := hid.exists_root
    have hnot : root ∉ right := fun hm =>
      h.root_ne hroot (h.parent_child (w.reachable_holder h hid) (mem_holder w hm)) rfl
    refine ⟨root, r.root_eq.trans hroot, ?_, hreach, hnot⟩
    rw [r.parent_other root hnot]
    exact (h root hroot).1
  · rintro n ⟨hn, -⟩
    by_cases hnh : n = holder
    · rw [hnh]
      exact r.nodup_holder h hid w
    · rw [r.children_other hnh]
      exact h.nodup_children hn
  · rintro n ⟨hn, -⟩ d hd
    exact ⟨hn.child (hchild n hn d hd).1, (hchild n hn d hd).2⟩
  · rintro n ⟨hn, -⟩ d hd
    rw [r.parent_other d (hchild n hn d hd).2]
    exact h.parent_child hn (hchild n hn d hd).1

end Truncated

/-- What is evaluated before the first raise stays in the tree, if it may have side effects. -/
theorem reachable_cutAtRaise (h : t.WellFormed) (hid : t.Reachable id)
    (hy : t.yieldsToRaise id = true) (hchanged : (t.cutAtRaise id).changed = true)
    (hn : n ∈ (t.children id).takeWhile fun d => !t.isRaise d)
    (heffects : t.mayHaveSideEffects n = true) : (t.cutAtRaise id).tree.Reachable n := by
  cases hfind : (t.children id).find? t.isRaise with
  | none =>
      rw [cutAtRaise, hfind] at hchanged
      cases hchanged
  | some r =>
      rcases isExpr_or_isStmt_of_yields hy with ⟨e, he⟩ | ⟨s, hs⟩
      · obtain ⟨c, t', -, hbefore, lifted, heq⟩ := cutAtRaise_of_expr h hid he hfind
        rw [heq]
        exact lifted.reachable_of_moved h hid (List.mem_filter.mpr ⟨hbefore ▸ hn, heffects⟩)
      · cases hheld : t.inSequence id with
        | false =>
            rw [cutAtRaise_of_not_held hs hheld] at hchanged
            cases hchanged
        | true =>
            obtain ⟨holder, statements, hp, hk⟩ := inSequence_iff.mp hheld
            obtain ⟨left, right, w⟩ := exists_placed h hid hp hk
            obtain ⟨c, t', -, hbefore, spread, heq⟩ := cutAtRaise_of_held h hid hs w hfind
            rw [heq]
            exact spread.reachable_of_moved h hid w (List.mem_filter.mpr ⟨hbefore ▸ hn, heffects⟩)

/-- A rewrite leaves a well-formed tree. -/
theorem Rewrite.wellFormed (r : Rewrite t t') (h : t.WellFormed) : t'.WellFormed := by
  cases r with
  | lift hid _ _ c l => exact (l.closed h hid).wellFormed
  | spread hid _ _ c w s => exact (s.closed h hid w).wellFormed
  | truncate hid _ w _ r => exact (r.closed h hid w).wellFormed

end Tree
end CompilerBackend
