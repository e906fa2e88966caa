import CompilerBackend.Proofs.Raise.Behaviour
import CompilerBackend.Proofs.Tree.Enclosing
/-!
# Where the nodes of a rewritten tree come from

Every node that is left by a rewrite stands for one of the old tree: it is the node that was
there, or a piece of the one that gave way to a raise. What stands for a node looks up the same
providers.

- `Fate`: the three things that can happen to a node.
- `Carried`: every node of a tree has its fate; `Carried.around_eq` follows for any two trees.
- `Rewrite.carried`: the rewrites around a raise.
-/

namespace CompilerBackend

/-! ## Renamed slots -/

theorem Expr.mapChildren_id (e : Expr) : e.mapChildren (fun id => id) = e := by
  cases e <;> simp [Expr.mapChildren, mapPairs]

theorem Stmt.mapChildren_id (s : Stmt) : s.mapChildren (fun id => id) = s := by
  cases s <;> simp [Stmt.mapChildren]

theorem NodeKind.mapChildren_id (k : NodeKind) : k.mapChildren (fun id => id) = k := by
  cases k <;> simp [NodeKind.mapChildren, Expr.mapChildren_id, Stmt.mapChildren_id]

@[simp] theorem NodeKind.constant?_mapChildren (f : NodeId → NodeId) (k : NodeKind) :
    (k.mapChildren f).constant? = k.constant? := by
  cases k with
  | expr e => cases e <;> rfl
  | _ => rfl

namespace Tree

variable {t t' : Tree} {id n m : NodeId} {source : NodeId → NodeId}

/-! ## What can happen to a node -/

/-- What a node that gives way to a raise is turned into: the raise itself or statements. -/
inductive Piece : NodeKind → NodeKind → Prop where
  | lifted (e : Expr) (exceptionType : NodeId) (value : Option NodeId) (effects : List NodeId) :
      Piece (.expr e) (.expr (.raise exceptionType value effects))
  | effect (s : Stmt) (value : NodeId) : Piece (.stmt s) (.stmt (.expression value))
  | raised (s : Stmt) (exceptionType : NodeId) (value : Option NodeId) :
      Piece (.stmt s) (.stmt (.raise (some exceptionType) value none))

theorem Piece.bare?_eq {k k' : NodeKind} (h : Piece k k') : k'.bare? = none := by
  cases h <;> rfl

theorem Piece.handler?_eq {k k' : NodeKind} (h : Piece k k') : k'.handler? = none := by
  cases h <;> rfl

def Cut.evaluated (c : Cut t id) : List NodeId := c.kept ++ c.exceptionType :: c.value.toList

/-- What has happened to a node that is left, given which nodes stand for which. -/
inductive Fate (t t' : Tree) (source : NodeId → NodeId) (n : NodeId) : Prop where
  /-- The node was there, and its children stand for those it had. -/
  | stayed {f : NodeId → NodeId} (source_eq : source n = n) (self : f n = n)
      (kind_eq : t'.kind n = (t.kind n).mapChildren f)
      (child : ∀ d ∈ t.children n, source (f d) = d ∧ t'.constant? (f d) = t.constant? d)
  /-- It was a sequence, and its statements stand for some that it had. -/
  | sequence {old new : List NodeId} (source_eq : source n = n)
      (kind_old : t.kind n = .sequence old) (kind_new : t'.kind n = .sequence new)
      (statement : ∀ d ∈ new, source d ∈ old)
  /-- It is a piece of one that gave way to a raise, and evaluates what that raise evaluates. -/
  | piece {id : NodeId} (source_eq : source n = id) (reachable : t.Reachable id) (c : Cut t id)
      (yields : t.yieldsToRaise id = true) (kinds : Piece (t.kind id) (t'.kind n))
      (operand : ∀ d ∈ t'.children n, source d = d ∧ d ∈ c.evaluated)

/-- Every node that is left has its fate, and it shows a place of the old tree. -/
structure Carried (t t' : Tree) (source : NodeId → NodeId) : Prop where
  wellFormed_old : t.WellFormed
  wellFormed_new : t'.WellFormed
  root : t'.root.map source = t.root
  fate : ∀ {n}, t'.Reachable n → Fate t t' source n
  place : ∀ {n}, t'.Reachable n → ∃ m, t.Reachable m ∧ t'.location n = t.location m

/-- A node that gives way to a raise provides nothing and is no constant. -/
theorem bare?_of_yields (hy : t.yieldsToRaise id = true) : (t.kind id).bare? = none := by
  rw [yieldsToRaise] at hy
  split at hy <;> simp_all [NodeKind.bare?, NodeKind.provider?]

theorem constant?_of_yields (hy : t.yieldsToRaise id = true) : t.constant? id = none := by
  rw [yieldsToRaise] at hy
  split at hy <;> simp_all [constant?, NodeKind.constant?]

theorem Cut.constant?_raise (c : Cut t id) : t.constant? c.raise = none := by
  rw [constant?, c.kind_raise]
  rfl

theorem handler?_of_yields (hy : t.yieldsToRaise id = true) : (t.kind id).handler? = none := by
  rw [yieldsToRaise] at hy
  split at hy <;> simp_all [NodeKind.handler?]

section

variable {β : Type} {g : NodeKind → Option β}
  (hplain : ∀ k : NodeKind, k.bare? = none → k.handler? = none → g k = none)
include hplain

/-- What the raise evaluates was held by the node or by the raise, around which a question finds the
same, if only providers and handlers answer it. -/
theorem Cut.around_eq (c : Cut t id) (h : t.WellFormed) (hid : t.Reachable id)
    (hy : t.yieldsToRaise id = true) {d : NodeId} (hd : d ∈ c.evaluated) :
    t.around g d = t.around g id := by
  have hnode : g (t.kind id) = none := hplain _ (bare?_of_yields hy) (handler?_of_yields hy)
  have hraise : g (t.kind c.raise) = none := by
    rw [c.kind_raise]
    exact hplain _ rfl rfl
  rw [evaluated, kept, List.append_assoc, ← c.children_raise] at hd
  rcases List.mem_append.mp hd with hd | hd
  · rw [h.around_child hid (Cut.mem_children_of_moved hd), hnode]
    rfl
  · rw [h.around_child (Cut.reachable_raise hid c) hd, hraise, h.around_child hid c.raise_mem, hnode]
    rfl

end

namespace Carried

theorem source_root (r : Carried t t' source) {root : NodeId} (hroot : t'.root = some root) :
    t.root = some (source root) := by
  rw [← r.root, hroot]
  rfl

/-- A child that is left stands for a child of the node, or for what the node's raise evaluates. -/
theorem reachable_source (r : Carried t t' source) (hn : t'.Reachable n) :
    t.Reachable (source n) := by
  obtain ⟨root, hroot, hreach⟩ := hn
  refine hreach.induct (P := fun m => t.Reachable (source m))
    ⟨_, r.source_root hroot, Reaches.refl t _⟩ fun m d hm ih hd => ?_
  cases r.fate ⟨root, hroot, hm⟩ with
  | stayed hsource _ hkind hchild =>
      rw [children, hkind, NodeKind.children_mapChildren] at hd
      obtain ⟨e, he, rfl⟩ := List.mem_map.mp hd
      rw [(hchild e he).1]
      exact (hsource ▸ ih).child he
  | sequence hsource hold hnew hstatement =>
      rw [children, hnew] at hd
      refine (hsource ▸ ih).child ?_
      rw [children, hold]
      exact hstatement d hd
  | piece _ hid c _ _ hoperand =>
      obtain ⟨hself, hmem⟩ := hoperand d hd
      rw [hself]
      rw [Cut.evaluated, Cut.kept, List.append_assoc, ← c.children_raise] at hmem
      exact (c.held_of_mem r.wellFormed_old hid hmem).1

section

variable {β : Type} {g : NodeKind → Option β}
  (hmap : ∀ (f : NodeId → NodeId) (k : NodeKind), g (k.mapChildren f) = g k)
  (hplain : ∀ k : NodeKind, k.bare? = none → k.handler? = none → g k = none)
include hmap hplain

/-- Around what stands for a node a question finds the same, if the slots do not matter to it and
only providers and handlers answer it. -/
theorem around_eq (r : Carried t t' source) (hn : t'.Reachable n) :
    t'.around g n = t.around g (source n) := by
  obtain ⟨root, hroot, hreach⟩ := hn
  refine hreach.induct (P := fun m => t'.around g m = t.around g (source m)) ?_
    fun m d hm ih hd => ?_
  · rw [around_of_parent_none (r.wellFormed_new root hroot).1,
      around_of_parent_none (r.wellFormed_old _ (r.source_root hroot)).1]
  · have hm' : t'.Reachable m := ⟨root, hroot, hm⟩
    have hmt := r.reachable_source hm'
    rw [r.wellFormed_new.around_child hm' hd, ih]
    cases r.fate hm' with
    | stayed hsource _ hkind hchild =>
        rw [hsource] at hmt ⊢
        rw [children, hkind, NodeKind.children_mapChildren] at hd
        obtain ⟨e, he, rfl⟩ := List.mem_map.mp hd
        rw [(hchild e he).1, r.wellFormed_old.around_child hmt he, hkind, hmap]
    | sequence hsource hold hnew hstatement =>
        rw [hsource] at hmt ⊢
        rw [children, hnew] at hd
        have hmem : source d ∈ t.children m := by
          rw [children, hold]
          exact hstatement d hd
        rw [r.wellFormed_old.around_child hmt hmem, hold, hnew, hplain _ rfl rfl, hplain _ rfl rfl]
    | piece hsource hid c hy hkinds hoperand =>
        obtain ⟨hself, hmem⟩ := hoperand d hd
        rw [hself, c.around_eq hplain r.wellFormed_old hid hy hmem, hsource,
          hplain _ hkinds.bare?_eq hkinds.handler?_eq]
        rfl

end

/-- What stands for a node looks up the same providers. -/
theorem enclosing_eq (r : Carried t t' source) (hn : t'.Reachable n) :
    t'.enclosing n = t.enclosing (source n) :=
  r.around_eq NodeKind.bare?_mapChildren (fun _ hbare _ => hbare) hn

/-- It is in a handler if and only if the node was. -/
theorem isHandlerLocal_eq (r : Carried t t' source) (hn : t'.Reachable n) :
    t'.isHandlerLocal n = t.isHandlerLocal (source n) :=
  isHandlerLocal_congr
    (r.around_eq NodeKind.handling?_mapChildren (fun _ => NodeKind.handling?_eq_none) hn)

end Carried

/-! ## A raise in the place of an expression -/

namespace Lifted

variable {c : Cut t id} {e : Expr}

/-- A rewrite makes no constants and takes none away. -/
theorem constant?_eq (l : Lifted c t') (hn : n ≠ c.raise) : t'.constant? n = t.constant? n := by
  rw [constant?, constant?]
  by_cases hp : t.parent id = some n
  · rw [l.kind_holder n hp, NodeKind.redirect, NodeKind.constant?_mapChildren]
  · rw [l.kind_other n hn hp]

theorem fate (l : Lifted c t') (h : t.WellFormed) (hid : t.Reachable id)
    (hy : t.yieldsToRaise id = true) (he : t.kind id = .expr e) (hn : t.Reachable n)
    (hne : n ≠ id) : Fate t t' (Lifted.origin c) n := by
  by_cases hnr : n = c.raise
  · subst hnr
    refine .piece (origin_raise c) hid c hy ?_ fun d hd => ?_
    · rw [he, l.kind_raise]
      exact .lifted e _ _ _
    · rw [l.children_raise] at hd
      refine ⟨origin_of_ne ?_, hd⟩
      rcases List.mem_append.mp hd with hd | hd
      · exact (c.held_of_kept h hid hd).2.2.2
      · exact (c.held_of_shown h hid hd).2.2.2.2
  -- the raise is a child of the node that gave way only
  have hnot : ∀ d ∈ t.children n, d ≠ c.raise := by
    rintro d hd rfl
    exact hne (Option.some.inj ((h.parent_child hn hd).symm.trans (c.parent_raise h hid)))
  by_cases hp : t.parent id = some n
  · refine .stayed (f := fun d => if d = id then c.raise else d) (origin_of_ne hnr) (if_neg hne)
      (l.kind_holder n hp) fun d hd => ?_
    by_cases hdid : d = id
    · rw [if_pos hdid, origin_raise, hdid, constant?_of_yields hy, constant?, l.kind_raise]
      exact ⟨rfl, rfl⟩
    · rw [if_neg hdid]
      exact ⟨origin_of_ne (hnot d hd), l.constant?_eq (hnot d hd)⟩
  · refine .stayed (f := fun d => d) (origin_of_ne hnr) rfl ?_ fun d hd =>
      ⟨origin_of_ne (hnot d hd), l.constant?_eq (hnot d hd)⟩
    rw [l.kind_other n hnr hp, NodeKind.mapChildren_id]

theorem carried (l : Lifted c t') (h : t.WellFormed) (hid : t.Reachable id)
    (hy : t.yieldsToRaise id = true) (he : t.kind id = .expr e) :
    Carried t t' (Lifted.origin c) where
  wellFormed_old := h
  wellFormed_new := (l.closed h hid).wellFormed
  root := l.map_origin_root h hid
  fate hn := by
    obtain ⟨hnt, hne⟩ := (l.closed h hid).of_reachable hn
    exact l.fate h hid hy he hnt hne
  place {n} hn := ⟨n, ((l.closed h hid).of_reachable hn).1, l.location_eq n⟩

end Lifted

/-! ## Statements in the place of one -/

namespace Spread

variable {c : Cut t id} {holder : NodeId} {left right : List NodeId} {s : Stmt}

/-- The new statements stand for the one whose place they take. -/
def origin (_ : Cut t id) (n : NodeId) : NodeId := if t.Has n then n else id

theorem origin_of_has (hn : t.Has n) : origin c n = n := if_pos hn

theorem origin_fresh (hn : n ∈ t.freshIds (c.kept.length + 1)) : origin c n = id :=
  if_neg fun hhas => not_mem_freshIds hhas hn

theorem constant?_eq (r : Spread c holder left right t') (w : Placed t id holder left right)
    (hn : t.Has n) : t'.constant? n = t.constant? n := by
  rw [constant?, constant?]
  by_cases hnh : n = holder
  · rw [hnh, r.kind_holder, w.kind_eq]
    rfl
  by_cases hnr : n = c.raise
  · rw [hnr, r.kind_raise, c.kind_raise]
    rfl
  · rw [r.kind_other n hn hnh hnr]

/-- A node that was there holds what it held, unless it is the sequence. -/
theorem fate_old (r : Spread c holder left right t') (h : t.WellFormed) (hid : t.Reachable id)
    (w : Placed t id holder left right) (hn : t.Reachable n) (hnr : n ≠ c.raise) :
    Fate t t' (origin c) n := by
  have hhas := h.has_of_reachable hn hid c.raise_mem
  by_cases hnh : n = holder
  · subst hnh
    refine .sequence (origin_of_has hhas) w.kind_eq r.kind_holder fun d hd => ?_
    have hside : ∀ {d}, d ∈ left ++ right → origin c d ∈ left ++ id :: right := by
      intro d hd
      have hmem := (sibling (c := c) h hid w hd).1
      rw [origin_of_has (h.has_child hn hmem), ← w.children_eq]
      exact hmem
    rw [List.append_assoc, List.mem_append, List.mem_append] at hd
    rcases hd with hd | hd | hd
    · exact hside (List.mem_append_left _ hd)
    · rw [origin_fresh hd]
      exact List.mem_append_right _ List.mem_cons_self
    · exact hside (List.mem_append_right _ hd)
  · refine .stayed (f := fun d => d) (origin_of_has hhas) rfl ?_ fun d hd =>
      ⟨origin_of_has (h.has_child hn hd), r.constant?_eq w (h.has_child hn hd)⟩
    rw [r.kind_other n hhas hnh hnr, NodeKind.mapChildren_id]

theorem fate_fresh (r : Spread c holder left right t') (h : t.WellFormed) (hid : t.Reachable id)
    (hy : t.yieldsToRaise id = true) (hs : t.kind id = .stmt s)
    (hn : n ∈ t.freshIds (c.kept.length + 1)) : Fate t t' (origin c) n := by
  rcases fresh_cases hn with ⟨i, e, hi, rfl⟩ | rfl
  · refine .piece (origin_fresh hn) hid c hy ?_ fun d hd => ?_
    · rw [hs, r.kind_effect i e hi]
      exact .effect s e
    · rw [r.children_effect hi, List.mem_singleton] at hd
      have hmem : d ∈ c.kept := hd ▸ List.mem_of_getElem? hi
      exact ⟨origin_of_has (c.has_of_kept h hid hmem), List.mem_append_left _ hmem⟩
  · refine .piece (origin_fresh hn) hid c hy ?_ fun d hd => ?_
    · rw [hs, r.kind_last]
      exact .raised s _ _
    · rw [r.children_last] at hd
      exact ⟨origin_of_has (c.has_of_shown h hid hd), List.mem_append_right _ hd⟩

theorem carried (r : Spread c holder left right t') (h : t.WellFormed) (hid : t.Reachable id)
    (hy : t.yieldsToRaise id = true) (hs : t.kind id = .stmt s)
    (w : Placed t id holder left right) : Carried t t' (origin c) where
  wellFormed_old := h
  wellFormed_new := (r.closed h hid w).wellFormed
  root := by
    rw [r.root_eq]
    cases hroot : t.root with
    | none => rfl
    | some root =>
        have hreach : t.Reachable root := ⟨root, hroot, Reaches.refl t root⟩
        exact congrArg some (origin_of_has (h.has_of_reachable hreach hid c.raise_mem))
  fate hn := by
    rcases (r.closed h hid w).of_reachable hn with ⟨hnt, -, hnr⟩ | hfresh
    · exact r.fate_old h hid w hnt hnr
    · exact r.fate_fresh h hid hy hs hfresh
  place {n} hn := by
    rcases (r.closed h hid w).of_reachable hn with ⟨hnt, -, -⟩ | hfresh
    · exact ⟨n, hnt, r.location_old n (h.has_of_reachable hnt hid c.raise_mem)⟩
    · rcases fresh_cases hfresh with ⟨i, e, hi, rfl⟩ | rfl
      · exact ⟨e, (c.held_of_kept h hid (List.mem_of_getElem? hi)).1, r.location_effect i e hi⟩
      · exact ⟨c.raise, Cut.reachable_raise hid c, r.location_last⟩

end Spread

/-! ## The end of a sequence -/

theorem Truncated.carried {holder : NodeId} {left right : List NodeId}
    (r : Truncated t id holder left right t') (h : t.WellFormed) (hid : t.Reachable id)
    (w : Placed t id holder left right) : Carried t t' fun n => n where
  wellFormed_old := h
  wellFormed_new := (r.closed h hid w).wellFormed
  root := by
    rw [r.root_eq]
    exact Option.map_id'
  fate {n} hn := by
    by_cases hnh : n = holder
    · rw [hnh]
      refine .sequence rfl w.kind_eq r.kind_holder fun d hd => ?_
      rcases List.mem_append.mp hd with hd | hd
      · exact List.mem_append_left _ hd
      · rw [List.mem_singleton.mp hd]
        exact List.mem_append_right _ List.mem_cons_self
    · refine .stayed (f := fun d => d) rfl rfl ?_ fun d _ => ⟨rfl, ?_⟩
      · rw [r.kind_other n hnh, NodeKind.mapChildren_id]
      · rw [constant?, constant?]
        by_cases hdh : d = holder
        · rw [hdh, r.kind_holder, w.kind_eq]
          rfl
        · rw [r.kind_other d hdh]
  place {n} hn := ⟨n, ((r.closed h hid w).of_reachable hn).1, r.location_eq n⟩

/-- After a rewrite every node has its fate. -/
theorem Rewrite.carried (r : Rewrite t t') (h : t.WellFormed) :
    ∃ source, Carried t t' source := by
  cases r with
  | lift hid hy he c l => exact ⟨_, l.carried h hid hy he⟩
  | spread hid hy hs c w s => exact ⟨_, s.carried h hid hy hs w⟩
  | truncate hid _ w _ r => exact ⟨_, r.carried h hid w⟩

end Tree
end CompilerBackend
