import CompilerBackend.Proofs.Raise.Propagation
import CompilerBackend.Proofs.Tree.Behaviour
/-!
# The propagation of raises keeps the behaviour

What a node does is cut where a raise among its children is evaluated. `behaviour_cut` says what
is left: the side effects before the raise, its own, its type and its value, then the raise. The
rewrites rearrange exactly that. Each of them is shown by giving the behaviour of every node that
is left in terms of the old tree and checking the equations of the new one, so the order in which
the tree is searched plays no part.
-/

namespace CompilerBackend
namespace Tree

variable {ε : Type*} {o : Oracle ε} {t t' : Tree} {id n : NodeId}

/-! ## Where a raise cuts a behaviour -/

def Cut.ending (c : Cut t id) (ε : Type*) : Behaviour ε :=
  .stop (.raises c.exceptionType c.value none (t.location c.raise))

theorem Cut.stops_ending (c : Cut t id) : (c.ending ε).Stops :=
  Behaviour.stops_stop nofun

/-- A node that gives way to a raise evaluates its children first. -/
theorem exists_meaning_of_yields (o : Oracle ε) (hy : t.yieldsToRaise id = true) (n : NodeId)
    (place : Location) (bs : List (Behaviour ε)) :
    ∃ last, o.meaning n place bs (t.kind id) = (Behaviour.runAll bs).andThen last := by
  rw [yieldsToRaise] at hy
  split at hy
  · rename_i hk
    rw [hk]
    exact ⟨_, rfl⟩
  · rename_i hk
    rw [hk]
    exact ⟨_, rfl⟩
  · rename_i hk
    rw [hk]
    exact ⟨_, rfl⟩
  · rename_i hk
    rw [hk]
    exact ⟨_, (Behaviour.andThen_skip _).symm⟩
  · rename_i exceptionType value traceback hk
    rw [hk]
    cases exceptionType <;> exact ⟨_, rfl⟩
  · exact Bool.noConfusion hy

section Cut

variable (h : t.WellFormed) (hid : t.Reachable id) (c : Cut t id)
include h hid c

theorem behaviour_raise : t.behaviour o c.raise =
    (Behaviour.runAll ((t.children c.raise).map (t.behaviour o))).andThen (c.ending ε) := by
  rw [h.behaviour_eq (Cut.reachable_raise hid c), c.kind_raise]
  rfl

theorem stops_raise : (t.behaviour o c.raise).Stops := by
  rw [behaviour_raise h hid c]
  exact Behaviour.Stops.of_andThen _ c.stops_ending

/-- Of a node that gives way to a raise only this is left: the side effects before the raise and
those of the raise, its type and its value, and the end of the raise. -/
theorem behaviour_cut (hy : t.yieldsToRaise id = true) : t.behaviour o id =
    (Behaviour.runAll ((c.kept ++ c.exceptionType :: c.value.toList).map (t.behaviour o))).andThen
      (c.ending ε) := by
  obtain ⟨last, hlast⟩ := exists_meaning_of_yields o hy id (t.location id)
    ((t.children id).map (t.behaviour o))
  have hstops := stops_raise (o := o) h hid c
  have hmoved : Behaviour.runAll (c.before.map (t.behaviour o)) =
      Behaviour.runAll (c.moved.map (t.behaviour o)) :=
    (Behaviour.runAll_filter fun _ _ hq => behaviour_of_quiet hq).symm
  -- the raise stops, so what stands behind it is never evaluated
  have hchildren : Behaviour.runAll ((t.children id).map (t.behaviour o)) =
      (Behaviour.runAll (c.moved.map (t.behaviour o))).andThen (t.behaviour o c.raise) := by
    rw [c.children_eq, List.map_append, List.map_cons, hstops.runAll_cut, hmoved]
  have hall : c.kept ++ c.exceptionType :: c.value.toList = c.moved ++ t.children c.raise := by
    rw [c.children_raise, Cut.kept, List.append_assoc]
  rw [h.behaviour_eq hid, hlast, hchildren, Behaviour.andThen_assoc, hstops.andThen_eq, hall,
    List.map_append, Behaviour.runAll_append, Behaviour.andThen_assoc, behaviour_raise h hid c]

theorem stops_cut (hy : t.yieldsToRaise id = true) : (t.behaviour o id).Stops := by
  rw [behaviour_cut h hid c hy]
  exact Behaviour.Stops.of_andThen _ c.stops_ending

end Cut

/-! ## A raise in the place of an expression -/

namespace Lifted

variable {c : Cut t id}

/-- What stands for a node that is left: the node that gave way for the raise. -/
def origin (c : Cut t id) (n : NodeId) : NodeId := if n = c.raise then id else n

theorem origin_raise (c : Cut t id) : origin c c.raise = id := if_pos rfl

theorem origin_of_ne (hn : n ≠ c.raise) : origin c n = n := if_neg hn

/-- The children of a node that is left stand for those it had. -/
theorem map_origin (l : Lifted c t') (h : t.WellFormed) (hid : t.Reachable id)
    (hn : t.Reachable n) (hne : n ≠ id) (hnr : n ≠ c.raise) :
    (t'.children n).map (origin c) = t.children n := by
  -- the raise is a child of the node that gave way only
  have hnot : ∀ {d}, d ∈ t.children n → d ≠ c.raise := by
    rintro d hd rfl
    exact hne (Option.some.inj ((h.parent_child hn hd).symm.trans (c.parent_raise h hid)))
  by_cases hp : t.parent id = some n
  · rw [l.children_holder hp, List.map_map]
    refine (List.map_congr_left fun d hd => ?_).trans (List.map_id _)
    show origin c (if d = id then c.raise else d) = d
    by_cases hdid : d = id
    · rw [if_pos hdid, origin_raise, hdid]
    · rw [if_neg hdid, origin_of_ne (hnot hd)]
  · rw [l.children_other hnr hp]
    exact (List.map_congr_left fun d hd => origin_of_ne (hnot hd)).trans (List.map_id _)

/-- The raise does what the node did; the others do what they did. -/
theorem behaviour_eq (l : Lifted c t') (h : t.WellFormed) (hid : t.Reachable id)
    (hy : t.yieldsToRaise id = true) (hn : t'.Reachable n) :
    t'.behaviour o n = t.behaviour o (origin c n) := by
  have closed := l.closed h hid
  refine closed.wellFormed.behaviour_unique (f := t.behaviour o ∘ origin c) ?_ hn
  intro n hn
  obtain ⟨hnt, hne⟩ := closed.of_reachable hn
  show _ = t.behaviour o (origin c n)
  by_cases hnr : n = c.raise
  · have hsame : (t'.children c.raise).map (t.behaviour o ∘ origin c) =
        (c.kept ++ c.exceptionType :: c.value.toList).map (t.behaviour o) := by
      rw [l.children_raise]
      refine List.map_congr_left fun d hd => congrArg _ (origin_of_ne ?_)
      rcases List.mem_append.mp hd with hk | hs
      · exact (c.held_of_kept h hid hk).2.2.2
      · exact (c.held_of_shown h hid hs).2.2.2.2
    rw [hnr, origin_raise, behaviour_cut h hid c hy, hsame, l.kind_raise, l.location_eq]
    rfl
  · have hsame : (t'.children n).map (t.behaviour o ∘ origin c) =
        (t.children n).map (t.behaviour o) := by
      rw [← List.map_map, l.map_origin h hid hnt hne hnr]
    rw [origin_of_ne hnr, h.behaviour_eq hnt, hsame, l.location_eq]
    by_cases hp : t.parent id = some n
    · -- the holder names the raise where it named the node, and it never gets past that slot
      rw [l.kind_holder n hp]
      have hmem := List.mem_map_of_mem (f := t.behaviour o) (h.holder hid hp).2
      exact Oracle.meaning_mapChildren ((stops_cut h hid c hy).runAll_of_mem hmem) _ _
    · rw [l.kind_other n hnr hp]

theorem map_origin_root (l : Lifted c t') (h : t.WellFormed) (hid : t.Reachable id) :
    t'.root.map (origin c) = t.root := by
  rw [l.root_eq]
  by_cases hp : t.parent id = none
  · rw [if_pos hp, Option.map_some, origin_raise, h.root_of_parent_none hid hp]
  · rw [if_neg hp]
    cases hroot : t.root with
    | none => rfl
    | some root =>
        refine congrArg some (origin_of_ne ?_)
        rintro rfl
        exact absurd ((c.parent_raise h hid).symm.trans (h _ hroot).1) (Option.some_ne_none id)

end Lifted

/-! ## Statements in the place of one -/

namespace Spread

variable {c : Cut t id} {holder : NodeId} {left right : List NodeId} {s : Stmt}

/-- What the new statements do: the side effects one by one, then type, value and the raise. -/
def added (o : Oracle ε) (c : Cut t id) : List (Behaviour ε) :=
  c.kept.map (t.behaviour o) ++
    [(Behaviour.runAll ((c.exceptionType :: c.value.toList).map (t.behaviour o))).andThen
      (c.ending ε)]

/-- What the nodes that are left do: those that were there what they did. -/
def assigned (o : Oracle ε) (c : Cut t id) (n : NodeId) : Behaviour ε :=
  if t.Has n then t.behaviour o n else ((added o c)[n.index - t.size]?).getD .skip

theorem assigned_of_has (hn : t.Has n) : assigned o c n = t.behaviour o n := if_pos hn

theorem assigned_fresh {i : Nat} {b : Behaviour ε} (hi : (added o c)[i]? = some b) :
    assigned o c (t.fresh i) = b := by
  have hindex : (t.fresh i).index - t.size = i := Nat.add_sub_cancel_left t.size i
  rw [assigned, if_neg (not_has_fresh t i), hindex, hi]
  rfl

theorem assigned_effect {i : Nat} {e : NodeId} (hi : c.kept[i]? = some e) :
    assigned o c (t.fresh i) = t.behaviour o e := by
  have hlt := (List.getElem?_eq_some_iff.mp hi).1
  refine assigned_fresh ?_
  rw [added, List.getElem?_append_left (by rwa [List.length_map]), List.getElem?_map, hi]
  rfl

theorem assigned_last : assigned o c (t.fresh c.kept.length) =
    (Behaviour.runAll ((c.exceptionType :: c.value.toList).map (t.behaviour o))).andThen
      (c.ending ε) := by
  have hlen : (c.kept.map (t.behaviour o)).length = c.kept.length := List.length_map _
  refine assigned_fresh ?_
  rw [added, ← hlen, List.getElem?_concat_length]

theorem map_assigned_freshIds :
    (t.freshIds (c.kept.length + 1)).map (assigned o c) = added o c := by
  have hlen : (added o c).length = c.kept.length + 1 := by
    rw [added, List.length_append, List.length_map]
    rfl
  refine List.ext_getElem (by rw [List.length_map, length_freshIds, hlen]) fun i hi hi' => ?_
  simp only [freshIds, List.getElem_map, List.getElem_range]
  exact assigned_fresh (List.getElem?_eq_getElem hi')

/-- The new statements together do what the one did whose place they take. -/
theorem runAll_added (h : t.WellFormed) (hid : t.Reachable id) (c : Cut t id)
    (hy : t.yieldsToRaise id = true) : Behaviour.runAll (added o c) = t.behaviour o id := by
  rw [behaviour_cut h hid c hy, added, List.map_append, Behaviour.runAll_append,
    Behaviour.runAll_append, Behaviour.runAll_singleton, Behaviour.andThen_assoc]

theorem map_assigned_children (h : t.WellFormed) (hn : t.Reachable n) :
    (t.children n).map (assigned o c) = (t.children n).map (t.behaviour o) :=
  List.map_congr_left fun _ hd => assigned_of_has (h.has_child hn hd)

/-- Neither sequence gets past the statement, or past what stands in its place. -/
theorem runAll_holder (r : Spread c holder left right t') (h : t.WellFormed)
    (hid : t.Reachable id) (hy : t.yieldsToRaise id = true)
    (w : Placed t id holder left right) :
    Behaviour.runAll ((t'.children holder).map (assigned o c)) =
      Behaviour.runAll ((t.children holder).map (t.behaviour o)) := by
  have hstops := stops_cut (o := o) h hid c hy
  have hleft : left.map (assigned o c) = left.map (t.behaviour o) := by
    refine List.map_congr_left fun d hd => assigned_of_has ?_
    exact h.has_child (w.reachable_holder h hid)
      (sibling (c := c) h hid w (List.mem_append_left right hd)).1
  have hnew : Behaviour.runAll (((added o c) ++ right.map (assigned o c))) = t.behaviour o id := by
    rw [Behaviour.runAll_append, runAll_added h hid c hy, hstops.andThen_eq]
  rw [r.children_holder, w.children_eq, List.append_assoc, List.map_append, List.map_append,
    map_assigned_freshIds, hleft, Behaviour.runAll_append, hnew, List.map_append, List.map_cons,
    hstops.runAll_cut]

theorem behaviour_eq (r : Spread c holder left right t') (h : t.WellFormed)
    (hid : t.Reachable id) (hy : t.yieldsToRaise id = true)
    (w : Placed t id holder left right) (hn : t'.Reachable n) :
    t'.behaviour o n = assigned o c n := by
  have closed := r.closed h hid w
  refine closed.wellFormed.behaviour_unique (f := assigned o c) ?_ hn
  intro n hn
  rcases closed.of_reachable hn with ⟨hnt, hne, hnr⟩ | hfresh
  · have hhas := h.has_of_reachable hnt hid c.raise_mem
    rw [assigned_of_has hhas, h.behaviour_eq hnt, r.location_old n hhas]
    by_cases hnh : n = holder
    · rw [hnh, r.kind_holder, w.kind_eq]
      exact r.runAll_holder h hid hy w
    · rw [r.children_other hhas hnh hnr, map_assigned_children h hnt,
        r.kind_other n hhas hnh hnr]
  · rcases fresh_cases hfresh with ⟨i, e, hi, rfl⟩ | rfl
    · have hhas := c.has_of_kept h hid (List.mem_of_getElem? hi)
      rw [assigned_effect hi, r.children_effect hi, r.kind_effect i e hi, List.map_singleton,
        assigned_of_has hhas]
      exact Behaviour.runAll_singleton _
    · have hshown : (c.exceptionType :: c.value.toList).map (assigned o c) =
          (c.exceptionType :: c.value.toList).map (t.behaviour o) :=
        List.map_congr_left fun d hd => assigned_of_has (c.has_of_shown h hid hd)
      rw [assigned_last, r.children_last, r.kind_last, hshown, r.location_last]
      rfl

/-- The children of an old node do what the children it had did, unless it is the sequence. -/
theorem map_behaviour_children (r : Spread c holder left right t') (h : t.WellFormed)
    (hid : t.Reachable id) (hy : t.yieldsToRaise id = true)
    (w : Placed t id holder left right) (hn : t'.Reachable n) (hnt : t.Reachable n)
    (hnh : n ≠ holder) (hnr : n ≠ c.raise) :
    (t'.children n).map (t'.behaviour o) = (t.children n).map (t.behaviour o) := by
  have hhas := h.has_of_reachable hnt hid c.raise_mem
  rw [← map_assigned_children (c := c) h hnt, ← r.children_other hhas hnh hnr]
  exact List.map_congr_left fun d hd => r.behaviour_eq h hid hy w (hn.child hd)

end Spread

/-! ## The end of a sequence -/

namespace Truncated

variable {holder : NodeId} {left right : List NodeId}
  {exceptionType value traceback : Option NodeId}

theorem stops_of_raise (h : t.WellFormed) (hid : t.Reachable id)
    (hs : t.kind id = .stmt (.raise exceptionType value traceback)) :
    (t.behaviour o id).Stops := by
  rw [h.behaviour_eq hid, hs]
  cases exceptionType <;> exact Behaviour.Stops.of_andThen _ (Behaviour.stops_stop nofun)

/-- Every node that is left does what it did. -/
theorem behaviour_eq (r : Truncated t id holder left right t') (h : t.WellFormed)
    (hid : t.Reachable id) (hs : t.kind id = .stmt (.raise exceptionType value traceback))
    (w : Placed t id holder left right) (hn : t'.Reachable n) :
    t'.behaviour o n = t.behaviour o n := by
  have closed := r.closed h hid w
  -- the old behaviour satisfies the equations of the new tree
  refine closed.wellFormed.behaviour_unique (f := t.behaviour o) ?_ hn
  intro n hn
  have hnt := (closed.of_reachable hn).1
  rw [h.behaviour_eq hnt, r.location_eq]
  by_cases hnh : n = holder
  · have hstops := stops_of_raise (o := o) h hid hs
    rw [hnh, r.children_holder, w.children_eq, r.kind_holder, w.kind_eq]
    show Behaviour.runAll _ = Behaviour.runAll _
    rw [List.map_append, List.map_append, List.map_cons, List.map_cons, hstops.runAll_cut,
      hstops.runAll_cut]
  · rw [r.children_other hnh, r.kind_other n hnh]

end Truncated

/-! ## The whole propagation -/

/-- The root does what it did, and so do the bodies of all functions that are left. -/
structure KeepsBehaviour (o : Oracle ε) (t t' : Tree) : Prop where
  root : t'.root.map (t'.behaviour o) = t.root.map (t.behaviour o)
  function : ∀ {n : NodeId} {f' : FunctionBody}, t'.Reachable n →
    t'.kind n = .expr (.function f') →
      ∃ f : FunctionBody, t.Reachable n ∧ t.kind n = .expr (.function f) ∧
        f' = { f with body := f'.body } ∧
          f'.body.map (t'.behaviour o) = f.body.map (t.behaviour o)

namespace KeepsBehaviour

theorem refl (o : Oracle ε) (t : Tree) : KeepsBehaviour o t t where
  root := rfl
  function := fun hn hk => ⟨_, hn, hk, rfl, rfl⟩

theorem trans {t'' : Tree} (k : KeepsBehaviour o t t') (k' : KeepsBehaviour o t' t'') :
    KeepsBehaviour o t t'' where
  root := k'.root.trans k.root
  function := by
    intro n f'' hn hk
    obtain ⟨f', hn', hk', hdata', hbody'⟩ := k'.function hn hk
    obtain ⟨f, hnt, hkt, hdata, hbody⟩ := k.function hn' hk'
    refine ⟨f, hnt, hkt, ?_, hbody'.trans hbody⟩
    rw [hdata', hdata]

end KeepsBehaviour

/-- The body of a function is its one child. -/
theorem map_body {f f' : FunctionBody} (hk : t.kind n = .expr (.function f))
    (hk' : t'.kind n = .expr (.function f'))
    (h : (t'.children n).map (t'.behaviour o) = (t.children n).map (t.behaviour o)) :
    f'.body.map (t'.behaviour o) = f.body.map (t.behaviour o) := by
  rw [children, children, hk, hk'] at h
  change f'.body.toList.map _ = f.body.toList.map _ at h
  cases hb : f.body <;> cases hb' : f'.body <;> rw [hb, hb'] at h
  · rfl
  · exact absurd h (List.cons_ne_nil _ _)
  · exact absurd h.symm (List.cons_ne_nil _ _)
  · exact congrArg some (List.cons.inj h).1

theorem Lifted.keepsBehaviour {c : Cut t id} (l : Lifted c t') (h : t.WellFormed)
    (hid : t.Reachable id) (hy : t.yieldsToRaise id = true) : KeepsBehaviour o t t' where
  root := by
    rw [← l.map_origin_root h hid, Option.map_map]
    cases hroot : t'.root with
    | none => rfl
    | some root =>
        exact congrArg some (l.behaviour_eq h hid hy ⟨root, hroot, Reaches.refl t' root⟩)
  function := by
    intro n f' hn hk'
    obtain ⟨hnt, hne⟩ := (l.closed h hid).of_reachable hn
    have hnr : n ≠ c.raise := by
      rintro rfl
      rw [l.kind_raise] at hk'
      exact Expr.noConfusion (NodeKind.expr.inj hk')
    obtain ⟨f, hk, hdata⟩ : ∃ f : FunctionBody, t.kind n = .expr (.function f) ∧
        f' = { f with body := f'.body } := by
      by_cases hp : t.parent id = some n
      · rw [l.kind_holder n hp] at hk'
        exact NodeKind.function_of_mapChildren hk'
      · exact ⟨f', (l.kind_other n hnr hp).symm.trans hk', rfl⟩
    refine ⟨f, hnt, hk, hdata, map_body hk hk' ?_⟩
    rw [← l.map_origin h hid hnt hne hnr, List.map_map]
    exact List.map_congr_left fun d hd => l.behaviour_eq h hid hy (hn.child hd)

theorem Spread.keepsBehaviour {c : Cut t id} {holder : NodeId} {left right : List NodeId}
    (r : Spread c holder left right t') (h : t.WellFormed) (hid : t.Reachable id)
    (hy : t.yieldsToRaise id = true) (w : Placed t id holder left right) :
    KeepsBehaviour o t t' where
  root := by
    rw [r.root_eq]
    cases hroot : t.root with
    | none => rfl
    | some root =>
        have hrt : t.Reachable root := ⟨root, hroot, Reaches.refl t root⟩
        have hr' : t'.Reachable root := ⟨root, r.root_eq.trans hroot, Reaches.refl t' root⟩
        exact congrArg some ((r.behaviour_eq h hid hy w hr').trans
          (assigned_of_has (h.has_of_reachable hrt hid c.raise_mem)))
  function := by
    intro n f' hn hk'
    rcases (r.closed h hid w).of_reachable hn with ⟨hnt, hne, hnr⟩ | hfresh
    · have hnh : n ≠ holder := by
        rintro rfl
        rw [r.kind_holder] at hk'
        exact NodeKind.noConfusion hk'
      have hk := (r.kind_other n (h.has_of_reachable hnt hid c.raise_mem) hnh hnr).symm.trans hk'
      exact ⟨f', hnt, hk, rfl,
        map_body hk hk' (r.map_behaviour_children h hid hy w hn hnt hnh hnr)⟩
    · -- the new nodes are statements
      rcases fresh_cases hfresh with ⟨i, e, hi, rfl⟩ | rfl
      · rw [r.kind_effect i e hi] at hk'
        exact NodeKind.noConfusion hk'
      · rw [r.kind_last] at hk'
        exact NodeKind.noConfusion hk'

theorem Truncated.keepsBehaviour {holder : NodeId} {left right : List NodeId}
    {exceptionType value traceback : Option NodeId} (r : Truncated t id holder left right t')
    (h : t.WellFormed) (hid : t.Reachable id)
    (hs : t.kind id = .stmt (.raise exceptionType value traceback))
    (w : Placed t id holder left right) : KeepsBehaviour o t t' where
  root := by
    rw [r.root_eq]
    cases hroot : t.root with
    | none => rfl
    | some root =>
        have hr' : t'.Reachable root := ⟨root, r.root_eq.trans hroot, Reaches.refl t' root⟩
        exact congrArg some (r.behaviour_eq h hid hs w hr')
  function := by
    intro n f' hn hk'
    have hnh : n ≠ holder := by
      rintro rfl
      rw [r.kind_holder] at hk'
      exact NodeKind.noConfusion hk'
    have hk := (r.kind_other n hnh).symm.trans hk'
    refine ⟨f', ((r.closed h hid w).of_reachable hn).1, hk, rfl, map_body hk hk' ?_⟩
    rw [← r.children_other hnh]
    exact List.map_congr_left fun d hd => r.behaviour_eq h hid hs w (hn.child hd)

/-- A rewrite keeps the behaviour, whatever the oracle says. -/
theorem Rewrite.keepsBehaviour (r : Rewrite t t') (h : t.WellFormed) (o : Oracle ε) :
    KeepsBehaviour o t t' := by
  cases r with
  | lift hid hy _ c l => exact l.keepsBehaviour h hid hy
  | spread hid hy _ c w s => exact s.keepsBehaviour h hid hy w
  | truncate hid hs w _ r => exact r.keepsBehaviour h hid hs w

/-- The propagation keeps what the tree does: the same events in the same order and the same
ending, after any events before, and whatever the oracle makes of actions, choices and
the other statements. The bodies of the functions that are left, which the root does not run,
keep what they do as well. -/
theorem propagateRaises_behaviour (h : t.WellFormed) (o : Oracle ε) :
    t.propagateRaises.tree.root.map (t.propagateRaises.tree.behaviour o) =
        t.root.map (t.behaviour o) ∧
      ∀ n f', t.propagateRaises.tree.Reachable n →
        t.propagateRaises.tree.kind n = .expr (.function f') →
          ∃ f : FunctionBody, t.Reachable n ∧ t.kind n = .expr (.function f) ∧
            f' = { f with body := f'.body } ∧
              f'.body.map (t.propagateRaises.tree.behaviour o) = f.body.map (t.behaviour o) := by
  obtain ⟨k, run⟩ := exists_run h
  have keeps : KeepsBehaviour o t t.propagateRaises.tree :=
    run.preserves (P := KeepsBehaviour o t) h (KeepsBehaviour.refl o t)
      fun u u' hu hr hk => hk.trans (hr.keepsBehaviour hu o)
  exact ⟨keeps.root, fun _ _ hn hk => keeps.function hn hk⟩

/-- Every action completes, every operand is picked, and other statements run their children. -/
def calm : Oracle Empty where
  answer := fun _ _ => .completes
  picks := fun _ _ _ => true
  other := fun _ _ bs => Behaviour.runAll bs

/-- The calls of `g` and `h`, then the raise; neither the call of `f` nor the print. -/
theorem propagateRaises_behaviour_raisingCall : raisingCall.WellFormed ∧
    raisingCall.propagateRaises.tree.root.map
        (raisingCall.propagateRaises.tree.behaviour calm) =
      raisingCall.root.map (raisingCall.behaviour calm) ∧
    raisingCall.behaviour calm ⟨0⟩ [] =
      ([⟨5⟩, ⟨6⟩], .raises ⟨10⟩ none none { file := "raising.py", line := 4 }) :=
  ⟨wellFormed_raisingCall, (propagateRaises_behaviour wellFormed_raisingCall calm).1, rfl⟩

end Tree
end CompilerBackend
