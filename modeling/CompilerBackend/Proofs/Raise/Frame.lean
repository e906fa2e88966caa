import CompilerBackend.Proofs.Raise.Origin
import CompilerBackend.Proofs.Raise.Propagation
/-!
# What the propagation of raises touches

A node that was there keeps its place, and its kind but for what a rewrite is for: a sequence gets
other statements, a raise gets side effects, and a raise stands in a slot that held an operation or
a call. Nodes outside the tree are left alone. What is new are statements, and those that are left
in the tree stand where the raise or the side effect stood that they are made of.

- `Amended`: what a node may become.
- `Introduced`: what a new node is.
- `Framed`: both for all nodes of two arenas; `Framed.trans` composes it, `Rewrite.framed` is one
  step.
- `propagateRaises_frame`: a whole propagation.
-/

namespace CompilerBackend

theorem NodeKind.mapChildren_mapChildren (f g : NodeId → NodeId) (k : NodeKind) :
    (k.mapChildren f).mapChildren g = k.mapChildren (g ∘ f) := by
  cases k <;>
    simp [mapChildren, Stmt.mapChildren_mapChildren, Expr.mapChildren_mapChildren]

def NodeKind.isApplication : NodeKind → Bool
  | .expr (.operation _ _) | .expr (.call _ _ _ _ _) => true
  | _ => false

namespace Tree

variable {t u t' : Tree} {id n : NodeId} {f g : NodeId → NodeId} {k k' k'' : NodeKind}

/-! ## Slots -/

/-- A slot that `f` changes held an operation or a call, and gets a raise. -/
def Redirects (t : Tree) (f : NodeId → NodeId) : Prop :=
  ∀ d, f d ≠ d → (t.kind d).isApplication = true ∧ t.isRaise (f d) = true

theorem redirects_id (t : Tree) : t.Redirects fun d => d := fun _ h => absurd rfl h

theorem isApplication_of_isRaise (h : t.isRaise n = true) : (t.kind n).isApplication = false := by
  obtain ⟨exceptionType, value, effects, hk⟩ := isRaise_iff.mp h
  rw [hk]
  rfl

theorem Has.of_isRaise (h : t.isRaise n = true) : t.Has n := by
  obtain ⟨exceptionType, value, effects, hk⟩ := isRaise_iff.mp h
  exact Has.of_expr hk

theorem Has.of_isApplication (h : (t.kind n).isApplication = true) : t.Has n := by
  by_contra hn
  rw [kind, node_of_not_has hn] at h
  exact Bool.noConfusion h

namespace Redirects

theorem has_iff (h : t.Redirects f) (d : NodeId) : t.Has (f d) ↔ t.Has d := by
  by_cases hd : f d = d
  · rw [hd]
  · obtain ⟨happ, hraise⟩ := h d hd
    exact iff_of_true (Has.of_isRaise hraise) (Has.of_isApplication happ)

/-- A raise stays in its slot, so one redirection after another is one. -/
theorem comp (h : t.Redirects f) (h' : t.Redirects g) : t.Redirects (g ∘ f) := by
  intro d hne
  by_cases hd : f d = d
  · rw [Function.comp_apply, hd] at hne ⊢
    exact h' d hne
  · obtain ⟨happ, hraise⟩ := h d hd
    have hkeep : g (f d) = f d := by
      by_contra hmove
      have hnot := isApplication_of_isRaise hraise
      rw [(h' (f d) hmove).1] at hnot
      exact Bool.noConfusion hnot
    rw [Function.comp_apply, hkeep]
    exact ⟨happ, hraise⟩

/-- A slot that ends up without a raise has never been changed. -/
theorem eq_of_not_isRaise (h : t.Redirects f) (h' : t.Redirects g) {d : NodeId}
    (hd : t.isRaise (g (f d)) ≠ true) : f d = d ∧ g (f d) = d := by
  have hsecond : g (f d) = f d := by
    by_contra hmove
    exact hd (h' (f d) hmove).2
  have hfirst : f d = d := by
    by_contra hmove
    rw [hsecond] at hd
    exact hd (h d hmove).2
  exact ⟨hfirst, hsecond.trans hfirst⟩

end Redirects

/-! ## Nodes that were there -/

/-- What may become of the kind of a node: raises in the slots of operations and calls, further
side effects of a raise, and in a sequence statements that are gone or new. -/
inductive Amended (t : Tree) : NodeKind → NodeKind → Prop where
  | slots {f : NodeId → NodeId} {k : NodeKind} (redirects : t.Redirects f) :
      Amended t k (k.mapChildren f)
  | raise {f : NodeId → NodeId} {exceptionType : NodeId} {value : Option NodeId}
      {effects : List NodeId} (added : List NodeId) (redirects : t.Redirects f) :
      Amended t (.expr (.raise exceptionType value effects))
        (.expr (.raise (f exceptionType) (value.map f) (added ++ effects.map f)))
  /-- The statements that were there before are some of the old ones, in their order. -/
  | sequence {f : NodeId → NodeId} {old new : List NodeId} (redirects : t.Redirects f)
      (kept : (new.filter fun d => t.Has d).Sublist (old.map f)) :
      Amended t (.sequence old) (.sequence new)

namespace Amended

theorem refl (t : Tree) (k : NodeKind) : Amended t k k := by
  have h : Amended t k (k.mapChildren fun d => d) := .slots (redirects_id t)
  rwa [NodeKind.mapChildren_id] at h

theorem isApplication_eq (h : Amended t k k') : k'.isApplication = k.isApplication := by
  cases h with
  | slots _ =>
      cases k with
      | expr e => cases e <;> rfl
      | _ => rfl
  | raise _ _ => rfl
  | sequence _ _ => rfl

theorem isSequence_iff (h : Amended t k k') :
    (∃ statements, k' = .sequence statements) ↔ ∃ statements, k = .sequence statements := by
  cases h with
  | slots _ => cases k <;> simp [NodeKind.mapChildren]
  | raise _ _ => simp
  | sequence _ _ => simp

/-- A sequence with some of the statements that were there before. -/
theorem of_sequence {old : List NodeId} (h : Amended t (.sequence old) k') :
    ∃ f new, t.Redirects f ∧ k' = .sequence new ∧
      (new.filter fun d => t.Has d).Sublist (old.map f) := by
  cases h with
  | @slots f _ hf => exact ⟨f, old.map f, hf, rfl, List.filter_sublist⟩
  | sequence hf hkept => exact ⟨_, _, hf, rfl, hkept⟩

/-- A raise with the same type and value, or with raises in their place. -/
theorem of_raise {exceptionType : NodeId} {value : Option NodeId} {effects : List NodeId}
    (h : Amended t (.expr (.raise exceptionType value effects)) k') :
    ∃ f added, t.Redirects f ∧
      k' = .expr (.raise (f exceptionType) (value.map f) (added ++ effects.map f)) := by
  cases h with
  | @slots f _ hf => exact ⟨f, [], hf, rfl⟩
  | raise added hf => exact ⟨_, added, hf, rfl⟩

theorem isRaise_iff (h : Amended t k k') :
    (∃ ty v es, k' = .expr (.raise ty v es)) ↔ ∃ ty v es, k = .expr (.raise ty v es) := by
  cases h with
  | slots _ =>
      cases k with
      | expr e => cases e <;> simp [NodeKind.mapChildren, Expr.mapChildren]
      | _ => simp [NodeKind.mapChildren]
  | raise _ _ => simp
  | sequence _ _ => simp

theorem of_stmt {s : Stmt} (h : Amended t (.stmt s) k') :
    ∃ f, t.Redirects f ∧ k' = .stmt (s.mapChildren f) := by
  cases h with
  | @slots f _ hf => exact ⟨f, hf, rfl⟩

end Amended

/-! ## Nodes that are new -/

/-- What a node is that was not there. A slot that holds a raise has held another expression. -/
inductive Introduced (t t' : Tree) (n : NodeId) : Prop where
  /-- A side effect as a statement. -/
  | effect {value : NodeId} (kind : t'.kind n = .stmt (.expression value)) (has : t'.Has value)
      (place : t'.location n = t'.location value ∨ t'.isRaise value = true)
  /-- A raise as a statement; the expression has been taken out of the tree. -/
  | raised {r exceptionType : NodeId} {value : Option NodeId} {effects effects' : List NodeId}
      {f g : NodeId → NodeId} (hf : t.Redirects f) (hg : t.Redirects g)
      (source : t.kind r = .expr (.raise exceptionType value effects))
      (detached : ¬ t'.Reachable r)
      (left : t'.kind r = .expr (.raise (f exceptionType) (value.map f) effects'))
      (kind : t'.kind n =
        .stmt (.raise (some (g (f exceptionType))) ((value.map f).map g) none))
      (place : t'.location n = t.location r)

/-- What is kept of an arena, and what is added to it. -/
structure Framed (t t' : Tree) : Prop where
  size_le : t.size ≤ t'.size
  location_eq : ∀ n, t.Has n → t'.location n = t.location n
  kind : ∀ n, t.Has n → Amended t (t.kind n) (t'.kind n)
  reachable : ∀ n, t.Has n → t'.Reachable n → t.Reachable n
  outside : ∀ n, t.Has n → ¬ t.Reachable n →
    t'.kind n = t.kind n ∧ t'.parent n = t.parent n
  stays : ∀ n, t.Has n → t'.Reachable n → t.inSequence n = true → t'.inSequence n = true
  introduced : ∀ n, t'.Has n → ¬ t.Has n → Introduced t t' n
  held : ∀ n, t'.Has n → ¬ t.Has n → t'.Reachable n → t'.inSequence n = true

namespace Framed

theorem refl (t : Tree) : Framed t t where
  size_le := le_refl _
  location_eq _ _ := rfl
  kind n _ := Amended.refl t (t.kind n)
  reachable _ _ h := h
  outside _ _ _ := ⟨rfl, rfl⟩
  stays _ _ _ h := h
  introduced _ h hn := absurd h hn
  held _ h hn := absurd h hn

theorem has (h : Framed t u) (hn : t.Has n) : u.Has n := Nat.lt_of_lt_of_le hn h.size_le

/-- New nodes are statements, so a raise or an application was one before. -/
theorem has_of_expr (h : Framed t u) {e : Expr} (hk : u.kind n = .expr e) : t.Has n := by
  by_contra hn
  cases h.introduced n (Has.of_expr hk) hn with
  | effect hkind _ _ =>
      rw [hkind] at hk
      exact NodeKind.noConfusion hk
  | raised _ _ _ _ _ hkind _ =>
      rw [hkind] at hk
      exact NodeKind.noConfusion hk

theorem isApplication (h : Framed t u) (hn : (u.kind n).isApplication = true) :
    (t.kind n).isApplication = true := by
  have hhas : t.Has n := by
    cases hk : u.kind n with
    | expr e => exact h.has_of_expr hk
    | _ => rw [hk] at hn; exact Bool.noConfusion hn
  rw [← (h.kind n hhas).isApplication_eq]
  exact hn

/-- A raise was one, and its type and value are those that it had, or raises. -/
theorem raise (h : Framed t u) {exceptionType : NodeId} {value : Option NodeId}
    {effects : List NodeId} (hk : u.kind n = .expr (.raise exceptionType value effects)) :
    ∃ f ty v es, t.Redirects f ∧ t.kind n = .expr (.raise ty v es) ∧ exceptionType = f ty ∧
      value = v.map f := by
  have ha := h.kind n (h.has_of_expr hk)
  obtain ⟨ty, v, es, hty⟩ := ha.isRaise_iff.mp ⟨_, _, _, hk⟩
  rw [hty] at ha
  obtain ⟨f, added, hf, hnew⟩ := ha.of_raise
  obtain ⟨htype, hvalue, -⟩ := Expr.raise.inj (NodeKind.expr.inj (hk.symm.trans hnew))
  exact ⟨f, ty, v, es, hf, hty, htype, hvalue⟩

theorem isRaise (h : Framed t u) (hn : u.isRaise n = true) : t.isRaise n = true := by
  obtain ⟨exceptionType, value, effects, hk⟩ := isRaise_iff.mp hn
  obtain ⟨_, ty, v, es, -, hty, -, -⟩ := h.raise hk
  exact isRaise_iff.mpr ⟨ty, v, es, hty⟩

theorem isRaise_after (h : Framed t u) (hn : t.isRaise n = true) : u.isRaise n = true :=
  isRaise_iff.mpr ((h.kind n (Has.of_isRaise hn)).isRaise_iff.mpr (isRaise_iff.mp hn))

theorem redirects (h : Framed t u) (hf : u.Redirects f) : t.Redirects f := fun d hd =>
  ⟨h.isApplication (hf d hd).1, h.isRaise (hf d hd).2⟩

/-- What is amended twice is amended. -/
theorem amended (h : Framed t u) (h₁ : Amended t k k') (h₂ : Amended u k' k'') :
    Amended t k k'' := by
  cases h₂ with
  | @slots g _ hg =>
      have hg := h.redirects hg
      cases h₁ with
      | slots hf =>
          rw [NodeKind.mapChildren_mapChildren]
          exact .slots (hf.comp hg)
      | @raise f ty v es added hf =>
          have hr : Amended t (.expr (.raise ty v es)) _ := .raise (added.map g) (hf.comp hg)
          simpa [NodeKind.mapChildren, Expr.mapChildren, Function.comp_def] using hr
      | @sequence f old new hf hkept =>
          refine .sequence (hf.comp hg) ?_
          rw [List.filter_map, ← List.map_map]
          refine List.Sublist.map g ?_
          simpa only [Function.comp_def, hg.has_iff] using hkept
  | @raise g ty v es added hg =>
      have hg := h.redirects hg
      obtain ⟨ty₀, v₀, es₀, rfl⟩ := h₁.isRaise_iff.mp ⟨_, _, _, rfl⟩
      obtain ⟨f, first, hf, hk⟩ := h₁.of_raise
      obtain ⟨rfl, rfl, rfl⟩ := Expr.raise.inj (NodeKind.expr.inj hk)
      have hr : Amended t (.expr (.raise ty₀ v₀ es₀)) _ :=
        .raise (added ++ first.map g) (hf.comp hg)
      simpa [Function.comp_def] using hr
  | @sequence g old new hg hkept =>
      have hg := h.redirects hg
      obtain ⟨old₀, rfl⟩ := h₁.isSequence_iff.mp ⟨_, rfl⟩
      obtain ⟨f, mid, hf, hk, hsub⟩ := h₁.of_sequence
      obtain rfl := NodeKind.sequence.inj hk
      refine .sequence (hf.comp hg) ?_
      -- what was there in the beginning was there in between
      have hboth : (new.filter fun d => t.Has d) =
          ((new.filter fun d => u.Has d).filter fun d => t.Has d) := by
        rw [List.filter_filter]
        refine List.filter_congr fun d _ => ?_
        by_cases hd : t.Has d <;> simp [hd, h.has]
      rw [hboth, ← List.map_map]
      refine (hkept.filter _).trans ?_
      rw [List.filter_map]
      refine List.Sublist.map g ?_
      simpa only [Function.comp_def, hg.has_iff] using hsub

/-- A new node stays what it is, whatever is done to the arena afterwards. -/
theorem introduced_before (h : Framed t u) (h' : Framed u t') (hu : u.Has n)
    (i : Introduced t u n) : Introduced t t' n := by
  have hkind := h'.kind n hu
  cases i with
  | @effect value hk hvalue hplace =>
      rw [hk] at hkind
      obtain ⟨g, hg, hnew⟩ := hkind.of_stmt
      by_cases hmove : g value = value
      · have hsame : t'.kind n = .stmt (.expression value) := by
          rw [hnew, Stmt.mapChildren, hmove]
        refine .effect hsame (h'.has hvalue) ?_
        refine hplace.imp (fun hloc => ?_) h'.isRaise_after
        rw [h'.location_eq n hu, hloc, h'.location_eq value hvalue]
      · have hraise := h'.isRaise_after (hg value hmove).2
        exact .effect hnew (Has.of_isRaise hraise) (Or.inr hraise)
  | @raised r ty v es es' f g hf hg hsource hdetached hleft hk hplace =>
      have hr : u.Has r := Has.of_expr hleft
      have hout := h'.outside r hr hdetached
      rw [hk] at hkind
      obtain ⟨g', hg', hnew⟩ := hkind.of_stmt
      refine .raised hf (hg.comp (h.redirects hg')) hsource
        (fun hback => hdetached (h'.reachable r hr hback)) (hout.1.trans hleft) ?_ ?_
      · rw [hnew, Stmt.mapChildren, ← Option.map_map]
        rfl
      · rw [h'.location_eq n hu, hplace]

/-- What is made of a node that has changed is made of the one that was there. -/
theorem introduced_behind (h : Framed t u) (i : Introduced u t' n) : Introduced t t' n := by
  cases i with
  | effect hk hvalue hplace => exact .effect hk hvalue hplace
  | @raised r ty v es es' f g hf hg hsource hdetached hleft hk hplace =>
      obtain ⟨f₀, ty₀, v₀, es₀, hf₀, hfirst, rfl, rfl⟩ := h.raise hsource
      rw [Option.map_map f f₀] at hleft hk
      exact .raised (hf₀.comp (h.redirects hf)) (h.redirects hg) hfirst hdetached hleft hk
        (by rw [hplace, h.location_eq r (Has.of_expr hfirst)])

theorem trans (h : Framed t u) (h' : Framed u t') : Framed t t' where
  size_le := h.size_le.trans h'.size_le
  location_eq n hn := (h'.location_eq n (h.has hn)).trans (h.location_eq n hn)
  kind n hn := h.amended (h.kind n hn) (h'.kind n (h.has hn))
  reachable n hn hr := h.reachable n hn (h'.reachable n (h.has hn) hr)
  outside n hn hr := by
    have hu := h.outside n hn hr
    have hu' := h'.outside n (h.has hn) fun hback => hr (h.reachable n hn hback)
    exact ⟨hu'.1.trans hu.1, hu'.2.trans hu.2⟩
  stays n hn hr hs :=
    h'.stays n (h.has hn) hr (h.stays n hn (h'.reachable n (h.has hn) hr) hs)
  introduced n hn' hn := by
    by_cases hu : u.Has n
    · exact h.introduced_before h' hu (h.introduced n hu hn)
    · exact h.introduced_behind (h'.introduced n hn' hu)
  held n hn' hn hr := by
    by_cases hu : u.Has n
    · exact h'.stays n hu hr (h.held n hu hn (h'.reachable n hu hr))
    · exact h'.held n hn' hu hr

end Framed

/-! ## The rewrites -/

theorem isApplication_of_yields {e : Expr} (hy : t.yieldsToRaise id = true)
    (he : t.kind id = .expr e) : (t.kind id).isApplication = true := by
  rw [yieldsToRaise] at hy
  rw [he] at hy ⊢
  cases e <;> first | rfl | exact Bool.noConfusion hy

/-- What an expression or a statement holds is held by no sequence. -/
theorem holder_of_inSequence {p : NodeId} (hs : t.inSequence n = true)
    (hp : t.parent n = some p) : ∃ statements, t.kind p = .sequence statements := by
  obtain ⟨q, statements, hq, hk⟩ := inSequence_iff.mp hs
  rw [Option.some.inj (hp.symm.trans hq)]
  exact ⟨statements, hk⟩

/-- A statement whose link is kept is still held by a sequence, since sequences stay such. -/
theorem inSequence_of_kept (hs : t.inSequence n = true) (hp : t'.parent n = t.parent n)
    (hk : ∀ m statements, t.kind m = .sequence statements → t.parent n = some m →
      Amended t (t.kind m) (t'.kind m)) : t'.inSequence n = true := by
  obtain ⟨holder, statements, hholder, hkind⟩ := inSequence_iff.mp hs
  obtain ⟨new, hnew⟩ := (hk holder statements hkind hholder).isSequence_iff.mpr ⟨_, hkind⟩
  exact inSequence_iff.mpr ⟨holder, new, hp.trans hholder, hnew⟩

/-- A raise with side effects in front of its own. -/
theorem Cut.amended_raise (c : Cut t id) :
    Amended t (t.kind c.raise) (.expr (.raise c.exceptionType c.value c.kept)) := by
  have h : Amended t (.expr (.raise c.exceptionType c.value c.effects)) _ :=
    .raise c.moved (redirects_id t)
  rw [c.kind_raise, kept]
  simpa using h

/-- What the raise of a node evaluates is held by no sequence. -/
theorem Cut.not_inSequence (c : Cut t id)
    (hnode : ∀ statements, t.kind id ≠ .sequence statements)
    (hn : t.parent n = some id ∨ t.parent n = some c.raise) : t.inSequence n ≠ true := by
  intro hs
  rcases hn with hp | hp
  · obtain ⟨statements, hk⟩ := holder_of_inSequence hs hp
    exact hnode statements hk
  · obtain ⟨statements, hk⟩ := holder_of_inSequence hs hp
    rw [c.kind_raise] at hk
    exact NodeKind.noConfusion hk

theorem Lifted.framed {c : Cut t id} {e : Expr} (l : Lifted c t') (h : t.WellFormed)
    (hid : t.Reachable id) (hy : t.yieldsToRaise id = true) (he : t.kind id = .expr e) :
    Framed t t' := by
  have hraise : t'.isRaise c.raise = true := isRaise_iff.mpr ⟨_, _, _, l.kind_raise⟩
  have hkind : ∀ n, Amended t (t.kind n) (t'.kind n) := fun n => by
    by_cases hnr : n = c.raise
    · rw [hnr, l.kind_raise]
      exact c.amended_raise
    by_cases hp : t.parent id = some n
    · rw [l.kind_holder n hp]
      refine .slots fun d hd => ?_
      obtain rfl : d = id := by
        by_contra hne
        exact hd (if_neg hne)
      rw [if_pos rfl]
      exact ⟨isApplication_of_yields hy he, isRaise_iff.mpr ⟨_, _, _, c.kind_raise⟩⟩
    · rw [l.kind_other n hnr hp]
      exact Amended.refl t _
  have hsame : t'.size = t.size := l.size_eq
  refine ⟨hsame.ge, fun n _ => l.location_eq n, fun n _ => hkind n,
    fun n _ hr => ((l.closed h hid).of_reachable hr).1, fun n hn hr => ?_, fun n hn hr hs => ?_,
    fun n hn' hn => ?_, fun n hn' hn => ?_⟩
  · have hnr : n ≠ c.raise := fun heq => hr (heq ▸ Cut.reachable_raise hid c)
    refine ⟨l.kind_other n hnr fun hp => hr (h.holder hid hp).1, l.parent_other n ?_ hnr ?_⟩
    · rintro rfl
      exact hr hid
    · exact fun hm => hr (hid.child (Cut.mem_children_of_moved hm))
  · have hnot : ¬ (t.parent n = some id ∨ t.parent n = some c.raise) := fun hp =>
      c.not_inSequence (by rw [he]; exact fun _ => nofun) hp hs
    refine inSequence_of_kept hs (l.parent_other n ((l.closed h hid).of_reachable hr).2 ?_ ?_)
      fun m _ _ _ => hkind m
    · rintro rfl
      exact hnot (Or.inl (c.parent_raise h hid))
    · exact fun hm => hnot (Or.inl (h.parent_child hid (Cut.mem_children_of_moved hm)))
  · exact absurd (Nat.lt_of_lt_of_eq hn' hsame) hn
  · exact absurd (Nat.lt_of_lt_of_eq hn' hsame) hn

theorem Spread.framed {c : Cut t id} {holder : NodeId} {left right : List NodeId} {s : Stmt}
    (r : Spread c holder left right t') (h : t.WellFormed) (hid : t.Reachable id)
    (hs : t.kind id = .stmt s) (w : Placed t id holder left right) : Framed t t' := by
  have hfresh : ∀ n, t'.Has n → ¬ t.Has n → n ∈ t.freshIds (c.kept.length + 1) := by
    intro n hn' hn
    have hlt : n.index < t.size + c.kept.length + 1 := Nat.lt_of_lt_of_eq hn' r.size_eq
    have hle : t.size ≤ n.index := Nat.le_of_not_lt hn
    refine mem_freshIds.mpr ⟨n.index - t.size, by omega, NodeId.ext_index ?_⟩
    exact (Nat.add_sub_cancel' hle).symm
  have hlive : ∀ n, t.Has n → t'.Reachable n → t.Reachable n ∧ n ≠ id ∧ n ≠ c.raise :=
    fun n hn hr => ((r.closed h hid w).of_reachable hr).resolve_right (not_mem_freshIds hn)
  have hkind : ∀ n, t.Has n → Amended t (t.kind n) (t'.kind n) := fun n hn => by
    by_cases hnh : n = holder
    · have hnew : (t.freshIds (c.kept.length + 1)).filter (fun d => t.Has d) = [] :=
        List.filter_eq_nil_iff.mpr fun d hd => by
          obtain ⟨i, -, rfl⟩ := mem_freshIds.mp hd
          simp [not_has_fresh]
      rw [hnh, w.kind_eq, r.kind_holder]
      refine .sequence (redirects_id t) ?_
      rw [List.filter_append, List.filter_append, hnew, List.append_nil, List.map_id']
      exact List.filter_sublist.append (List.filter_sublist.trans (List.sublist_cons_self _ _))
    by_cases hnr : n = c.raise
    · rw [hnr, r.kind_raise]
      exact c.amended_raise
    · rw [r.kind_other n hn hnh hnr]
      exact Amended.refl t _
  refine ⟨by rw [r.size_eq]; omega, r.location_old, hkind, fun n hn hr => (hlive n hn hr).1,
    fun n hn hr => ?_, fun n hn hr hheld => ?_, fun n hn' hn => ?_, fun n hn' hn _ => ?_⟩
  · refine ⟨r.kind_other n hn ?_ ?_, r.parent_other n hn ?_ ?_ ?_⟩
    · exact fun heq => hr (heq ▸ w.reachable_holder h hid)
    · exact fun heq => hr (heq ▸ Cut.reachable_raise hid c)
    · exact fun heq => hr (heq ▸ hid)
    · exact fun hk => hr (c.held_of_kept h hid hk).1
    · exact fun hsh => hr (c.held_of_shown h hid hsh).1
  · have hnot : ¬ (t.parent n = some id ∨ t.parent n = some c.raise) := fun hp =>
      c.not_inSequence (by rw [hs]; exact fun _ => nofun) hp hheld
    refine inSequence_of_kept hheld (r.parent_other n hn (hlive n hn hr).2.1 ?_ ?_)
      fun m _ _ hm => hkind m (Has.of_child (h.holder (hlive n hn hr).1 hm).2)
    · exact fun hk => hnot (c.held_of_kept h hid hk).2.1
    · exact fun hsh => hnot (Or.inr (c.held_of_shown h hid hsh).2.1)
  · rcases fresh_cases (hfresh n hn' hn) with ⟨i, e, hi, rfl⟩ | rfl
    · have he := c.has_of_kept h hid (List.mem_of_getElem? hi)
      refine .effect (r.kind_effect i e hi) ?_ (Or.inl ?_)
      · rw [Has, r.size_eq]
        exact Nat.lt_add_right _ (Nat.lt_add_right _ he)
      · rw [r.location_effect i e hi, r.location_old e he]
    · have hleft : t'.kind c.raise =
          .expr (.raise c.exceptionType (c.value.map fun d => d) c.kept) := by
        rw [r.kind_raise, Option.map_id']
      refine .raised (redirects_id t) (redirects_id t) c.kind_raise (fun hr => ?_) hleft ?_
        r.location_last
      · exact (hlive c.raise (Has.of_expr c.kind_raise) hr).2.2 rfl
      · rw [r.kind_last, Option.map_id', Option.map_id']
  · exact inSequence_iff.mpr ⟨holder, _, r.parent_fresh n (hfresh n hn' hn), r.kind_holder⟩

theorem Truncated.framed {holder : NodeId} {left right : List NodeId}
    (r : Truncated t id holder left right t') (h : t.WellFormed) (hid : t.Reachable id)
    (w : Placed t id holder left right) : Framed t t' := by
  have hsame : t'.size = t.size := r.size_eq
  have hkind : ∀ n, Amended t (t.kind n) (t'.kind n) := fun n => by
    by_cases hnh : n = holder
    · rw [hnh, w.kind_eq, r.kind_holder]
      refine .sequence (redirects_id t) (List.filter_sublist.trans ?_)
      rw [List.map_id']
      exact (List.singleton_sublist.mpr List.mem_cons_self).append_left left
    · rw [r.kind_other n hnh]
      exact Amended.refl t _
  refine ⟨hsame.ge, fun n _ => r.location_eq n, fun n _ => hkind n,
    fun n _ hr => ((r.closed h hid w).of_reachable hr).1, fun n hn hr => ?_, fun n hn hr hs => ?_,
    fun n hn' hn => ?_, fun n hn' hn => ?_⟩
  · refine ⟨r.kind_other n ?_, r.parent_other n ?_⟩
    · exact fun heq => hr (heq ▸ w.reachable_holder h hid)
    · exact fun hm => hr ((w.reachable_holder h hid).child (mem_holder w hm))
  · exact inSequence_of_kept hs (r.parent_other n ((r.closed h hid w).of_reachable hr).2)
      fun m _ _ _ => hkind m
  · exact absurd (Nat.lt_of_lt_of_eq hn' hsame) hn
  · exact absurd (Nat.lt_of_lt_of_eq hn' hsame) hn

theorem Rewrite.framed (r : Rewrite t t') (h : t.WellFormed) : Framed t t' := by
  cases r with
  | lift hid hy he c l => exact l.framed h hid hy he
  | spread hid _ hs c w s => exact s.framed h hid hs w
  | truncate hid _ w _ r => exact r.framed h hid w

/-! ## The propagation -/

/-- A node that was there keeps its place and is amended at most; outside the tree it is left alone.
A new node is an expression statement or a raise statement without a traceback. If it is left in the
tree, it stands where its expression stands, or where the raise expression stands that has its type
and value. -/
theorem propagateRaises_frame (h : t.WellFormed) :
    (∀ n, t.Has n → t.propagateRaises.tree.Has n ∧
      t.propagateRaises.tree.location n = t.location n ∧
      Amended t (t.kind n) (t.propagateRaises.tree.kind n)) ∧
    (∀ n, t.Has n → ¬ t.Reachable n →
      t.propagateRaises.tree.kind n = t.kind n ∧ t.propagateRaises.tree.parent n = t.parent n) ∧
    ∀ n, t.propagateRaises.tree.Has n → ¬ t.Has n →
      (∃ e, t.propagateRaises.tree.kind n = .stmt (.expression e) ∧
        (t.propagateRaises.tree.Reachable n →
          t.propagateRaises.tree.location n = t.propagateRaises.tree.location e)) ∨
      ∃ exceptionType value,
        t.propagateRaises.tree.kind n = .stmt (.raise (some exceptionType) value none) ∧
        (t.propagateRaises.tree.Reachable n → ∃ r effects effects',
          t.kind r = .expr (.raise exceptionType value effects) ∧
          t.propagateRaises.tree.kind r = .expr (.raise exceptionType value effects') ∧
          t.propagateRaises.tree.location n = t.location r) := by
  obtain ⟨k, run⟩ := exists_run h
  have framed : Framed t t.propagateRaises.tree :=
    run.preserves h (Framed.refl t) fun u u' hu hr hf => hf.trans (hr.framed hu)
  have h' := run.wellFormed h
  have settled := fun i hi => run.settled (i := i) h hi
  generalize t.propagateRaises.tree = t' at framed h' settled ⊢
  refine ⟨fun n hn => ⟨framed.has hn, framed.location_eq n hn, framed.kind n hn⟩,
    framed.outside, fun n hn' hn => ?_⟩
  -- a statement of a sequence that holds a raise would have given way to it
  have hchild : ∀ d, t'.Reachable n → d ∈ t'.children n → t'.CutsShort n →
      t'.isRaise d ≠ true := by
    intro d hr hd hcut hraise
    obtain ⟨ty, v, es, hk⟩ := isRaise_iff.mp hraise
    exact (settled d (hr.child hd)).raise hk (h'.parent_child hr hd) hcut
  cases framed.introduced n hn' hn with
  | @effect value hkind hvalue hplace =>
      refine Or.inl ⟨value, hkind, fun hr => hplace.resolve_right ?_⟩
      obtain ⟨q, statements, hp, hq⟩ := inSequence_iff.mp (framed.held n hn' hn hr)
      refine hchild value hr ?_ (.expression hkind hp hq)
      rw [children, hkind]
      exact List.mem_cons_self
  | @raised r exceptionType value effects effects' f g hf hg hsource hdetached hleft hkind hplace =>
      refine Or.inr ⟨_, _, hkind, fun hr => ?_⟩
      obtain ⟨q, statements, hp, hq⟩ := inSequence_iff.mp (framed.held n hn' hn hr)
      have hsame : ∀ d ∈ exceptionType :: value.toList, f d = d ∧ g (f d) = d := by
        refine fun d hd => hf.eq_of_not_isRaise hg fun hraise => ?_
        refine hchild (g (f d)) hr ?_ (.raise hkind hp hq) (framed.isRaise_after hraise)
        rw [children, hkind]
        show g (f d) ∈ [g (f exceptionType)] ++ ((value.map f).map g).toList ++ []
        rw [toList_map, toList_map, List.append_nil, List.map_map]
        have hmem : g (f d) ∈ (exceptionType :: value.toList).map (g ∘ f) :=
          List.mem_map_of_mem hd
        exact hmem
      have hvalue : value.map f = value ∧ (value.map f).map g = value := by
        cases value with
        | none => exact ⟨rfl, rfl⟩
        | some v =>
            obtain ⟨hfirst, hsecond⟩ := hsame v (List.mem_cons_of_mem _ List.mem_cons_self)
            exact ⟨congrArg some hfirst, congrArg some hsecond⟩
      obtain ⟨hfirst, hsecond⟩ := hsame exceptionType List.mem_cons_self
      rw [hsecond, hvalue.2]
      rw [hfirst, hvalue.1] at hleft
      exact ⟨r, effects, effects', hsource, hleft, hplace⟩

/-- The last of three new statements raises what the expression raised, and stands where that
stands; the call that gave way keeps its place. -/
theorem propagateRaises_frame_raisingCall : raisingCall.WellFormed ∧
    raisingCall.propagateRaises.tree.Reachable ⟨15⟩ ∧ ¬ raisingCall.Has ⟨15⟩ ∧
      (∃ r effects, raisingCall.kind r = .expr (.raise ⟨10⟩ none effects) ∧
        raisingCall.propagateRaises.tree.location ⟨15⟩ = raisingCall.location r) ∧
        raisingCall.propagateRaises.tree.location ⟨3⟩ = raisingCall.location ⟨3⟩ := by
  obtain ⟨kept, -, added⟩ := propagateRaises_frame wellFormed_raisingCall
  obtain ⟨k, run⟩ := exists_run wellFormed_raisingCall
  have hreach : raisingCall.propagateRaises.tree.Reachable ⟨15⟩ :=
    (run.wellFormed wellFormed_raisingCall).mem_live.mp (by decide)
  have hkind : raisingCall.propagateRaises.tree.kind ⟨15⟩ =
      .stmt (.raise (some ⟨10⟩) none none) :=
    stmt?_eq_some_iff.mp (by decide)
  refine ⟨wellFormed_raisingCall, hreach, by decide, ?_, (kept ⟨3⟩ (by decide)).2.1⟩
  rcases added ⟨15⟩ (by decide) (by decide) with
    ⟨e, he, -⟩ | ⟨ty, v, hraise, hplace⟩
  · rw [hkind] at he
    exact absurd (NodeKind.stmt.inj he) nofun
  · obtain ⟨htype, rfl, -⟩ := Stmt.raise.inj (NodeKind.stmt.inj (hkind.symm.trans hraise))
    obtain ⟨r, effects, -, hr, -, hlocation⟩ := hplace hreach
    rw [← Option.some.inj htype] at hr
    exact ⟨r, effects, hr, hlocation⟩

end Tree
end CompilerBackend
