import CompilerBackend.Lowering.Part
import CompilerBackend.Lowering.ModuleText
import CompilerBackend.Proofs.Lowering.Meets
import CompilerBackend.Proofs.Lowering.Names
/-!
# The parts of a lowering

What expressions and statements are lowered with: lists of children, references, containers and
slices. Each of these succeeds exactly if the nodes that it comes to are resolved.

- `Lowerer.Handles`: what is assumed of the lowering of children.
- `Grounded`: what is assumed of the names in the tree.
-/

namespace CompilerBackend

open Target

def Setting.Resolved (s : Setting) (p : Position) : Prop := s.tree.Resolved s.options.isThird p

def Setting.AllResolved (s : Setting) (ids : List NodeId) : Prop :=
  ∀ c ∈ ids, s.Resolved (.expression, c)

/-- A lowering that meets what is asked of expressions, conditions and sequences, at the nodes in
`P`; what is below such a node is such a node. -/
structure Lowerer.Handles (w : Wording) (s : Setting) (T : Prop) (lowerer : Lowerer)
    (P : NodeId → Prop) : Prop where
  levels : ∃ levels, lowerer = Lowerer.ofDepth s levels
  closed : ∀ {n c}, P n → c ∈ s.tree.children n → P c
  expression : ∀ {H id}, P id →
    Meets w T H (lowerer.expression id) (s.Resolved (.expression, id)) (Operand.Fine w)
  condition : ∀ {H id} (inverted : Bool), P id →
    Meets w T H (lowerer.condition id inverted) (s.Resolved (.expression, id)) (Term w)
  sequence : ∀ {H id}, P id →
    Meets w T H (lowerer.sequence id) (s.Resolved (.sequence, id)) fun ls => ∀ l ∈ ls, Code w l

def NodeKind.entries : NodeKind → List (NodeId × NodeId)
  | .expr (.makeDict pairs) => pairs
  | .expr (.call _ _ named _ _) => named
  | .expr (.dict _ named) => named
  | _ => []

/-- The operands are what a lowering gives for the nodes. -/
def Lowerer.Gives (self : Lowerer) (ids : List NodeId) (os : List Operand) : Prop :=
  ∃ g, ((self.expressions ids).run g).1 = .ok os

theorem Lowerer.Gives.length_eq {self : Lowerer} {ids : List NodeId} {os : List Operand}
    (h : self.Gives ids os) : os.length = ids.length := by
  obtain ⟨g, hg⟩ := h
  induction ids generalizing g os with
  | nil =>
      rw [← Except.ok.inj hg]
      rfl
  | cons id ids ih =>
      rw [Lowerer.expressions, Meets.run_bind] at hg
      split at hg
      next o g' _ =>
        rw [Meets.run_bind] at hg
        split at hg
        next rest g'' hrest =>
          rw [← Except.ok.inj hg, List.length_cons, List.length_cons]
          exact congrArg (· + 1) (ih g' (congrArg Prod.fst hrest))
        next => exact nomatch hg
      next => exact nomatch hg

/-- The names that a lowering can come to suit the wording, and so do the dicts that it makes. -/
structure Grounded (w : Wording) (s : Setting) (T : Prop) (top : NodeId) : Prop where
  pairs : ∀ {n levels keys values}, s.tree.Connected top n →
    (Lowerer.ofDepth s levels).Gives ((s.tree.kind n).entries.map (·.1)) keys →
    (Lowerer.ofDepth s levels).Gives ((s.tree.kind n).entries.map (·.2)) values →
    w.serving → w.pairs keys values
  tight : T → w.tight
  codeName : CodeNamed w s.codeName
  suits : ∀ n, s.tree.Connected top n → Suits w (s.tree.kind n) (s.tree.location n)

namespace Setting

variable {s : Setting} {ids ids' : List NodeId} {id : NodeId}

@[simp] theorem allResolved_nil : s.AllResolved [] ↔ True :=
  iff_true_intro fun _ hc => nomatch hc

@[simp] theorem allResolved_cons :
    s.AllResolved (id :: ids) ↔ s.Resolved (.expression, id) ∧ s.AllResolved ids :=
  List.forall_mem_cons

@[simp] theorem allResolved_append :
    s.AllResolved (ids ++ ids') ↔ s.AllResolved ids ∧ s.AllResolved ids' :=
  List.forall_mem_append

theorem resolved_expr_iff {e : Expr} (hkind : s.tree.kind id = .expr e) :
    s.Resolved (.expression, id) ↔
      e.isOperand s.options.isThird = true ∧ ∀ p ∈ e.positions, s.Resolved p := by
  rw [Setting.Resolved, Tree.resolved_iff, Tree.positions, hkind]
  rfl

/-- Most expressions ask nothing of their node, and of their children to be expressions. -/
theorem resolved_iff_children {e : Expr} (hkind : s.tree.kind id = .expr e)
    (he : e.isOperand s.options.isThird = true)
    (hpositions : e.positions = e.children.map (Role.expression, ·)) :
    s.Resolved (.expression, id) ↔ s.AllResolved e.children := by
  rw [resolved_expr_iff hkind, hpositions]
  constructor
  · exact fun h c hc => h.2 _ (List.mem_map_of_mem hc)
  · intro h
    refine ⟨he, fun p hp => ?_⟩
    obtain ⟨c, hc, rfl⟩ := List.mem_map.mp hp
    exact h c hc

end Setting

namespace Lowering

variable {w : Wording} {s : Setting} {T H : Prop} {self : Lowerer} {P : NodeId → Prop}
  {top id : NodeId} {ids : List NodeId} {o : Option NodeId}

/-! ## Children -/

/-- An optional expression gives an operand exactly if it is there. -/
theorem meets_present (h : self.Handles w s T P) (hP : ∀ c ∈ o, P c) :
    Meets w T H (self.optional o) (s.AllResolved o.toList)
      fun r => (∀ p ∈ r, p.Fine w) ∧ (r = none ↔ o = none) := by
  cases o with
  | none =>
      refine (Meets.pure fun _ => ⟨fun _ hp => (nomatch hp), by simp⟩).iff fun _ _ => ?_
      simp
  | some id =>
      refine ((h.expression (hP id rfl)).bind fun o => Meets.pure fun ho => ?_).iff fun _ _ => ?_
      · refine ⟨fun p hp => ?_, by simp⟩
        rw [← Option.some.inj hp]
        exact ho.2
      · simp

theorem meets_optional (h : self.Handles w s T P) (hP : ∀ c ∈ o, P c) :
    Meets w T H (self.optional o) (s.AllResolved o.toList) fun o => ∀ p ∈ o, p.Fine w :=
  (meets_present h hP).imp fun _ _ => And.left

theorem meets_expressions (h : self.Handles w s T P) (hP : ∀ c ∈ ids, P c) :
    Meets w T H (self.expressions ids) (s.AllResolved ids) fun os => ∀ o ∈ os, o.Fine w := by
  induction ids generalizing H with
  | nil => exact (Meets.pure fun _ _ ho => nomatch ho).iff fun _ _ => by simp
  | cons id ids ih =>
      refine ((h.expression (hP id List.mem_cons_self)).bind fun o =>
        (ih fun c hc => hP c (List.mem_cons_of_mem id hc)).bind fun os =>
          Meets.pure fun ho => ?_).iff fun _ _ => ?_
      · exact List.forall_mem_cons.mpr ⟨ho.1.2, ho.2⟩
      · simp

theorem meets_optionalSequence (h : self.Handles w s T P) (hP : ∀ c ∈ o, P c) :
    Meets w T H (self.optionalSequence o) (∀ c ∈ o, s.Resolved (.sequence, c))
      fun codes => ∀ ls ∈ codes, ∀ l ∈ ls, Code w l := by
  cases o with
  | none => exact (Meets.pure fun _ _ hls => nomatch hls).iff fun _ _ => by simp
  | some id =>
      refine ((h.sequence (hP id rfl)).bind fun ls => Meets.pure fun hls => ?_).iff fun _ _ => ?_
      · intro ls' hls'
        rw [← Option.some.inj hls']
        exact hls.2
      · simp

theorem meets_conditions (h : self.Handles w s T P) (hP : ∀ c ∈ ids, P c) :
    Meets w T H (conditions self ids) (s.AllResolved ids) fun cs => ∀ c ∈ cs, Term w c := by
  induction ids generalizing H with
  | nil => exact (Meets.pure fun _ _ hc => nomatch hc).iff fun _ _ => by simp
  | cons id ids ih =>
      refine ((h.condition false (hP id List.mem_cons_self)).bind fun c =>
        (ih fun c hc => hP c (List.mem_cons_of_mem id hc)).bind fun cs =>
          Meets.pure fun hc => ?_).iff fun _ _ => ?_
      · exact List.forall_mem_cons.mpr ⟨hc.1.2, hc.2⟩
      · simp

/-! ## References -/

/-- A reference gives its variable, or the lowering stops. -/
theorem boundVariable_cases (t : Tree) (id : NodeId) :
    (∃ e v, t.kind id = .expr e ∧ e.boundVariable? = some v ∧ boundVariable t id = pure v) ∨
    ((∀ e, t.kind id = .expr e → e.boundVariable? = none) ∧
      ∃ cause, boundVariable t id = Lower.fail t id cause) := by
  cases hkind : t.kind id with
  | expr e =>
      have hexpr := Tree.expr?_eq_some_iff.mpr hkind
      unfold boundVariable
      rw [hexpr]
      cases e with
      | variableRef name binding =>
          cases binding with
          | none => exact Or.inr ⟨fun e he => by rw [← NodeKind.expr.inj he]; rfl, _, rfl⟩
          | some v => exact Or.inl ⟨_, v, rfl, rfl, rfl⟩
      | temporaryRef v => exact Or.inl ⟨_, v, rfl, rfl, rfl⟩
      | _ => exact Or.inr ⟨fun e he => by rw [← NodeKind.expr.inj he]; rfl, _, rfl⟩
  | _ =>
      have hexpr : t.expr? id = none := by rw [Tree.expr?, hkind]; rfl
      unfold boundVariable
      rw [hexpr]
      exact Or.inr ⟨fun e he => NodeKind.noConfusion he, _, rfl⟩

/-- A variable that is written to has no slots below it. -/
theorem resolved_target_iff : s.Resolved (.target, id) ↔
    ∃ e v, s.tree.kind id = .expr e ∧ e.boundVariable? = some v := by
  rw [Setting.Resolved, Tree.resolved_iff, Tree.positions]
  cases hkind : s.tree.kind id with
  | expr e =>
      have hpositions : ∀ v, e.boundVariable? = some v → e.positions = [] := by
        intro v hv
        cases e with
        | variableRef _ _ => rfl
        | temporaryRef _ => rfl
        | _ => exact nomatch hv
      constructor
      · rintro ⟨hfits, -⟩
        obtain ⟨v, hv⟩ := Option.isSome_iff_exists.mp hfits
        exact ⟨e, v, rfl, hv⟩
      · rintro ⟨e', v, he, hv⟩
        rw [← NodeKind.expr.inj he] at hv
        refine ⟨Option.isSome_iff_exists.mpr ⟨v, hv⟩, ?_⟩
        change ∀ q ∈ e.positions, _
        rw [hpositions v hv]
        exact fun _ hq => nomatch hq
  | _ => exact ⟨fun h => (nomatch h.1), fun ⟨_, _, he, _⟩ => (nomatch he)⟩

theorem meets_boundVariable (hg : Grounded w s T top) (hid : s.tree.Connected top id) :
    Meets w T H (boundVariable s.tree id) (s.Resolved (.target, id)) fun v => Named w v.name := by
  have hnames := (hg.suits id hid).names
  rcases boundVariable_cases s.tree id with ⟨e, v, hkind, hv, heq⟩ | ⟨hnone, cause, heq⟩
  · rw [hkind] at hnames
    rw [heq]
    exact (Meets.pure (Q := fun (v : Variable) => Named w v.name)
      fun _ => hnames v.name (Expr.mem_names_of_bound hv)).iff fun _ _ =>
      ⟨fun _ => resolved_target_iff.mpr ⟨e, v, hkind, hv⟩, fun _ => trivial⟩
  · rw [heq]
    refine (Meets.fail _ _ _).iff fun _ _ => ⟨False.elim, fun h => ?_⟩
    obtain ⟨e, v, hkind, hv⟩ := resolved_target_iff.mp h
    rw [hnone e hkind] at hv
    exact nomatch hv

theorem meets_scopeOf (hg : Grounded w s T top) (hid : s.tree.Connected top id)
    (hscope : T → (s.tree.scope? id).isSome = true) :
    Meets w T H (scopeOf s.tree id) True fun p => ∀ n ∈ localNames p, Named w n := by
  unfold scopeOf
  split
  next p hp =>
    obtain ⟨m, hm, hprovider⟩ := hid.scope hp
    have hnames := (hg.suits m hm).names
    exact Meets.pure fun _ n hn => hnames n (NodeKind.mem_names_of_provider hprovider hn)
  next hnone =>
    refine (Meets.fail _ _ _).iff fun hT _ => ⟨False.elim, fun _ => ?_⟩
    have hsome := hscope hT
    rw [hnone] at hsome
    exact nomatch hsome

theorem meets_localsAt (hg : Grounded w s T top) (hid : s.tree.Connected top id)
    (hscope : T → (s.tree.scope? id).isSome = true) :
    Meets w T H (localsAt s id) True (Operand.Fine w) := by
  refine ((meets_scopeOf hg hid hscope).bind fun p => Meets.intern ?_).iff
    fun _ _ => and_self_iff
  exact interned_localsDict hg.codeName _ And.right

theorem meets_importLocals (hg : Grounded w s T top) (hid : s.tree.Connected top id)
    (hscope : T → (s.tree.scope? id).isSome = true) {globals : Operand}
    (hglobals : H → globals.Fine w) :
    Meets w T H (importLocals s id globals) True (Operand.Fine w) := by
  refine ((meets_scopeOf hg hid hscope).bind (Ψ := True) fun p => ?_).iff fun _ _ => and_self_iff
  split
  · exact Meets.pure fun h => hglobals h.1
  · exact meets_localsAt hg hid hscope

/-! ## Containers -/

/-- A constant has no slots below it. -/
theorem resolved_constant {c : Constant} (hkind : s.tree.kind id = .expr (.constant c)) :
    s.Resolved (.expression, id) := by
  rw [Setting.Resolved, Tree.resolved_iff, Tree.positions, hkind]
  exact ⟨rfl, fun _ hq => nomatch hq⟩

theorem kind_of_immutableConstant? {t : Tree} {c : Constant}
    (h : immutableConstant? t id = some c) : t.kind id = .expr (.constant c) :=
  Tree.constant?_eq_some_iff.mp (Option.filter_eq_some_iff.mp h).1

theorem allResolved_of_immutableConstants? {cs : List Constant}
    (h : immutableConstants? s.tree ids = some cs) : s.AllResolved ids := by
  induction ids generalizing cs with
  | nil => exact fun _ hc => nomatch hc
  | cons id ids ih =>
      obtain ⟨c, hc, hrest⟩ := Option.bind_eq_some_iff.mp h
      obtain ⟨rest, hrest, -⟩ := Option.bind_eq_some_iff.mp hrest
      exact List.forall_mem_cons.mpr
        ⟨resolved_constant (kind_of_immutableConstant? hc), ih hrest⟩

theorem meets_container (h : self.Handles w s T P) (hP : ∀ c ∈ ids, P c)
    {fold : List Constant → Constant} {build : List Operand → Interning Operand}
    (hbuild : ∀ {H os}, (H → ∀ o ∈ os, o.Fine w) → Interned w H (build os) (Operand.Fine w)) :
    Meets w T H (container s.tree self fold build ids) (s.AllResolved ids) (Operand.Fine w) := by
  unfold container
  split
  next cs hcs =>
    exact (Meets.intern (interned_constantFromTable _)).iff fun _ _ =>
      ⟨fun _ => allResolved_of_immutableConstants? hcs, fun _ => trivial⟩
  next =>
    exact ((meets_expressions h hP).bind fun os => Meets.intern (hbuild And.right)).iff
      fun _ _ => and_iff_left trivial

theorem meets_tuple (h : self.Handles w s T P) (hP : ∀ c ∈ ids, P c) :
    Meets w T H (tuple s.tree self ids) (s.AllResolved ids) (Operand.Fine w) :=
  meets_container h hP interned_tupleCreation

theorem meets_list (h : self.Handles w s T P) (hP : ∀ c ∈ ids, P c) :
    Meets w T H (list s.tree self ids) (s.AllResolved ids) (Operand.Fine w) :=
  meets_container h hP interned_listCreation

theorem meets_set (h : self.Handles w s T P) (hP : ∀ c ∈ ids, P c) :
    Meets w T H (set s.tree self ids) (s.AllResolved ids) (Operand.Fine w) :=
  meets_container h hP fun hos => Interned.pure fun hH => fine_setCreation (hos hH)

theorem allResolved_pairSlots (pairs : List (NodeId × NodeId)) :
    s.AllResolved (pairSlots pairs) ↔
      s.AllResolved (pairs.map (·.1)) ∧ s.AllResolved (pairs.map (·.2)) := by
  simp only [Setting.AllResolved, pairSlots, List.mem_flatMap, List.mem_map]
  constructor
  · intro h
    constructor
    · rintro c ⟨p, hp, hc⟩
      exact h c ⟨p, hp, by simp [← hc]⟩
    · rintro c ⟨p, hp, hc⟩
      exact h c ⟨p, hp, by simp [← hc]⟩
  · rintro ⟨hkeys, hvalues⟩ c ⟨p, hp, hc⟩
    simp only [List.mem_cons, List.not_mem_nil, or_false] at hc
    rcases hc with rfl | rfl
    · exact hkeys _ ⟨p, hp, rfl⟩
    · exact hvalues _ ⟨p, hp, rfl⟩

theorem mem_pairSlots {pairs : List (NodeId × NodeId)} {p : NodeId × NodeId} (hp : p ∈ pairs) :
    p.1 ∈ pairSlots pairs ∧ p.2 ∈ pairSlots pairs :=
  ⟨List.mem_flatMap.mpr ⟨p, hp, by simp⟩, List.mem_flatMap.mpr ⟨p, hp, by simp⟩⟩

theorem meets_dict (hg : Grounded w s T top) (h : self.Handles w s T P)
    (hid : s.tree.Connected top id) {pairs : List (NodeId × NodeId)}
    (hentries : (s.tree.kind id).entries = pairs) (hP : ∀ c ∈ pairSlots pairs, P c) :
    Meets w T H (dict s.tree self pairs) (s.AllResolved (pairSlots pairs)) (Operand.Fine w) := by
  have hkeys : ∀ c ∈ pairs.map (·.1), P c := by
    intro c hc
    obtain ⟨p, hp, rfl⟩ := List.mem_map.mp hc
    exact hP _ (mem_pairSlots hp).1
  have hvalues : ∀ c ∈ pairs.map (·.2), P c := by
    intro c hc
    obtain ⟨p, hp, rfl⟩ := List.mem_map.mp hc
    exact hP _ (mem_pairSlots hp).2
  rw [allResolved_pairSlots]
  unfold dict
  dsimp only
  split
  next ks vs hks hvs =>
    exact (Meets.intern (interned_constantFromTable _)).iff fun _ _ =>
      ⟨fun _ => ⟨allResolved_of_immutableConstants? hks, allResolved_of_immutableConstants? hvs⟩,
        fun _ => trivial⟩
  next =>
    obtain ⟨levels, hlevels⟩ := h.levels
    refine ((meets_expressions h hkeys).traced.bind fun ks =>
      (meets_expressions h hvalues).traced.bind fun vs =>
        Meets.intern (interned_dictCreation (fun hH => hH.1.2.1) (fun hH => hH.2.1)
          (fun hH => ?_) fun hH => ?_)).iff fun _ _ => by rw [and_true]
    · have hlength := Lowerer.Gives.length_eq hH.1.2.2
      rw [hlength, Lowerer.Gives.length_eq hH.2.2, List.length_map, List.length_map]
    · subst hlevels hentries
      exact hg.pairs hid hH.1.2.2 hH.2.2

theorem meets_namedArguments (hg : Grounded w s T top) (h : self.Handles w s T P)
    (hid : s.tree.Connected top id) {pairs : List (NodeId × NodeId)}
    (hentries : (s.tree.kind id).entries = pairs) (hP : ∀ c ∈ pairSlots pairs, P c) :
    Meets w T H (namedArguments s.tree self pairs) (s.AllResolved (pairSlots pairs))
      fun o => (∀ p ∈ o, p.Fine w) ∧ (o = none ↔ pairs = []) := by
  unfold namedArguments
  split
  next hnil =>
    rw [List.isEmpty_iff] at hnil
    subst hnil
    refine (Meets.pure fun _ => ⟨fun _ hp => (nomatch hp), by simp⟩).iff fun _ _ => ?_
    simp [pairSlots]
  next hne =>
    rw [List.isEmpty_iff] at hne
    refine ((meets_dict hg h hid hentries hP).bind fun d => Meets.pure fun hd => ⟨fun p hp => ?_, ?_⟩).iff
      fun _ _ => and_iff_left trivial
    · rw [← Option.some.inj hp]
      exact hd.2
    · simp [hne]

/-! ## Slices -/

variable {lower upper : Option NodeId}

/-- The object of a native bound is never converted to an index: its value is known. -/
theorem meets_bound (ho : isNativeBound s.tree o = true) {absent : String} (ha : Phrase w absent) :
    Meets w T H (bound s.tree self o absent) (s.AllResolved o.toList) (Phrase w) := by
  cases o with
  | none => exact (Meets.pure fun _ => ha).iff fun _ _ => by simp
  | some id =>
      obtain ⟨value, hvalue⟩ := Option.isSome_iff_exists.mp (show Option.isSome _ = true from ho)
      obtain ⟨c, hc, -⟩ := Option.bind_eq_some_iff.mp hvalue
      have hconstant := resolved_constant (Tree.constant?_eq_some_iff.mp hc)
      unfold bound
      dsimp only
      rw [hvalue]
      exact (Meets.pure fun _ => phrase_constantBound value).iff fun _ _ => by simpa using hconstant

theorem meets_bounds (hnative : hasNativeBounds s lower upper = true) :
    Meets w T H (bounds s.tree self lower upper) (s.AllResolved (lower.toList ++ upper.toList))
      fun b => Phrase w b.1 ∧ Phrase w b.2 := by
  rw [hasNativeBounds, Bool.and_eq_true, Bool.and_eq_true] at hnative
  exact ((meets_bound hnative.1.2 phrase_openLowerBound).bind fun _ =>
    (meets_bound hnative.2 phrase_openUpperBound).bind fun _ =>
      Meets.pure fun hb => ⟨hb.1.2, hb.2⟩).iff fun _ _ => by simp

theorem meets_boundObjects (h : self.Handles w s T P) (hl : ∀ c ∈ lower, P c)
    (hu : ∀ c ∈ upper, P c) :
    Meets w T H (boundObjects self lower upper) (s.AllResolved (lower.toList ++ upper.toList))
      fun b => (∀ o ∈ b.1, o.Fine w) ∧ ∀ o ∈ b.2, o.Fine w :=
  ((meets_optional h hl).bind fun _ => (meets_optional h hu).bind fun _ =>
    Meets.pure fun hb => ⟨hb.1.2, hb.2⟩).iff fun _ _ => by simp

theorem meets_sliceObject (h : self.Handles w s T P) (hl : ∀ c ∈ lower, P c)
    (hu : ∀ c ∈ upper, P c) :
    Meets w T H (sliceObject self lower upper) (s.AllResolved (lower.toList ++ upper.toList))
      (Operand.Fine w) := by
  refine ((meets_boundObjects h hl hu).bind fun b => ?_).iff fun _ _ => and_iff_left trivial
  obtain ⟨l, u⟩ := b
  exact Meets.pure fun hb => fine_sliceObject hb.2.1 hb.2.2 fun _ ho => nomatch ho

/-- A slice is lowered in one of three ways, each of which takes both bounds. -/
theorem meets_sliceLookup (h : self.Handles w s T P) (hid : P id) (hl : ∀ c ∈ lower, P c)
    (hu : ∀ c ∈ upper, P c) :
    Meets w T H (sliceLookup s self id lower upper)
      (s.AllResolved (id :: lower.toList ++ upper.toList)) (Operand.Fine w) := by
  refine ((h.expression hid).bind
    (Ψ := s.AllResolved (lower.toList ++ upper.toList)) fun o => ?_).iff fun _ _ => by simp
  split
  next hnative =>
    refine ((meets_bounds hnative).bind fun b => ?_).iff fun _ _ => and_iff_left trivial
    obtain ⟨l, u⟩ := b
    exact Meets.pure fun hb => fine_indexedSliceLookup hb.1.2 hb.2.1 hb.2.2
  · split
    · refine ((meets_boundObjects h hl hu).bind fun b => ?_).iff fun _ _ => and_iff_left trivial
      obtain ⟨l, u⟩ := b
      exact Meets.pure fun hb => fine_sliceLookup hb.1.2 hb.2.1 hb.2.2
    · refine ((meets_sliceObject h hl hu).bind fun index => ?_).iff fun _ _ => and_iff_left trivial
      exact Meets.pure fun hb => fine_subscriptLookup hb.1.2 hb.2

theorem meets_sliceAssignment (h : self.Handles w s T P) (hid : P id) (hl : ∀ c ∈ lower, P c)
    (hu : ∀ c ∈ upper, P c) {value : Operand} (hv : H → value.Fine w) :
    Meets w T H (sliceAssignment s self id lower upper value)
      (s.AllResolved (id :: lower.toList ++ upper.toList)) (Block w) := by
  refine ((h.expression hid).bind
    (Ψ := s.AllResolved (lower.toList ++ upper.toList)) fun o => ?_).iff fun _ _ => by simp
  split
  next hnative =>
    refine ((meets_bounds hnative).bind fun b => ?_).iff fun _ _ => and_iff_left trivial
    obtain ⟨l, u⟩ := b
    exact Meets.pure fun hb => (line_indexedSliceAssignment hb.1.2 hb.2.1 hb.2.2 (hv hb.1.1)).block
  · split
    · refine ((meets_boundObjects h hl hu).bind fun b => ?_).iff fun _ _ => and_iff_left trivial
      obtain ⟨l, u⟩ := b
      exact Meets.pure fun hb => (line_sliceAssignment hb.1.2 hb.2.1 hb.2.2 (hv hb.1.1)).block
    · refine ((meets_sliceObject h hl hu).bind fun index => ?_).iff fun _ _ => and_iff_left trivial
      exact Meets.pure fun hb => (line_subscriptAssignment hb.1.2 hb.2 (hv hb.1.1)).block

theorem meets_sliceDeletion (h : self.Handles w s T P) (hid : P id) (hl : ∀ c ∈ lower, P c)
    (hu : ∀ c ∈ upper, P c) :
    Meets w T H (sliceDeletion s self id lower upper)
      (s.AllResolved (id :: lower.toList ++ upper.toList)) (Block w) := by
  refine ((h.expression hid).bind
    (Ψ := s.AllResolved (lower.toList ++ upper.toList)) fun o => ?_).iff fun _ _ => by simp
  split
  next hnative =>
    refine ((meets_bounds hnative).bind fun b => ?_).iff fun _ _ => and_iff_left trivial
    obtain ⟨l, u⟩ := b
    exact Meets.pure fun hb => (line_indexedSliceDeletion hb.1.2 hb.2.1 hb.2.2).block
  · refine ((meets_sliceObject h hl hu).bind fun index => ?_).iff fun _ _ => and_iff_left trivial
    exact Meets.pure fun hb => (line_subscriptDeletion hb.1.2 hb.2).block

/-! ## Conditions -/

theorem term_inverting (inverted : Bool) {condition : String} (h : Term w condition) :
    Term w (inverting inverted condition) := by
  cases inverted with
  | false => exact h
  | true => exact term_negation h

/-- A condition is resolved if the expression is; the lowering may look at the expression as such
(`hself`) or at its children. -/
theorem meets_condition (h : self.Handles w s T P) (hP : ∀ c ∈ s.tree.children id, P c)
    (hself : ∀ {H : Prop}, Meets w T H (self.expression id) (s.Resolved (.expression, id))
      (Operand.Fine w)) (inverted : Bool) :
    Meets w T H (condition s.tree self id inverted) (s.Resolved (.expression, id)) (Term w) := by
  unfold condition
  split
  next value hkind =>
    exact (Meets.pure fun _ => term_truthCondition _).iff fun _ _ =>
      ⟨fun _ => resolved_constant hkind, fun _ => trivial⟩
  next comparator left right hkind =>
    rw [Tree.children, hkind] at hP
    refine ((h.expression (hP left (by simp [NodeKind.children, Expr.children]))).bind fun l =>
      (h.expression (hP right (by simp [NodeKind.children, Expr.children]))).bind fun r =>
        Meets.pure fun ho => ?_).iff fun _ _ => ?_
    · exact term_inverting inverted (term_comparisonCondition comparator ho.1.2 ho.2)
    · rw [Setting.resolved_iff_children hkind rfl rfl]
      simp [Expr.children]
  next operands hkind =>
    rw [Tree.children, hkind] at hP
    have hparts : ∀ {H}, Meets w T H (conditions self operands) (s.AllResolved operands) _ :=
      meets_conditions h hP
    refine (hparts.bind fun parts => Meets.pure fun hs => ?_).iff fun _ _ => ?_
    · exact term_inverting inverted (term_anyOf hs.2)
    · rw [Setting.resolved_iff_children hkind rfl rfl]
      simp [Expr.children]
  next operands hkind =>
    rw [Tree.children, hkind] at hP
    have hparts : ∀ {H}, Meets w T H (conditions self operands) (s.AllResolved operands) _ :=
      meets_conditions h hP
    refine (hparts.bind fun parts => Meets.pure fun hs => ?_).iff fun _ _ => ?_
    · exact term_inverting inverted (term_allOf hs.2)
    · rw [Setting.resolved_iff_children hkind rfl rfl]
      simp [Expr.children]
  next operand hkind =>
    rw [Tree.children, hkind] at hP
    refine (h.condition (!inverted) (hP operand (by simp [NodeKind.children, Expr.children]))).iff
      fun _ _ => ?_
    rw [Setting.resolved_iff_children hkind rfl rfl]
    simp [Expr.children]
  next =>
    exact (hself.bind fun o => Meets.pure fun ho => term_truthTest inverted ho.2).iff
      fun _ _ => and_iff_left trivial

end Lowering
end CompilerBackend
