import CompilerBackend.Lowering.ModuleText
import CompilerBackend.Proofs.Lowering.Statements
/-!
# The lowering of modules

The steps of a lowering, put together for all depths. The levels that a lowering is given do for
every node of a tree, since a tree is at most as deep as its arena is large and a node takes two
levels at most: its own, and one more where a condition falls back to its expression.

- `Tree.Deep`: enough levels for what is below a node; `Within`: the same of a node of a module's
  tree.
- `meets_ofDepth`: one induction on the levels, for expressions, conditions and sequences at once.
- `meets_moduleAt`: a module is lowered exactly if its slots are resolved.
-/

namespace CompilerBackend

open Program Target

def Tree.settingOf (t : Tree) (options : Options) (moduleName : String) : Setting :=
  ⟨t, options, moduleName, moduleIdentifier moduleName⟩

namespace Tree

variable {t : Tree} {top n m c : NodeId}

def Below (t : Tree) (n m : NodeId) : Prop := ∃ c ∈ t.children n, t.Reaches c m

theorem Below.of_child (h : c ∈ t.children n) : t.Below n c := ⟨c, h, Reaches.refl t c⟩

theorem Below.child (h : t.Below n m) (hc : c ∈ t.children m) : t.Below n c := by
  obtain ⟨d, hd, hm⟩ := h
  exact ⟨d, hd, hm.child hc⟩

theorem Below.reaches (h : t.Below n m) : t.Reaches n m := by
  obtain ⟨c, hc, hm⟩ := h
  exact ((Reaches.refl t n).child hc).trans hm

theorem Below.fitsIn {k : Nat} (h : t.Below n m) (hn : t.FitsIn (k + 1) n) : t.FitsIn k m := by
  obtain ⟨c, hc, hm⟩ := h
  refine hm.induct (hn c hc) fun i d _ hi hd => ?_
  cases k with
  | zero => exact hi.elim
  | succ k => exact (hi d hd).mono (Nat.le_succ k)

/-- No way down leads back to the top of a tree. -/
theorem IsTree.not_below_top (h : t.IsTree top) (hn : t.Reaches top n) : ¬ t.Below n top := by
  rintro ⟨c, hc, q, hq⟩
  obtain ⟨p, hp⟩ := hn
  obtain ⟨i, hi⟩ := List.mem_iff_getElem?.mp hc
  have hloop : t.nodeAt? top (p ++ i :: q) = some top := by
    rw [nodeAt?_append, hp, Option.bind_some, nodeAt?, hi]
    exact hq
  have hnil : p ++ i :: q = [] := h.once hloop rfl
  exact List.cons_ne_nil i q (List.append_eq_nil_iff.mp hnil).2

end Tree

/-! ## Levels -/

namespace Tree

variable {t : Tree} {id m : NodeId} {levels more : Nat}

def Deep (t : Tree) (levels : Nat) (id : NodeId) : Prop := ∃ k, t.FitsIn k id ∧ 2 * k ≤ levels

theorem Deep.mono (h : t.Deep levels id) (hle : levels ≤ more) : t.Deep more id := by
  obtain ⟨k, hfits, hk⟩ := h
  exact ⟨k, hfits, hk.trans hle⟩

/-- A level down takes two of the levels. -/
theorem Deep.below (h : t.Deep (levels + 2) id) (hm : t.Below id m) : t.Deep levels m := by
  obtain ⟨k, hfits, hk⟩ := h
  cases k with
  | zero => exact hfits.elim
  | succ k => exact ⟨k, hm.fitsIn hfits, by omega⟩

theorem not_deep_of_lt_two (hlt : levels < 2) : ¬ t.Deep levels id := by
  rintro ⟨k, hfits, hk⟩
  obtain rfl : k = 0 := by omega
  exact hfits

end Tree

/-- The node belongs to the tree of a module, below its top, and so many levels do for what is
below it. -/
structure Within (s : Setting) (T : Prop) (top : NodeId) (levels : Nat) (n : NodeId) : Prop where
  holds : T
  isTree : s.tree.IsTree top
  isModule : ∃ m, s.tree.kind top = .module m
  reaches : s.tree.Reaches top n
  ne : n ≠ top
  fits : ∃ k, s.tree.FitsIn k n ∧ 2 * k ≤ levels

namespace Within

variable {s : Setting} {T : Prop} {top n m : NodeId} {levels more : Nat}

theorem mono (h : Within s T top levels n) (hle : levels ≤ more) : Within s T top more n :=
  { h with fits := Tree.Deep.mono h.fits hle }

/-- A level down takes two of the levels. -/
theorem below (h : Within s T top (levels + 2) n) (hm : s.tree.Below n m) :
    Within s T top levels m where
  holds := h.holds
  isTree := h.isTree
  isModule := h.isModule
  reaches := h.reaches.trans hm.reaches
  ne := by
    rintro rfl
    exact h.isTree.not_below_top h.reaches hm
  fits := Tree.Deep.below h.fits hm

theorem not_of_lt_two (hlt : levels < 2) : ¬ Within s T top levels n :=
  fun h => Tree.not_deep_of_lt_two hlt h.fits

theorem scope_isSome (h : Within s T top levels n) : (s.tree.scope? n).isSome = true := by
  obtain ⟨m, hm⟩ := h.isModule
  exact h.isTree.scope_isSome hm h.reaches h.ne

end Within

theorem Grounded.weaken {w : Wording} {s : Setting} {T T' : Prop} {top : NodeId}
    (h : Grounded w s T top) (hT : T' → T) : Grounded w s T' top :=
  ⟨h.pairs, fun ht => h.tight (hT ht), h.codeName, h.suits⟩

theorem Lowerer.Handles.weaken {w : Wording} {s : Setting} {T T' : Prop} {self : Lowerer}
    {P : NodeId → Prop} (h : self.Handles w s T P) (hT : T' → T) : self.Handles w s T' P where
  levels := h.levels
  closed := h.closed
  expression hc := (h.expression hc).weaken hT id
  condition inverted hc := (h.condition inverted hc).weaken hT id
  sequence hc := (h.sequence hc).weaken hT id

namespace Lowering

variable {w : Wording} {s : Setting} {T H : Prop} {top id : NodeId}

/-- What is shown of the lowering with so many levels: one fewer does for an expression or a
sequence than for a condition. -/
structure Reaching (w : Wording) (s : Setting) (T : Prop) (top : NodeId) (levels : Nat) : Prop where
  expression : ∀ {H id}, s.tree.Connected top id →
    Meets w (Within s T top (levels + 1) id) H ((Lowerer.ofDepth s levels).expression id)
      (s.Resolved (.expression, id)) (Operand.Fine w)
  condition : ∀ {H id} (inverted : Bool), s.tree.Connected top id →
    Meets w (Within s T top levels id) H ((Lowerer.ofDepth s levels).condition id inverted)
      (s.Resolved (.expression, id)) (Term w)
  sequence : ∀ {H id}, s.tree.Connected top id →
    Meets w (Within s T top (levels + 1) id) H ((Lowerer.ofDepth s levels).sequence id)
      (s.Resolved (.sequence, id)) fun ls => ∀ l ∈ ls, Code w l

/-- What is below a node is handled with two levels fewer. -/
theorem Reaching.handles {levels : Nat} (h : Reaching w s T top levels)
    (hid : s.tree.Connected top id) :
    (Lowerer.ofDepth s levels).Handles w s (Within s T top (levels + 2) id) (s.tree.Below id) where
  levels := ⟨levels, rfl⟩
  closed hn hc := hn.child hc
  expression hc := (h.expression (hid.below hc.reaches)).weaken
    (fun hT => (hT.below hc).mono (Nat.le_succ levels)) fun hH => hH
  condition inverted hc := (h.condition inverted (hid.below hc.reaches)).weaken
    (fun hT => hT.below hc) fun hH => hH
  sequence hc := (h.sequence (hid.below hc.reaches)).weaken
    (fun hT => (hT.below hc).mono (Nat.le_succ levels)) fun hH => hH

/-- The induction is on the levels; with fewer than two, there is nothing below a node. -/
theorem meets_ofDepth (hg : Grounded w s T top) (levels : Nat) : Reaching w s T top levels := by
  induction levels with
  | zero =>
      refine ⟨fun _ => ?_, fun _ _ => ?_, fun _ => ?_⟩
      all_goals
        refine (Meets.throws _).iff fun hT _ => ⟨False.elim, fun _ => ?_⟩
        exact Within.not_of_lt_two (by omega) hT
  | succ levels ih =>
      have hground : ∀ {id more}, Grounded w s (Within s T top more id) top :=
        hg.weaken Within.holds
      refine ⟨fun {H id} hid => ?_, fun {H id} inverted hid => ?_, fun {H id} hid => ?_⟩
      · exact meets_expression hground (ih.handles hid) hid Within.scope_isSome
          fun _ => Tree.Below.of_child
      · have hbelow := (ih.handles hid).weaken
          fun (hT : Within s T top (levels + 1) id) => hT.mono (Nat.le_succ _)
        exact meets_condition hbelow (fun _ => Tree.Below.of_child) (ih.expression hid) inverted
      · exact meets_sequence hground (ih.handles hid) hid fun _ => Tree.Below.of_child

/-! ## Whole modules -/

/-- The levels that a lowering is given do for everything below a module. -/
theorem within_of_below {c : NodeId} (hc : s.tree.Below top c)
    (hT : T ∧ s.tree.IsTree top ∧ ∃ m, s.tree.kind top = .module m) :
    Within s T top s.depthBound c := by
  obtain ⟨hT, htree, hmodule⟩ := hT
  have hne : c ≠ top := by
    rintro rfl
    exact htree.not_below_top (Tree.Reaches.refl s.tree c) hc
  exact ⟨hT, htree, hmodule, hc.reaches, hne, s.tree.depthBound, htree.fitsIn hc.reaches, le_rfl⟩

theorem handles_lowerer (hg : Grounded w s T top) :
    s.lowerer.Handles w s (T ∧ s.tree.IsTree top ∧ ∃ m, s.tree.kind top = .module m)
      (s.tree.Below top) where
  levels := ⟨s.depthBound, rfl⟩
  closed hn hc := hn.child hc
  expression hc := ((meets_ofDepth hg s.depthBound).expression
    ((Tree.Connected.refl s.tree top).below hc.reaches)).weaken
      (fun hT => (within_of_below hc hT).mono (Nat.le_succ _)) id
  condition inverted hc := ((meets_ofDepth hg s.depthBound).condition inverted
    ((Tree.Connected.refl s.tree top).below hc.reaches)).weaken (within_of_below hc) id
  sequence hc := ((meets_ofDepth hg s.depthBound).sequence
    ((Tree.Connected.refl s.tree top).below hc.reaches)).weaken
      (fun hT => (within_of_below hc hT).mono (Nat.le_succ _)) id

theorem interned_pathOperand (path : Option (List String)) :
    Interned w H (pathOperand path) fun o => ∀ p ∈ o, p.Fine w := by
  cases path with
  | none => exact Interned.pure fun _ _ hp => nomatch hp
  | some entries =>
      refine (interned_constantFromTable _).bind fun o => Interned.pure fun ho p hp => ?_
      rw [← Option.some.inj hp]
      exact ho.2

theorem interned_finishModule {m : Module} {moduleName : String} {scope : Scope}
    {codes : List String} (hname : Calm w moduleName)
    (hentry : Worded w (moduleIdentifier moduleName))
    (hv : ∀ v ∈ m.globals ++ m.temporaries, Named w v.name)
    (hscope : H → ∀ d ∈ definitionsOf scope, Worded w d.declaration ∧ Worded w d.code)
    (hcodes : H → ∀ c ∈ codes, Code w c) :
    Interned w H (finishModule m moduleName scope codes) (Worded w) := by
  refine (interned_constantFromTable _).bind fun doc => (interned_constantFromTable _).bind
    fun filename => (interned_pathOperand m.path).bind fun path => ?_
  exact interned_moduleText hname hentry hv (fun hH => hH.1.1.2) (fun hH => hH.1.2)
    (fun hH => hH.2) (fun hH => hscope hH.1.1.1) fun hH c hc => (hcodes hH.1.1.1 c hc).worded

/-- A module is lowered exactly if its slots are resolved. -/
theorem meets_moduleAt (hg : Grounded w s T top) (hname : Calm w s.moduleName)
    (hentry : Worded w (moduleIdentifier s.moduleName)) :
    Meets w (T ∧ s.tree.IsTree top ∧ ∃ m, s.tree.kind top = .module m) H (moduleAt s top)
      (∀ p ∈ s.tree.positions top, s.Resolved p) (Worded w) := by
  unfold moduleAt
  split
  next hnone =>
    refine (Meets.fail _ _ _).iff fun hT _ => ⟨False.elim, fun _ => ?_⟩
    obtain ⟨m, hm⟩ := hT.2.2
    rw [Tree.module?_eq_some_iff.mpr hm] at hnone
    exact nomatch hnone
  next m heq =>
    have hkind := Tree.module?_eq_some_iff.mp heq
    have hslots : ∀ c ∈ m.body, s.tree.Below top c := fun c hc => Tree.Below.of_child (by
      rw [Tree.children, hkind]
      exact Option.mem_toList.mpr hc)
    have hnames := (hg.suits top (Tree.Connected.refl s.tree top)).names
    rw [hkind] at hnames
    have hv : ∀ v ∈ m.globals ++ m.temporaries, Named w v.name := fun v hv =>
      hnames v.name (List.mem_map_of_mem hv)
    have hbottom : ∀ {T H : Prop}, Meets w T H
        (Lower.onScopes fun scopes => (scopes.bottom, scopes)) True
        fun scope : Scope => ∀ d ∈ definitionsOf scope, Worded w d.declaration ∧ Worded w d.code :=
      Meets.onScopes fun _ scopes hscopes => ⟨hscopes, hscopes scopes.bottom
        (List.mem_append_right _ List.mem_cons_self)⟩
    refine ((meets_optionalSequence (handles_lowerer hg) hslots).bind fun codes => hbottom.bind
      fun scope => Meets.intern (interned_finishModule hname hentry hv (fun hH => hH.2)
        fun hH => codes_getD hH.1.2)).iff fun _ _ => ?_
    rw [Tree.positions, hkind]
    simp

end Lowering
end CompilerBackend
