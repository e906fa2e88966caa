import CompilerBackend.Proofs.Constant.Reading
import CompilerBackend.Proofs.Lowering.Paired
import CompilerBackend.Proofs.Lowering.Runs
/-!
# Values of containers

An expression made of constants and containers has a value. A container whose elements are immutable
constants is folded into one constant, any other one is built element by element; either way the
code stands for the value in the program after the lowering.

- `Builds`, `Tree.HasValue`: values of nodes.
- `interned_constantSpells`, `interned_tupleSpells` and the like: constants and containers of
  operands that stand for constants.
- `spells_ofDepth`: one step down the tree takes one level.
- `expression_value`: the code of an expression stands for its value.
-/

namespace CompilerBackend

open Lowering Target Text Program

variable {t : Tree} {s : Setting} {self : Lowerer} {p q : Program} {H : Prop} {id : NodeId}
  {ids : List NodeId} {n : Nat} {c : Constant} {cs : List Constant}

/-! ## Values of nodes -/

/-- The value that an expression of constants and containers has, if its elements have values as
related. -/
inductive Builds (R : NodeId → Constant → Prop) : Expr → Constant → Prop
  | constant (c : Constant) : Builds R (.constant c) c
  | tuple (ids : List NodeId) (cs : List Constant) (h : List.Forall₂ R ids cs) :
      Builds R (.makeTuple ids) (.tuple cs)
  | list (ids : List NodeId) (cs : List Constant) (h : List.Forall₂ R ids cs) :
      Builds R (.makeList ids) (.list cs)
  | set (ids : List NodeId) (cs : List Constant) (h : List.Forall₂ R ids cs) :
      Builds R (.makeSet ids) (.set cs)
  | dict (pairs : List (NodeId × NodeId)) (ks vs : List Constant)
      (hk : List.Forall₂ R (pairs.map (·.1)) ks) (hv : List.Forall₂ R (pairs.map (·.2)) vs) :
      Builds R (.makeDict pairs) (.dict (ks.zip vs))

def Tree.ValueWithin (t : Tree) : Nat → NodeId → Constant → Prop
  | 0, _, _ => False
  | n + 1, id, c => ∃ e, t.kind id = .expr e ∧ Builds (t.ValueWithin n) e c

def Tree.HasValue (t : Tree) (id : NodeId) (c : Constant) : Prop := ∃ n, t.ValueWithin n id c

theorem forall₂_of_mem {α β : Type} {R S : α → β → Prop} {as : List α} {bs : List β}
    (h : List.Forall₂ R as bs) (hrs : ∀ a ∈ as, ∀ b, R a b → S a b) : List.Forall₂ S as bs :=
  ((List.forall₂_and_left _ _).mpr ⟨fun _ ha => ha, h⟩).imp fun a b hab => hrs a hab.1 b hab.2

namespace Builds

variable {R S : NodeId → Constant → Prop} {e : Expr}

theorem mono (h : Builds R e c) (hrs : ∀ id ∈ e.children, ∀ c, R id c → S id c) :
    Builds S e c := by
  cases h with
  | constant => exact .constant c
  | tuple ids cs h => exact .tuple ids cs (forall₂_of_mem h hrs)
  | list ids cs h => exact .list ids cs (forall₂_of_mem h hrs)
  | set ids cs h => exact .set ids cs (forall₂_of_mem h hrs)
  | dict pairs ks vs hk hv =>
      refine .dict pairs ks vs (forall₂_of_mem hk fun id hid => hrs id ?_)
        (forall₂_of_mem hv fun id hid => hrs id ?_)
      · obtain ⟨pair, hpair, rfl⟩ := List.mem_map.mp hid
        exact (mem_pairSlots hpair).1
      · obtain ⟨pair, hpair, rfl⟩ := List.mem_map.mp hid
        exact (mem_pairSlots hpair).2

theorem exists_of_child (h : Builds R e c) (hid : id ∈ e.children) : ∃ c, R id c := by
  have hall : ∀ {ids cs}, List.Forall₂ R ids cs → id ∈ ids → ∃ c, R id c := by
    intro ids cs h hid
    exact ((List.forall₂_and_left (p := fun a => ∃ c, R a c) (R := R) _ _).mp
      (h.imp fun a b hab => ⟨⟨b, hab⟩, hab⟩)).1 id hid
  cases h with
  | constant => exact nomatch hid
  | tuple ids cs h => exact hall h hid
  | list ids cs h => exact hall h hid
  | set ids cs h => exact hall h hid
  | dict pairs ks vs hk hv =>
      obtain ⟨pair, hpair, hmem⟩ := List.mem_flatMap.mp hid
      simp only [List.mem_cons, List.not_mem_nil, or_false] at hmem
      rcases hmem with rfl | rfl
      · exact hall hk (List.mem_map_of_mem hpair)
      · exact hall hv (List.mem_map_of_mem hpair)

end Builds

/-- Immutable constants are folded to their values. -/
theorem immutableConstants?_eq {cs' : List Constant} (h : immutableConstants? t ids = some cs')
    (hvalues : List.Forall₂ (t.ValueWithin n) ids cs) : cs' = cs := by
  induction hvalues generalizing cs' with
  | nil => exact (Option.some.inj h).symm
  | cons hvalue _ ih =>
      obtain ⟨c', hc', hmore⟩ := Option.bind_eq_some_iff.mp h
      obtain ⟨rest, hrest, hcons⟩ := Option.bind_eq_some_iff.mp hmore
      obtain rfl := Option.some.inj hcons
      have hkind := kind_of_immutableConstant? hc'
      cases n with
      | zero => exact hvalue.elim
      | succ n =>
          obtain ⟨e, he, hbuilds⟩ := hvalue
          obtain rfl : Expr.constant c' = e := NodeKind.expr.inj (hkind.symm.trans he)
          cases hbuilds
          rw [ih hrest]

/-! ## Operands -/

def Wording.holding (q : Program) : Wording := Wording.free.onto q

theorem lax_holding (q : Program) : (Wording.holding q).Lax :=
  ⟨fun _ => trivial, fun _ => trivial, id, id⟩

theorem spells_tableAccess {handle : String} (hq : q.WellFormed) (he : ⟨c, handle⟩ ∈ q.table) :
    q.Spells (tableAccess c handle).code c := by
  have hname := spells_handle hq he
  have htop : ∀ helper, copyDepth? helper = some .top →
      helper ∈ ["LIST_COPY", "PyDict_Copy", "PySet_New", "DEEP_COPY"] := by
    intro helper hdepth
    unfold copyDepth? at hdepth
    split at hdepth
    next => exact nomatch hdepth
    next =>
      split at hdepth
      next hmem => exact List.mem_append_left ["DEEP_COPY"] hmem
      next => exact nomatch hdepth
  rcases tableAccess_cases c handle with ⟨-, helper, hdepth, -, heq⟩ | ⟨-, -, heq⟩ | ⟨-, heq⟩
  · rw [heq]
    exact hname.copied (htop helper hdepth)
  · rw [heq]
    exact hname.copied (by simp)
  · rw [heq]
    exact hname

theorem interned_constantSpells (hq : H → q.WellFormed) (c : Constant) :
    Interned (Wording.holding q) H (constantFromTable c) fun o => q.Spells o.code c := by
  intro p hp
  obtain ⟨hwf, hext, hmem⟩ := hp.intern c
  refine ⟨hwf, hext, fun hH hfinal => ?_⟩
  have hentry : ⟨c, (p.intern c).1⟩ ∈ q.table := Extends.mem hfinal hmem
  exact spells_tableAccess (hq hH) hentry

theorem interned_accessSpells (hq : H → q.WellFormed) (c : Constant) :
    Interned (Wording.holding q) H (constantAccess c) fun o => q.Spells o.code c := by
  rcases constantAccess_cases c with ⟨name, hname, heq⟩ | heq
  · rw [heq]
    exact Interned.pure fun _ => spells_singleton hname
  · rw [heq]
    exact interned_constantSpells hq c

section

variable {os keys values : List Operand} {ks vs : List Constant}

theorem interned_tupleSpells (hne : cs ≠ []) (h : H → q.AllSpell os cs) :
    Interned (Wording.holding q) H (tupleCreation os) fun o => q.Spells o.code (.tuple cs) :=
  (interned_recordTuple os.length).bind fun _ => Interned.pure fun hH => spells_tuple (h hH.1) hne

theorem interned_listSpells (hne : cs ≠ []) (h : H → q.AllSpell os cs) :
    Interned (Wording.holding q) H (listCreation os) fun o => q.Spells o.code (.list cs) := by
  refine (interned_recordList os.length).bind fun _ => Interned.pure fun hH => ?_
  have hany : (asArguments os).isEmpty = false := by
    simpa [asArguments] using (h hH.1).ne_nil hne
  rw [appliedIfAny, hany]
  exact spells_list (h hH.1) hne

theorem interned_setSpells (hne : cs ≠ []) (h : H → q.AllSpell os cs) :
    Interned (Wording.holding q) H (pure (setCreation os)) fun o => q.Spells o.code (.set cs) := by
  refine Interned.pure fun hH => ?_
  rw [setCreation, if_neg (by simpa using (h hH).ne_nil hne)]
  exact spells_set (h hH)

theorem interned_dictSpells (hlength : ks.length = vs.length) (hne : ks ≠ [])
    (hk : H → q.AllSpell keys ks) (hv : H → q.AllSpell values vs) :
    Interned (Wording.holding q) H (dictCreation keys values) fun o =>
      q.Spells o.code (.dict (ks.zip vs)) := by
  refine (interned_recordDict keys.length).bind fun _ => ?_
  dsimp only
  split
  next hnil =>
    exact Interned.pure fun hH => absurd (List.isEmpty_iff.mp hnil) ((hk hH.1).ne_nil hne)
  next => exact Interned.pure fun hH => spells_dict (hk hH.1) (hv hH.1) hlength hne

end

/-! ## Levels -/

/-- The lowering succeeds, and its code stands for the constant in any program that goes on from
there. -/
def Lowerer.Spells (self : Lowerer) (id : NodeId) (c : Constant) : Prop :=
  ∀ (q : Program) (H : Prop), (H → q.WellFormed) →
    Meets (Wording.holding q) True H (self.expression id) True fun o => q.Spells o.code c

theorem meets_spelled (h : List.Forall₂ self.Spells ids cs) (hq : H → q.WellFormed) :
    Meets (Wording.holding q) True H (self.expressions ids) True fun os => q.AllSpell os cs := by
  induction h generalizing H with
  | nil => exact Meets.pure fun _ => List.Forall₂.nil
  | cons hc _ ih =>
      refine ((hc q H hq).bind fun o => (ih fun hH => hq hH.1).bind fun os =>
        Meets.pure fun hH => ?_).iff fun _ _ => by simp
      exact List.Forall₂.cons hH.1.2 hH.2

theorem meets_containerSpells {fold : List Constant → Constant}
    {build : List Operand → Interning Operand}
    (hvalues : List.Forall₂ (s.tree.ValueWithin n) ids cs)
    (h : List.Forall₂ self.Spells ids cs) (hq : H → q.WellFormed)
    (hbuild : ∀ {H : Prop} {os : List Operand}, cs ≠ [] → (H → q.AllSpell os cs) →
      Interned (Wording.holding q) H (build os) fun o => q.Spells o.code (fold cs)) :
    Meets (Wording.holding q) True H (container s.tree self fold build ids) True fun o =>
      q.Spells o.code (fold cs) := by
  unfold container
  split
  next cs' hcs =>
      obtain rfl := immutableConstants?_eq hcs hvalues
      exact Meets.intern (interned_constantSpells hq _)
  next hnone =>
      have hne : cs ≠ [] := by
        rintro rfl
        rw [List.forall₂_nil_right_iff.mp h] at hnone
        exact nomatch hnone
      exact ((meets_spelled h hq).bind fun os => Meets.intern (hbuild hne And.right)).iff
        fun _ _ => and_self_iff

theorem meets_dictSpells {pairs : List (NodeId × NodeId)} {ks vs : List Constant}
    (hkeys : List.Forall₂ (s.tree.ValueWithin n) (pairs.map (·.1)) ks)
    (hvalues : List.Forall₂ (s.tree.ValueWithin n) (pairs.map (·.2)) vs)
    (hk : List.Forall₂ self.Spells (pairs.map (·.1)) ks)
    (hv : List.Forall₂ self.Spells (pairs.map (·.2)) vs) (hq : H → q.WellFormed) :
    Meets (Wording.holding q) True H (Lowering.dict s.tree self pairs) True fun o =>
      q.Spells o.code (.dict (ks.zip vs)) := by
  have hlength : ks.length = vs.length := by
    rw [← hk.length_eq, ← hv.length_eq, List.length_map, List.length_map]
  unfold Lowering.dict
  dsimp only
  split
  next ks' vs' hks hvs =>
      obtain rfl := immutableConstants?_eq hks hkeys
      obtain rfl := immutableConstants?_eq hvs hvalues
      exact Meets.intern (interned_constantSpells hq _)
  next hnone =>
      have hne : ks ≠ [] := by
        rintro rfl
        obtain rfl : pairs = [] := List.map_eq_nil_iff.mp (List.forall₂_nil_right_iff.mp hk)
        exact hnone [] [] rfl rfl
      exact ((meets_spelled hk hq).bind fun os => (meets_spelled hv fun hH => hq hH.1).bind fun os' =>
        Meets.intern (interned_dictSpells hlength hne (fun hH => hH.1.2) And.right)).iff
          fun _ _ => by simp

/-- The check of an operand lets what stands for a constant pass. -/
theorem meets_checkedSpells {e : Expr} (hkind : s.tree.kind id = .expr e)
    (h : ∀ (q : Program) (H : Prop), (H → q.WellFormed) →
      Meets (Wording.holding q) True H (expressionForm s self id e) True fun o => q.Spells o.code c) :
    (Lowerer.over s self).Spells id c := by
  intro q H hq
  change Meets _ _ _ (Lowering.expression s self id) _ _
  unfold Lowering.expression
  rw [Tree.expr?_eq_some_iff.mpr hkind]
  refine ((h q H hq).bind (Ψ := True) fun o => ?_).iff fun _ _ => and_self_iff
  split
  next cause hdefect =>
    refine (Meets.fail _ _ _).iff fun _ hH => ⟨False.elim, fun _ => ?_⟩
    exact nomatch hdefect.symm.trans
      (Operand.defect?_of_hasNoMargin hH.2.solid (beq_iff_eq.mpr hH.2.trimmed))
  next => exact Meets.pure And.right

/-- One step down: an expression of constants and containers, over the lowering of its elements. -/
theorem spells_over (hself : ∀ id c, s.tree.ValueWithin n id c → self.Spells id c)
    (h : s.tree.ValueWithin (n + 1) id c) : (Lowerer.over s self).Spells id c := by
  obtain ⟨e, hkind, hbuilds⟩ := h
  refine meets_checkedSpells hkind fun q H hq => ?_
  cases hbuilds with
  | constant => exact Meets.intern (interned_accessSpells hq c)
  | tuple ids cs h => exact meets_containerSpells h (h.imp hself) hq interned_tupleSpells
  | list ids cs h => exact meets_containerSpells h (h.imp hself) hq interned_listSpells
  | set ids cs h => exact meets_containerSpells h (h.imp hself) hq interned_setSpells
  | dict pairs ks vs hk hv => exact meets_dictSpells hk hv (hk.imp hself) (hv.imp hself) hq

/-- The induction is on the levels of the value. -/
theorem spells_ofDepth {levels : Nat} (hlevels : n ≤ levels) (h : s.tree.ValueWithin n id c) :
    (Lowerer.ofDepth s levels).Spells id c := by
  induction n generalizing levels id c with
  | zero => exact h.elim
  | succ n ih =>
      obtain ⟨levels, rfl⟩ : ∃ m, levels = m + 1 := ⟨levels - 1, by omega⟩
      exact spells_over (fun id c hc => ih (by omega) hc) h

/-! ## Depth -/

namespace Tree

theorem ValueWithin.fitsIn (h : t.ValueWithin n id c) : t.FitsIn n id := by
  induction n generalizing id c with
  | zero => exact h.elim
  | succ n ih =>
      obtain ⟨e, hkind, hbuilds⟩ := h
      intro child hchild
      rw [children, hkind] at hchild
      obtain ⟨d, hd⟩ := hbuilds.exists_of_child hchild
      exact ih hd

/-- A value needs no more levels than there are below its node. -/
theorem ValueWithin.of_fitsIn {k : Nat} (h : t.ValueWithin n id c) (hfits : t.FitsIn k id) :
    t.ValueWithin k id c := by
  induction k generalizing n id c with
  | zero => exact hfits.elim
  | succ k ih =>
      cases n with
      | zero => exact h.elim
      | succ n =>
          obtain ⟨e, hkind, hbuilds⟩ := h
          refine ⟨e, hkind, hbuilds.mono fun child hchild d hd => ih hd (hfits child ?_)⟩
          rw [children, hkind]
          exact hchild

theorem HasValue.within (h : t.HasValue id c) : t.ValueWithin t.depthBound id c := by
  obtain ⟨n, hn⟩ := h
  exact hn.of_fitsIn hn.fitsIn.depthBound

end Tree

/-! ## Expressions -/

/-- The elements of a container; those of a dict are its keys and values. -/
def NodeKind.elements? : NodeKind → Option (List NodeId)
  | .expr (.makeTuple ids) => some ids
  | .expr (.makeList ids) => some ids
  | .expr (.makeSet ids) => some ids
  | .expr (.makeDict pairs) => some (pairs.map (·.1) ++ pairs.map (·.2))
  | _ => none

/-- The program has one more entry at most, and the same sizes. -/
structure Program.OneMore (p p' : Program) : Prop where
  table : p'.table = p.table ∨ ∃ e, p'.table = p.table ++ [e]
  tuples : p'.tuples = p.tuples
  lists : p'.lists = p.lists
  dicts : p'.dicts = p.dicts

theorem Program.WellFormed.oneMore (hp : p.WellFormed) (c : Constant) :
    p.OneMore (p.intern c).2 := by
  rcases hp.intern_cases c with ⟨e, -, -, heq⟩ | ⟨-, constants, heq, hadd⟩
  · rw [heq]
    exact ⟨Or.inl rfl, rfl, rfl, rfl⟩
  · rw [heq]
    exact ⟨Or.inr ⟨_, WellFormed.table_append hadd⟩, rfl, rfl, rfl⟩

theorem immutableConstants?_isSome
    (h : ∀ e ∈ ids, ∃ d, t.kind e = .expr (.constant d) ∧ d.isMutable = false) :
    ∃ cs, immutableConstants? t ids = some cs := by
  induction ids with
  | nil => exact ⟨[], rfl⟩
  | cons id ids ih =>
      obtain ⟨⟨d, hkind, hd⟩, hrest⟩ := List.forall_mem_cons.mp h
      obtain ⟨cs, hcs⟩ := ih hrest
      have hid : immutableConstant? t id = some d := by
        rw [immutableConstant?, Tree.constant?_eq_some_iff.mpr hkind, Option.filter_some, hd]
        rfl
      exact ⟨d :: cs, by rw [immutableConstants?, hid, hcs]; rfl⟩

/-- A container of immutable constants is asked for as one constant. -/
theorem expressionForm_eq_intern {e : Expr} (hids : (NodeKind.expr e).elements? = some ids)
    (himmutable : ∀ e ∈ ids, ∃ d, s.tree.kind e = .expr (.constant d) ∧ d.isMutable = false) :
    ∃ c, expressionForm s self id e = Lower.intern (constantFromTable c) := by
  cases e with
  | makeTuple | makeList | makeSet =>
      obtain rfl := Option.some.inj hids
      obtain ⟨cs, hcs⟩ := immutableConstants?_isSome himmutable
      change ∃ c, container s.tree self _ _ _ = _
      rw [container, hcs]
      exact ⟨_, rfl⟩
  | makeDict pairs =>
      obtain rfl := Option.some.inj hids
      obtain ⟨hkeys, hvalues⟩ := List.forall_mem_append.mp himmutable
      obtain ⟨ks, hks⟩ := immutableConstants?_isSome hkeys
      obtain ⟨vs, hvs⟩ := immutableConstants?_isSome hvalues
      change ∃ c, Lowering.dict s.tree self pairs = _
      unfold Lowering.dict
      dsimp only
      rw [hks, hvs]
      exact ⟨_, rfl⟩
  | _ => exact nomatch hids

theorem RunsTo.oneMore {o : Operand} {g g' : Progress}
    (h : RunsTo (Lowering.expression s self id) g o g') (hg : g.program.WellFormed)
    (hids : (s.tree.kind id).elements? = some ids)
    (himmutable : ∀ e ∈ ids, ∃ d, s.tree.kind e = .expr (.constant d) ∧ d.isMutable = false) :
    g.program.OneMore g'.program := by
  obtain ⟨e, hkind⟩ : ∃ e, s.tree.kind id = .expr e := by
    cases hkind : s.tree.kind id with
    | expr e => exact ⟨e, rfl⟩
    | _ =>
        rw [hkind] at hids
        exact nomatch hids
  rw [hkind] at hids
  obtain ⟨c, hform⟩ : ∃ c, expressionForm s self id e = Lower.intern (constantFromTable c) :=
    expressionForm_eq_intern hids himmutable
  have hrun := ((runsTo_expression_iff (Tree.expr?_eq_some_iff.mpr hkind)).mp h).1
  rw [hform] at hrun
  obtain rfl := (Prod.mk.inj hrun).2
  exact hg.oneMore c

/-- An expression made of constants and containers has code, whatever the program holds, and the
code stands for its value in the program after it. If all elements are immutable constants, it adds
one entry to the program at most. -/
theorem expression_value (hvalue : s.tree.HasValue id c) {g : Progress}
    (hg : g.program.WellFormed) : ∃ o g', RunsTo (s.lowerer.expression id) g o g' ∧
      g'.program.value? o.code = some c ∧
      ∀ ids, (s.tree.kind id).elements? = some ids →
        (∀ e ∈ ids, ∃ d, s.tree.kind e = .expr (.constant d) ∧ d.isMutable = false) →
          g.program.OneMore g'.program := by
  have hspells : s.lowerer.Spells id c :=
    spells_ofDepth (by rw [Setting.depthBound]; omega) hvalue.within
  -- the judgement holds for every later program; it is used for the one that the run ends with
  rcases hend : (s.lowerer.expression id).run g with ⟨r, g'⟩
  have hwf : g'.program.WellFormed := by
    have hmeets := (hspells g'.program False False.elim g hg).1
    rwa [hend] at hmeets
  obtain ⟨-, hresult, haccepts⟩ := (hspells g'.program True (fun _ => hwf) g hg).2.2 trivial
    (by rw [hend]; exact Extends.refl _) ((lax_holding _).registered _)
  rw [hend] at hresult haccepts
  obtain ⟨o, rfl⟩ := (haccepts trivial).mpr trivial
  refine ⟨o, g', hend, (hresult o rfl).value, fun ids hids himmutable => ?_⟩
  exact RunsTo.oneMore hend hg hids himmutable

/-- The expression `{"a": [(True,), 7, []]}`. -/
def nested : Tree where
  nodes :=
    let entry (e : Expr) (parent : Option NodeId) : Node :=
      ⟨.expr e, parent, { file := "spam.py", line := 1 }⟩
    #[entry (.makeDict [(⟨1⟩, ⟨2⟩)]) none,
      entry (.constant (.str "a")) (some ⟨0⟩),
      entry (.makeList [⟨3⟩, ⟨5⟩, ⟨6⟩]) (some ⟨0⟩),
      entry (.makeTuple [⟨4⟩]) (some ⟨2⟩),
      entry (.constant (.bool true)) (some ⟨3⟩),
      entry (.constant (.int 7)) (some ⟨2⟩),
      entry (.makeList []) (some ⟨2⟩)]

def nestedSetting : Setting :=
  { tree := nested, moduleName := "spam", codeName := moduleIdentifier "spam" }

def nestedValue : Constant :=
  .dict [(.str "a", .list [.tuple [.bool true], .int 7, .list []])]

def nestedCode : String :=
  "MAKE_DICT1( PyObjectTemporary( MAKE_LIST3( const_tuple_1, const_int_2, " ++
    "PyObjectTemporary( LIST_COPY( const_list_3 ) ).asObject() ) ).asObject(), const_str_plain_a )"

theorem hasValue_nested : nestedSetting.tree.HasValue ⟨0⟩ nestedValue := by
  have hconstant : ∀ {n id c}, nested.kind id = .expr (.constant c) →
      nested.ValueWithin (n + 1) id c := fun hkind => ⟨_, hkind, .constant _⟩
  refine ⟨4, _, rfl, .dict _ [.str "a"] [.list [.tuple [.bool true], .int 7, .list []]]
    (.cons (hconstant rfl) .nil) (.cons ⟨_, rfl, .list _ _ (.cons ⟨_, rfl, .tuple _ _ ?_⟩ ?_)⟩ .nil)⟩
  · exact .cons (hconstant rfl) .nil
  · exact .cons (hconstant rfl) (.cons ⟨_, rfl, .list _ _ .nil⟩ .nil)

theorem immutable_nested : ∀ e ∈ [(⟨4⟩ : NodeId)], ∃ d,
    nestedSetting.tree.kind e = .expr (.constant d) ∧ d.isMutable = false := by
  intro e he
  rw [List.mem_singleton.mp he]
  exact ⟨.bool true, rfl, rfl⟩

/-- The tuple and the empty list are folded, what holds them is built. -/
theorem expression_value_nested : nestedSetting.tree.HasValue ⟨0⟩ nestedValue ∧
    Program.WellFormed {} ∧
    (∃ o g', RunsTo (nestedSetting.lowerer.expression ⟨0⟩) {} o g' ∧ o.code = nestedCode ∧
      g'.program.value? nestedCode = some nestedValue) ∧
    ∃ o g', RunsTo (nestedSetting.lowerer.expression ⟨3⟩) {} o g' ∧
      g'.program.value? o.code = some (.tuple [.bool true]) ∧ Program.OneMore {} g'.program := by
  obtain ⟨o, g', hrun, hvalue, -⟩ := expression_value hasValue_nested (g := {}) wellFormed_empty
  have hcode : ((nestedSetting.lowerer.expression ⟨0⟩).run {}).1.toOption.map (·.code) =
      some nestedCode := by decide +kernel
  rw [hrun] at hcode
  have hsame : o.code = nestedCode := Option.some.inj hcode
  have hfolded : nestedSetting.tree.HasValue ⟨3⟩ (.tuple [.bool true]) :=
    ⟨2, _, rfl, .tuple _ _ (.cons ⟨_, rfl, .constant _⟩ .nil)⟩
  obtain ⟨o', g'', hrun', hvalue', hone⟩ :=
    expression_value hfolded (g := {}) wellFormed_empty
  exact ⟨hasValue_nested, wellFormed_empty, ⟨o, g', hrun, hsame, hsame ▸ hvalue⟩,
    o', g'', hrun', hvalue', hone _ rfl immutable_nested⟩

end CompilerBackend
