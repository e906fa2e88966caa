import CompilerBackend.Proofs.Raise.WellFormed
import CompilerBackend.Proofs.Tree.Behaviour
import CompilerBackend.Proofs.Tree.PreOrder
/-!
# What is inert

An operand in front of a raise is dropped if it may have no side effects. What is below such an
operand reads names and constants, builds containers and exceptions and chooses among operands; the
answer that an expression may not raise says as much about all that is evaluated with it.

- `mayHaveSideEffects_eq_false_iff`: no side effects, read off the nodes of the pre-order.
- `EvaluatedWith`: the nodes below a node, the bodies of functions apart.
- `Calm.child`, `Calm.exists_expr`, `Calm.hashesConstants`: what the answer that a node may not
  raise says about its children, its kind and what it hashes.
-/

namespace CompilerBackend

/-! ## Kinds -/

/-- Kinds that read a name, a constant or the caught exception, build a container or an exception,
or choose among operands. -/
def Expr.isInert : Expr → Bool
  | .constant _ | .variableRef _ _ | .temporaryRef _ | .builtin _ | .anonymousBuiltin _
  | .exception _ | .caught _ | .globals | .locals | .dir => true
  | .makeTuple _ | .makeList _ | .makeSet _ | .makeDict _ => true
  | .disjunction _ | .conjunction _ | .conditional _ _ _ => true
  | .sliceObject _ _ _ | .makeException _ _ => true
  | _ => false

/-- Kinds that call, raise, yield or assign, or make a function or a class. -/
def Expr.isActive : Expr → Bool
  | .call _ _ _ _ _ | .unaryBuiltin _ _ | .iterWithSentinel _ _ | .nextWithDefault _ _
  | .typeOfThree _ _ _ | .integer _ _ _ | .dict _ _ | .openFile _ _ _ | .eval _ _ _ _
  | .range _ _ _ | .builtinImport _ _ _ _ _ => true
  | .raise _ _ _ | .yield _ _ | .assignment _ _ => true
  | .function _ | .functionDefaulted _ _ | .classBody _ | .classBased _ _ => true
  | _ => false

/-- Kinds that read a variable, call, raise, yield, look something up or operate on values. -/
def Expr.isRisky : Expr → Bool
  | .variableRef _ _ => true
  | .call _ _ _ _ _ | .unaryBuiltin _ _ | .iterWithSentinel _ _ | .nextWithDefault _ _
  | .typeOfThree _ _ _ | .integer _ _ _ | .dict _ _ | .openFile _ _ _ | .eval _ _ _ _
  | .range _ _ _ | .builtinImport _ _ _ _ _ => true
  | .raise _ _ _ | .yield _ _ => true
  | .attributeOf _ _ | .specialAttributeOf _ _ | .subscript _ _ | .slice _ _ _
  | .importModule _ _ _ | .importName _ _ => true
  | .operation _ _ | .comparison _ _ _ | .listAppend _ _ | .setAdd _ _ | .dictSet _ _ _
  | .unpackNext _ _ => true
  | _ => false

theorem Expr.isInert_iff {e : Expr} : e.isInert = true ↔ e.effect ≠ .own := by
  cases e <;> simp [isInert, effect]

theorem Expr.isActive_of_isInert {e : Expr} (h : e.isInert = true) : e.isActive = false := by
  cases e <;> first | rfl | exact Bool.noConfusion h

namespace Tree

variable {t : Tree} {n m c : NodeId} {k : Nat}

/-! ## Side effects -/

/-- One step of the analysis: the node is of an inert kind, and so on for its children. -/
theorem mayHaveSideEffectsFrom_succ :
    t.mayHaveSideEffectsFrom (k + 1) n = false ↔
      (∃ e, t.expr? n = some e ∧ e.isInert = true) ∧
        ∀ c ∈ t.children n, t.mayHaveSideEffectsFrom k c = false := by
  rw [mayHaveSideEffectsFrom]
  cases he : t.expr? n with
  | none => simp
  | some e =>
      have hchildren : t.children n = e.children := by
        rw [children, expr?_eq_some_iff.mp he]
        rfl
      rw [hchildren]
      cases heffect : e.effect with
      | silent => simp [Expr.isInert_iff, heffect, Expr.children_of_silent heffect]
      | ofChildren => simp [Expr.isInert_iff, heffect]
      | own => simp [Expr.isInert_iff, heffect]

theorem mayHaveSideEffectsFrom_iff_descend (h : t.FitsIn k n) :
    t.mayHaveSideEffectsFrom k n = false ↔
      ∀ m ∈ t.descend k n, ∃ e, t.expr? m = some e ∧ e.isInert = true := by
  induction k generalizing n with
  | zero => exact h.elim
  | succ k ih =>
      rw [mayHaveSideEffectsFrom_succ, descend, List.forall_mem_cons, List.forall_mem_flatMap]
      exact and_congr_right fun _ => forall₂_congr fun c hc => ih (h c hc)

/-- An expression has no side effects just where all nodes below it are of inert kinds. -/
theorem mayHaveSideEffects_eq_false_iff (h : t.FitsIn k n) :
    t.mayHaveSideEffects n = false ↔
      ∀ m ∈ t.preOrder n, ∃ e, t.expr? m = some e ∧ e.isInert = true := by
  rw [mayHaveSideEffects, preOrder_eq_descend h.depthBound]
  exact mayHaveSideEffectsFrom_iff_descend h.depthBound

/-! ## Raising -/

/-- The nodes at and below a node that are evaluated with it: bodies of functions are not
entered. -/
inductive EvaluatedWith (t : Tree) (n : NodeId) : NodeId → Prop where
  | here : t.EvaluatedWith n n
  | child {m c : NodeId} : t.EvaluatedWith n m → (∀ f, t.expr? m ≠ some (.function f)) →
      c ∈ t.children m → t.EvaluatedWith n c

/-- The analysis finds that a node may not raise, some levels down. -/
def Calm (t : Tree) (n : NodeId) : Prop := ∃ k, t.mayRaiseFrom k n = false

/-- The members of a set and the keys of a dict are immutable constants. -/
def HashesConstants (t : Tree) (e : Expr) : Prop :=
  (∀ elements, e = .makeSet elements → ∀ c ∈ elements, t.isImmutableConstant c = true) ∧
    ∀ pairs, e = .makeDict pairs → ∀ p ∈ pairs, t.isImmutableConstant p.1 = true

/-- One step of the analysis at a set or a dict. -/
theorem of_any_hashing {α : Type} {members : List α} {constant raises : α → Bool}
    (h : (members.any fun x => !constant x || raises x) = false) {x : α} (hx : x ∈ members) :
    constant x = true ∧ raises x = false := by
  simpa using List.any_eq_false.mp h x hx

namespace Calm

theorem of_isImmutableConstant (h : t.isImmutableConstant n = true) : t.Calm n := by
  obtain ⟨v, hv, -⟩ := (Option.any_eq_true _ _).mp h
  refine ⟨1, ?_⟩
  rw [mayRaiseFrom, expr?, constant?_eq_some_iff.mp hv]
  rfl

/-- The analysis has seen an expression that cannot raise by its kind. -/
theorem exists_expr (h : t.Calm n) :
    ∃ e, t.expr? n = some e ∧ e.isRisky = false ∧
      ∃ k, t.mayRaiseFrom (k + 1) n = false := by
  obtain ⟨k, hk⟩ := h
  cases k with
  | zero => exact Bool.noConfusion hk
  | succ k =>
      have hstep := hk
      rw [mayRaiseFrom] at hstep
      cases he : t.expr? n with
      | none =>
          rw [he] at hstep
          exact Bool.noConfusion hstep
      | some e =>
          rw [he] at hstep
          refine ⟨e, rfl, ?_, k, hk⟩
          cases e <;> first | rfl | exact Bool.noConfusion hstep

theorem hashesConstants (h : t.Calm n) {e : Expr} (he : t.expr? n = some e) :
    t.HashesConstants e := by
  obtain ⟨_, -, -, k, hk⟩ := h.exists_expr
  rw [mayRaiseFrom, he] at hk
  refine ⟨?_, ?_⟩
  · rintro elements rfl c hc
    exact (of_any_hashing hk hc).1
  · rintro pairs rfl p hp
    exact (of_any_hashing hk hp).1

/-- A node that may not raise asks the same of its children, unless it makes a function. -/
theorem child (h : t.Calm n) (hfunction : ∀ f, t.expr? n ≠ some (.function f))
    (hc : c ∈ t.children n) : t.Calm c := by
  obtain ⟨e, he, -, k, hk⟩ := h.exists_expr
  rw [children, expr?_eq_some_iff.mp he] at hc
  rw [mayRaiseFrom, he] at hk
  have among : ∀ {ids : List NodeId}, ids.any (t.mayRaiseFrom k) = false → c ∈ ids →
      t.Calm c := fun hids hmem =>
    ⟨k, Bool.eq_false_of_not_eq_true (List.any_eq_false.mp hids c hmem)⟩
  -- what is hashed is a constant, which may not raise however deep the analysis has looked
  cases e with
  | makeTuple elements => exact among hk hc
  | makeList elements => exact among hk hc
  | makeException name arguments => exact among hk hc
  | makeSet elements => exact of_isImmutableConstant (of_any_hashing hk hc).1
  | makeDict pairs =>
      obtain ⟨⟨key, value⟩, hp, hc⟩ := List.mem_flatMap.mp hc
      have hpair := of_any_hashing hk hp
      rcases List.mem_cons.mp hc with rfl | hc
      · exact of_isImmutableConstant hpair.1
      · obtain rfl := List.mem_singleton.mp hc
        exact ⟨k, hpair.2⟩
  | function f => exact absurd he (hfunction f)
  | _ => first | exact absurd hc List.not_mem_nil | exact Bool.noConfusion hk

/-- What is evaluated with a node that may not raise may not raise. -/
theorem evaluatedWith (h : t.Calm n) (hm : t.EvaluatedWith n m) : t.Calm m := by
  induction hm with
  | here => exact h
  | child _ hfunction hc ih => exact ih.child hfunction hc

end Calm

/-- Below an expression without side effects there are only nodes of inert kinds, and the other way
round; so of the operands in front of a raise, none that acts is dropped. With an expression that
may not raise nothing risky is evaluated, and nothing but immutable constants is hashed. -/
theorem analyses_sound (h : t.FitsIn k n) :
    (t.mayHaveSideEffects n = false ↔
      ∀ m ∈ t.preOrder n, ∃ e, t.expr? m = some e ∧ e.isInert = true) ∧
    (∀ id, t.WellFormed → t.Reachable id → t.yieldsToRaise id = true →
      (t.cutAtRaise id).changed = true → n ∈ (t.children id).takeWhile (fun d => !t.isRaise d) →
      ¬ (t.cutAtRaise id).tree.Reachable n →
        ∀ m ∈ t.preOrder n, ∃ e, t.expr? m = some e ∧ e.isActive = false) ∧
    (t.mayRaise n = false → ∀ m, t.EvaluatedWith n m →
      ∃ e, t.expr? m = some e ∧ e.isRisky = false ∧ t.HashesConstants e) := by
  refine ⟨mayHaveSideEffects_eq_false_iff h, ?_, ?_⟩
  · intro id hwf hid hy hchanged hn hdropped m hm
    have hsilent : t.mayHaveSideEffects n = false := by
      by_contra heffects
      have hkept : t.mayHaveSideEffects n = true := Bool.eq_true_of_not_eq_false heffects
      exact hdropped (reachable_cutAtRaise hwf hid hy hchanged hn hkept)
    obtain ⟨e, he, hinert⟩ := (mayHaveSideEffects_eq_false_iff h).mp hsilent m hm
    exact ⟨e, he, Expr.isActive_of_isInert hinert⟩
  · intro hcalm m hm
    have hcalm' : t.Calm m := Calm.evaluatedWith ⟨_, hcalm⟩ hm
    obtain ⟨e, he, hrisk, -⟩ := hcalm'.exists_expr
    exact ⟨e, he, hrisk, hcalm'.hashesConstants he⟩

/-- A sum of a pair and a raise: the pair holds a constant and a set of one constant. -/
def raisingSum : Tree where
  nodes :=
    let entry (kind : NodeKind) (parent : Option NodeId) : Node :=
      ⟨kind, parent, { file := "sum.py", line := 1 }⟩
    #[entry (.expr (.constant (.int 1))) (some ⟨3⟩),
      entry (.expr (.constant (.str "a"))) (some ⟨2⟩),
      entry (.expr (.makeSet [⟨1⟩])) (some ⟨3⟩),
      entry (.expr (.makeTuple [⟨0⟩, ⟨2⟩])) (some ⟨6⟩),
      entry (.expr (.exception "ValueError")) (some ⟨5⟩),
      entry (.expr (.raise ⟨4⟩ none [])) (some ⟨6⟩),
      entry (.expr (.operation .add [⟨3⟩, ⟨5⟩])) none]
  root := some ⟨6⟩

/-- The raise is all that is left of the sum. -/
theorem not_reachable_raisingSum : ¬ (raisingSum.cutAtRaise ⟨6⟩).tree.Reachable ⟨3⟩ := by
  intro hreach
  have hclosed : ∀ n ∈ [(⟨5⟩ : NodeId), ⟨4⟩],
      ∀ c ∈ (raisingSum.cutAtRaise ⟨6⟩).tree.children n, c ∈ [(⟨5⟩ : NodeId), ⟨4⟩] := by
    decide +kernel
  have hmem := Reachable.of_closed (P := (· ∈ [(⟨5⟩ : NodeId), ⟨4⟩])) rfl List.mem_cons_self hclosed
    hreach
  exact absurd hmem (by decide)

theorem analyses_sound_raisingSum :
    raisingSum.FitsIn raisingSum.depthBound ⟨3⟩ ∧
    raisingSum.mayHaveSideEffects ⟨3⟩ = false ∧
    (∀ m ∈ raisingSum.preOrder ⟨3⟩, ∃ e, raisingSum.expr? m = some e ∧ e.isInert = true) ∧
    (raisingSum.cutAtRaise ⟨6⟩).changed = true ∧
    ¬ (raisingSum.cutAtRaise ⟨6⟩).tree.Reachable ⟨3⟩ ∧
    (∃ e, raisingSum.expr? ⟨2⟩ = some e ∧ e.isActive = false) ∧
    raisingSum.mayRaise ⟨3⟩ = false ∧ raisingSum.EvaluatedWith ⟨3⟩ ⟨2⟩ ∧
    raisingSum.isImmutableConstant ⟨1⟩ = true := by
  have hwf : raisingSum.WellFormed := .of_arena rfl rfl (by decide) (by decide)
  have htree : raisingSum.IsTree ⟨6⟩ := (hwf ⟨6⟩ rfl).2
  have hfits := htree.fitsIn ⟨[0], rfl⟩
  obtain ⟨silent, dropped, calm⟩ := analyses_sound (n := ⟨3⟩) hfits
  have hsilent : raisingSum.mayHaveSideEffects ⟨3⟩ = false := by decide
  have hchanged : (raisingSum.cutAtRaise ⟨6⟩).changed = true := by decide +kernel
  have hcalm : raisingSum.mayRaise ⟨3⟩ = false := by decide
  have hset : raisingSum.EvaluatedWith ⟨3⟩ ⟨2⟩ :=
    .child .here (fun f hf => Expr.noConfusion (Option.some.inj hf)) (by decide)
  obtain ⟨e, he, -, hhashes⟩ := calm hcalm ⟨2⟩ hset
  obtain rfl : Expr.makeSet [⟨1⟩] = e := Option.some.inj he
  have hinactive := dropped ⟨6⟩ hwf ⟨⟨6⟩, rfl, Reaches.refl _ _⟩ (by decide) hchanged (by decide)
    not_reachable_raisingSum ⟨2⟩ (by decide)
  exact ⟨hfits, hsilent, silent.mp hsilent, hchanged, not_reachable_raisingSum, hinactive, hcalm,
    hset, hhashes.1 _ rfl ⟨1⟩ (by decide)⟩

end Tree
end CompilerBackend
