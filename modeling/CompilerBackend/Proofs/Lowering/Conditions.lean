import CompilerBackend.Proofs.Lowering.Yields
import CompilerBackend.Proofs.Target.Conditions
import CompilerBackend.Proofs.Tree.WellFormed
/-!
# Conditions

The condition that an expression is lowered to decides as the truth test of the expression does: it
tests the same nodes in the same order and comes to the same value, or to the opposite one if it is
inverted.

- `Decides`: the truth test of an expression in the compiled language.
- `Condition`: what the text of a condition is read as.
- `condition_decides`: the two agree.
-/

namespace CompilerBackend

open Target Lowering

/-! ## Truth tests -/

def Expr.isTested : Expr → Bool
  | .constant _ | .disjunction _ | .conjunction _ | .operation .not [_] => false
  | _ => true

/-- What is asked while an expression is tested. -/
inductive Question where
  | truth (id : NodeId)
  /-- Operands in order up to one with the value `stop`, or to the last one. -/
  | first (stop : Bool) (ids : List NodeId)

/-- The answer to a question about a tree with the nodes that are tested for it, in order, if `v`
are the truth values of nodes. -/
inductive Tree.Decides (t : Tree) (v : NodeId → Bool) : Question → List NodeId → Bool → Prop
  | constant {id : NodeId} {c : Constant} (h : t.kind id = .expr (.constant c)) :
      Decides t v (.truth id) [] c.truth
  | disjunction {id : NodeId} {operands τ : List NodeId} {b : Bool}
      (h : t.kind id = .expr (.disjunction operands)) (hd : Decides t v (.first true operands) τ b) :
      Decides t v (.truth id) τ b
  | conjunction {id : NodeId} {operands τ : List NodeId} {b : Bool}
      (h : t.kind id = .expr (.conjunction operands))
      (hd : Decides t v (.first false operands) τ b) : Decides t v (.truth id) τ b
  | negation {id operand : NodeId} {τ : List NodeId} {b : Bool}
      (h : t.kind id = .expr (.operation .not [operand])) (hd : Decides t v (.truth operand) τ b) :
      Decides t v (.truth id) τ (!b)
  | tested {id : NodeId} {e : Expr} (h : t.kind id = .expr e) (he : e.isTested = true) :
      Decides t v (.truth id) [id] (v id)
  | last {stop b : Bool} {id : NodeId} {τ : List NodeId} (h : Decides t v (.truth id) τ b) :
      Decides t v (.first stop [id]) τ b
  | stops {stop : Bool} {id : NodeId} {ids τ : List NodeId}
      (h : Decides t v (.truth id) τ stop) : Decides t v (.first stop (id :: ids)) τ stop
  | goesOn {stop b c : Bool} {id : NodeId} {ids τ τ' : List NodeId}
      (h : Decides t v (.truth id) τ b) (hb : b ≠ stop)
      (h' : Decides t v (.first stop ids) τ' c) : Decides t v (.first stop (id :: ids)) (τ ++ τ') c

variable {t : Tree} {v : NodeId → Bool}

/-- A truth test has one course only. -/
theorem Tree.Decides.unique {q : Question} {τ τ' : List NodeId} {b b' : Bool}
    (h : t.Decides v q τ b) (h' : t.Decides v q τ' b') : τ = τ' ∧ b = b' := by
  induction h generalizing τ' b' with
  | constant hk =>
      cases h' with
      | constant hk' =>
          cases hk.symm.trans hk'
          exact ⟨rfl, rfl⟩
      | disjunction hk' | conjunction hk' | negation hk' => cases hk.symm.trans hk'
      | tested hk' he =>
          cases hk.symm.trans hk'
          exact nomatch he
  | disjunction hk _ ih =>
      cases h' with
      | disjunction hk' h' =>
          cases hk.symm.trans hk'
          exact ih h'
      | constant hk' | conjunction hk' | negation hk' => cases hk.symm.trans hk'
      | tested hk' he =>
          cases hk.symm.trans hk'
          exact nomatch he
  | conjunction hk _ ih =>
      cases h' with
      | conjunction hk' h' =>
          cases hk.symm.trans hk'
          exact ih h'
      | constant hk' | disjunction hk' | negation hk' => cases hk.symm.trans hk'
      | tested hk' he =>
          cases hk.symm.trans hk'
          exact nomatch he
  | negation hk _ ih =>
      cases h' with
      | negation hk' h' =>
          cases hk.symm.trans hk'
          obtain ⟨hτ, hb⟩ := ih h'
          exact ⟨hτ, congrArg _ hb⟩
      | constant hk' | disjunction hk' | conjunction hk' => cases hk.symm.trans hk'
      | tested hk' he =>
          cases hk.symm.trans hk'
          exact nomatch he
  | tested hk he =>
      cases h' with
      | tested => exact ⟨rfl, rfl⟩
      | constant hk' | disjunction hk' | conjunction hk' | negation hk' =>
          cases hk.symm.trans hk'
          exact nomatch he
  | last h ih =>
      cases h' with
      | last h' => exact ih h'
      | stops h' => exact ih h'
      | goesOn _ _ h' => cases h'
  | stops h ih =>
      cases h' with
      | last h' => exact ih h'
      | stops h' => exact ih h'
      | goesOn h' hb => exact absurd (ih h').2.symm hb
  | goesOn _ hb hrest ih ihrest =>
      cases h' with
      -- behind the last operand there is none to go on with
      | last => cases hrest
      | stops h' => exact absurd (ih h').2 hb
      | goesOn h' _ hrest' =>
          obtain ⟨rfl, -⟩ := ih h'
          obtain ⟨rfl, hc⟩ := ihrest hrest'
          exact ⟨rfl, hc⟩

/-! ## Conditions -/

/-- The lowering of an expression, some number of levels deep, yields the operand. -/
def Setting.LowersTo (s : Setting) (id : NodeId) (o : Operand) : Prop :=
  ∃ n, Yields ((Lowerer.ofDepth s n).expression id) o

/-- An atom is the comparison of the operands of its node, or the test whether the operand that its
node is lowered to is true, or whether it is false. -/
inductive Target.Atom.Tests (s : Setting) : Atom → Prop
  | comparison {id left right : NodeId} {comparator : Comparator} {l r : Operand}
      (h : s.tree.kind id = .expr (.comparison comparator left right)) (hl : s.LowersTo left l)
      (hr : s.LowersTo right r) :
      Tests s ⟨id, true, comparisonText l.asArgument r.asArgument comparator⟩
  | truth {id : NodeId} {o : Operand} (ho : s.LowersTo id o) :
      Tests s ⟨id, true, "CHECK_IF_TRUE( " ++ o.asArgument ++ " )"⟩
  | falsehood {id : NodeId} {o : Operand} (ho : s.LowersTo id o) :
      Tests s ⟨id, false, "CHECK_IF_FALSE( " ++ o.asArgument ++ " )"⟩

/-- What a condition of a node is read as: a formula made of tests, which makes the tests that the
truth test of the node makes, in that order, and has its value or, if inverted, the opposite. -/
structure Condition (s : Setting) (id : NodeId) (inverted : Bool) (code : String)
    (tokens : List Token) (f : Formula) : Prop where
  spelled_eq : spelled tokens = code
  tests : ∀ a, Token.atom a ∈ tokens → a.Tests s
  clause : Clause tokens f
  decides : ∀ v, s.tree.Decides v (.truth id) (f.run v).1 ((f.run v).2 != inverted)

variable {s : Setting} {id : NodeId} {inverted : Bool} {code : String} {tokens : List Token}
  {f : Formula}

/-- A condition in inverted form, from the one that is not inverted. -/
theorem Condition.inverting (h : Condition s id false code tokens f) (inverted : Bool) :
    ∃ tokens' f', Condition s id inverted (Lowering.inverting inverted code) tokens' f' := by
  cases inverted with
  | false => exact ⟨tokens, f, h⟩
  | true =>
      refine ⟨_, _, ⟨?_, ?_, h.clause.negation, fun v => ?_⟩⟩
      · rw [spelled_negation, h.spelled_eq]
        rfl
      · intro a ha
        apply h.tests a
        simpa using ha
      · have hdecides := h.decides v
        rw [Bool.bne_false] at hdecides
        rw [Formula.run, Bool.bne_true, Bool.not_not]
        exact hdecides

inductive Conditions (s : Setting) :
    List NodeId → List String → List (List Token) → List Formula → Prop
  | nil : Conditions s [] [] [] []
  | cons {id : NodeId} {ids : List NodeId} {code : String} {codes : List String}
      {tokens : List Token} {parts : List (List Token)} {f : Formula} {fs : List Formula}
      (h : Condition s id false code tokens f) (hrest : Conditions s ids codes parts fs) :
      Conditions s (id :: ids) (code :: codes) (tokens :: parts) (f :: fs)

variable {ids : List NodeId} {codes : List String} {parts : List (List Token)} {fs : List Formula}

theorem Conditions.spelled_eq (h : Conditions s ids codes parts fs) : parts.map spelled = codes := by
  induction h with
  | nil => rfl
  | cons h _ ih => rw [List.map_cons, h.spelled_eq, ih]

theorem Conditions.clauses (h : Conditions s ids codes parts fs) : List.Forall₂ Clause parts fs := by
  induction h with
  | nil => exact .nil
  | cons h _ ih => exact .cons h.clause ih

theorem Conditions.tests (h : Conditions s ids codes parts fs) :
    ∀ tokens ∈ parts, ∀ a, Token.atom a ∈ tokens → a.Tests s := by
  induction h with
  | nil => exact fun _ h => absurd h List.not_mem_nil
  | cons h _ ih =>
      intro tokens htokens
      rcases List.mem_cons.mp htokens with rfl | htokens
      · exact h.tests
      · exact ih tokens htokens

/-- Operands are tested in order up to one that decides, as the selection of their formulas is
run. -/
theorem Conditions.decides (h : Condition s id false code tokens f)
    (hrest : Conditions s ids codes parts fs) (stop : Bool) (v : NodeId → Bool) :
    s.tree.Decides v (.first stop (id :: ids)) ((Formula.selection stop f fs).run v).1
      ((Formula.selection stop f fs).run v).2 := by
  have hfirst := h.decides v
  rw [Bool.bne_false] at hfirst
  -- the induction is on the operands behind the first one, each of which becomes the first in turn
  induction hrest generalizing id code tokens f with
  | nil => exact .last hfirst
  | cons h' _ ih =>
      have hnext := h'.decides v
      rw [Bool.bne_false] at hnext
      by_cases hstop : (f.run v).2 = stop
      · rw [Formula.run_selection_of_eq hstop, hstop]
        rw [hstop] at hfirst
        exact .stops hfirst
      · rw [Formula.run_selection_of_ne hstop]
        exact .goesOn hfirst hstop (ih h' hnext)

/-- The condition of a selection, from those of its operands. -/
theorem Conditions.selection (stop : Bool) {operands : List NodeId}
    (h : Conditions s operands codes parts fs) (hne : operands ≠ [])
    (hdecides : ∀ {v τ b}, s.tree.Decides v (.first stop operands) τ b →
      s.tree.Decides v (.truth id) τ b) :
    ∃ tokens f, Condition s id false (if stop then anyOf codes else allOf codes) tokens f := by
  cases h with
  | nil => exact absurd rfl hne
  | @cons _ _ _ _ tokens parts f fs h hrest =>
      have hclause : Clause (.opening :: (tokens ++ continued stop parts) ++ [.closing])
          (Formula.selection stop f fs) := h.clause.selection hrest.clauses
      refine ⟨_, _, ⟨?_, ?_, hclause, fun v => ?_⟩⟩
      · rw [spelled_selection, h.spelled_eq, hrest.spelled_eq]
      · intro a ha
        simp only [List.mem_append, List.mem_cons, List.not_mem_nil, or_false, reduceCtorEq,
          false_or, continued, List.mem_flatMap] at ha
        rcases ha with ha | ⟨part, hpart, ha⟩
        · exact h.tests a ha
        · exact hrest.tests part hpart a ha
      · rw [Bool.bne_false]
        exact hdecides (Conditions.decides h hrest stop v)

/-! ## The lowering of conditions -/

def NodeKind.isEmptySelection : NodeKind → Bool
  | .expr (.disjunction []) | .expr (.conjunction []) => true
  | _ => false

/-- Every selection below a node has an operand. -/
def Tree.Selects (t : Tree) (top : NodeId) : Prop :=
  ∀ n, t.Reaches top n → (t.kind n).isEmptySelection = false

theorem Tree.Selects.ne_nil {t : Tree} {top : NodeId} (h : t.Selects top) {operands : List NodeId}
    (hkind : t.kind top = .expr (.disjunction operands) ∨
      t.kind top = .expr (.conjunction operands)) : operands ≠ [] := by
  rintro rfl
  have hsome := h top (Reaches.refl t top)
  rcases hkind with hkind | hkind
  all_goals
    rw [hkind] at hsome
    exact nomatch hsome

theorem Tree.Selects.child {t : Tree} {top c : NodeId} (h : t.Selects top)
    (hc : c ∈ t.children top) : t.Selects c :=
  fun n hn => h n (((Reaches.refl t top).child hc).trans hn)

/-- Only expressions are lowered to operands. -/
theorem exists_kind_of_yields {n : Nat} {o : Operand}
    (h : Yields ((Lowerer.ofDepth s n).expression id) o) : ∃ e, s.tree.kind id = .expr e := by
  cases n with
  | zero => exact absurd h not_yields_throw
  | succ n =>
      change Yields (Lowering.expression s (Lowerer.ofDepth s n) id) o at h
      unfold Lowering.expression at h
      split at h
      next => exact absurd h not_yields_fail
      next e he => exact ⟨e, Tree.expr?_eq_some_iff.mp he⟩

theorem yields_conditions {self : Lowerer} (hself : ∀ c ∈ ids, ∀ code,
      Yields (self.condition c false) code → ∃ tokens f, Condition s c false code tokens f)
    (h : Yields (conditions self ids) codes) : ∃ parts fs, Conditions s ids codes parts fs := by
  induction ids generalizing codes with
  | nil =>
      rw [yields_pure_iff.mp h]
      exact ⟨[], [], .nil⟩
  | cons id ids ih =>
      obtain ⟨code, hcode, h⟩ := h.of_bind
      obtain ⟨rest, hrest, h⟩ := h.of_bind
      rw [yields_pure_iff.mp h]
      obtain ⟨tokens, f, hf⟩ := hself id List.mem_cons_self code hcode
      obtain ⟨parts, fs, hfs⟩ := ih (fun c hc => hself c (List.mem_cons_of_mem id hc)) hrest
      exact ⟨tokens :: parts, f :: fs, .cons hf hfs⟩

/-! Each kind of node has its own form of condition. -/

/-- A constant is not tested. -/
theorem Condition.constant {value : Constant} (hkind : s.tree.kind id = .expr (.constant value))
    (inverted : Bool) :
    Condition s id inverted (truthCondition (value.truth != inverted))
      [.literal (value.truth != inverted)] (.literal (value.truth != inverted)) := by
  constructor
  case spelled_eq => rw [spelled_singleton, Token.text_literal]
  case tests =>
    intro a ha
    cases List.mem_singleton.mp ha
  case clause => exact .literal _
  case decides =>
    intro v
    rw [Formula.run, Bool.bne_self_right]
    exact .constant hkind

/-- The result of a comparison is a truth value as it stands. -/
theorem Condition.comparison {comparator : Comparator} {left right : NodeId} {l r : Operand}
    (hkind : s.tree.kind id = .expr (.comparison comparator left right)) (hl : s.LowersTo left l)
    (hr : s.LowersTo right r) :
    Condition s id false (comparisonCondition comparator l r)
      [.atom ⟨id, true, comparisonCondition comparator l r⟩]
      (.atom ⟨id, true, comparisonCondition comparator l r⟩) := by
  constructor
  case spelled_eq => exact spelled_singleton _
  case tests =>
    intro a ha
    cases List.mem_singleton.mp ha
    rw [comparisonCondition_eq]
    exact .comparison hkind hl hr
  case clause => exact .atom _
  case decides =>
    intro v
    rw [Formula.run, beq_true, Bool.bne_false]
    exact .tested hkind rfl

/-- A negation has the condition of its operand, inverted once more. -/
theorem Condition.negation {operand : NodeId}
    (hkind : s.tree.kind id = .expr (.operation .not [operand]))
    (h : Condition s operand (!inverted) code tokens f) : Condition s id inverted code tokens f := by
  refine ⟨h.spelled_eq, h.tests, h.clause, fun v => ?_⟩
  have hdecides := Tree.Decides.negation hkind (h.decides v)
  rwa [Bool.bne_not, Bool.not_not] at hdecides

/-- An object is tested for being true, or for being false. -/
theorem Condition.object {e : Expr} {o : Operand} (hkind : s.tree.kind id = .expr e)
    (he : e.isTested = true) (ho : s.LowersTo id o) (inverted : Bool) :
    Condition s id inverted (truthTest inverted o) [.atom ⟨id, !inverted, truthTest inverted o⟩]
      (.atom ⟨id, !inverted, truthTest inverted o⟩) := by
  constructor
  case spelled_eq => exact spelled_singleton _
  case tests =>
    intro a ha
    cases List.mem_singleton.mp ha
    rw [truthTest_eq]
    cases inverted with
    | false => exact .truth ho
    | true => exact .falsehood ho
  case clause => exact .atom _
  case decides =>
    intro v
    have hvalue : ((v id == !inverted) != inverted) = v id := by
      cases v id <;> cases inverted <;> rfl
    rw [Formula.run, hvalue]
    exact .tested hkind he

/-- The text of a condition is read as one, however deep the lowering goes. The induction is on the
depth; a negation passes the inversion on, the other kinds apply it to their own text. -/
theorem exists_condition (n : Nat) (hid : s.tree.Selects id)
    (h : Yields ((Lowerer.ofDepth s n).condition id inverted) code) :
    ∃ tokens f, Condition s id inverted code tokens f := by
  induction n generalizing id inverted code with
  | zero => exact absurd h not_yields_throw
  | succ n ih =>
      have hchildren : ∀ {operands : List NodeId}, s.tree.children id = operands →
          ∀ c ∈ operands, ∀ code, Yields ((Lowerer.ofDepth s n).condition c false) code →
            ∃ tokens f, Condition s c false code tokens f := by
        rintro _ rfl c hc code hcode
        exact ih (hid.child hc) hcode
      change Yields (Lowering.condition s.tree (Lowerer.ofDepth s n) id inverted) code at h
      unfold Lowering.condition at h
      split at h
      next value hkind =>
          rw [yields_pure_iff.mp h]
          exact ⟨_, _, .constant hkind inverted⟩
      next comparator left right hkind =>
          obtain ⟨l, hl, h⟩ := h.of_bind
          obtain ⟨r, hr, h⟩ := h.of_bind
          rw [yields_pure_iff.mp h]
          exact (Condition.comparison hkind ⟨n, hl⟩ ⟨n, hr⟩).inverting inverted
      next operands hkind =>
          obtain ⟨codes, hcodes, h⟩ := h.of_bind
          rw [yields_pure_iff.mp h]
          have hslots : s.tree.children id = operands := congrArg NodeKind.children hkind
          obtain ⟨parts, fs, hfs⟩ := yields_conditions (hchildren hslots) hcodes
          obtain ⟨tokens, f, hf⟩ := hfs.selection true (hid.ne_nil (Or.inl hkind))
            (.disjunction hkind)
          exact hf.inverting inverted
      next operands hkind =>
          obtain ⟨codes, hcodes, h⟩ := h.of_bind
          rw [yields_pure_iff.mp h]
          have hslots : s.tree.children id = operands := congrArg NodeKind.children hkind
          obtain ⟨parts, fs, hfs⟩ := yields_conditions (hchildren hslots) hcodes
          obtain ⟨tokens, f, hf⟩ := hfs.selection false (hid.ne_nil (Or.inr hkind))
            (.conjunction hkind)
          exact hf.inverting inverted
      next operand hkind =>
          have hslots : s.tree.children id = [operand] := congrArg NodeKind.children hkind
          have hslot : operand ∈ s.tree.children id := hslots ▸ List.mem_cons_self
          obtain ⟨tokens, f, hf⟩ := ih (hid.child hslot) h
          exact ⟨tokens, f, hf.negation hkind⟩
      next hconstant hcomparison hdisjunction hconjunction hnegation =>
          obtain ⟨o, ho, h⟩ := h.of_bind
          rw [yields_pure_iff.mp h]
          obtain ⟨e, he⟩ := exists_kind_of_yields ho
          -- the kinds with a condition of their own have gone the other ways
          have htested : e.isTested = true := by
            unfold Expr.isTested
            split
            next value => exact (hconstant value he).elim
            next operands => exact (hdisjunction operands he).elim
            next operands => exact (hconjunction operands he).elim
            next operand => exact (hnegation operand he).elim
            next => rfl
          exact ⟨_, _, .object he htested ⟨n, ho⟩ inverted⟩

/-- **A condition decides as the truth test of its expression does.** The text is read in one way
only, and whatever the truth values of nodes are, it tests the nodes that the truth test does, in
the same order and with the same short circuit, and has its value, or the opposite one if it is
inverted. -/
theorem condition_decides (hid : s.tree.Selects id)
    (hcode : Yields (s.lowerer.condition id inverted) code) :
    ∃ tokens f, spelled tokens = code ∧ (∀ a, Token.atom a ∈ tokens → a.Tests s) ∧
      (∀ f', Parses (.chain true) tokens f' [] ↔ f' = f) ∧
      ∀ v τ b, s.tree.Decides v (.truth id) τ b ↔ f.run v = (τ, b != inverted) := by
  obtain ⟨tokens, f, hf⟩ := exists_condition s.depthBound hid hcode
  refine ⟨tokens, f, hf.spelled_eq, hf.tests, fun f' => ?_, fun v τ b => ?_⟩
  · constructor
    · intro h
      exact (h.unique hf.clause.parses).1
    · rintro rfl
      exact hf.clause.parses
  · constructor
    · intro h
      obtain ⟨hτ, hb⟩ := h.unique (hf.decides v)
      rw [hτ, hb]
      refine Prod.ext rfl ?_
      cases (f.run v).2 <;> cases inverted <;> rfl
    · intro h
      have hdecides := hf.decides v
      rw [h] at hdecides
      have hvalue : ((b != inverted) != inverted) = b := by
        cases b <;> cases inverted <;> rfl
      rwa [hvalue] at hdecides

/-! ## A negated selection -/

/-- `x or not (y and not z)`, none of them a constant. -/
def choosing : Tree where
  nodes :=
    let entry (kind : NodeKind) (parent : Option NodeId) : Node :=
      ⟨kind, parent, { file := "spam.py", line := 1 }⟩
    let read (name : String) : NodeKind :=
      .expr (.variableRef name (some ⟨name, .functionLocal⟩))
    #[entry (read "x") (some ⟨6⟩),
      entry (read "y") (some ⟨4⟩),
      entry (read "z") (some ⟨3⟩),
      entry (.expr (.operation .not [⟨2⟩])) (some ⟨4⟩),
      entry (.expr (.conjunction [⟨1⟩, ⟨3⟩])) (some ⟨5⟩),
      entry (.expr (.operation .not [⟨4⟩])) (some ⟨6⟩),
      entry (.expr (.disjunction [⟨0⟩, ⟨5⟩])) none]

theorem selects_choosing : choosing.Selects ⟨6⟩ := by
  intro n hn
  -- the nodes of the tree are closed under child slots
  have hclosed : ∀ m ∈ (List.range 7).map NodeId.mk, ∀ c ∈ choosing.children m,
      c ∈ (List.range 7).map NodeId.mk := by
    decide +kernel
  have hmem : n ∈ (List.range 7).map NodeId.mk :=
    hn.induct (by decide) fun m c _ hm hc => hclosed m hm c hc
  have hsome : ∀ m ∈ (List.range 7).map NodeId.mk,
      (choosing.kind m).isEmptySelection = false := by
    decide +kernel
  exact hsome n hmem

/-- In inverted form, if `x` is false and `y` is true, `z` is tested last, and the condition holds
if it is false. -/
theorem condition_decides_choosing :
    choosing.Selects ⟨6⟩ ∧ ∃ code tokens f,
      Yields ((Setting.lowerer ⟨choosing, {}, "spam", "spam"⟩).condition ⟨6⟩ true) code ∧
        spelled tokens = code ∧ Parses (.chain true) tokens f [] ∧
        ∀ v : NodeId → Bool, v ⟨0⟩ = false → v ⟨1⟩ = true →
          f.run v = ([⟨0⟩, ⟨1⟩, ⟨2⟩], !v ⟨2⟩) := by
  obtain ⟨code, hcode⟩ : ∃ code,
      Yields ((Setting.lowerer ⟨choosing, {}, "spam", "spam"⟩).condition ⟨6⟩ true) code :=
    exists_yields (g := {}) (by decide +kernel)
  obtain ⟨tokens, f, hspelled, -, hparses, hdecides⟩ :=
    condition_decides (s := ⟨choosing, {}, "spam", "spam"⟩) selects_choosing hcode
  refine ⟨selects_choosing, code, tokens, f, hcode, hspelled, (hparses f).mpr rfl, ?_⟩
  intro v hx hy
  have htest : ∀ (i : Nat) (e : Expr), choosing.kind ⟨i⟩ = .expr e → e.isTested = true →
      choosing.Decides v (.truth ⟨i⟩) [⟨i⟩] (v ⟨i⟩) := fun i e h he => .tested h he
  have hx' : choosing.Decides v (.truth ⟨0⟩) [⟨0⟩] false := hx ▸ htest 0 _ rfl rfl
  have hy' : choosing.Decides v (.truth ⟨1⟩) [⟨1⟩] true := hy ▸ htest 1 _ rfl rfl
  have hz : choosing.Decides v (.truth ⟨3⟩) [⟨2⟩] (!v ⟨2⟩) := .negation rfl (htest 2 _ rfl rfl)
  have hboth : choosing.Decides v (.truth ⟨4⟩) [⟨1⟩, ⟨2⟩] (!v ⟨2⟩) :=
    .conjunction rfl (.goesOn hy' (by decide) (.last hz))
  have hnot : choosing.Decides v (.truth ⟨5⟩) [⟨1⟩, ⟨2⟩] (v ⟨2⟩) := by
    rw [← Bool.not_not (v ⟨2⟩)]
    exact .negation rfl hboth
  have hwhole : choosing.Decides v (.truth ⟨6⟩) [⟨0⟩, ⟨1⟩, ⟨2⟩] (v ⟨2⟩) :=
    .disjunction rfl (.goesOn hx' (by decide) (.last hnot))
  rw [(hdecides v _ _).mp hwhole, Bool.bne_true]

end CompilerBackend
