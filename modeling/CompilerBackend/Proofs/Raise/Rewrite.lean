import CompilerBackend.Proofs.Raise.Spread
/-!
# The rewrites of a step

`Rewrite` says what one step can do to a well-formed tree, and `Settled` when it does nothing.
`stepAt_cases` is the only place where the step is opened: at a reachable node it either rewrites
the tree, or the node is settled and the tree is left exactly as it was, although a step edits
before its last check.
-/

namespace CompilerBackend
namespace Tree

variable {t t' : Tree} {id n : NodeId}

/-! ## What a step can do -/

inductive Rewrite (t : Tree) : Tree → Prop where
  /-- The raise takes the place of the operation or call that evaluates it. -/
  | lift {id : NodeId} {e : Expr} {t' : Tree} (hid : t.Reachable id)
      (yields : t.yieldsToRaise id = true) (expr : t.kind id = .expr e) (c : Cut t id)
      (result : Lifted c t') : Rewrite t t'
  /-- Statements take the place of the one that evaluates the raise. -/
  | spread {id holder : NodeId} {left right : List NodeId} {s : Stmt} {t' : Tree}
      (hid : t.Reachable id) (yields : t.yieldsToRaise id = true) (stmt : t.kind id = .stmt s)
      (c : Cut t id) (place : Placed t id holder left right)
      (result : Spread c holder left right t') : Rewrite t t'
  /-- What stands behind a raise statement is dropped. -/
  | truncate {id holder : NodeId} {left right : List NodeId} {t' : Tree}
      {exceptionType value traceback : Option NodeId} (hid : t.Reachable id)
      (stmt : t.kind id = .stmt (.raise exceptionType value traceback))
      (place : Placed t id holder left right) (unreachable : right ≠ [])
      (result : Truncated t id holder left right t') : Rewrite t t'

/-- A node that gives way to a raise among its children: an operation, a call, or a print,
expression or raise statement that a sequence holds. -/
inductive CutsShort (t : Tree) (p : NodeId) : Prop where
  | operation {operator : Operator} {operands : List NodeId}
      (kind : t.kind p = .expr (.operation operator operands))
  | call {callee : NodeId} {positional : List NodeId} {named : List (NodeId × NodeId)}
      {starList starDict : Option NodeId}
      (kind : t.kind p = .expr (.call callee positional named starList starDict))
  | print {destination : Option NodeId} {values : List NodeId} {newline : Bool} {q : NodeId}
      {statements : List NodeId} (kind : t.kind p = .stmt (.print destination values newline))
      (parent : t.parent p = some q) (held : t.kind q = .sequence statements)
  | expression {value q : NodeId} {statements : List NodeId}
      (kind : t.kind p = .stmt (.expression value)) (parent : t.parent p = some q)
      (held : t.kind q = .sequence statements)
  | raise {exceptionType value traceback : Option NodeId} {q : NodeId}
      {statements : List NodeId}
      (kind : t.kind p = .stmt (.raise exceptionType value traceback))
      (parent : t.parent p = some q) (held : t.kind q = .sequence statements)

/-- No rule applies at the node: a raise expression stands where nothing gives way to it, and a
raise statement of a sequence is its last statement. -/
structure Settled (t : Tree) (n : NodeId) : Prop where
  raise : ∀ {exceptionType value effects p},
    t.kind n = .expr (.raise exceptionType value effects) → t.parent n = some p →
      ¬ t.CutsShort p
  last : ∀ {exceptionType value traceback p statements},
    t.kind n = .stmt (.raise exceptionType value traceback) → t.parent n = some p →
      t.kind p = .sequence statements → statements.getLast? = some n

/-- What comes of looking for a step: a rewrite, or the very same tree, and then `P` holds. -/
inductive Outcome (t : Tree) (P : Prop) (s : RaiseStep) : Prop where
  | rewrites (changed : s.changed = true) (rewrite : Rewrite t s.tree)
  | stays (unchanged : s.changed = false) (same : s.tree = t) (holds : P)

theorem Outcome.imp {P Q : Prop} {s : RaiseStep} (h : Outcome t P s) (f : P → Q) :
    Outcome t Q s := by
  cases h with
  | rewrites hc hr => exact .rewrites hc hr
  | stays hc hs hp => exact .stays hc hs (f hp)

/-! ## Opening the step -/

theorem isRaise_iff : t.isRaise n = true ↔
    ∃ exceptionType value effects, t.kind n = .expr (.raise exceptionType value effects) := by
  rw [isRaise, expr?]
  cases hk : t.kind n with
  | expr e => cases e <;> simp [NodeKind.expr?]
  | _ => simp [NodeKind.expr?]

theorem inSequence_iff : t.inSequence n = true ↔
    ∃ p statements, t.parent n = some p ∧ t.kind p = .sequence statements := by
  rw [inSequence, Option.isSome_iff_exists]
  simp only [Option.bind_eq_some_iff, sequence?_eq_some_iff]
  constructor
  · rintro ⟨statements, p, hp, hk⟩
    exact ⟨p, statements, hp, hk⟩
  · rintro ⟨p, statements, hp, hk⟩
    exact ⟨statements, p, hp, hk⟩

theorem CutsShort.yields (h : t.CutsShort n) : t.yieldsToRaise n = true := by
  rw [yieldsToRaise]
  cases h with
  | operation hk => rw [hk]
  | call hk => rw [hk]
  | print hk _ _ => rw [hk]
  | expression hk _ _ => rw [hk]
  | raise hk _ _ => rw [hk]

theorem CutsShort.inSequence_of_stmt (h : t.CutsShort n) (hs : (t.kind n).isStmt = true) :
    t.inSequence n = true := by
  rw [inSequence_iff]
  cases h with
  | operation hk => rw [hk] at hs; exact Bool.noConfusion hs
  | call hk => rw [hk] at hs; exact Bool.noConfusion hs
  | print _ hp hq => exact ⟨_, _, hp, hq⟩
  | expression _ hp hq => exact ⟨_, _, hp, hq⟩
  | raise _ hp hq => exact ⟨_, _, hp, hq⟩

/-- Only expressions and statements give way to a raise. -/
theorem isExpr_or_isStmt_of_yields (hy : t.yieldsToRaise n = true) :
    (∃ e, t.kind n = .expr e) ∨ ∃ s, t.kind n = .stmt s := by
  rw [yieldsToRaise] at hy
  cases hk : t.kind n with
  | expr e => exact Or.inl ⟨e, rfl⟩
  | stmt s => exact Or.inr ⟨s, rfl⟩
  | _ => rw [hk] at hy; exact Bool.noConfusion hy

/-- The first raise among the children splits them. -/
theorem exists_cut {r : NodeId} (h : (t.children id).find? t.isRaise = some r) :
    ∃ c : Cut t id, c.raise = r ∧
      (t.children id).takeWhile (fun d => !t.isRaise d) = c.before := by
  obtain ⟨hr, before, after, heq, hbefore⟩ := List.find?_eq_some_iff_append.mp h
  obtain ⟨exceptionType, value, effects, hk⟩ := isRaise_iff.mp hr
  refine ⟨⟨before, r, after, exceptionType, value, effects, heq, hk⟩, rfl, ?_⟩
  show _ = before
  rw [heq, List.takeWhile_append_of_pos hbefore, List.takeWhile_cons_of_neg, List.append_nil]
  rw [hr]
  exact Bool.false_ne_true

/-- A statement of a sequence gives way to the statements that do what its first raise does. -/
theorem cutAtRaise_of_held (h : t.WellFormed) (hid : t.Reachable id) {s : Stmt}
    (hs : t.kind id = .stmt s) {holder : NodeId} {left right : List NodeId}
    (w : Placed t id holder left right) {r : NodeId}
    (hfind : (t.children id).find? t.isRaise = some r) :
    ∃ (c : Cut t id) (t' : Tree), c.raise = r ∧
      (t.children id).takeWhile (fun d => !t.isRaise d) = c.before ∧
      Spread c holder left right t' ∧ t.cutAtRaise id =
        { tree := t', changed := true, events := [.becameStatement (t.location id)] } := by
  obtain ⟨c, hcr, hbefore⟩ := exists_cut hfind
  obtain ⟨u, staged, hadd⟩ := staged_addRaiseStatements h hid c
  obtain ⟨t', spread, hsplice⟩ := spread_splice h hid w staged
  refine ⟨c, t', hcr, hbefore, spread, ?_⟩
  have hmoved : ((t.children id).takeWhile fun d => !t.isRaise d).filter
      t.mayHaveSideEffects = c.moved := by
    rw [hbefore]
    rfl
  have hheld : ((t.kind id).isStmt && !t.inSequence id) = false := by
    rw [inSequence_iff.mpr ⟨holder, _, w.parent_eq, w.kind_eq⟩, Bool.not_true, Bool.and_false]
  have hexpr : (t.kind id).isExpr = false := by
    rw [hs]
    rfl
  rw [cutAtRaise, hfind]
  simp only [hheld, hmoved, ← hcr, hexpr, hadd, hsplice]
  rfl

/-- An expression gives way to its first raise. -/
theorem cutAtRaise_of_expr (h : t.WellFormed) (hid : t.Reachable id) {e : Expr}
    (he : t.kind id = .expr e) {r : NodeId} (hfind : (t.children id).find? t.isRaise = some r) :
    ∃ (c : Cut t id) (t' : Tree), c.raise = r ∧
      (t.children id).takeWhile (fun d => !t.isRaise d) = c.before ∧
      Lifted c t' ∧ t.cutAtRaise id =
        { tree := t', changed := true, events := [.lifted (t.location id)] } := by
  obtain ⟨c, hcr, hbefore⟩ := exists_cut hfind
  refine ⟨c, _, hcr, hbefore, lifted_replaceWith h hid c, ?_⟩
  have hmoved : ((t.children id).takeWhile fun d => !t.isRaise d).filter
      t.mayHaveSideEffects = c.moved := by
    rw [hbefore]
    rfl
  have hexpr : (t.kind id).isExpr = true ∧ (t.kind id).isStmt = false := by
    rw [he]
    exact ⟨rfl, rfl⟩
  rw [cutAtRaise, hfind]
  simp only [hexpr, hmoved, hcr]
  rfl

/-- A statement that no sequence holds is left alone. -/
theorem cutAtRaise_of_not_held {s : Stmt} (hs : t.kind id = .stmt s)
    (hheld : t.inSequence id = false) :
    t.cutAtRaise id = { tree := t } := by
  rw [cutAtRaise]
  cases (t.children id).find? t.isRaise with
  | none => rfl
  | some r =>
      have hstmt : ((t.kind id).isStmt && !t.inSequence id) = true := by
        rw [hs, hheld]
        rfl
      exact if_pos hstmt

theorem cutAtRaise_cases (h : t.WellFormed) (hid : t.Reachable id)
    (hy : t.yieldsToRaise id = true) (hr : ∃ r ∈ t.children id, t.isRaise r = true) :
    Outcome t (¬ t.CutsShort id) (t.cutAtRaise id) := by
  obtain ⟨r, hfind⟩ : ∃ r, (t.children id).find? t.isRaise = some r := by
    rw [← Option.isSome_iff_exists, List.find?_isSome]
    exact hr
  rcases isExpr_or_isStmt_of_yields hy with ⟨e, he⟩ | ⟨s, hs⟩
  · obtain ⟨c, t', -, -, lifted, heq⟩ := cutAtRaise_of_expr h hid he hfind
    rw [heq]
    exact .rewrites rfl (.lift hid hy he c lifted)
  · cases hheld : t.inSequence id with
    | false =>
        rw [cutAtRaise_of_not_held hs hheld]
        refine .stays rfl rfl fun hcut => ?_
        have hin := hcut.inSequence_of_stmt (by rw [hs]; rfl)
        rw [hheld] at hin
        cases hin
    | true =>
        obtain ⟨holder, statements, hp, hk⟩ := inSequence_iff.mp hheld
        obtain ⟨left, right, w⟩ := exists_placed h hid hp hk
        obtain ⟨c, t', -, -, spread, heq⟩ := cutAtRaise_of_held h hid hs w hfind
        rw [heq]
        exact .rewrites rfl (.spread hid hy hs c w spread)

/-- A raise statement that no sequence holds is left alone. -/
theorem cutBehindRaise_of_not_held (hs : t.inSequence id = false) :
    t.cutBehindRaise id = { tree := t } := by
  rw [inSequence] at hs
  rw [cutBehindRaise]
  cases hp : t.parent id with
  | none => rfl
  | some p =>
      rw [hp, Option.bind_some, Option.isSome_eq_false_iff, Option.isNone_iff_eq_none] at hs
      simp only [hs]

/-- At the end of its sequence it changes nothing, whatever it reports. -/
theorem cutBehindRaise_of_last {holder : NodeId} {left : List NodeId}
    (w : Placed t id holder left []) :
    (t.cutBehindRaise id).changed = false ∧ (t.cutBehindRaise id).tree = t := by
  have htrunc : t.truncateAfter? id = none := by
    rw [truncateAfter?_eq w.parent_eq w.kind_eq w.not_mem_left, if_pos rfl]
  rw [cutBehindRaise, w.parent_eq]
  simp only [sequence?_eq_some_iff.mpr w.kind_eq, htrunc]
  split <;> exact ⟨rfl, rfl⟩

theorem cutBehindRaise_of_followed {holder : NodeId} {left right : List NodeId}
    (w : Placed t id holder left right) (hr : right ≠ []) :
    ∃ t', Truncated t id holder left right t' ∧ t.cutBehindRaise id =
      { tree := t', changed := true, events := [.unreachableDropped (t.location id)] } := by
  obtain ⟨t', truncated, htrunc⟩ := truncated_truncateAfter w hr
  refine ⟨t', truncated, ?_⟩
  rw [cutBehindRaise, w.parent_eq]
  simp only [sequence?_eq_some_iff.mpr w.kind_eq, htrunc]

theorem cutBehindRaise_cases (h : t.WellFormed) (hid : t.Reachable id)
    {exceptionType value traceback : Option NodeId}
    (hs : t.kind id = .stmt (.raise exceptionType value traceback)) :
    Outcome t (t.Settled id) (t.cutBehindRaise id) := by
  have notRaise : ∀ {ty v es}, t.kind id ≠ .expr (.raise ty v es) := by
    intro ty v es hk
    rw [hs] at hk
    exact NodeKind.noConfusion hk
  cases hheld : t.inSequence id with
  | false =>
      rw [cutBehindRaise_of_not_held hheld]
      refine .stays rfl rfl ⟨fun hk _ => absurd hk notRaise, fun _ hp hk => ?_⟩
      rw [inSequence_iff.mpr ⟨_, _, hp, hk⟩] at hheld
      exact Bool.noConfusion hheld
  | true =>
      obtain ⟨p, statements, hp, hk⟩ := inSequence_iff.mp hheld
      obtain ⟨left, right, w⟩ := exists_placed h hid hp hk
      by_cases hright : right = []
      · subst hright
        obtain ⟨hchanged, htree⟩ := cutBehindRaise_of_last w
        refine .stays hchanged htree ⟨fun hk' _ => absurd hk' notRaise, fun _ hq hseq => ?_⟩
        rw [← Option.some.inj (hp.symm.trans hq), w.kind_eq] at hseq
        rw [← NodeKind.sequence.inj hseq, List.getLast?_concat]
      · obtain ⟨t', truncated, heq⟩ := cutBehindRaise_of_followed w hright
        rw [heq]
        exact .rewrites rfl (.truncate hid hs w hright truncated)

/-- The step at a raise expression cuts the evaluation of its holder short. -/
theorem stepAt_of_raise {p : NodeId} (hr : t.isRaise n = true) (hp : t.parent n = some p)
    (hy : t.yieldsToRaise p = true) : t.stepAt n = t.cutAtRaise p := by
  rw [stepAt, if_pos hr, hp]
  exact if_pos hy

/-- A raise expression leads to a step at its holder. -/
theorem stepAt_raise_cases (h : t.WellFormed) (hn : t.Reachable n)
    (hr : t.isRaise n = true) : Outcome t (t.Settled n) (t.stepAt n) := by
  have notStmt : ∀ {a b d}, t.kind n ≠ .stmt (.raise a b d) := by
    intro a b d hs
    obtain ⟨exceptionType, value, effects, hk⟩ := isRaise_iff.mp hr
    rw [hk] at hs
    exact NodeKind.noConfusion hs
  cases hp : t.parent n with
  | none =>
      have heq : t.stepAt n = { tree := t } := by rw [stepAt, if_pos hr, hp]
      rw [heq]
      refine .stays rfl rfl ⟨fun _ hq => ?_, fun hs => absurd hs notStmt⟩
      exact absurd (hq.symm.trans hp) (Option.some_ne_none _)
  | some p =>
      by_cases hy : t.yieldsToRaise p = true
      · obtain ⟨hpr, hnp⟩ := h.holder hn hp
        rw [stepAt_of_raise hr hp hy]
        refine (cutAtRaise_cases h hpr hy ⟨n, hnp, hr⟩).imp fun hcut => ?_
        refine ⟨fun _ hq => ?_, fun hs => absurd hs notStmt⟩
        rwa [← Option.some.inj (hp.symm.trans hq)]
      · have heq : t.stepAt n = { tree := t } := by
          rw [stepAt, if_pos hr, hp]
          exact if_neg hy
        rw [heq]
        refine .stays rfl rfl ⟨fun _ hq hcut => ?_, fun hs => absurd hs notStmt⟩
        rw [← Option.some.inj (hp.symm.trans hq)] at hcut
        exact hy hcut.yields

/-- At a reachable node of a well-formed tree a step rewrites the tree, or the node is settled
and nothing at all has changed. -/
theorem stepAt_cases (h : t.WellFormed) (hn : t.Reachable n) :
    Outcome t (t.Settled n) (t.stepAt n) := by
  by_cases hr : t.isRaise n = true
  · exact stepAt_raise_cases h hn hr
  by_cases hs : ∃ a b d, t.kind n = .stmt (.raise a b d)
  · obtain ⟨a, b, d, hs⟩ := hs
    have heq : t.stepAt n = t.cutBehindRaise n := by
      rw [stepAt, if_neg hr]
      simp only [stmt?_eq_some_iff.mpr hs]
    rw [heq]
    exact cutBehindRaise_cases h hn hs
  · have heq : t.stepAt n = { tree := t } := by
      rw [stepAt, if_neg hr]
      split
      · rename_i a b d hstmt
        exact absurd ⟨a, b, d, stmt?_eq_some_iff.mp hstmt⟩ hs
      · rfl
    rw [heq]
    refine .stays rfl rfl ⟨fun hk => ?_, fun hk => absurd ⟨_, _, _, hk⟩ hs⟩
    exact absurd (isRaise_iff.mpr ⟨_, _, _, hk⟩) hr

end Tree
end CompilerBackend
