import CompilerBackend.Proofs.Lowering.Agreement
import CompilerBackend.Proofs.Lowering.Runs
import CompilerBackend.Proofs.Raise.Agreement
/-!
# A raise that stands alone

An expression statement that consists of a raise is lowered to one line, in which the side effects,
dropped one after the other, stand in front of the call that throws. The step at the raise puts
statements in its place, and these are lowered to one line for each side effect and one that raises.
Nothing else differs: the drops, the arguments of the raise, the program and the scopes are the same.

- `Raised`: the operands of a raise, and the two ways in which they are spelled.
- `Unfolds`: statements that do what a raise does; `stepAt_unfolds`: the step leaves such statements.
- `Unfolds.runs`: their codes; `Raised.isFull_codes`: none of these has a blank line.
- `raise_statement_spreads`: the code before the step and the codes after it.
-/

namespace CompilerBackend

open Lowering Target

/-! ## The operands of a raise -/

/-- The operands of a raise: its side effects, the type of the exception and its value. -/
structure Raised where
  effects : List Operand
  type : Operand
  value : Option Operand

namespace Raised

/-- What a raise hands over: the type, the value if there is one, and a traceback of the line. -/
def arguments (r : Raised) (line : Nat) : List String :=
  r.type.handedOver :: (r.value.map Operand.handedOver).toList ++ [tracebackMaker line]

def thrown (r : Raised) (line : Nat) : String :=
  let raise := applied "THROW_EXCEPTION" (r.arguments line)
  if r.effects.isEmpty then raise
  else "( " ++ Text.commaSeparated (r.effects.map Operand.dropped ++ [raise]) ++ " )"

def codes (r : Raised) (line : Nat) : List String :=
  r.effects.map (fun o => o.dropped ++ ";") ++
    [applied "RAISE_EXCEPTION" (r.arguments line) ++ ";"]

end Raised

/-- Lowers the operands of a raise, in the order in which they are evaluated. -/
def Lowerer.raised (self : Lowerer) (effects : List NodeId) (type : NodeId)
    (value : Option NodeId) : Lower Raised := do
  let os ← self.expressions effects
  let o ← self.expression type
  let v ← self.optional value
  return ⟨os, o, v⟩

variable {s : Setting} {self self' : Lowerer} {t t' : Tree} {id holder raise type last : NodeId}
  {value : Option NodeId} {effects new statements : List NodeId} {g g₁ g' : Progress} {r : Raised}
  {line : Nat}

theorem runsTo_raised_iff : RunsTo (self.raised effects type value) g r g' ↔
    ∃ g₁ g₂, RunsTo (self.expressions effects) g r.effects g₁ ∧
      RunsTo (self.expression type) g₁ r.type g₂ ∧ RunsTo (self.optional value) g₂ r.value g' := by
  constructor
  · intro h
    obtain ⟨os, g₁, hos, h⟩ := runsTo_bind_iff.mp h
    obtain ⟨o, g₂, ho, h⟩ := runsTo_bind_iff.mp h
    obtain ⟨v, g₃, hv, h⟩ := runsTo_bind_iff.mp h
    obtain ⟨rfl, rfl⟩ := runsTo_pure_iff.mp h
    exact ⟨g₁, g₂, hos, ho, hv⟩
  · rintro ⟨g₁, g₂, hos, ho, hv⟩
    refine runsTo_bind_iff.mpr ⟨_, g₁, hos, runsTo_bind_iff.mpr ⟨_, g₂, ho, ?_⟩⟩
    exact runsTo_bind_iff.mpr ⟨_, g', hv, runsTo_pure_iff.mpr ⟨rfl, rfl⟩⟩

/-- Only the operands themselves matter. -/
theorem raised_congr
    (h : ∀ e ∈ effects ++ type :: value.toList, self'.expression e = self.expression e) :
    self'.raised effects type value = self.raised effects type value := by
  have heffects : ∀ ids : List NodeId, (∀ e ∈ ids, self'.expression e = self.expression e) →
      self'.expressions ids = self.expressions ids := by
    intro ids hids
    induction ids with
    | nil => rfl
    | cons id ids ih =>
        obtain ⟨hid, hids⟩ := List.forall_mem_cons.mp hids
        rw [Lowerer.expressions, Lowerer.expressions, hid, ih hids]
  rw [List.forall_mem_append, List.forall_mem_cons] at h
  obtain ⟨hes, htype, hvalue⟩ := h
  have hoptional : self'.optional value = self.optional value := by
    cases value with
    | none => rfl
    | some v => rw [Lowerer.optional, Lowerer.optional, hvalue v (by simp)]
  rw [Lowerer.raised, Lowerer.raised, heffects effects hes, htype, hoptional]

/-! ## One expression -/

theorem raiseExpression_eq (r : Raised) (line : Nat) :
    raiseExpression r.effects r.type r.value (tracebackMaker line) = .owned (r.thrown line) := by
  rw [raiseExpression, Raised.thrown, Raised.arguments]
  split <;> rfl

theorem applied_terminated (f : String) (arguments : List String) :
    applied f arguments ++ ";" = f ++ "( " ++ Text.commaSeparated arguments ++ " );" := by
  apply String.toList_inj.mp
  simp [applied]

theorem expressionStatement_owned (code : String) :
    expressionStatement (.owned code) = "DECREASE_REFCOUNT( " ++ code ++ " );" := by
  have hcall : expressionStatement (.owned code) = applied "DECREASE_REFCOUNT" [code] ++ ";" := rfl
  rw [hcall, applied_terminated, Text.commaSeparated, String.intercalate_singleton]
  rfl

/-- The code of an expression statement that consists of a raise. -/
theorem code_of_raise {levels : Nat} {code : String} (hstmt : s.tree.stmt? id = some (.expression raise))
    (hexpr : s.tree.expr? raise = some (.raise type value effects))
    (h : RunsTo (Lowering.statement s (Lowerer.ofDepth s (levels + 1)) id) g code g') :
    ∃ r, RunsTo ((Lowerer.ofDepth s levels).raised effects type value) g r g' ∧
      code = "DECREASE_REFCOUNT( " ++ r.thrown (s.tree.location raise).line ++ " );" := by
  obtain ⟨hform, -⟩ := (runsTo_statement_iff hstmt).mp h
  obtain ⟨o, g₁, ho, hend⟩ := runsTo_bind_iff.mp hform
  obtain ⟨rfl, rfl⟩ := runsTo_pure_iff.mp hend
  have hexpression : RunsTo (Lowering.expression s (Lowerer.ofDepth s levels) raise) g o g' := ho
  obtain ⟨hraise, -⟩ := (runsTo_expression_iff hexpr).mp hexpression
  obtain ⟨os, g₂, hos, hraise⟩ := runsTo_bind_iff.mp hraise
  obtain ⟨type, g₃, htype, hraise⟩ := runsTo_bind_iff.mp hraise
  obtain ⟨v, g₄, hv, hraise⟩ := runsTo_bind_iff.mp hraise
  obtain ⟨rfl, rfl⟩ := runsTo_pure_iff.mp hraise
  refine ⟨⟨os, type, v⟩, runsTo_raised_iff.mpr ⟨g₂, g₃, hos, htype, hv⟩, ?_⟩
  rw [raiseExpression_eq ⟨os, type, v⟩, expressionStatement_owned]

/-! ## Statements -/

theorem Text.Edged.terminated {code : String} (h : Text.Edged code.toList) :
    Text.Edged (code ++ ";").toList := by
  rw [String.toList_append]
  exact Text.edged_append h.head ⟨';', rfl, by decide⟩

theorem edged_applied {f : String} {arguments : List String}
    (hf : ∃ c, f.toList.head? = some c ∧ Text.isBlank c = false) :
    Text.Edged (applied f arguments).toList := by
  rw [applied, String.append_assoc, String.append_assoc, String.toList_append]
  exact Text.edged_append hf ⟨')', by simp [List.getLast?_cons, List.getLast?_append], by decide⟩

theorem Operand.edged_dropped {o : Operand} (h : Text.Edged o.code.toList) :
    Text.Edged o.dropped.toList := by
  rw [dropped]
  split
  · exact edged_applied ⟨'D', rfl, by decide⟩
  · exact h

theorem edged_of_expressions {levels : Nat} {ids : List NodeId} {os : List Operand}
    (h : RunsTo ((Lowerer.ofDepth s levels).expressions ids) g os g') :
    ∀ o ∈ os, Text.Edged o.code.toList := by
  induction ids generalizing g os with
  | nil =>
      obtain ⟨rfl, rfl⟩ := runsTo_pure_iff.mp h
      exact fun o ho => nomatch ho
  | cons id ids ih =>
      obtain ⟨o, rest, g₁, rfl, ho, hrest⟩ := runsTo_expressions_cons_iff.mp h
      exact List.forall_mem_cons.mpr ⟨ho.edged, ih hrest⟩

/-- Expression statements, one for each side effect. -/
theorem runsTo_effectStatements {os : List Operand}
    (hnew : List.Forall₂ (fun n e => s.tree.stmt? n = some (.expression e)) new effects)
    (hos : RunsTo (self.expressions effects) g os g') (hedged : ∀ o ∈ os, Text.Edged o.code.toList) :
    RunsTo (new.mapM (Lowering.statement s self)) g (os.map fun o => o.dropped ++ ";") g' := by
  induction hnew generalizing g os with
  | nil =>
      obtain ⟨rfl, rfl⟩ := runsTo_pure_iff.mp hos
      exact runsTo_pure_iff.mpr ⟨rfl, rfl⟩
  | cons hn _ ih =>
      obtain ⟨o, rest, g₁, rfl, ho, hrest⟩ := runsTo_expressions_cons_iff.mp hos
      obtain ⟨hcode, hedged⟩ := List.forall_mem_cons.mp hedged
      have hmargin := Text.hasNoMargin_of_edged (Operand.edged_dropped hcode).terminated
      have hform : RunsTo (self.expression _ >>= fun o => pure (expressionStatement o)) g
          (o.dropped ++ ";") g₁ := runsTo_bind_iff.mpr ⟨o, g₁, ho, runsTo_pure_iff.mpr ⟨rfl, rfl⟩⟩
      rw [List.mapM_cons]
      refine runsTo_bind_iff.mpr ⟨_, g₁, (runsTo_statement_iff hn).mpr ⟨hform, hmargin⟩, ?_⟩
      exact runsTo_bind_iff.mpr ⟨_, g', ih hrest hedged, runsTo_pure_iff.mpr ⟨rfl, rfl⟩⟩

/-- A raise statement without a traceback makes one of its own line. -/
theorem raising_untraced : raising s self last (some type) value none = (do
    let o ← self.expression type
    let v ← self.optional value
    return raiseStatement o v none (some (tracebackMaker (s.tree.location last).line))) := by
  refine bind_congr fun o => bind_congr fun v => ?_
  split <;> rfl

theorem runsTo_raiseStatement (hst : s.tree.stmt? last = some (.raise (some type) value none))
    (htype : RunsTo (self.expression type) g r.type g₁)
    (hvalue : RunsTo (self.optional value) g₁ r.value g') :
    RunsTo (Lowering.statement s self last) g
      (applied "RAISE_EXCEPTION" (r.arguments (s.tree.location last).line) ++ ";") g' := by
  rw [runsTo_statement_iff hst]
  constructor
  · show RunsTo (raising s self last (some type) value none) _ _ _
    rw [raising_untraced]
    refine runsTo_bind_iff.mpr ⟨_, g₁, htype, runsTo_bind_iff.mpr ⟨_, g', hvalue, ?_⟩⟩
    refine runsTo_pure_iff.mpr ⟨?_, rfl⟩
    simp [raiseStatement, Raised.arguments, terminated]
  · exact Text.hasNoMargin_of_edged (edged_applied ⟨'R', rfl, by decide⟩).terminated

/-! ## The step -/

/-- Statements that do what a raise does: its side effects, each by a statement of its own, and then
the raise. What they evaluate is the same in both trees. -/
structure Tree.Unfolds (t t' : Tree) (raise type : NodeId) (value : Option NodeId)
    (effects new : List NodeId) (last : NodeId) : Prop where
  effect : List.Forall₂ (fun n e => t'.stmt? n = some (.expression e)) new effects
  raised : t'.stmt? last = some (.raise (some type) value none)
  place : t'.location last = t.location raise
  agree : ∀ e ∈ effects ++ type :: value.toList, t.Agree t' t.depthBound e
  depth_le : t.depthBound ≤ t'.depthBound

namespace Tree

/-- The new statements in front of the last one hold the side effects, one each. -/
theorem Spread.effect_statements {c : Cut t id} {left right : List NodeId}
    (r : Spread c holder left right t') :
    List.Forall₂ (fun n e => t'.stmt? n = some (.expression e)) (t.freshIds c.kept.length)
      c.kept := by
  refine List.forall₂_iff_get.mpr ⟨length_freshIds t _, fun i hfresh hkept => ?_⟩
  have hget : (t.freshIds c.kept.length).get ⟨i, hfresh⟩ = t.fresh i := by simp [freshIds]
  rw [hget, stmt?_eq_some_iff]
  exact r.kind_effect i _ (List.getElem?_eq_getElem hkept)

/-- The step at a raise that is all of an expression statement. -/
theorem stepAt_unfolds (h : t.WellFormed) (hid : t.Reachable id)
    (hstmt : t.stmt? id = some (.expression raise))
    (hexpr : t.expr? raise = some (.raise type value effects))
    (hparent : t.parent id = some holder) (hholder : t.sequence? holder = some statements) :
    ∃ left new last right, statements = left ++ id :: right ∧ (t.stepAt raise).changed = true ∧
      (t.stepAt raise).tree.sequence? holder = some (left ++ (new ++ [last]) ++ right) ∧
        t.Unfolds (t.stepAt raise).tree raise type value effects new last := by
  have hkind := stmt?_eq_some_iff.mp hstmt
  have hraise : t.isRaise raise = true := isRaise_iff.mpr ⟨_, _, _, expr?_eq_some_iff.mp hexpr⟩
  have hchildren : t.children id = [raise] := by
    rw [children, hkind]
    rfl
  have hyields : t.yieldsToRaise id = true := by rw [yieldsToRaise, hkind]
  have hfind : (t.children id).find? t.isRaise = some raise := by
    rw [hchildren, List.find?_cons_of_pos hraise]
  have hseq := sequence?_eq_some_iff.mp hholder
  obtain ⟨left, right, w⟩ := exists_placed h hid hparent hseq
  obtain ⟨c, t', rfl, hbefore, spread, heq⟩ := cutAtRaise_of_held h hid hkind w hfind
  have hstep := stepAt_of_raise hraise (c.parent_raise h hid) hyields
  -- nothing is evaluated in front of the raise, so it keeps its side effects
  have hkept : c.kept = c.effects := by
    rw [hchildren, List.takeWhile_cons_of_neg (by simp [hraise])] at hbefore
    rw [Cut.kept, Cut.moved, ← hbefore]
    rfl
  have hsame := (expr?_eq_some_iff.mp hexpr).symm.trans c.kind_raise
  injection hsame with hsame
  injection hsame with htype hvalue heffects
  subst htype hvalue heffects
  rw [hstep, heq]
  refine ⟨left, t.freshIds c.kept.length, t.fresh c.kept.length, right, ?_, rfl, ?_, ?_⟩
  · exact NodeKind.sequence.inj (hseq.symm.trans w.kind_eq)
  · rw [← freshIds_succ]
    exact sequence?_eq_some_iff.mpr spread.kind_holder
  · constructor
    case effect => exact hkept ▸ spread.effect_statements
    case raised => exact stmt?_eq_some_iff.mpr spread.kind_last
    case place => exact spread.location_last
    case agree =>
      intro e he
      refine spread.agree h hid hyields hkind w ?_
      rw [Cut.evaluated, hkept]
      exact he
    case depth_le =>
      rw [depthBound, depthBound, spread.size_eq]
      omega

end Tree

/-! ## The codes of the statements -/

/-- The operands do not depend on how many levels they are given, if these reach the leaves. -/
theorem raised_agree {i j : Nat}
    (h : ∀ e ∈ effects ++ type :: value.toList, s.tree.Agree t' s.tree.depthBound e)
    (hdepth : s.tree.depthBound ≤ t'.depthBound) (hi : s.depthBound ≤ i + 1)
    (hj : s.depthBound ≤ j + 1) :
    (Lowerer.ofDepth { s with tree := t' } i).raised effects type value =
      (Lowerer.ofDepth s j).raised effects type value :=
  raised_congr fun e he => (ofDepth_agree (h e he) le_rfl hdepth hi hj).1

/-- The statements are lowered to the codes of the raise. -/
theorem Tree.Unfolds.runs (u : s.tree.Unfolds t' raise type value effects new last)
    (h : RunsTo (s.lowerer.raised effects type value) g r g') :
    RunsTo ((new ++ [last]).mapM ({ s with tree := t' } : Setting).statement) g
        (r.codes (s.tree.location raise).line) g' ∧
      ∀ o ∈ r.effects, Text.Edged o.code.toList := by
  have hdepth : s.depthBound ≤ ({ s with tree := t' } : Setting).depthBound :=
    Nat.mul_le_mul_left 2 u.depth_le
  have hnew : RunsTo ((({ s with tree := t' } : Setting).lowerer).raised effects type value) g r g' := by
    have hlevel : (({ s with tree := t' } : Setting).lowerer).raised effects type value =
        s.lowerer.raised effects type value :=
      raised_agree u.agree u.depth_le (by omega) (by omega)
    rw [hlevel]
    exact h
  obtain ⟨g₁, g₂, heffects, htype, hvalue⟩ := runsTo_raised_iff.mp hnew
  have hedged := edged_of_expressions heffects
  have hcodes := runsTo_effectStatements (s := { s with tree := t' }) u.effect heffects hedged
  have hlast := runsTo_raiseStatement (s := { s with tree := t' }) u.raised htype hvalue
  have hplace : ({ s with tree := t' } : Setting).tree.location last = s.tree.location raise := u.place
  rw [hplace] at hlast
  exact ⟨runsTo_mapM_concat hcodes hlast, hedged⟩

/-! ## Lines -/

/-- The expression that raises holds the drops of the side effects and the arguments of the raise. -/
theorem Raised.infix_thrown (r : Raised) (line : Nat) :
    (∀ o ∈ r.effects, o.dropped.toList <:+: (r.thrown line).toList) ∧
      (Text.commaSeparated (r.arguments line)).toList <:+: (r.thrown line).toList := by
  have hcall : (Text.commaSeparated (r.arguments line)).toList <:+:
      (applied "THROW_EXCEPTION" (r.arguments line)).toList := Text.infix_between _ _ _
  rw [thrown]
  split
  next hnone =>
    refine ⟨fun o ho => ?_, hcall⟩
    rw [List.isEmpty_iff.mp hnone] at ho
    exact nomatch ho
  next =>
    have hpart : ∀ {a}, a ∈ r.effects.map Operand.dropped ++
        [applied "THROW_EXCEPTION" (r.arguments line)] → a.toList <:+: _ := fun ha =>
      (Text.infix_commaSeparated ha).trans (Text.infix_between "( " _ " )")
    exact ⟨fun o ho => hpart (List.mem_append_left _ (List.mem_map_of_mem ho)),
      hcall.trans (hpart (List.mem_append_right _ List.mem_cons_self))⟩

theorem isFull_of_part {code a p q : String} (h : IsFull code) (ha : a.toList <:+: code.toList)
    (hp : '\n' ∉ p.toList) (hq : '\n' ∉ q.toList) (hedged : Text.Edged (p ++ a ++ q).toList) :
    IsFull (p ++ a ++ q) :=
  ⟨hedged.ne_empty, Text.not_blank_of_part h.2 ha hp hq hedged⟩

/-- The codes have no blank lines if the code of the expression has none. -/
theorem Raised.isFull_codes {p q : String} (hfull : IsFull (p ++ r.thrown line ++ q))
    (hedged : ∀ o ∈ r.effects, Text.Edged o.code.toList) : ∀ c ∈ r.codes line, IsFull c := by
  obtain ⟨hdropped, harguments⟩ := r.infix_thrown line
  have hthrown := Text.infix_between p (r.thrown line) q
  intro c hc
  rcases List.mem_append.mp hc with hc | hc
  · obtain ⟨o, ho, rfl⟩ := List.mem_map.mp hc
    have hpart : IsFull ("" ++ o.dropped ++ ";") := by
      refine isFull_of_part hfull ((hdropped o ho).trans hthrown) (by decide) (by decide) ?_
      rw [String.empty_append]
      exact (Operand.edged_dropped (hedged o ho)).terminated
    rwa [String.empty_append] at hpart
  · rw [List.mem_singleton.mp hc, applied_terminated]
    refine isFull_of_part hfull (harguments.trans hthrown) (by decide) (by decide) ?_
    rw [← applied_terminated]
    exact (edged_applied ⟨'R', rfl, by decide⟩).terminated

/-! ## Before and after the step -/

def Setting.stepAt (s : Setting) (n : NodeId) : Setting :=
  { s with tree := (s.tree.stepAt n).tree }

/-- An expression statement of a sequence that consists of a raise is lowered to one line. The step at
the raise puts statements in its place whose codes drop the same side effects and then raise with the
same arguments, from the same program and scopes to the same ones. If the lines of the statement can
be part of a sequence, so can those of the statements. -/
theorem raise_statement_spreads (h : s.tree.WellFormed) (hid : s.tree.Reachable id)
    (hstmt : s.tree.stmt? id = some (.expression raise))
    (hexpr : s.tree.expr? raise = some (.raise type value effects))
    (hparent : s.tree.parent id = some holder) (hholder : s.tree.sequence? holder = some statements)
    {code : String} (hrun : RunsTo (s.statement id) g code g') :
    ∃ (r : Raised) (left new right : List NodeId),
      RunsTo (s.lowerer.raised effects type value) g r g' ∧ r.effects.length = effects.length ∧
      code = "DECREASE_REFCOUNT( " ++ r.thrown (s.tree.location raise).line ++ " );" ∧
      statements = left ++ id :: right ∧ (s.tree.stepAt raise).changed = true ∧
      (s.stepAt raise).tree.sequence? holder = some (left ++ new ++ right) ∧
      RunsTo (new.mapM (s.stepAt raise).statement) g (r.codes (s.tree.location raise).line) g' ∧
      ∀ last lines, RunsTo (statementLines s s.lowerer last [id]) g lines g' →
        lines = marked s last [(id, code)] ∧
          RunsTo (statementLines (s.stepAt raise) (s.stepAt raise).lowerer last new) g
            (marked (s.stepAt raise) last (new.zip (r.codes (s.tree.location raise).line))) g' := by
  obtain ⟨left, new, last, right, hsplit, hchanged, hseq, unfolds⟩ :=
    Tree.stepAt_unfolds h hid hstmt hexpr hparent hholder
  -- the expression of the statement is one level down, its operands are two
  obtain ⟨levels, hlevels⟩ : ∃ levels, s.depthBound = levels + 1 :=
    ⟨2 * s.tree.size + 1, by rw [Setting.depthBound, Tree.depthBound]; omega⟩
  have hrun' : RunsTo (Lowering.statement s (Lowerer.ofDepth s (levels + 1)) id) g code g' := by
    rw [← hlevels]
    exact hrun
  obtain ⟨r, hr, hcode⟩ := code_of_raise hstmt hexpr hrun'
  have hraised : RunsTo (s.lowerer.raised effects type value) g r g' := by
    have hself : ∀ e ∈ effects ++ type :: value.toList,
        s.tree.Agree s.tree s.tree.depthBound e := fun e he => (unfolds.agree e he).self
    have hlevel : s.lowerer.raised effects type value =
        (Lowerer.ofDepth s levels).raised effects type value :=
      raised_agree hself le_rfl (by omega) (by omega)
    rw [hlevel]
    exact hr
  obtain ⟨_, _, heffects, -, -⟩ := runsTo_raised_iff.mp hraised
  obtain ⟨hcodes, hedged⟩ := unfolds.runs hraised
  refine ⟨r, left, new ++ [last], right, hraised, length_of_expressions heffects, hcode, hsplit,
    hchanged, hseq, hcodes, fun before lines hlines => ?_⟩
  have hne : code ≠ "" := by
    rw [hcode]
    intro hnil
    have hlength := congrArg String.length hnil
    simp at hlength
  obtain ⟨hfull, hmarked⟩ := hlines.of_statementLines_singleton hrun hne
  rw [hcode] at hfull
  exact ⟨hmarked, runsTo_statementLines_of_codes (Raised.isFull_codes hfull hedged) hcodes before⟩

/-- The module `raise TypeError`, with an item that is fetched and dropped on the way. -/
def raisingAside : Tree where
  nodes :=
    let entry (line : Nat) (kind : NodeKind) (parent : Option NodeId) : Node :=
      ⟨kind, parent, { file := "spam.py", line }⟩
    #[entry 1 (.module { name := "spam", filename := "spam.py", body := some ⟨1⟩ }) none,
      entry 1 (.sequence [⟨2⟩]) (some ⟨0⟩),
      entry 1 (.stmt (.expression ⟨3⟩)) (some ⟨1⟩),
      entry 2 (.expr (.raise ⟨6⟩ none [⟨4⟩])) (some ⟨2⟩),
      entry 3 (.expr (.unaryBuiltin .next ⟨5⟩)) (some ⟨3⟩),
      entry 3 (.expr (.variableRef "a" (some ⟨"a", .moduleGlobal⟩))) (some ⟨4⟩),
      entry 2 (.expr (.exception "TypeError")) (some ⟨3⟩)]
  root := some ⟨0⟩

/-- One statement drops the item, one raises. -/
theorem raise_statement_spreads_raisingAside :
    raisingAside.WellFormed ∧ raisingAside.Reachable ⟨2⟩ ∧
      ∃ (s : Setting) (code : String) (g' : Progress) (r : Raised),
        s.tree = raisingAside ∧ RunsTo (s.statement ⟨2⟩) {} code g' ∧ r.effects.length = 1 ∧
          code = "DECREASE_REFCOUNT( " ++ r.thrown 2 ++ " );" ∧
          (s.stepAt ⟨3⟩).tree.sequence? ⟨1⟩ = some [⟨7⟩, ⟨8⟩] ∧
          RunsTo ([⟨7⟩, ⟨8⟩].mapM (s.stepAt ⟨3⟩).statement) {} (r.codes 2) g' := by
  have hwf : raisingAside.WellFormed := Tree.WellFormed.of_arena rfl rfl (by decide) (by decide)
  have hroot : raisingAside.Reachable ⟨0⟩ := ⟨⟨0⟩, rfl, Tree.Reaches.refl _ _⟩
  have hholder : raisingAside.Reachable ⟨1⟩ := hroot.child (by decide)
  have hid : raisingAside.Reachable ⟨2⟩ := hholder.child (by decide)
  let s : Setting := { tree := raisingAside, moduleName := "spam", codeName := "spam" }
  have hstmt : s.tree.stmt? ⟨2⟩ = some (.expression ⟨3⟩) := by rfl
  have hexpr : s.tree.expr? ⟨3⟩ = some (.raise ⟨6⟩ none [⟨4⟩]) := by rfl
  have hparent : s.tree.parent ⟨2⟩ = some ⟨1⟩ := by rfl
  have hheld : s.tree.sequence? ⟨1⟩ = some [⟨2⟩] := by rfl
  have hends : ((s.statement ⟨2⟩).run {}).1.toOption.isSome = true := by decide +kernel
  obtain ⟨code, g', hrun⟩ := exists_runsTo hends
  obtain ⟨r, left, new, right, -, hlength, hcode, hsplit, -, hseq, hcodes, -⟩ :=
    raise_statement_spreads (s := s) hwf hid hstmt hexpr hparent hheld hrun
  have hnew : (s.stepAt ⟨3⟩).tree.sequence? ⟨1⟩ = some [⟨7⟩, ⟨8⟩] := by decide +kernel
  rcases List.singleton_eq_append_iff.mp hsplit with ⟨rfl, hrest⟩ | ⟨-, hrest⟩
  · rw [(List.cons.inj hrest).2, List.nil_append, List.append_nil] at hseq
    obtain rfl : new = [⟨7⟩, ⟨8⟩] := Option.some.inj (hseq.symm.trans hnew)
    exact ⟨hwf, hid, s, code, g', r, rfl, hrun, hlength, hcode, hnew, hcodes⟩
  · exact nomatch hrest

end CompilerBackend
