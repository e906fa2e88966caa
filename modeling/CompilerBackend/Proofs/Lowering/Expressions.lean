import CompilerBackend.Lowering.Expression
import CompilerBackend.Proofs.Lowering.Definitions
import CompilerBackend.Proofs.Target.Builtins
/-!
# The lowering of expressions

The lowering of an expression succeeds exactly if the expression is an operand and its slots are
resolved, and what it gives is fine. Most kinds lower their children in some order and put the
operands together; those have `resolved_of_children`. The kinds with more to them come first, and
`meets_expressionForm` has one case for each kind.
-/

namespace CompilerBackend.Lowering

open Target

variable {w : Wording} {s : Setting} {T H : Prop} {self : Lowerer} {P : NodeId → Prop}
  {top id : NodeId}

/-- A lowering that takes the children of an expression as expressions resolves it. -/
theorem resolved_of_children {α : Type} {step : Lower α} {Φ : Prop} {Q : α → Prop} {e : Expr}
    (hs : Meets w T H step Φ Q) (hkind : s.tree.kind id = .expr e)
    (he : e.isOperand s.options.isThird = true)
    (hpositions : e.positions = e.children.map (Role.expression, ·))
    (hΦ : Φ ↔ s.AllResolved e.children) :
    Meets w T H step (s.Resolved (.expression, id)) Q :=
  hs.iff fun _ _ => hΦ.trans (Setting.resolved_iff_children hkind he hpositions).symm

theorem kind_of_fits_expression {third : Bool} {k : NodeKind}
    (h : k.fits third .expression = true) : ∃ e, k = .expr e := by
  cases k with
  | expr e => exact ⟨e, rfl⟩
  | _ => exact nomatch h

/-- The names of a connected expression stand apart from the text around them. -/
theorem named_of_mem_names (hg : Grounded w s T top) (hid : s.tree.Connected top id) {e : Expr}
    (hkind : s.tree.kind id = .expr e) {n : String} (hn : n ∈ e.names) : Named w n := by
  have hnames := (hg.suits id hid).names
  rw [hkind] at hnames
  exact hnames n hn

/-! ## References and assignments -/

theorem resolved_reference_iff {e : Expr} (hkind : s.tree.kind id = .expr e)
    (he : e.isOperand s.options.isThird = e.boundVariable?.isSome) :
    s.Resolved (.expression, id) ↔ s.Resolved (.target, id) := by
  rw [Setting.Resolved, Setting.Resolved, Tree.resolved_iff, Tree.resolved_iff, hkind]
  change e.isOperand _ = true ∧ _ ↔ e.boundVariable?.isSome = true ∧ _
  rw [he]

/-- A reference is an operand if it is bound. -/
theorem meets_reference (hg : Grounded w s T top) (hid : s.tree.Connected top id) {e : Expr}
    (hkind : s.tree.kind id = .expr e)
    (he : e.isOperand s.options.isThird = e.boundVariable?.isSome) :
    Meets w T H (do return variableAccess s.codeName (← boundVariable s.tree id))
      (s.Resolved (.expression, id)) (Operand.Fine w) := by
  refine ((meets_boundVariable hg hid).bind fun v => Meets.pure fun hv =>
    fine_variableAccess hg.codeName hv.2).iff fun _ _ => ?_
  rw [and_true, resolved_reference_iff hkind he]

theorem meets_assignmentExpression (hg : Grounded w s T top) (h : self.Handles w s T P)
    (hid : s.tree.Connected top id) {target source : NodeId}
    (hkind : s.tree.kind id = .expr (.assignment target source))
    (hP : ∀ c ∈ [source, target], P c) :
    Meets w T H (expressionForm s self id (.assignment target source))
      (s.Resolved (.expression, id)) (Operand.Fine w) := by
  have htarget : s.tree.Connected top target := hid.child (by
    rw [Tree.children, hkind]
    exact List.mem_cons_of_mem source List.mem_cons_self)
  refine ((h.expression (hP source (by simp))).bind fun o =>
    (meets_boundVariable hg htarget).bind fun v => Meets.pure fun ho =>
      fine_assignmentExpression hg.codeName ho.2 ho.1.2).iff fun _ _ => ?_
  rw [Setting.resolved_expr_iff hkind]
  simp [Expr.isOperand, Expr.positions]

/-! ## Definitions -/

theorem meets_functionExpression (hg : Grounded w s T top) (h : self.Handles w s T P)
    (hid : s.tree.Connected top id) {f : FunctionBody}
    (hkind : s.tree.kind id = .expr (.function f)) (hP : ∀ c ∈ f.body.toList, P c) :
    Meets w T H (functionObject s self id []) (s.Resolved (.expression, id)) (Operand.Fine w) := by
  refine (meets_functionObject hg h hid (by rwa [Tree.children, hkind])
    (List.forall_mem_nil P)).iff fun _ _ => ?_
  rw [resolved_function_iff hkind, Setting.resolved_expr_iff hkind, f.parameters.length_defaulted]
  simp [Expr.isOperand, Expr.positions]

theorem meets_functionDefaulted (hg : Grounded w s T top) (h : self.Handles w s T P)
    (hid : s.tree.Connected top id) {definition : NodeId} {defaults : List NodeId}
    (hkind : s.tree.kind id = .expr (.functionDefaulted definition defaults))
    (hP : ∀ c ∈ defaults ++ [definition], P c) :
    Meets w T H (functionObject s self definition defaults) (s.Resolved (.expression, id))
      (Operand.Fine w) := by
  have hmem : definition ∈ defaults ++ [definition] :=
    List.mem_append_right _ List.mem_cons_self
  have hdefinition : s.tree.Connected top definition :=
    hid.child (by rwa [Tree.children, hkind])
  refine (meets_functionObject hg h hdefinition (fun c hc => h.closed (hP _ hmem) hc)
    fun c hc => hP c (List.mem_append_left _ hc)).iff fun _ _ => ?_
  rw [Setting.resolved_expr_iff hkind]
  simp [Expr.isOperand, Expr.positions, Setting.AllResolved, or_imp, forall_and]

theorem meets_classExpression (hg : Grounded w s T top) (h : self.Handles w s T P)
    (hid : s.tree.Connected top id) {c : ClassBody}
    (hkind : s.tree.kind id = .expr (.classBody c)) (hP : ∀ n ∈ c.body.toList, P n) :
    Meets w T H (classObject s self id []) (s.Resolved (.expression, id)) (Operand.Fine w) := by
  refine (meets_classObject hg h hid (by rwa [Tree.children, hkind])
    (List.forall_mem_nil P)).iff fun _ _ => ?_
  rw [resolved_classBody_iff hkind, Setting.resolved_expr_iff hkind]
  simp [Expr.isOperand, Expr.positions]

theorem meets_classBased (hg : Grounded w s T top) (h : self.Handles w s T P)
    (hid : s.tree.Connected top id) {classNode : NodeId} {bases : List NodeId}
    (hkind : s.tree.kind id = .expr (.classBased classNode bases))
    (hP : ∀ c ∈ bases ++ [classNode], P c) :
    Meets w T H (classObject s self classNode bases) (s.Resolved (.expression, id))
      (Operand.Fine w) := by
  have hmem : classNode ∈ bases ++ [classNode] := List.mem_append_right _ List.mem_cons_self
  have hclass : s.tree.Connected top classNode := hid.child (by rwa [Tree.children, hkind])
  refine (meets_classObject hg h hclass (fun c hc => h.closed (hP _ hmem) hc)
    fun c hc => hP c (List.mem_append_left _ hc)).iff fun _ _ => ?_
  rw [Setting.resolved_expr_iff hkind]
  simp [Expr.isOperand, Expr.positions, Setting.AllResolved, or_imp, forall_and]

/-! ## Calls and imports -/

def positionalTuple (t : Tree) (self : Lowerer) (ids : List NodeId) : Lower (Option Operand) :=
  if ids.isEmpty then pure none else some <$> tuple t self ids

def orLowered (self : Lowerer) (o : Option NodeId) (absent : Lower Operand) : Lower Operand :=
  match o with
  | some id => self.expression id
  | none => absent

theorem meets_positionalTuple (h : self.Handles w s T P) {ids : List NodeId} (hP : ∀ c ∈ ids, P c) :
    Meets w T H (positionalTuple s.tree self ids) (s.AllResolved ids)
      fun o => (∀ p ∈ o, p.Fine w) ∧ (o = none → ids = []) := by
  unfold positionalTuple
  split
  next hnil =>
    rw [List.isEmpty_iff] at hnil
    subst hnil
    refine (Meets.pure fun _ => ⟨fun _ hp => (nomatch hp), fun _ => rfl⟩).iff fun _ _ => ?_
    simp
  next =>
    rw [map_eq_pure_bind]
    refine ((meets_tuple h hP).bind fun o => Meets.pure fun ho => ?_).iff fun _ _ =>
      and_iff_left trivial
    refine ⟨fun p hp => ?_, fun hnone => absurd hnone (Option.some_ne_none o)⟩
    rw [← Option.some.inj hp]
    exact ho.2

theorem expressionForm_call {callee : NodeId} {positional : List NodeId}
    {named : List (NodeId × NodeId)} {starList starDict : Option NodeId} :
    expressionForm s self id (.call callee positional named starList starDict) = (do
      let f ← self.expression callee
      let arguments ← positionalTuple s.tree self positional
      let names ← namedArguments s.tree self named
      let list ← self.optional starList
      let dict ← self.optional starDict
      return functionCall f arguments names list dict) := by
  cases positional <;> rfl

theorem expressionForm_builtinImport {name : NodeId}
    {fromList inGlobals inLocals level : Option NodeId} :
    expressionForm s self id (.builtinImport name fromList inGlobals inLocals level) = (do
      let globals ← orLowered self inGlobals (pure (globalsDict s.codeName))
      let locals ← orLowered self inLocals (importLocals s id globals)
      let n ← self.expression name
      let ns ← orConstant self fromList .none
      let l ← orConstant self level (.int (-1))
      return importModule n globals locals ns l) := by
  cases inGlobals <;> cases inLocals <;> rfl

/-- The name of the empty tuple stands in a call with named arguments only. -/
theorem meets_call (hg : Grounded w s T top) (h : self.Handles w s T P)
    (hid : s.tree.Connected top id) {callee : NodeId} {positional : List NodeId}
    {named : List (NodeId × NodeId)} {starList starDict : Option NodeId}
    (hkind : s.tree.kind id = .expr (.call callee positional named starList starDict))
    (hP : ∀ c ∈ callee :: positional ++ pairSlots named ++ starList.toList ++ starDict.toList,
      P c) :
    Meets w T H (expressionForm s self id (.call callee positional named starList starDict))
      (s.Resolved (.expression, id)) (Operand.Fine w) := by
  have hnamed := (hg.suits id hid).named
  rw [hkind] at hnamed
  simp only [List.forall_mem_append, List.forall_mem_cons, Option.mem_toList] at hP
  obtain ⟨⟨⟨⟨hcallee, hpositional⟩, hpairs⟩, hlist⟩, hdict⟩ := hP
  rw [expressionForm_call]
  refine resolved_of_children ((h.expression hcallee).bind fun f =>
    (meets_positionalTuple h hpositional).bind fun args =>
      (meets_namedArguments hg h hid (by rw [hkind]; rfl) hpairs).bind fun names =>
        (meets_present h hlist).bind fun list => (meets_present h hdict).bind fun dict =>
          Meets.pure fun ho => ?_) hkind rfl rfl ?_
  · obtain ⟨⟨⟨⟨⟨_, hf⟩, hargs⟩, hnames⟩, hsl⟩, hsd⟩ := ho
    refine fine_functionCall hf hargs.1 hnames.1 hsl.1 hsd.1 fun ht hd hl hs => hnamed ?_
    rw [hargs.2 ht, hsl.2.mp hl, hsd.2.mp hs]
    cases named with
    | nil => exact absurd (hnames.2.mpr rfl) hd
    | cons _ _ => rfl
  · simp [Expr.children]

theorem meets_importModule (hg : Grounded w s T top) (hid : s.tree.Connected top id)
    (hscope : T → (s.tree.scope? id).isSome = true) {name : String}
    {names : Option (List String)} {level : Int}
    (hkind : s.tree.kind id = .expr (.importModule name names level)) :
    Meets w T H (expressionForm s self id (.importModule name names level))
      (s.Resolved (.expression, id)) (Operand.Fine w) := by
  have hglobals : (globalsDict s.codeName).Fine w := fine_globalsDict hg.codeName
  refine resolved_of_children ((meets_importLocals hg hid hscope fun _ => hglobals).bind
    fun locals => (Meets.intern (interned_constantFromTable _)).bind fun n =>
      (Meets.intern (interned_constantFromTable _)).bind fun ns =>
        (Meets.intern (interned_constantFromTable _)).bind fun l => Meets.pure fun ho => ?_)
    hkind rfl rfl ?_
  · obtain ⟨⟨⟨⟨_, hlocals⟩, hn⟩, hns⟩, hl⟩ := ho
    exact fine_importModule hn hglobals hlocals hns hl
  · simp [Expr.children]

theorem meets_orConstant (h : self.Handles w s T P) {o : Option NodeId} (hP : ∀ c ∈ o, P c)
    (c : Constant) :
    Meets w T H (orConstant self o c) (s.AllResolved o.toList) (Operand.Fine w) := by
  cases o with
  | none => exact (Meets.intern (interned_constantFromTable c)).iff fun _ _ => by simp
  | some id => exact (h.expression (hP id rfl)).iff fun _ _ => by simp

theorem meets_orLowered (h : self.Handles w s T P) {o : Option NodeId} (hP : ∀ c ∈ o, P c)
    {absent : Lower Operand} (habsent : Meets w T H absent True (Operand.Fine w)) :
    Meets w T H (orLowered self o absent) (s.AllResolved o.toList) (Operand.Fine w) := by
  cases o with
  | none => exact habsent.iff fun _ _ => by simp
  | some id => exact (h.expression (hP id rfl)).iff fun _ _ => by simp

theorem meets_builtinImport (hg : Grounded w s T top) (h : self.Handles w s T P)
    (hid : s.tree.Connected top id) (hscope : T → (s.tree.scope? id).isSome = true)
    {name : NodeId} {fromList inGlobals inLocals level : Option NodeId}
    (hkind : s.tree.kind id = .expr (.builtinImport name fromList inGlobals inLocals level))
    (hP : ∀ c ∈ name :: fromList.toList ++ inGlobals.toList ++ inLocals.toList ++ level.toList,
      P c) :
    Meets w T H (expressionForm s self id (.builtinImport name fromList inGlobals inLocals level))
      (s.Resolved (.expression, id)) (Operand.Fine w) := by
  simp only [List.forall_mem_append, List.forall_mem_cons, Option.mem_toList] at hP
  obtain ⟨⟨⟨⟨hname, hfrom⟩, hglobals⟩, hlocals⟩, hlevel⟩ := hP
  rw [expressionForm_builtinImport]
  have hown : Meets w T H (pure (globalsDict s.codeName) : Lower Operand) True (Operand.Fine w) :=
    Meets.pure fun _ => fine_globalsDict hg.codeName
  refine resolved_of_children ((meets_orLowered h hglobals hown).bind fun g =>
    (meets_orLowered h hlocals (meets_importLocals hg hid hscope And.right)).bind fun l =>
      (h.expression hname).bind fun n => (meets_orConstant h hfrom _).bind fun ns =>
        (meets_orConstant h hlevel _).bind fun lv => Meets.pure fun ho => ?_) hkind rfl rfl ?_
  · obtain ⟨⟨⟨⟨⟨_, hg⟩, hl⟩, hn⟩, hns⟩, hlv⟩ := ho
    exact fine_importModule hn hg hl hns hlv
  · simp only [Expr.children, Setting.allResolved_append, Setting.allResolved_cons]
    tauto

/-! ## Builtins -/

/-- The newer version of the language has no long integers. -/
theorem meets_integer (h : self.Handles w s T P) {kind : IntegerKind} {value base : Option NodeId}
    (hkind : s.tree.kind id = .expr (.integer kind value base))
    (hP : ∀ c ∈ value.toList ++ base.toList, P c) :
    Meets w T H (expressionForm s self id (.integer kind value base))
      (s.Resolved (.expression, id)) (Operand.Fine w) := by
  simp only [List.forall_mem_append, Option.mem_toList] at hP
  rw [expressionForm]
  split
  next hlong =>
    obtain ⟨hlong, hthird⟩ := Bool.and_eq_true_iff.mp hlong
    rw [beq_iff_eq] at hlong
    refine (Meets.fail_bind _ _ _ _).iff fun _ _ => ⟨False.elim, fun hresolved => ?_⟩
    have hoperand := ((Setting.resolved_expr_iff hkind).mp hresolved).1
    rw [hlong, Expr.isOperand, hthird] at hoperand
    exact nomatch hoperand
  next hother =>
    have hoperand : (Expr.integer kind value base).isOperand s.options.isThird = true := by
      cases kind with
      | int => rfl
      | long => simpa [Expr.isOperand] using hother
    obtain ⟨hvalue, hbase⟩ := hP
    refine resolved_of_children ((meets_optional h hvalue).bind fun v =>
      (meets_optional h hbase).bind fun b => Meets.pure ?_) hkind hoperand rfl ?_
    · rintro ⟨⟨-, hv⟩, hb⟩
      exact fine_integer kind hv hb
    · simp [Expr.children]

theorem meets_evalParts (h : self.Handles w s T P) (mode : EvalMode) {source : NodeId}
    {inGlobals inLocals : Option NodeId}
    (hP : ∀ c ∈ source :: inGlobals.toList ++ inLocals.toList, P c) :
    Meets w T H (evalParts s.tree self id mode source inGlobals inLocals)
      (s.AllResolved (source :: inGlobals.toList ++ inLocals.toList)) (EvalParts.Fine w) := by
  simp only [List.forall_mem_append, List.forall_mem_cons, Option.mem_toList] at hP
  obtain ⟨⟨hsource, hglobals⟩, hlocals⟩ := hP
  refine ((meets_orConstant h hglobals _).bind fun g => (meets_orConstant h hlocals _).bind
    fun l => (Meets.intern (interned_constantFromTable _)).bind fun filename =>
      (Meets.intern (interned_constantFromTable _)).bind fun mode =>
        (h.expression hsource).bind fun o => Meets.pure fun ho => ?_).iff fun _ _ => ?_
  · obtain ⟨⟨⟨⟨⟨_, hg⟩, hl⟩, hfilename⟩, hmode⟩, ho⟩ := ho
    exact ⟨ho, hg, hl, hfilename, hmode, phrase_futureFlags _⟩
  · simp only [Setting.allResolved_append, Setting.allResolved_cons]
    tauto

theorem meets_raiseExpression (h : self.Handles w s T P) {exceptionType : NodeId}
    {value : Option NodeId} {sideEffects : List NodeId}
    (hkind : s.tree.kind id = .expr (.raise exceptionType value sideEffects))
    (hP : ∀ c ∈ sideEffects ++ exceptionType :: value.toList, P c) :
    Meets w T H (expressionForm s self id (.raise exceptionType value sideEffects))
      (s.Resolved (.expression, id)) (Operand.Fine w) := by
  simp only [List.forall_mem_append, List.forall_mem_cons, Option.mem_toList] at hP
  obtain ⟨heffects, htype, hvalue⟩ := hP
  refine resolved_of_children ((meets_expressions h heffects).bind fun effects =>
    (h.expression htype).bind fun type => (meets_optional h hvalue).bind fun v =>
      Meets.pure ?_) hkind rfl rfl ?_
  · rintro ⟨⟨⟨-, ho⟩, ht⟩, hv⟩
    exact fine_raiseExpression ho ht hv (phrase_tracebackMaker _)
  · simp [Expr.children]

theorem meets_anonymousBuiltin (hg : Grounded w s T top) (hid : s.tree.Connected top id)
    {name : String} (hkind : s.tree.kind id = .expr (.anonymousBuiltin name)) :
    Meets w T H (expressionForm s self id (.anonymousBuiltin name)) (s.Resolved (.expression, id))
      (Operand.Fine w) := by
  have hsuits := hg.suits id hid
  rw [hkind] at hsuits
  have hname : Named w name := hsuits.names name List.mem_cons_self
  have hglued : Worded w ("Py" ++ name ++ "_Type") := hsuits.glued _ List.mem_cons_self
  exact resolved_of_children (Meets.pure fun _ => fine_anonymousBuiltin hname hglued) hkind rfl rfl
    (by simp [Expr.children])

/-! ## All kinds -/

/-- A form that puts the operand of its only child into something. -/
theorem meets_unary (h : self.Handles w s T P) {e : Expr} (hkind : s.tree.kind id = .expr e)
    (he : e.isOperand s.options.isThird = true)
    (hpositions : e.positions = e.children.map (Role.expression, ·)) {a : NodeId}
    (hchildren : e.children = [a]) (hP : ∀ c ∈ e.children, P c) {form : Operand → Operand}
    (hform : ∀ {o}, o.Fine w → (form o).Fine w) :
    Meets w T H (do return form (← self.expression a)) (s.Resolved (.expression, id))
      (Operand.Fine w) := by
  have ha : P a := hP a (by simp [hchildren])
  refine resolved_of_children ((h.expression ha).bind fun o => Meets.pure fun ho =>
    hform ho.2) hkind he hpositions ?_
  simp [hchildren]

/-- A form that puts the operands of its two children together. -/
theorem meets_binary (h : self.Handles w s T P) {e : Expr} (hkind : s.tree.kind id = .expr e)
    (he : e.isOperand s.options.isThird = true)
    (hpositions : e.positions = e.children.map (Role.expression, ·)) {a b : NodeId}
    (hchildren : e.children = [a, b]) (hP : ∀ c ∈ e.children, P c)
    {form : Operand → Operand → Operand}
    (hform : ∀ {o p}, o.Fine w → p.Fine w → (form o p).Fine w) :
    Meets w T H (do
      let o ← self.expression a
      let p ← self.expression b
      return form o p) (s.Resolved (.expression, id)) (Operand.Fine w) := by
  have ha : P a := hP a (by simp [hchildren])
  have hb : P b := hP b (by simp [hchildren])
  refine resolved_of_children ((h.expression ha).bind fun o => (h.expression hb).bind fun p =>
    Meets.pure fun ho => hform ho.1.2 ho.2) hkind he hpositions ?_
  simp [hchildren]

/-- A form that puts a constant and the operand of its only child together. -/
theorem meets_named (h : self.Handles w s T P) {e : Expr} (hkind : s.tree.kind id = .expr e)
    (he : e.isOperand s.options.isThird = true)
    (hpositions : e.positions = e.children.map (Role.expression, ·)) {a : NodeId}
    (hchildren : e.children = [a]) (hP : ∀ c ∈ e.children, P c) (c : Constant)
    {form : Operand → Operand → Operand}
    (hform : ∀ {o p}, o.Fine w → p.Fine w → (form o p).Fine w) :
    Meets w T H (do
      let n ← Lower.intern (constantFromTable c)
      let o ← self.expression a
      return form n o) (s.Resolved (.expression, id)) (Operand.Fine w) := by
  have ha : P a := hP a (by simp [hchildren])
  refine resolved_of_children ((Meets.intern (interned_constantFromTable c)).bind fun n =>
    (h.expression ha).bind fun o => Meets.pure fun ho => hform ho.1.2 ho.2) hkind he hpositions ?_
  simp [hchildren]

/-- A form that puts the operands of all its children together. -/
theorem meets_variadic (h : self.Handles w s T P) {e : Expr} (hkind : s.tree.kind id = .expr e)
    (he : e.isOperand s.options.isThird = true)
    (hpositions : e.positions = e.children.map (Role.expression, ·)) {ids : List NodeId}
    (hchildren : e.children = ids) (hP : ∀ c ∈ e.children, P c) {form : List Operand → Operand}
    (hform : ∀ {os}, (∀ o ∈ os, o.Fine w) → (form os).Fine w) :
    Meets w T H (do return form (← self.expressions ids)) (s.Resolved (.expression, id))
      (Operand.Fine w) := by
  subst hchildren
  refine resolved_of_children ((meets_expressions h hP).bind fun os => Meets.pure ?_) hkind he
    hpositions (and_iff_left trivial)
  rintro ⟨-, hos⟩
  exact hform hos

/-- A form that puts three operands together, none of which need be there. -/
theorem meets_optionals (h : self.Handles w s T P) {e : Expr} (hkind : s.tree.kind id = .expr e)
    (he : e.isOperand s.options.isThird = true)
    (hpositions : e.positions = e.children.map (Role.expression, ·)) {a b c : Option NodeId}
    (hchildren : e.children = a.toList ++ b.toList ++ c.toList) (hP : ∀ n ∈ e.children, P n)
    {form : Option Operand → Option Operand → Option Operand → Operand}
    (hform : ∀ {o p q : Option Operand}, (∀ x ∈ o, x.Fine w) → (∀ x ∈ p, x.Fine w) →
      (∀ x ∈ q, x.Fine w) → (form o p q).Fine w) :
    Meets w T H (do
      let o ← self.optional a
      let p ← self.optional b
      let q ← self.optional c
      return form o p q) (s.Resolved (.expression, id)) (Operand.Fine w) := by
  simp only [hchildren, List.forall_mem_append, Option.mem_toList] at hP
  obtain ⟨⟨ha, hb⟩, hc⟩ := hP
  refine resolved_of_children ((meets_optional h ha).bind fun o => (meets_optional h hb).bind
    fun p => (meets_optional h hc).bind fun q => Meets.pure ?_) hkind he hpositions ?_
  · rintro ⟨⟨⟨-, ho⟩, hp⟩, hq⟩
    exact hform ho hp hq
  · simp [hchildren]

/-- The lowering of an expression, before its code is checked. -/
theorem meets_expressionForm (hg : Grounded w s T top) (h : self.Handles w s T P)
    (hid : s.tree.Connected top id) (hscope : T → (s.tree.scope? id).isSome = true) {e : Expr}
    (hkind : s.tree.kind id = .expr e) (hP : ∀ c ∈ e.children, P c) :
    Meets w T H (expressionForm s self id e) (s.Resolved (.expression, id)) (Operand.Fine w) := by
  cases e with
  | variableRef name binding => exact meets_reference hg hid hkind rfl
  | temporaryRef binding => exact meets_reference hg hid hkind rfl
  | constant value =>
      exact (Meets.intern (interned_constantAccess value)).iff fun _ _ =>
        iff_of_true trivial (resolved_constant hkind)
  | operation operator operands =>
      exact meets_variadic h hkind rfl rfl rfl hP (fine_operation operator)
  | disjunction operands => exact meets_variadic h hkind rfl rfl rfl hP fine_disjunction
  | conjunction operands => exact meets_variadic h hkind rfl rfl rfl hP fine_conjunction
  | comparison comparator left right =>
      exact meets_binary h hkind rfl rfl rfl hP (fine_comparison comparator)
  | conditional condition yes no =>
      simp only [Expr.children, List.forall_mem_cons] at hP
      obtain ⟨hcondition, hyes, hno, -⟩ := hP
      refine resolved_of_children ((h.condition false hcondition).bind fun c =>
        (h.expression hyes).bind fun y => (h.expression hno).bind fun n => Meets.pure ?_)
        hkind rfl rfl ?_
      · rintro ⟨⟨⟨-, hc⟩, hy⟩, hn⟩
        exact fine_choice hc.phrase hy hn
      · simp [Expr.children]
  | makeTuple elements => exact resolved_of_children (meets_tuple h hP) hkind rfl rfl Iff.rfl
  | makeList elements => exact resolved_of_children (meets_list h hP) hkind rfl rfl Iff.rfl
  | makeSet elements => exact resolved_of_children (meets_set h hP) hkind rfl rfl Iff.rfl
  | makeDict pairs =>
      exact resolved_of_children (meets_dict hg h hid (by rw [hkind]; rfl) hP) hkind rfl rfl Iff.rfl
  | call callee positional named starList starDict => exact meets_call hg h hid hkind hP
  | attributeOf source name =>
      exact meets_named h hkind rfl rfl rfl hP _ fine_attributeLookup
  | specialAttributeOf source name =>
      exact meets_named h hkind rfl rfl rfl hP _ fine_specialAttributeLookup
  | subscript source index =>
      exact meets_binary h hkind rfl rfl rfl hP fine_subscriptLookup
  | slice source lower upper =>
      simp only [Expr.children, List.cons_append, List.forall_mem_cons, List.forall_mem_append,
        Option.mem_toList] at hP
      obtain ⟨hsource, hlower, hupper⟩ := hP
      exact resolved_of_children (meets_sliceLookup h hsource hlower hupper) hkind rfl rfl Iff.rfl
  | sliceObject lower upper step =>
      exact meets_optionals h hkind rfl rfl rfl hP fine_sliceObject
  | function f => exact meets_functionExpression hg h hid hkind hP
  | functionDefaulted definition defaults => exact meets_functionDefaulted hg h hid hkind hP
  | classBody c => exact meets_classExpression hg h hid hkind hP
  | classBased classNode bases => exact meets_classBased hg h hid hkind hP
  | yield value forReturn =>
      exact meets_unary h hkind rfl rfl rfl hP (fine_yielded forReturn)
  | importModule name names level => exact meets_importModule hg hid hscope hkind
  | builtinImport name fromList inGlobals inLocals level =>
      exact meets_builtinImport hg h hid hscope hkind hP
  | importName source name =>
      exact meets_named h hkind rfl rfl rfl hP _ fine_importName
  | range low high step =>
      simp only [Expr.children, List.forall_mem_append, List.forall_mem_cons,
        Option.mem_toList] at hP
      obtain ⟨⟨hlow, hhigh⟩, hstep⟩ := hP
      refine resolved_of_children ((h.expression hlow).bind fun l => (meets_optional h hhigh).bind
        fun u => (meets_optional h hstep).bind fun st => Meets.pure ?_) hkind rfl rfl ?_
      · rintro ⟨⟨⟨-, hl⟩, hu⟩, hst⟩
        exact fine_range hl hu hst
      · simp [Expr.children]
  | globals =>
      exact resolved_of_children (Meets.pure fun _ => fine_globalsDict hg.codeName) hkind rfl rfl
        (by simp [Expr.children])
  | locals =>
      exact resolved_of_children (meets_localsAt hg hid hscope) hkind rfl rfl
        (by simp [Expr.children])
  | dir =>
      refine resolved_of_children ((meets_scopeOf hg hid hscope).bind fun p =>
        Meets.intern (interned_dirList hg.codeName And.right)) hkind rfl rfl ?_
      simp [Expr.children]
  | unaryBuiltin fn value =>
      exact meets_unary h hkind rfl rfl rfl hP (fine_unaryBuiltin fn)
  | iterWithSentinel callable sentinel =>
      exact meets_binary h hkind rfl rfl rfl hP fine_iterWithSentinel
  | nextWithDefault iterator default =>
      exact meets_binary h hkind rfl rfl rfl hP fine_nextWithDefault
  | typeOfThree name bases namespaceDict =>
      simp only [Expr.children, List.forall_mem_cons] at hP
      obtain ⟨hname, hbases, hnamespace, -⟩ := hP
      refine resolved_of_children ((h.expression hname).bind fun n => (h.expression hbases).bind
        fun b => (h.expression hnamespace).bind fun d => Meets.intern
          (interned_typeOfThree s.moduleName ?_ ?_ And.right)) hkind rfl rfl ?_
      · rintro ⟨⟨⟨-, hn⟩, -⟩, -⟩
        exact hn
      · rintro ⟨⟨-, hb⟩, -⟩
        exact hb
      · simp [Expr.children]
  | integer kind value base => exact meets_integer h hkind hP
  | dict positional named =>
      simp only [Expr.children, List.forall_mem_append, Option.mem_toList] at hP
      obtain ⟨hpositional, hnamed⟩ := hP
      have hentries : (s.tree.kind id).entries = named := by
        rw [hkind]
        rfl
      refine resolved_of_children ((meets_optional h hpositional).bind fun p =>
        (meets_namedArguments hg h hid hentries hnamed).bind fun n => Meets.pure ?_) hkind rfl rfl ?_
      · rintro ⟨⟨-, hp⟩, hn, -⟩
        exact fine_dict hp hn
      · simp [Expr.children]
  | openFile filename mode buffering =>
      exact meets_optionals h hkind rfl rfl rfl hP fine_openFile
  | eval mode source inGlobals inLocals =>
      exact resolved_of_children ((meets_evalParts h mode hP).bind fun parts =>
        Meets.pure fun ho => fine_evaluation ho.2) hkind rfl rfl (and_iff_left trivial)
  | raise exceptionType value sideEffects => exact meets_raiseExpression h hkind hP
  | makeException name arguments =>
      have hname : Named w name := named_of_mem_names hg hid hkind List.mem_cons_self
      exact resolved_of_children ((meets_expressions h hP).bind fun os =>
        Meets.intern (interned_exceptionCreation hname And.right)) hkind rfl rfl
          (and_iff_left trivial)
  | builtin name =>
      exact resolved_of_children (Meets.intern (interned_builtinReference name)) hkind rfl rfl
        (by simp [Expr.children])
  | anonymousBuiltin name => exact meets_anonymousBuiltin hg hid hkind
  | exception name =>
      have hname : Named w name := named_of_mem_names hg hid hkind List.mem_cons_self
      exact resolved_of_children (Meets.pure fun _ => fine_exceptionReference hname) hkind rfl rfl
        (by simp [Expr.children])
  | assignment target source => exact meets_assignmentExpression hg h hid hkind hP
  | caught part =>
      exact resolved_of_children (Meets.pure fun _ => fine_caughtPart part) hkind rfl rfl
        (by simp [Expr.children])
  | listAppend list value => exact meets_binary h hkind rfl rfl rfl hP fine_listAppend
  | setAdd set value => exact meets_binary h hkind rfl rfl rfl hP fine_setAdd
  | dictSet target key value =>
      simp only [Expr.children, List.forall_mem_cons] at hP
      obtain ⟨htarget, hvalue, hkey, -⟩ := hP
      refine resolved_of_children ((h.expression htarget).bind fun d => (h.expression hvalue).bind
        fun v => (h.expression hkey).bind fun k => Meets.pure ?_) hkind rfl rfl ?_
      · rintro ⟨⟨⟨-, hd⟩, hv⟩, hk⟩
        exact fine_dictSet hd hk hv
      · simp [Expr.children]
  | unpackNext iterator count =>
      exact meets_unary h hkind rfl rfl rfl hP (fine_unpackNext count)

/-- The node is an operand, and everything below it is resolved. Where names hold no blanks, the
check of its code never stops the lowering. -/
theorem meets_expression (hg : Grounded w s T top) (h : self.Handles w s T P)
    (hid : s.tree.Connected top id) (hscope : T → (s.tree.scope? id).isSome = true)
    (hP : ∀ c ∈ s.tree.children id, P c) :
    Meets w T H (expression s self id) (s.Resolved (.expression, id)) (Operand.Fine w) := by
  unfold expression
  split
  next hnone =>
    refine (Meets.fail _ _ _).iff fun _ _ => ⟨False.elim, fun hresolved => ?_⟩
    obtain ⟨e, hkind⟩ := kind_of_fits_expression (Tree.resolved_iff.mp hresolved).1
    rw [Tree.expr?_eq_some_iff.mpr hkind] at hnone
    cases hnone
  next e heq =>
    have hkind := Tree.expr?_eq_some_iff.mp heq
    rw [Tree.children, hkind] at hP
    refine ((meets_expressionForm hg h hid hscope hkind hP).bind (Ψ := True) fun o => ?_).iff
      fun _ _ => and_iff_left trivial
    split
    next cause hdefect =>
      refine (Meets.fail _ _ _).iff fun hT hH => ⟨False.elim, fun _ => ?_⟩
      rw [hH.2.defect?_eq_none (hg.tight hT)] at hdefect
      cases hdefect
    next => exact Meets.pure And.right

end CompilerBackend.Lowering
