import CompilerBackend.Lowering.ModuleText
import CompilerBackend.Proofs.Lowering.Expressions
import CompilerBackend.Proofs.Lowering.Statements
import CompilerBackend.Proofs.Lowering.Steps
/-!
# How the lowering of a node ends

The lowering of a node ends as the lowerings do that it goes on to, or it stops for a reason of its
own and blames the node, or one of the nodes it goes on to. A statement is lowered within a
sequence, where it may also be blamed for a blank line, and where a stop leaves it. So what is to be
shown of all ends, of the states of affairs and of the stops, is shown once for each kind of node.

- `Tree.goesOn`: the nodes that the lowering of a node goes on to; a fetch skips some.
- `Tree.Zone`: the nodes that may be blamed, and those that the lowering of one of them goes on to.
- `Lowerer.Ends`: how the lowerings end that the lowering of a node goes on to; `Lowerer.Makes`: the
  same of functions and classes, for which `ends_functionObject` and `ends_classObject` do.
- `ends_expressionForm`, `ends_statementForm`: one case for each kind of node.
- `ends_expression`, `ends_condition`, `ends_sequence`: the lowering of a node.
-/

namespace CompilerBackend

open Lowering Target

/-- The nodes that the lowering of a statement goes on to. A fetch is lowered from three nodes
further down; those between have no code. -/
def Stmt.goesOn (t : Tree) : Stmt → List NodeId
  | .tryExcept tried handlers noRaise =>
    match fetch? t tried handlers noRaise with
    | some f => [f.iterator, f.branch, f.target]
    | none => tried :: handlers ++ noRaise.toList
  | st => st.children

def Tree.goesOn (t : Tree) (id : NodeId) : List NodeId :=
  match t.stmt? id with
  | some st => st.goesOn t
  | none => t.children id

/-- What a node hands on to its children holds of the nodes that its lowering goes on to. -/
theorem Tree.holds_goesOn {t : Tree} {P : NodeId → Prop} {id : NodeId}
    (hP : ∀ {n c}, P n → c ∈ t.children n → P c) (hid : ∀ c ∈ t.children id, P c) :
    ∀ c ∈ t.goesOn id, P c := by
  rw [Tree.goesOn]
  cases hst : t.stmt? id with
  | none => exact hid
  | some st =>
      rw [Tree.children, Tree.stmt?_eq_some_iff.mp hst] at hid
      cases st with
      | tryExcept tried handlers noRaise =>
          show ∀ c ∈ (Stmt.tryExcept tried handlers noRaise).goesOn t, P c
          rw [Stmt.goesOn]
          cases hfetch : fetch? t tried handlers noRaise with
          | none => exact hid
          | some f =>
              have htried : P tried := hid tried (by simp [NodeKind.children, Stmt.children])
              have hhandlers : ∀ c ∈ handlers, P c := fun c hc =>
                hid c (by simp [NodeKind.children, Stmt.children, hc])
              obtain ⟨hiterator, hbranch, htarget⟩ := fetch?_holds hP hfetch htried hhandlers
              simp only [List.forall_mem_cons]
              exact ⟨hiterator, hbranch, htarget, List.forall_mem_nil P⟩
      | _ => exact hid

/-- A part of a tree. The predicate allows stops that blame a node that `N` holds of, and `P` holds
of the nodes that the lowering of such a node goes on to. Statements within sequences do not belong
to the part. -/
structure Tree.Zone (t : Tree) (Q : Stop → Prop) (N P : NodeId → Prop) : Prop where
  below : ∀ {id}, P id → N id
  goesOn : ∀ {id c}, N id → t.sequence? id = none → c ∈ t.goesOn id → P c
  blames : ∀ {id}, N id → t.Blames Q id

namespace Tree.Zone

variable {t : Tree} {Q : Stop → Prop} {N P : NodeId → Prop} {id c : NodeId}

theorem expr_children (hz : t.Zone Q N P) (hid : N id) {e : Expr} (hkind : t.kind id = .expr e) :
    ∀ c ∈ e.children, P c := by
  intro c hc
  apply hz.goesOn hid
  · rw [sequence?, hkind]
    rfl
  · rw [Tree.goesOn, stmt?, hkind]
    show c ∈ t.children id
    rw [children, hkind]
    exact hc

theorem stmt_goesOn (hz : t.Zone Q N P) (hid : N id) {st : Stmt} (hkind : t.kind id = .stmt st) :
    ∀ c ∈ st.goesOn t, P c := by
  intro c hc
  apply hz.goesOn hid
  · rw [sequence?, hkind]
    rfl
  · rw [Tree.goesOn, stmt?, hkind]
    exact hc

theorem handler_children (hz : t.Zone Q N P) (hid : N id) {h : Handler}
    (hkind : t.kind id = .handler h) :
    ∀ c ∈ h.exceptionTypes ++ h.target.toList ++ h.branch.toList, P c := by
  intro c hc
  apply hz.goesOn hid
  · rw [sequence?, hkind]
    rfl
  · rw [Tree.goesOn, stmt?, hkind]
    show c ∈ t.children id
    rw [children, hkind]
    exact hc

end Tree.Zone

variable {R : Progress → Progress → Prop} [Progress.Closed R] {Q : Stop → Prop}
  {N P : NodeId → Prop}

/-- How the lowerings end that the lowering of a node goes on to, for nodes that `P` holds of. -/
structure Lowerer.Ends (R : Progress → Progress → Prop) (Q : Stop → Prop) (P : NodeId → Prop)
    (lowerer : Lowerer) : Prop where
  expression : ∀ {id}, P id → (lowerer.expression id).Ends R Q
  condition : ∀ {id}, P id → ∀ inverted, (lowerer.condition id inverted).Ends R Q
  sequence : ∀ {id}, P id → (lowerer.sequence id).Ends R Q

/-- How functions and classes end around what a lowering makes of their bodies. -/
structure Lowerer.Makes (R : Progress → Progress → Prop) (Q : Stop → Prop) (N P : NodeId → Prop)
    (s : Setting) (lowerer : Lowerer) : Prop where
  function : ∀ {id ids}, N id → (∀ c ∈ ids, P c) → (functionObject s lowerer id ids).Ends R Q
  classBody : ∀ {id ids}, N id → (∀ c ∈ ids, P c) → (classObject s lowerer id ids).Ends R Q

namespace Lowerer.Ends

variable {self : Lowerer} {o : Option NodeId} {ids : List NodeId}

theorem optional (h : self.Ends R Q P) (ho : ∀ c ∈ o, P c) : (self.optional o).Ends R Q := by
  cases o with
  | none => exact .pure _
  | some id => exact (h.expression (ho id rfl)).map _

theorem expressions (h : self.Ends R Q P) (hids : ∀ c ∈ ids, P c) :
    (self.expressions ids).Ends R Q := by
  induction ids with
  | nil => exact .pure _
  | cons id ids ih =>
      obtain ⟨hid, hids⟩ := List.forall_mem_cons.mp hids
      exact (h.expression hid).bind fun _ => (ih hids).map _

theorem optionalSequence (h : self.Ends R Q P) (ho : ∀ c ∈ o, P c) :
    (self.optionalSequence o).Ends R Q := by
  cases o with
  | none => exact .pure _
  | some id => exact (h.sequence (ho id rfl)).map _

/-- Two operands in order. -/
theorem binary {α : Type} {a b : NodeId} (h : self.Ends R Q P) (hc : ∀ c ∈ [a, b], P c)
    (make : Operand → Operand → α) :
    Lower.Ends R Q (do
      let x ← self.expression a
      let y ← self.expression b
      return make x y) := by
  simp only [List.forall_mem_cons] at hc
  obtain ⟨ha, hb, -⟩ := hc
  exact (h.expression ha).bind fun _ => (h.expression hb).map _

/-- Three operands in order, none of which need be there. -/
theorem optionals {α : Type} {a b c : Option NodeId} (h : self.Ends R Q P)
    (hc : ∀ n ∈ a.toList ++ b.toList ++ c.toList, P n)
    (make : Option Operand → Option Operand → Option Operand → α) :
    Lower.Ends R Q (do
      let x ← self.optional a
      let y ← self.optional b
      let z ← self.optional c
      return make x y z) := by
  simp only [List.forall_mem_append, Option.mem_toList] at hc
  obtain ⟨⟨ha, hb⟩, hc⟩ := hc
  exact (h.optional ha).bind fun _ => (h.optional hb).bind fun _ => (h.optional hc).map _

/-- An operand behind the name by which it is asked for something. -/
theorem named {α : Type} {a : NodeId} (h : self.Ends R Q P) (ha : P a) (name : Constant)
    (make : Operand → Operand → α) :
    Lower.Ends R Q (do
      let n ← Lower.intern (constantFromTable name)
      let x ← self.expression a
      return make n x) :=
  (Lower.Ends.constantFromTable name).bind fun _ => (h.expression ha).map _

end Lowerer.Ends

/-! ## Parts of expressions -/

section

variable {s : Setting} {t : Tree} {self : Lowerer} {id : NodeId} {ids : List NodeId}
  {o lower upper : Option NodeId} {pairs : List (NodeId × NodeId)}

theorem ends_boundVariable (hid : t.Blames Q id) : (boundVariable t id).Ends R Q := by
  unfold boundVariable
  split
  · exact .pure _
  · exact .pure _
  · exact .fail hid rfl
  · exact .fail hid rfl
  · exact .fail hid rfl

theorem ends_scopeOf (hid : t.Blames Q id) : (scopeOf t id).Ends R Q := by
  unfold scopeOf
  split
  · exact .pure _
  · exact .fail hid rfl

theorem ends_localsAt (hid : s.tree.Blames Q id) : (localsAt s id).Ends R Q :=
  (ends_scopeOf hid).bind fun _ => .intern (.localsDict _ _ _)

theorem ends_importLocals (hid : s.tree.Blames Q id) (globals : Operand) :
    (importLocals s id globals).Ends R Q :=
  (ends_scopeOf hid).bind fun _ => .ite (.pure _) (ends_localsAt hid)

theorem ends_container (h : self.Ends R Q P) {fold : List Constant → Constant}
    {build : List Operand → Interning Operand} (hbuild : ∀ os, Adds (build os))
    (hids : ∀ c ∈ ids, P c) : (container t self fold build ids).Ends R Q := by
  unfold container
  split
  · exact .constantFromTable _
  · exact (h.expressions hids).bind fun os => .intern (hbuild os)

theorem ends_tuple (h : self.Ends R Q P) (hids : ∀ c ∈ ids, P c) :
    (Lowering.tuple t self ids).Ends R Q := ends_container h Adds.tupleCreation hids

/-- The slots of keys, and those of values. -/
theorem forall_pairSlots (hpairs : ∀ c ∈ pairSlots pairs, P c) :
    (∀ c ∈ pairs.map (·.1), P c) ∧ ∀ c ∈ pairs.map (·.2), P c := by
  simp only [pairSlots, List.mem_flatMap, List.mem_cons, List.not_mem_nil, or_false,
    List.forall_mem_map] at hpairs ⊢
  exact ⟨fun d hd => hpairs d.1 ⟨d, hd, .inl rfl⟩, fun d hd => hpairs d.2 ⟨d, hd, .inr rfl⟩⟩

theorem ends_dict (h : self.Ends R Q P) (hpairs : ∀ c ∈ pairSlots pairs, P c) :
    (Lowering.dict t self pairs).Ends R Q := by
  obtain ⟨hkeys, hvalues⟩ := forall_pairSlots hpairs
  unfold Lowering.dict
  dsimp only
  split
  · exact .constantFromTable _
  · exact (h.expressions hkeys).bind fun ks => (h.expressions hvalues).bind fun vs =>
      .intern (.dictCreation ks vs)

theorem ends_positionalTuple (h : self.Ends R Q P) (hids : ∀ c ∈ ids, P c) :
    (positionalTuple t self ids).Ends R Q :=
  .ite (.pure _) ((ends_tuple h hids).map _)

theorem ends_namedArguments (h : self.Ends R Q P) (hpairs : ∀ c ∈ pairSlots pairs, P c) :
    (namedArguments t self pairs).Ends R Q :=
  .ite (.pure _) ((ends_dict h hpairs).map _)

theorem ends_orConstant (h : self.Ends R Q P) (ho : ∀ c ∈ o, P c) (c : Constant) :
    (orConstant self o c).Ends R Q := by
  cases o with
  | none => exact .constantFromTable c
  | some id => exact h.expression (ho id rfl)

omit [Progress.Closed R] in
theorem ends_orLowered (h : self.Ends R Q P) (ho : ∀ c ∈ o, P c) {absent : Lower Operand}
    (habsent : absent.Ends R Q) : (orLowered self o absent).Ends R Q := by
  cases o with
  | none => exact habsent
  | some id => exact h.expression (ho id rfl)

theorem ends_evalParts (h : self.Ends R Q P) (mode : EvalMode) {source : NodeId}
    {globals locals : Option NodeId}
    (hc : ∀ c ∈ source :: globals.toList ++ locals.toList, P c) :
    (evalParts t self id mode source globals locals).Ends R Q := by
  simp only [List.forall_mem_append, List.forall_mem_cons, Option.mem_toList] at hc
  obtain ⟨⟨hsource, hglobals⟩, hlocals⟩ := hc
  exact (ends_orConstant h hglobals _).bind fun _ => (ends_orConstant h hlocals _).bind fun _ =>
    (Lower.Ends.constantFromTable _).bind fun _ => (Lower.Ends.constantFromTable _).bind fun _ =>
      (h.expression hsource).map _

theorem ends_conditions (h : self.Ends R Q P) (hids : ∀ c ∈ ids, P c) :
    (conditions self ids).Ends R Q := by
  induction ids with
  | nil => exact .pure _
  | cons id ids ih =>
      obtain ⟨hid, hids⟩ := List.forall_mem_cons.mp hids
      exact (h.condition hid false).bind fun _ => (ih hids).map _

/-! ## Slices -/

theorem ends_bound (h : self.Ends R Q P) (ho : ∀ c ∈ o, P c) (absent : String) :
    (bound t self o absent).Ends R Q := by
  unfold bound
  split
  · exact .pure _
  next id =>
    split
    · exact .pure _
    · exact (h.expression (ho id rfl)).map _

theorem ends_bounds (h : self.Ends R Q P) (hl : ∀ c ∈ lower, P c) (hu : ∀ c ∈ upper, P c) :
    (bounds t self lower upper).Ends R Q :=
  (ends_bound h hl _).bind fun _ => (ends_bound h hu _).map _

theorem ends_boundObjects (h : self.Ends R Q P) (hl : ∀ c ∈ lower, P c) (hu : ∀ c ∈ upper, P c) :
    (boundObjects self lower upper).Ends R Q :=
  (h.optional hl).bind fun _ => (h.optional hu).map _

theorem ends_sliceObject (h : self.Ends R Q P) (hl : ∀ c ∈ lower, P c) (hu : ∀ c ∈ upper, P c) :
    (Lowering.sliceObject self lower upper).Ends R Q :=
  (ends_boundObjects h hl hu).map _

theorem ends_sliceLookup (h : self.Ends R Q P) (hid : P id) (hl : ∀ c ∈ lower, P c)
    (hu : ∀ c ∈ upper, P c) : (Lowering.sliceLookup s self id lower upper).Ends R Q :=
  (h.expression hid).bind fun _ => .ite ((ends_bounds h hl hu).map _)
    (.ite ((ends_boundObjects h hl hu).map _) ((ends_sliceObject h hl hu).map _))

theorem ends_sliceAssignment (h : self.Ends R Q P) (hid : P id) (hl : ∀ c ∈ lower, P c)
    (hu : ∀ c ∈ upper, P c) (value : Operand) :
    (Lowering.sliceAssignment s self id lower upper value).Ends R Q :=
  (h.expression hid).bind fun _ => .ite ((ends_bounds h hl hu).map _)
    (.ite ((ends_boundObjects h hl hu).map _) ((ends_sliceObject h hl hu).map _))

theorem ends_sliceDeletion (h : self.Ends R Q P) (hid : P id) (hl : ∀ c ∈ lower, P c)
    (hu : ∀ c ∈ upper, P c) : (Lowering.sliceDeletion s self id lower upper).Ends R Q :=
  (h.expression hid).bind fun _ => .ite ((ends_bounds h hl hu).map _)
    ((ends_sliceObject h hl hu).map _)

theorem ends_defaultValues (h : self.Ends R Q P) {defaults : List (NodeId × Variable)}
    (hd : ∀ d ∈ defaults, P d.1) : (defaultValues t self defaults).Ends R Q := by
  induction defaults with
  | nil => exact .pure _
  | cons d defaults ih =>
      obtain ⟨hd, hdefaults⟩ := List.forall_mem_cons.mp hd
      rw [defaultValues]
      split
      · exact (Lower.Ends.intern (.constantAccess _)).bind fun _ => (ih hdefaults).map _
      · exact (h.expression hd).bind fun _ => (ih hdefaults).map _

/-! ## Functions and classes -/

/-- Of what a function does to the scopes around it, only the relation is asked. -/
theorem ends_functionObject (hz : s.tree.Zone Q N P) (h : self.Ends R Q P) (hid : N id)
    (hids : ∀ c ∈ ids, P c) (hadd : ∀ codeName definition,
      (Lower.onScopes fun scopes => ((), scopes.addFunction codeName definition)).Keeps R) :
    (functionObject s self id ids).Ends R Q := by
  unfold functionObject
  split
  next f hf =>
    have hbody := hz.expr_children hid (Tree.expr?_eq_some_iff.mp hf)
    refine Lower.Ends.ite (.fail_bind (hz.blames hid) rfl _) ?_
    refine (ends_defaultValues h fun d hd => hids d.1 (List.of_mem_zip hd).1).bind fun values => ?_
    refine ((h.optionalSequence fun c hc => ?_).inScope _).bind fun codes => ?_
    · exact hbody c (Option.mem_toList.mpr hc)
    · refine (Lower.Ends.intern (.functionCode _ _ _ _ _)).bind fun code => ?_
      exact (Lower.Ends.onScopes (hadd _ _)).map _
  next => exact .fail (hz.blames hid) rfl

theorem ends_classObject (hz : s.tree.Zone Q N P) (h : self.Ends R Q P) (hid : N id)
    (hids : ∀ c ∈ ids, P c) (hadd : ∀ codeName definition,
      (Lower.onScopes fun scopes => ((), scopes.addClass codeName definition)).Keeps R) :
    (classObject s self id ids).Ends R Q := by
  unfold classObject
  split
  next body hbody =>
    have hc := hz.expr_children hid (Tree.expr?_eq_some_iff.mp hbody)
    refine (ends_tuple h hids).bind fun bases => ?_
    refine ((h.optionalSequence fun c hmem => ?_).inScope _).bind fun codes => ?_
    · exact hc c (Option.mem_toList.mpr hmem)
    · refine (Lower.Ends.intern (Adds.handleOfText body.name).map).bind fun creation => ?_
      refine (Lower.Ends.intern (.classCode _ _ _ _)).bind fun code => ?_
      exact (Lower.Ends.onScopes (hadd _ _)).map _
  next => exact .fail (hz.blames hid) rfl

/-! ## Expressions -/

theorem ends_expressionForm (hz : s.tree.Zone Q N P) (h : self.Ends R Q P)
    (hmakes : self.Makes R Q N P s) (hid : N id) {e : Expr} (hc : ∀ c ∈ e.children, P c) :
    (expressionForm s self id e).Ends R Q := by
  cases e with
  | variableRef name binding => exact (ends_boundVariable (hz.blames hid)).map _
  | temporaryRef binding => exact (ends_boundVariable (hz.blames hid)).map _
  | constant value => exact .intern (.constantAccess value)
  | operation operator operands => exact (h.expressions hc).map _
  | disjunction operands => exact (h.expressions hc).map _
  | conjunction operands => exact (h.expressions hc).map _
  | comparison comparator left right => exact h.binary hc _
  | conditional condition yes no =>
      simp only [Expr.children, List.forall_mem_cons] at hc
      obtain ⟨hcondition, hyes, hno, -⟩ := hc
      refine (h.condition hcondition false).bind fun test => ?_
      exact (h.expression hyes).bind fun _ => (h.expression hno).map _
  | makeTuple elements => exact ends_tuple h hc
  | makeList elements => exact ends_container h Adds.listCreation hc
  | makeSet elements => exact ends_container h (fun _ => Adds.pure _) hc
  | makeDict pairs => exact ends_dict h hc
  | call callee positional named starList starDict =>
      simp only [Expr.children, List.forall_mem_append, List.forall_mem_cons,
        Option.mem_toList] at hc
      obtain ⟨⟨⟨⟨hcallee, hpositional⟩, hnamed⟩, hlist⟩, hdict⟩ := hc
      rw [expressionForm_call]
      refine (h.expression hcallee).bind fun f => ?_
      refine (ends_positionalTuple h hpositional).bind fun arguments => ?_
      refine (ends_namedArguments h hnamed).bind fun names => ?_
      exact (h.optional hlist).bind fun _ => (h.optional hdict).map _
  | attributeOf source name => exact h.named (hc source List.mem_cons_self) _ _
  | specialAttributeOf source name => exact h.named (hc source List.mem_cons_self) _ _
  | subscript source index => exact h.binary hc _
  | slice source lower upper =>
      simp only [Expr.children, List.cons_append, List.forall_mem_cons, List.forall_mem_append,
        Option.mem_toList] at hc
      obtain ⟨hsource, hlower, hupper⟩ := hc
      exact ends_sliceLookup h hsource hlower hupper
  | sliceObject lower upper step => exact h.optionals hc _
  | function f => exact hmakes.function hid (List.forall_mem_nil _)
  | functionDefaulted definition defaults =>
      have hdefinition : N definition := hz.below (hc definition (by simp [Expr.children]))
      exact hmakes.function hdefinition fun c hmem => hc c (List.mem_append_left _ hmem)
  | classBody c => exact hmakes.classBody hid (List.forall_mem_nil _)
  | classBased classNode bases =>
      have hclass : N classNode := hz.below (hc classNode (by simp [Expr.children]))
      exact hmakes.classBody hclass fun c hmem => hc c (List.mem_append_left _ hmem)
  | yield value forReturn => exact (h.expression (hc value List.mem_cons_self)).map _
  | importModule name names level =>
      refine (ends_importLocals (hz.blames hid) _).bind fun locals => ?_
      refine (Lower.Ends.constantFromTable _).bind fun name => ?_
      refine (Lower.Ends.constantFromTable _).bind fun names => ?_
      exact (Lower.Ends.constantFromTable _).map _
  | builtinImport name fromList inGlobals inLocals level =>
      simp only [Expr.children, List.forall_mem_append, List.forall_mem_cons,
        Option.mem_toList] at hc
      obtain ⟨⟨⟨⟨hname, hfromList⟩, hglobals⟩, hlocals⟩, hlevel⟩ := hc
      rw [expressionForm_builtinImport]
      refine (ends_orLowered h hglobals (.pure _)).bind fun globals => ?_
      have habsent := ends_importLocals (R := R) (hz.blames hid) globals
      refine (ends_orLowered h hlocals habsent).bind fun locals => ?_
      refine (h.expression hname).bind fun name => ?_
      exact (ends_orConstant h hfromList _).bind fun _ => (ends_orConstant h hlevel _).map _
  | importName source name => exact h.named (hc source List.mem_cons_self) _ _
  | range low high step =>
      simp only [Expr.children, List.forall_mem_append, List.forall_mem_cons,
        Option.mem_toList] at hc
      obtain ⟨⟨hlow, hhigh⟩, hstep⟩ := hc
      refine (h.expression hlow).bind fun low => ?_
      exact (h.optional hhigh).bind fun _ => (h.optional hstep).map _
  | globals => exact .pure _
  | locals => exact ends_localsAt (hz.blames hid)
  | dir =>
      exact (ends_scopeOf (hz.blames hid)).bind fun _ => .intern (Adds.localsDict _ _ _).map
  | unaryBuiltin fn value => exact (h.expression (hc value List.mem_cons_self)).map _
  | iterWithSentinel callable sentinel => exact h.binary hc _
  | nextWithDefault iterator default => exact h.binary hc _
  | typeOfThree name bases namespaceDict =>
      simp only [Expr.children, List.forall_mem_cons] at hc
      obtain ⟨hname, hbases, hnamespace, -⟩ := hc
      refine (h.expression hname).bind fun n => (h.expression hbases).bind fun b => ?_
      exact (h.expression hnamespace).bind fun d => .intern (Adds.handleOfText _).map
  | integer kind value base =>
      simp only [Expr.children, List.forall_mem_append, Option.mem_toList] at hc
      obtain ⟨hvalue, hbase⟩ := hc
      refine Lower.Ends.ite (.fail_bind (hz.blames hid) rfl _) ?_
      exact (h.optional hvalue).bind fun _ => (h.optional hbase).map _
  | dict positional named =>
      simp only [Expr.children, List.forall_mem_append, Option.mem_toList] at hc
      obtain ⟨hpositional, hnamed⟩ := hc
      exact (h.optional hpositional).bind fun _ => (ends_namedArguments h hnamed).map _
  | openFile filename mode buffering => exact h.optionals hc _
  | eval mode source inGlobals inLocals => exact (ends_evalParts h mode hc).map _
  | raise exceptionType value sideEffects =>
      simp only [Expr.children, List.forall_mem_append, List.forall_mem_cons,
        Option.mem_toList] at hc
      obtain ⟨heffects, htype, hvalue⟩ := hc
      refine (h.expressions heffects).bind fun effects => ?_
      exact (h.expression htype).bind fun _ => (h.optional hvalue).map _
  | makeException name arguments =>
      exact (h.expressions hc).bind fun os => .intern (.exceptionCreation name os)
  | builtin name =>
      show (Lower.intern (builtinReference name)).Ends R Q
      exact .intern (Adds.handleOfText name).map
  | anonymousBuiltin name => exact .pure _
  | exception name => exact .pure _
  | assignment target source =>
      simp only [Expr.children, List.forall_mem_cons] at hc
      obtain ⟨hsource, htarget, -⟩ := hc
      have hblames : s.tree.Blames Q target := hz.blames (hz.below htarget)
      exact (h.expression hsource).bind fun _ => (ends_boundVariable hblames).map _
  | caught part => exact .pure _
  | listAppend list value => exact h.binary hc _
  | setAdd set value => exact h.binary hc _
  | dictSet target key value =>
      simp only [Expr.children, List.forall_mem_cons] at hc
      obtain ⟨htarget, hvalue, hkey, -⟩ := hc
      refine (h.expression htarget).bind fun t => (h.expression hvalue).bind fun v => ?_
      exact (h.expression hkey).map _
  | unpackNext iterator count => exact (h.expression (hc iterator List.mem_cons_self)).map _

theorem ends_expression (hz : s.tree.Zone Q N P) (h : self.Ends R Q P)
    (hmakes : self.Makes R Q N P s) (hid : N id) : (Lowering.expression s self id).Ends R Q := by
  unfold Lowering.expression
  split
  · exact .fail (hz.blames hid) rfl
  next e he =>
    have hc := hz.expr_children hid (Tree.expr?_eq_some_iff.mp he)
    refine (ends_expressionForm hz h hmakes hid hc).bind fun o => ?_
    split
    next cause hdefect => exact .fail (hz.blames hid) (Operand.isBlankLine_of_defect? hdefect)
    next => exact .pure o

theorem ends_condition (hz : t.Zone Q N P) (h : self.Ends R Q P) (hid : N id)
    (hself : (self.expression id).Ends R Q) (inverted : Bool) :
    (Lowering.condition t self id inverted).Ends R Q := by
  unfold Lowering.condition
  split
  next hkind => exact .pure _
  next comparator left right hkind =>
    exact h.binary (hz.expr_children hid hkind) _
  next operands hkind => exact (ends_conditions h (hz.expr_children hid hkind)).map _
  next operands hkind => exact (ends_conditions h (hz.expr_children hid hkind)).map _
  next operand hkind =>
    have hc := hz.expr_children hid hkind
    exact h.condition (hc operand (by simp [Expr.children])) _
  next => exact hself.map _

/-! ## Statements -/

theorem ends_raising (h : self.Ends R Q P) {exceptionType value traceback : Option NodeId}
    (hc : ∀ c ∈ exceptionType.toList ++ value.toList ++ traceback.toList, P c) :
    (raising s self id exceptionType value traceback).Ends R Q := by
  simp only [List.forall_mem_append, Option.mem_toList] at hc
  obtain ⟨⟨htype, hvalue⟩, htraceback⟩ := hc
  unfold raising
  split
  · exact .pure _
  next typeNode =>
    refine (h.expression (htype typeNode rfl)).bind fun type => (h.optional hvalue).bind fun v => ?_
    refine Lower.Ends.ite ((h.optional htraceback).bind fun tb => ?_)
      ((Lower.Ends.pure _).bind fun tb => ?_)
    all_goals cases tb <;> exact .pure _

theorem ends_fetching (h : self.Ends R Q P) {f : Fetch} (hiterator : P f.iterator)
    (hbranch : P f.branch) (htarget : s.tree.Blames Q f.target) : (fetching s self f).Ends R Q :=
  Lower.Ends.takeLoopNumber.bind fun _ => (h.expression hiterator).bind fun _ =>
    (h.sequence hbranch).bind fun _ => (ends_boundVariable htarget).map _

theorem ends_handlerBinding {target : Option NodeId} (ho : ∀ c ∈ target, s.tree.Blames Q c) :
    (handlerBinding s target).Ends R Q := by
  cases target with
  | none => exact .pure _
  | some id => exact (ends_boundVariable (ho id rfl)).map _

section

variable (hz : s.tree.Zone Q N P)
include hz

theorem ends_handlerChain (h : self.Ends R Q P) (first : Bool) (hids : ∀ c ∈ ids, P c) :
    (handlerChain s self first ids).Ends R Q := by
  induction ids generalizing first with
  | nil => exact .pure _
  | cons id ids ih =>
      obtain ⟨hid, hids⟩ := List.forall_mem_cons.mp hids
      rw [handlerChain]
      split
      · exact .fail (hz.blames (hz.below hid)) rfl
      next handler hhandler =>
        have hc := hz.handler_children (hz.below hid) (Tree.handler?_eq_some_iff.mp hhandler)
        simp only [List.forall_mem_append, Option.mem_toList] at hc
        obtain ⟨⟨htypes, htarget⟩, hbranch⟩ := hc
        refine (h.expressions htypes).bind fun _ => ?_
        refine (ends_handlerBinding fun c hmem => hz.blames (hz.below (htarget c hmem))).bind ?_
        exact fun _ => (h.optionalSequence hbranch).bind fun _ => (ih false hids).map _

theorem ends_catching (h : self.Ends R Q P) {tried : NodeId} {noRaise : Option NodeId}
    (hc : ∀ c ∈ (Stmt.tryExcept tried ids noRaise).goesOn s.tree, P c) :
    (Lowering.catching s self tried ids noRaise).Ends R Q := by
  rw [Stmt.goesOn] at hc
  unfold Lowering.catching
  cases hfetch : fetch? s.tree tried ids noRaise with
  | some f =>
      simp only [hfetch, List.forall_mem_cons] at hc
      obtain ⟨hiterator, hbranch, htarget, -⟩ := hc
      exact ends_fetching h hiterator hbranch (hz.blames (hz.below htarget))
  | none =>
      simp only [hfetch, List.forall_mem_append, List.forall_mem_cons, Option.mem_toList] at hc
      obtain ⟨⟨htried, hhandlers⟩, hnoRaise⟩ := hc
      exact Lower.Ends.takeTryNumber.bind fun _ => (h.sequence htried).bind fun _ =>
        (ends_handlerChain hz h true hhandlers).bind fun _ => (h.optionalSequence hnoRaise).map _

theorem ends_statementForm (h : self.Ends R Q P) {st : Stmt} (hc : ∀ c ∈ st.goesOn s.tree, P c) :
    (statementForm s self id st).Ends R Q := by
  cases st with
  | assign target source =>
      simp only [Stmt.goesOn, Stmt.children, List.forall_mem_cons] at hc
      obtain ⟨hsource, htarget, -⟩ := hc
      have hblames : s.tree.Blames Q target := hz.blames (hz.below htarget)
      exact (h.expression hsource).bind fun _ => (ends_boundVariable hblames).map _
  | assignAttribute source name value =>
      simp only [Stmt.goesOn, Stmt.children, List.forall_mem_cons] at hc
      obtain ⟨hvalue, hsource, -⟩ := hc
      refine (h.expression hvalue).bind fun v => (h.expression hsource).bind fun o => ?_
      exact (Lower.Ends.constantFromTable _).map _
  | assignSubscript subscribed subscript value =>
      simp only [Stmt.goesOn, Stmt.children, List.forall_mem_cons] at hc
      obtain ⟨hvalue, hsubscribed, hsubscript, -⟩ := hc
      refine (h.expression hvalue).bind fun v => (h.expression hsubscribed).bind fun o => ?_
      exact (h.expression hsubscript).map _
  | assignSlice source lower upper value =>
      simp only [Stmt.goesOn, Stmt.children, List.cons_append, List.forall_mem_cons,
        List.forall_mem_append, Option.mem_toList] at hc
      obtain ⟨hvalue, hsource, hlower, hupper⟩ := hc
      exact (h.expression hvalue).bind fun v => ends_sliceAssignment h hsource hlower hupper v
  | delete target =>
      have htarget : P target := hc target List.mem_cons_self
      exact (ends_boundVariable (hz.blames (hz.below htarget))).map _
  | deleteAttribute source name =>
      refine (h.expression (hc source List.mem_cons_self)).bind fun o => ?_
      exact (Lower.Ends.constantFromTable _).map _
  | deleteSubscript subscribed subscript => exact h.binary hc _
  | deleteSlice source lower upper =>
      simp only [Stmt.goesOn, Stmt.children, List.cons_append, List.forall_mem_cons,
        List.forall_mem_append, Option.mem_toList] at hc
      obtain ⟨hsource, hlower, hupper⟩ := hc
      exact ends_sliceDeletion h hsource hlower hupper
  | block body => exact (h.sequence (hc body List.mem_cons_self)).map _
  | expression value => exact (h.expression (hc value List.mem_cons_self)).map _
  | print destination values newline =>
      simp only [Stmt.goesOn, Stmt.children, List.forall_mem_append, Option.mem_toList] at hc
      obtain ⟨hdestination, hvalues⟩ := hc
      exact (h.optional hdestination).bind fun _ => (h.expressions hvalues).map _
  | returnValue value => exact .ite (.pure _) ((h.expression (hc value List.mem_cons_self)).map _)
  | loop body unwinds =>
      simp only [Stmt.goesOn, Stmt.children, Option.mem_toList] at hc
      exact (h.optionalSequence hc).map _
  | conditional condition yes no =>
      simp only [Stmt.goesOn, Stmt.children, List.cons_append, List.forall_mem_cons,
        List.forall_mem_append, Option.mem_toList] at hc
      obtain ⟨hcondition, hyes, hno⟩ := hc
      refine (h.condition hcondition false).bind fun test => ?_
      exact (h.optionalSequence hyes).bind fun _ => (h.optionalSequence hno).map _
  | continueLoop unwinds => exact .pure _
  | breakLoop unwinds => exact .pure _
  | importStar source => exact (h.expression (hc source List.mem_cons_self)).map _
  | tryFinally tried final =>
      simp only [Stmt.goesOn, Stmt.children, List.forall_mem_cons] at hc
      obtain ⟨htried, hfinal, -⟩ := hc
      refine Lower.Ends.takeTryNumber.bind fun n => ?_
      exact (h.sequence htried).bind fun _ => (h.sequence hfinal).map _
  | tryExcept tried handlers noRaise => exact ends_catching hz h hc
  | raise exceptionType value traceback => exact ends_raising h hc
  | exec source inGlobals inLocals => exact (ends_evalParts h .exec hc).map _
  | execInline body =>
      have hbody : P body := hc body List.mem_cons_self
      exact ((h.sequence hbody).inScope .inline).map _
  | unpackCheck iterator count => exact (h.expression (hc iterator List.mem_cons_self)).map _
  | declareGlobal names => exact .pure _

theorem ends_statement (h : self.Ends R Q P) (hid : N id) :
    (Lowering.statement s self id).Ends R Q := by
  unfold Lowering.statement
  split
  · exact .fail (hz.blames hid) rfl
  next st hst =>
    have hc := hz.stmt_goesOn hid (Tree.stmt?_eq_some_iff.mp hst)
    refine (ends_statementForm hz h hc).bind fun code => ?_
    by_cases hmargin : Text.hasNoMargin code = true
    · rw [if_pos hmargin]
      exact .pure code
    · rw [if_neg hmargin]
      exact .fail (hz.blames hid) (Bool.eq_false_iff.mpr hmargin)

end

/-! ## Sequences -/

/-- The code that a statement yields has no blank margin. -/
theorem hasNoMargin_of_yields {code : String} (h : Yields (Lowering.statement s self id) code) :
    Text.hasNoMargin code = true := by
  unfold Lowering.statement at h
  split at h
  next => exact absurd h not_yields_fail
  next st hst =>
      obtain ⟨code', -, h⟩ := h.of_bind
      split at h
      next hmargin =>
          rw [yields_pure_iff.mp h]
          exact hmargin
      next => exact absurd h not_yields_fail

/-- What may be said of a statement of a sequence: its stops, once they have left it, and those
that blame it for a blank line, which do not leave it. -/
structure Lowerer.EndsWithin (R : Progress → Progress → Prop) (Q : Stop → Prop) (s : Setting)
    (lowerer : Lowerer) (c : NodeId) : Prop where
  statement : (Lowering.statement s lowerer c).Ends R fun stop =>
    Q (stop.leaving ⟨(s.tree.kind c).kindName, s.tree.location c⟩)
  blankLine : ∀ cause : Cause, cause.isBlankLine = true →
    Q (.failed ⟨cause, s.tree.location c, some (s.tree.dump c)⟩ [])

theorem ends_statementLines (last : Option Location)
    (hids : ∀ c ∈ ids, self.EndsWithin R Q s c) : (statementLines s self last ids).Ends R Q := by
  induction ids generalizing last with
  | nil => exact .pure _
  | cons id ids ih =>
      obtain ⟨hid, hids⟩ := List.forall_mem_cons.mp hids
      rw [statementLines]
      refine (hid.statement.within fun _ hstop => hstop).bind_yields fun code hcode => ?_
      have hmargin := hasNoMargin_of_yields hcode.of_within
      refine .ite ((ih last hids).map _) (.ite ?_ ((ih _ hids).map _))
      exact .throws_bind (hid.blankLine (.malformedCode code) hmargin) _

theorem ends_sequence (hfail : s.tree.Blames Q id) (hids : ∀ {ids}, s.tree.sequence? id = some ids →
    ∀ c ∈ ids, self.EndsWithin R Q s c) : (Lowering.sequence s self id).Ends R Q := by
  unfold Lowering.sequence
  split
  · exact .fail hfail rfl
  next statements hstatements => exact ends_statementLines none (hids hstatements)

end
end CompilerBackend
