import CompilerBackend.Lowering.ModuleText
import CompilerBackend.Proofs.Lowering.Fetching
import CompilerBackend.Proofs.Lowering.Renamed
import CompilerBackend.Proofs.Raise.Origin
import CompilerBackend.Proofs.Tree.Agreement
/-!
# Lowerings over trees that agree

The lowering of a node reads what is below the node and what encloses it. So it is the same over
two trees that agree there, stops and their dumps included, and it does not matter how many levels
it is given, if they reach the leaves.

- `Lowerer.Agrees`: what is assumed of the lowerings of children.
- `expressionForm_agree`, `statementForm_agree`: one case for each kind of node.
- `ofDepth_agree`: one induction on the levels below a node.
-/

namespace CompilerBackend

open Target

/-- Two lowerings that are the same for nodes with so many levels below them. -/
structure Lowerer.Agrees (s : Setting) (t' : Tree) (k : Nat) (lowerer' lowerer : Lowerer) :
    Prop where
  depth : k < s.tree.depthBound
  depth' : k < t'.depthBound
  expression : ∀ {c}, s.tree.Agree t' k c → lowerer'.expression c = lowerer.expression c
  condition : ∀ {c} (inverted : Bool), s.tree.Agree t' k c →
    lowerer'.condition c inverted = lowerer.condition c inverted
  sequence : ∀ {c}, s.tree.Agree t' k c → lowerer'.sequence c = lowerer.sequence c

namespace Lowering

/-! ## What is read off the trees -/

section

variable {t t' : Tree} {k : Nat} {id : NodeId} {α β : Type} {ids : List NodeId}

theorem fail_agree (hid : t.Agree t' k id) (hk : k ≤ t.depthBound) (hk' : k ≤ t'.depthBound)
    (cause : Cause) : (Lower.fail t' id cause : Lower α) = Lower.fail t id cause := by
  rw [Lower.fail, Lower.fail, hid.same.location_eq, hid.dump_eq hk hk']

theorem immutableConstants?_agree (hids : t.AllAgree t' k ids) :
    immutableConstants? t' ids = immutableConstants? t ids := by
  have hmap := Tree.immutableConstants?_map (f := fun d => d) fun d hd =>
    (hids d hd).same.constant?_eq
  rwa [List.map_id'] at hmap

variable (hid : t.Agree t' k id) (hk : k ≤ t.depthBound) (hk' : k ≤ t'.depthBound)
include hid hk hk'

theorem boundVariable_agree : boundVariable t' id = boundVariable t id := by
  unfold boundVariable
  rw [hid.same.expr?_eq, hid.same.kind_eq]
  cases t.expr? id with
  | none => exact fail_agree hid hk hk' _
  | some e =>
      cases e with
      | variableRef name binding =>
          cases binding with
          | none => exact fail_agree hid hk hk' _
          | some v => rfl
      | temporaryRef binding => rfl
      | _ => exact fail_agree hid hk hk' _

/-- What does not depend on the body of a scope is the same. -/
theorem scopeOf_agree {f : Provider → Lower β} (hf : ∀ p, f p.bare = f p) :
    scopeOf t' id >>= f = scopeOf t id >>= f := by
  -- what encloses the node is the same up to bodies, so both trees have a scope here or neither has
  have hscope := Tree.scope?_congr hid.same.enclosing_eq hf
  unfold scopeOf
  cases hp : t.scope? id with
  | none =>
      cases hp' : t'.scope? id with
      | none => rw [hid.same.kind_eq, fail_agree hid hk hk']
      | some p' =>
          rw [hp, hp'] at hscope
          exact nomatch hscope
  | some p =>
      cases hp' : t'.scope? id with
      | none =>
          rw [hp, hp'] at hscope
          exact nomatch hscope
      | some p' =>
          rw [hp, hp'] at hscope
          exact Option.some.inj hscope

end

/-! ## Children -/

section

variable {s : Setting} {t' : Tree} {k : Nat} {self' self : Lowerer} {id : NodeId}
  {ids : List NodeId} {o : Option NodeId} {pairs : List (NodeId × NodeId)}
  {lower upper : Option NodeId} {e : Expr} {st : Stmt} (h : self'.Agrees s t' k self)
include h

theorem expressions_agree (hids : s.tree.AllAgree t' k ids) :
    self'.expressions ids = self.expressions ids := by
  induction ids with
  | nil => rfl
  | cons id ids ih =>
      obtain ⟨hid, hids⟩ := Tree.allAgree_cons.mp hids
      rw [Lowerer.expressions, Lowerer.expressions, h.expression hid, ih hids]

theorem optional_agree (ho : s.tree.AllAgree t' k o.toList) : self'.optional o = self.optional o := by
  cases o with
  | none => rfl
  | some id => rw [Lowerer.optional, Lowerer.optional, h.expression (Tree.allAgree_some.mp ho)]

theorem optionalSequence_agree (ho : s.tree.AllAgree t' k o.toList) :
    self'.optionalSequence o = self.optionalSequence o := by
  cases o with
  | none => rfl
  | some id =>
      rw [Lowerer.optionalSequence, Lowerer.optionalSequence, h.sequence (Tree.allAgree_some.mp ho)]

theorem conditions_agree (hids : s.tree.AllAgree t' k ids) :
    conditions self' ids = conditions self ids := by
  induction ids with
  | nil => rfl
  | cons id ids ih =>
      obtain ⟨hid, hids⟩ := Tree.allAgree_cons.mp hids
      rw [conditions, conditions, h.condition false hid, ih hids]

theorem orConstant_agree (ho : s.tree.AllAgree t' k o.toList) (c : Constant) :
    orConstant self' o c = orConstant self o c := by
  cases o with
  | none => rfl
  | some id => exact h.expression (Tree.allAgree_some.mp ho)

theorem orLowered_agree (ho : s.tree.AllAgree t' k o.toList) (absent : Lower Operand) :
    orLowered self' o absent = orLowered self o absent := by
  cases o with
  | none => rfl
  | some id => exact h.expression (Tree.allAgree_some.mp ho)

/-- A child can be read in both trees as well as lowered. -/
theorem boundVariable_child (hid : s.tree.Agree t' k id) :
    boundVariable t' id = boundVariable s.tree id :=
  boundVariable_agree hid h.depth.le h.depth'.le

/-! ## Containers and slices -/

theorem container_agree (hids : s.tree.AllAgree t' k ids) (fold : List Constant → Constant)
    (build : List Operand → Interning Operand) :
    container t' self' fold build ids = container s.tree self fold build ids := by
  rw [container, container, immutableConstants?_agree hids, expressions_agree h hids]

theorem tuple_agree (hids : s.tree.AllAgree t' k ids) :
    tuple t' self' ids = tuple s.tree self ids := container_agree h hids _ _

theorem dict_agree (hpairs : s.tree.AllAgree t' k (pairSlots pairs)) :
    dict t' self' pairs = dict s.tree self pairs := by
  have hkeys : s.tree.AllAgree t' k (pairs.map (·.1)) := fun c hc => by
    obtain ⟨p, hp, rfl⟩ := List.mem_map.mp hc
    exact hpairs p.1 (List.mem_flatMap.mpr ⟨p, hp, by simp⟩)
  have hvalues : s.tree.AllAgree t' k (pairs.map (·.2)) := fun c hc => by
    obtain ⟨p, hp, rfl⟩ := List.mem_map.mp hc
    exact hpairs p.2 (List.mem_flatMap.mpr ⟨p, hp, by simp⟩)
  rw [dict, dict, immutableConstants?_agree hkeys, immutableConstants?_agree hvalues,
    expressions_agree h hkeys, expressions_agree h hvalues]

theorem namedArguments_agree (hpairs : s.tree.AllAgree t' k (pairSlots pairs)) :
    namedArguments t' self' pairs = namedArguments s.tree self pairs := by
  rw [namedArguments, namedArguments, dict_agree h hpairs]

theorem bound_agree (ho : s.tree.AllAgree t' k o.toList) (absent : String) :
    bound t' self' o absent = bound s.tree self o absent := by
  cases o with
  | none => rfl
  | some id =>
      have hid := Tree.allAgree_some.mp ho
      rw [bound, bound, hid.same.constant?_eq, h.expression hid]

theorem bounds_agree (hl : s.tree.AllAgree t' k lower.toList)
    (hu : s.tree.AllAgree t' k upper.toList) :
    bounds t' self' lower upper = bounds s.tree self lower upper := by
  rw [bounds, bounds, bound_agree h hl, bound_agree h hu]

theorem boundObjects_agree (hl : s.tree.AllAgree t' k lower.toList)
    (hu : s.tree.AllAgree t' k upper.toList) :
    boundObjects self' lower upper = boundObjects self lower upper := by
  rw [boundObjects, boundObjects, optional_agree h hl, optional_agree h hu]

omit h in
theorem hasNativeBounds_agree (hl : s.tree.AllAgree t' k lower.toList)
    (hu : s.tree.AllAgree t' k upper.toList) :
    hasNativeBounds { s with tree := t' } lower upper = hasNativeBounds s lower upper := by
  have hbound : ∀ o : Option NodeId, s.tree.AllAgree t' k o.toList →
      isNativeBound t' o = isNativeBound s.tree o := by
    intro o ho
    cases o with
    | none => rfl
    | some id => exact (Tree.allAgree_some.mp ho).same.isIndexable_eq
  rw [hasNativeBounds, hasNativeBounds, hbound lower hl, hbound upper hu]

theorem sliceLookup_agree (hid : s.tree.Agree t' k id) (hl : s.tree.AllAgree t' k lower.toList)
    (hu : s.tree.AllAgree t' k upper.toList) :
    sliceLookup { s with tree := t' } self' id lower upper = sliceLookup s self id lower upper := by
  rw [sliceLookup, sliceLookup, h.expression hid, hasNativeBounds_agree hl hu, bounds_agree h hl hu,
    sliceObject, sliceObject, boundObjects_agree h hl hu]

theorem sliceAssignment_agree (hid : s.tree.Agree t' k id)
    (hl : s.tree.AllAgree t' k lower.toList) (hu : s.tree.AllAgree t' k upper.toList)
    (value : Operand) :
    sliceAssignment { s with tree := t' } self' id lower upper value =
      sliceAssignment s self id lower upper value := by
  rw [sliceAssignment, sliceAssignment, h.expression hid, hasNativeBounds_agree hl hu,
    bounds_agree h hl hu, sliceObject, sliceObject, boundObjects_agree h hl hu]

theorem sliceDeletion_agree (hid : s.tree.Agree t' k id) (hl : s.tree.AllAgree t' k lower.toList)
    (hu : s.tree.AllAgree t' k upper.toList) :
    sliceDeletion { s with tree := t' } self' id lower upper =
      sliceDeletion s self id lower upper := by
  rw [sliceDeletion, sliceDeletion, h.expression hid, hasNativeBounds_agree hl hu,
    bounds_agree h hl hu, sliceObject, sliceObject, boundObjects_agree h hl hu]

/-! ## Scopes -/

/-- A node whose children are one level down can be read in both trees. -/
theorem fail_node {α : Type} (hid : s.tree.Agree t' (k + 1) id) (cause : Cause) :
    (Lower.fail t' id cause : Lower α) = Lower.fail s.tree id cause :=
  fail_agree hid h.depth h.depth' cause

theorem scopeOf_node {β : Type} (hid : s.tree.Agree t' (k + 1) id) {f : Provider → Lower β}
    (hf : ∀ p, f p.bare = f p) : scopeOf t' id >>= f = scopeOf s.tree id >>= f :=
  scopeOf_agree hid h.depth h.depth' hf

omit h in
theorem localsDict_bare (codeName : String) (p : Provider) (mode : LocalsMode) :
    localsDict codeName p.bare mode = localsDict codeName p mode := by
  cases p <;> cases mode <;> rfl

theorem localsAt_agree (hid : s.tree.Agree t' (k + 1) id) :
    localsAt { s with tree := t' } id = localsAt s id := by
  refine scopeOf_node h hid fun p => ?_
  have hlive : p.bare.hasLiveLocals = p.hasLiveLocals := by cases p <;> rfl
  rw [localsDict_bare, hlive]

theorem dir_agree (hid : s.tree.Agree t' (k + 1) id) :
    (scopeOf t' id >>= fun p => Lower.intern (dirList s.codeName p)) =
      scopeOf s.tree id >>= fun p => Lower.intern (dirList s.codeName p) :=
  scopeOf_node h hid fun p => by rw [dirList, dirList, localsDict_bare]

theorem importLocals_agree (hid : s.tree.Agree t' (k + 1) id) (globals : Operand) :
    importLocals { s with tree := t' } id globals = importLocals s id globals := by
  rw [importLocals, importLocals, localsAt_agree h hid]
  refine scopeOf_node h hid fun p => ?_
  have hmodule : p.bare.isModule = p.isModule := by cases p <;> rfl
  rw [hmodule]

omit h in
theorem inGenerator_agree (hid : s.tree.Agree t' k id) :
    t'.inGenerator id = s.tree.inGenerator id := by
  refine Alike.inGenerator_eq (f := fun d => d) ⟨rfl, ?_, fun d hd => ?_, hid.same.enclosing_eq⟩
  · rw [hid.same.kind_eq, NodeKind.mapChildren_id]
  · exact (hid.child hd).same.constant?_eq

/-! ## Functions and classes -/

theorem defaultValues_agree {defaults : List (NodeId × Variable)}
    (hids : s.tree.AllAgree t' k (defaults.map (·.1))) :
    defaultValues t' self' defaults = defaultValues s.tree self defaults := by
  induction defaults with
  | nil => rfl
  | cons p defaults ih =>
      obtain ⟨hid, hids⟩ := Tree.allAgree_cons.mp hids
      have hconstant : immutableConstant? t' p.1 = immutableConstant? s.tree p.1 := by
        rw [immutableConstant?, immutableConstant?, hid.same.constant?_eq]
      rw [defaultValues, defaultValues, hconstant, h.expression hid, ih hids]

theorem functionObject_agree (hid : s.tree.Agree t' (k + 1) id)
    (hdefaults : s.tree.AllAgree t' k ids) :
    functionObject { s with tree := t' } self' id ids = functionObject s self id ids := by
  unfold functionObject
  dsimp only
  rw [hid.same.expr?_eq, hid.same.kind_eq, hid.same.location_eq]
  cases he : s.tree.expr? id with
  | none => exact fail_node h hid _
  | some e =>
      cases e with
      | function f =>
          have hbody : s.tree.AllAgree t' k f.body.toList :=
            hid.slots_below (Tree.expr?_eq_some_iff.mp he)
          have hvalues : s.tree.AllAgree t' k ((ids.zip f.parameters.defaulted).map (·.1)) := by
            intro c hc
            obtain ⟨p, hp, rfl⟩ := List.mem_map.mp hc
            exact hdefaults p.1 (List.of_mem_zip hp).1
          dsimp only
          rw [defaultValues_agree h hvalues, optionalSequence_agree h hbody, fail_node h hid]
      | _ => exact fail_node h hid _

theorem classObject_agree (hid : s.tree.Agree t' (k + 1) id) (hbases : s.tree.AllAgree t' k ids) :
    classObject { s with tree := t' } self' id ids = classObject s self id ids := by
  unfold classObject
  dsimp only
  rw [hid.same.expr?_eq, hid.same.kind_eq, hid.same.location_eq]
  cases he : s.tree.expr? id with
  | none => exact fail_node h hid _
  | some e =>
      cases e with
      | classBody c =>
          have hbody : s.tree.AllAgree t' k c.body.toList :=
            hid.slots_below (Tree.expr?_eq_some_iff.mp he)
          dsimp only
          rw [tuple_agree h hbases, optionalSequence_agree h hbody]
      | _ => exact fail_node h hid _

/-! ## Expressions -/

theorem evalParts_agree {mode : EvalMode} {source : NodeId} {globals locals : Option NodeId}
    (hid : s.tree.Agree t' (k + 1) id) (hsource : s.tree.Agree t' k source)
    (hglobals : s.tree.AllAgree t' k globals.toList)
    (hlocals : s.tree.AllAgree t' k locals.toList) :
    evalParts t' self' id mode source globals locals =
      evalParts s.tree self id mode source globals locals := by
  rw [evalParts, evalParts, orConstant_agree h hglobals, orConstant_agree h hlocals,
    h.expression hsource, hid.same.location_eq]

theorem expressionForm_agree (hid : s.tree.Agree t' (k + 1) id)
    (he : s.tree.expr? id = some e) :
    expressionForm { s with tree := t' } self' id e = expressionForm s self id e := by
  have hc : s.tree.AllAgree t' k e.children := hid.slots_below (Tree.expr?_eq_some_iff.mp he)
  have hup : ∀ {c}, s.tree.Agree t' k c → s.tree.Agree t' (k + 1) c :=
    fun hc => hc.mono (Nat.le_succ k)
  cases e with
  -- these read more of the tree than the kinds of their children
  | variableRef _ _ | temporaryRef _ =>
      dsimp only [expressionForm]
      rw [boundVariable_agree hid h.depth h.depth']
  | makeTuple elements => exact tuple_agree h hc
  | makeList elements => exact container_agree h hc _ _
  | makeSet elements => exact container_agree h hc _ _
  | makeDict pairs => exact dict_agree h hc
  | function _ => exact functionObject_agree h hid Tree.allAgree_nil
  | classBody _ => exact classObject_agree h hid Tree.allAgree_nil
  | locals => exact localsAt_agree h hid
  | dir => exact dir_agree h hid
  -- the definition in the slot is lowered as one level with this node
  | functionDefaulted _ _ =>
      obtain ⟨hdefaults, hdefinition, -⟩ := (Tree.allAgree_append.trans
        (and_congr_right fun _ => Tree.allAgree_cons)).mp hc
      exact functionObject_agree h (hup hdefinition) hdefaults
  | classBased _ _ =>
      obtain ⟨hbases, hclass, -⟩ := (Tree.allAgree_append.trans
        (and_congr_right fun _ => Tree.allAgree_cons)).mp hc
      exact classObject_agree h (hup hclass) hbases
  | importModule _ _ _ =>
      dsimp only [expressionForm]
      rw [importLocals_agree h hid]
  | assignment target source =>
      simp only [Expr.children, Tree.allAgree_cons] at hc
      dsimp only [expressionForm]
      rw [h.expression hc.1, boundVariable_child h hc.2.1]
  | slice _ _ _ =>
      simp only [Expr.children, Tree.allAgree_append, Tree.allAgree_cons] at hc
      obtain ⟨⟨hsource, hlower⟩, hupper⟩ := hc
      exact sliceLookup_agree h hsource hlower hupper
  | builtinImport name fromList inGlobals inLocals level =>
      simp only [Expr.children, Tree.allAgree_append, Tree.allAgree_cons] at hc
      obtain ⟨⟨⟨⟨hname, hfromList⟩, hglobals⟩, hlocals⟩, hlevel⟩ := hc
      rw [expressionForm_builtinImport, expressionForm_builtinImport, h.expression hname,
        orConstant_agree h hfromList, orConstant_agree h hlevel, orLowered_agree h hglobals]
      simp only [orLowered_agree h hlocals, importLocals_agree h hid]
  | eval _ _ _ _ =>
      simp only [Expr.children, Tree.allAgree_append, Tree.allAgree_cons] at hc
      obtain ⟨⟨hsource, hglobals⟩, hlocals⟩ := hc
      dsimp only [expressionForm]
      rw [evalParts_agree h hid hsource hglobals hlocals]
  | _ =>
      simp only [Expr.children, Tree.allAgree_append, Tree.allAgree_cons, Tree.allAgree_nil,
        and_true] at hc
      simp only [expressionForm, h.expression, h.condition, expressions_agree h, optional_agree h,
        tuple_agree h, namedArguments_agree h, fail_node h hid, hid.same.location_eq,
        Tree.attributeName_congr hid.same.enclosing_eq, hc]

/-- An expression is lowered to the same operand, or stops for the same reason. -/
theorem expression_agree (hid : s.tree.Agree t' (k + 1) id) :
    Lowering.expression { s with tree := t' } self' id = Lowering.expression s self id := by
  unfold Lowering.expression
  dsimp only
  rw [hid.same.expr?_eq, hid.same.kind_eq]
  cases he : s.tree.expr? id with
  | none => exact fail_node h hid _
  | some e =>
      dsimp only
      rw [expressionForm_agree h hid he]
      simp only [fail_node h hid]

/-- A condition is the same if the expression of the node itself is. -/
theorem condition_agree (hid : s.tree.Agree t' (k + 1) id)
    (hself : self'.expression id = self.expression id) (inverted : Bool) :
    Lowering.condition t' self' id inverted = Lowering.condition s.tree self id inverted := by
  unfold Lowering.condition
  rw [hid.same.kind_eq]
  cases hk : s.tree.kind id with
  | expr e =>
      have hc : s.tree.AllAgree t' k e.children := hid.slots_below hk
      cases e with
      | comparison comparator left right =>
          simp only [Expr.children, Tree.allAgree_cons] at hc
          dsimp only
          rw [h.expression hc.1, h.expression hc.2.1]
      | disjunction operands | conjunction operands =>
          have hoperands : s.tree.AllAgree t' k operands := hc
          dsimp only
          rw [conditions_agree h hoperands]
      | operation operator operands =>
          -- only a negation of one operand goes on to a condition
          cases operator with
          | not =>
              rcases operands with _ | ⟨operand, _ | ⟨second, rest⟩⟩
              · dsimp only
                rw [hself]
              · exact h.condition _ (hc operand List.mem_cons_self)
              · dsimp only
                rw [hself]
          | _ =>
              dsimp only
              rw [hself]
      | constant c => rfl
      | _ => exact congrArg (· >>= _) hself
  | _ => exact congrArg (· >>= _) hself

end

/-! ## Catching -/

section

variable {t t' : Tree} {k : Nat} {tried assignment source handler caught : NodeId}
  {handlers : List NodeId} {noRaise : Option NodeId} {f : Fetch}

/-- What the parts of a fetch look like is the same in both trees. -/
theorem amounts_agree (htried : t.Agree t' k tried) (hhandler : t.Agree t' k handler) :
    f.Amounts t' tried assignment source handler caught ↔
      f.Amounts t tried assignment source handler caught := by
  have hiff : ∀ t : Tree, f.Amounts t tried assignment source handler caught ↔
      t.kind tried = .sequence [assignment] ∧ t.kind assignment = .stmt (.assign f.target source) ∧
        t.kind source = .expr (.unaryBuiltin .next f.iterator) ∧
          t.kind handler = .handler ⟨[caught], none, some f.branch⟩ ∧
            t.kind caught = .expr (.exception "StopIteration") := fun t =>
    ⟨fun h => ⟨h.tried, h.assignment, h.source, h.handler, h.caught⟩,
      fun h => ⟨h.1, h.2.1, h.2.2.1, h.2.2.2.1, h.2.2.2.2⟩⟩
  rw [hiff, hiff, htried.same.kind_eq, hhandler.same.kind_eq]
  refine and_congr_right fun h => ?_
  have hassignment : t.Agree t' k assignment := htried.slots h _ (by simp [NodeKind.children])
  rw [hassignment.same.kind_eq]
  refine and_congr_right fun h => ?_
  have hsource : t.Agree t' k source :=
    hassignment.slots h _ (by simp [NodeKind.children, Stmt.children])
  rw [hsource.same.kind_eq]
  refine and_congr_right fun _ => and_congr_right fun h => ?_
  have hcaught : t.Agree t' k caught := hhandler.slots h _ (by simp [NodeKind.children])
  rw [hcaught.same.kind_eq]

/-- The trees agree at the parts of a fetch. -/
theorem Fetch.Amounts.agree (hf : f.Amounts t tried assignment source handler caught)
    (htried : t.Agree t' k tried) (hhandler : t.Agree t' k handler) :
    t.Agree t' k f.target ∧ t.Agree t' k f.iterator ∧ t.Agree t' k f.branch := by
  have hassignment : t.Agree t' k assignment :=
    htried.slots hf.tried _ (by simp [NodeKind.children])
  have hslots := hassignment.slots hf.assignment
  simp only [NodeKind.children, Stmt.children, Tree.allAgree_cons] at hslots
  obtain ⟨hsource, htarget, -⟩ := hslots
  exact ⟨htarget, hsource.slots hf.source _ (by simp [NodeKind.children, Expr.children]),
    hhandler.slots hf.handler _ (by simp [NodeKind.children])⟩

theorem fetch?_agree (htried : t.Agree t' k tried) (hhandlers : t.AllAgree t' k handlers)
    (hk : k ≤ t.depthBound) (hk' : k ≤ t'.depthBound) :
    fetch? t' tried handlers noRaise = fetch? t tried handlers noRaise := by
  apply Option.ext
  intro f
  have hshape : ∀ assignment source handler caught,
      (handlers = [handler] ∧ f.Amounts t' tried assignment source handler caught) ↔
        handlers = [handler] ∧ f.Amounts t tried assignment source handler caught := by
    intro assignment source handler caught
    apply and_congr_right
    rintro rfl
    exact amounts_agree htried (hhandlers handler List.mem_cons_self)
  simp only [fetch?_eq_some_iff, hshape]
  -- the two questions are about nodes below those at which the trees agree
  apply and_congr_right
  rintro ⟨-, assignment, source, handler, caught, rfl, hf⟩
  obtain ⟨-, hiterator, hbranch⟩ := hf.agree htried (hhandlers handler List.mem_cons_self)
  rw [hiterator.mayRaise_eq hk hk', hbranch.isAbortative_eq hk hk']

end

/-! ## Statements -/

section

variable {s : Setting} {t' : Tree} {k : Nat} {self' self : Lowerer} {id : NodeId}
  {ids : List NodeId} {st : Stmt} (h : self'.Agrees s t' k self)
include h

theorem handlerBinding_agree {o : Option NodeId} (ho : s.tree.AllAgree t' k o.toList) :
    handlerBinding { s with tree := t' } o = handlerBinding s o := by
  cases o with
  | none => rfl
  | some id =>
      rw [handlerBinding, handlerBinding, boundVariable_child h (Tree.allAgree_some.mp ho)]

theorem handlerChain_agree (hids : s.tree.AllAgree t' k ids) (first : Bool) :
    handlerChain { s with tree := t' } self' first ids = handlerChain s self first ids := by
  induction ids generalizing first with
  | nil => rfl
  | cons id ids ih =>
      obtain ⟨hid, hids⟩ := Tree.allAgree_cons.mp hids
      rw [handlerChain, handlerChain, hid.same.handler?_eq, hid.same.kind_eq]
      cases hh : s.tree.handler? id with
      | none => exact fail_agree hid h.depth.le h.depth'.le _
      | some handler =>
          have hc := hid.slots (Tree.handler?_eq_some_iff.mp hh)
          simp only [NodeKind.children, Tree.allAgree_append] at hc
          obtain ⟨⟨htypes, htarget⟩, hbranch⟩ := hc
          dsimp only
          rw [expressions_agree h htypes, handlerBinding_agree h htarget,
            optionalSequence_agree h hbranch, ih hids]

theorem catching_agree {tried : NodeId} {noRaise : Option NodeId}
    (htried : s.tree.Agree t' k tried) (hids : s.tree.AllAgree t' k ids)
    (hnoRaise : s.tree.AllAgree t' k noRaise.toList) :
    Lowering.catching { s with tree := t' } self' tried ids noRaise =
      Lowering.catching s self tried ids noRaise := by
  have hfetch : fetch? t' tried ids noRaise = fetch? s.tree tried ids noRaise :=
    fetch?_agree htried hids h.depth.le h.depth'.le
  unfold Lowering.catching
  dsimp only
  rw [hfetch]
  cases hf : fetch? s.tree tried ids noRaise with
  | none =>
      dsimp only
      rw [h.sequence htried, handlerChain_agree h hids, optionalSequence_agree h hnoRaise]
  | some f =>
      obtain ⟨-, assignment, source, handler, caught, rfl, hamounts⟩ := fetch?_amounts hf
      obtain ⟨htarget, hiterator, hbranch⟩ :=
        hamounts.agree htried (hids handler List.mem_cons_self)
      dsimp only
      rw [fetching, fetching, h.expression hiterator, h.sequence hbranch,
        boundVariable_child h htarget]

theorem raising_agree (hid : s.tree.Agree t' (k + 1) id)
    {exceptionType value traceback : Option NodeId}
    (htype : s.tree.AllAgree t' k exceptionType.toList)
    (hvalue : s.tree.AllAgree t' k value.toList)
    (htraceback : s.tree.AllAgree t' k traceback.toList) :
    raising { s with tree := t' } self' id exceptionType value traceback =
      raising s self id exceptionType value traceback := by
  cases exceptionType with
  | none => rw [raising, raising, hid.same.isHandlerLocal_eq]
  | some type =>
      rw [raising, raising, h.expression (Tree.allAgree_some.mp htype), optional_agree h hvalue,
        optional_agree h htraceback, hid.same.location_eq]

theorem statementForm_agree (hid : s.tree.Agree t' (k + 1) id) (hst : s.tree.stmt? id = some st) :
    statementForm { s with tree := t' } self' id st = statementForm s self id st := by
  have hc : s.tree.AllAgree t' k st.children := hid.slots_below (Tree.stmt?_eq_some_iff.mp hst)
  cases st with
  | assign target source =>
      simp only [Stmt.children, Tree.allAgree_cons] at hc
      dsimp only [statementForm]
      rw [h.expression hc.1, boundVariable_child h hc.2.1]
  | assignSlice source lower upper value =>
      simp only [Stmt.children, Tree.allAgree_append, Tree.allAgree_cons] at hc
      obtain ⟨⟨hvalue, hsource, hlower⟩, hupper⟩ := hc
      dsimp only [statementForm]
      rw [h.expression hvalue]
      simp only [sliceAssignment_agree h hsource hlower hupper]
  | delete target =>
      dsimp only [statementForm]
      rw [boundVariable_child h (hc target List.mem_cons_self)]
  | deleteSlice source lower upper =>
      simp only [Stmt.children, Tree.allAgree_append, Tree.allAgree_cons] at hc
      obtain ⟨⟨hsource, hlower⟩, hupper⟩ := hc
      exact sliceDeletion_agree h hsource hlower hupper
  | returnValue value =>
      have hgenerator : (t'.enclosingFunction? id).any (·.isGenerator) =
          (s.tree.enclosingFunction? id).any (·.isGenerator) := inGenerator_agree hid
      dsimp only [statementForm]
      rw [hgenerator, h.expression (hc value List.mem_cons_self)]
  | tryExcept tried handlers noRaise =>
      simp only [Stmt.children, Tree.allAgree_append, Tree.allAgree_cons] at hc
      obtain ⟨⟨htried, hhandlers⟩, hnoRaise⟩ := hc
      exact catching_agree h htried hhandlers hnoRaise
  | raise exceptionType value traceback =>
      simp only [Stmt.children, Tree.allAgree_append] at hc
      obtain ⟨⟨htype, hvalue⟩, htraceback⟩ := hc
      exact raising_agree h hid htype hvalue htraceback
  | exec source inGlobals inLocals =>
      simp only [Stmt.children, Tree.allAgree_append, Tree.allAgree_cons] at hc
      obtain ⟨⟨hsource, hglobals⟩, hlocals⟩ := hc
      dsimp only [statementForm]
      rw [evalParts_agree h hid hsource hglobals hlocals]
  | _ =>
      simp only [Stmt.children, Tree.allAgree_append, Tree.allAgree_cons, Tree.allAgree_nil,
        and_true] at hc
      simp only [statementForm, h.expression, h.condition, h.sequence, expressions_agree h,
        optional_agree h, optionalSequence_agree h, Tree.attributeName_congr hid.same.enclosing_eq,
        hc]

/-- A statement is lowered to the same code, or stops for the same reason. -/
theorem statement_agree (hid : s.tree.Agree t' (k + 1) id) :
    Lowering.statement { s with tree := t' } self' id = Lowering.statement s self id := by
  unfold Lowering.statement
  dsimp only
  rw [hid.same.stmt?_eq, hid.same.kind_eq]
  cases hst : s.tree.stmt? id with
  | none => exact fail_node h hid _
  | some st =>
      dsimp only
      rw [statementForm_agree h hid hst]
      simp only [fail_node h hid]

theorem statementLines_agree (hids : s.tree.AllAgree t' k ids) (last : Option Location) :
    statementLines { s with tree := t' } self' last ids = statementLines s self last ids := by
  induction ids generalizing last with
  | nil => rfl
  | cons id ids ih =>
      obtain ⟨hid, hids⟩ := Tree.allAgree_cons.mp hids
      have htrace : traceLines { s with tree := t' } id = traceLines s id := by
        rw [traceLines, traceLines, hid.same.location_eq, hid.same.kind_eq]
      have hstatement := statement_agree h (hid.mono (Nat.le_succ k))
      rw [statementLines, statementLines, hid.same.location_eq, hid.same.kind_eq, hstatement, htrace]
      simp only [ih hids, fail_agree hid h.depth.le h.depth'.le]

theorem sequence_agree (hid : s.tree.Agree t' (k + 1) id) :
    Lowering.sequence { s with tree := t' } self' id = Lowering.sequence s self id := by
  unfold Lowering.sequence
  dsimp only
  rw [hid.same.sequence?_eq, hid.same.kind_eq]
  cases hids : s.tree.sequence? id with
  | none => exact fail_node h hid _
  | some ids =>
      exact statementLines_agree h (hid.slots_below (Tree.sequence?_eq_some_iff.mp hids)) none

end

/-! ## All levels -/

/-- A lowering with levels for all that is below a node does not depend on how many more it has. One
level fewer does for an expression or a sequence than for a condition. -/
theorem ofDepth_agree {s : Setting} {t' : Tree} {k : Nat} {id : NodeId}
    (hid : s.tree.Agree t' k id) (hk : k ≤ s.tree.depthBound) (hk' : k ≤ t'.depthBound) {i j : Nat}
    (hi : 2 * k ≤ i + 1) (hj : 2 * k ≤ j + 1) :
    (Lowerer.ofDepth { s with tree := t' } i).expression id =
        (Lowerer.ofDepth s j).expression id ∧
      (Lowerer.ofDepth { s with tree := t' } i).sequence id =
        (Lowerer.ofDepth s j).sequence id ∧
      (2 * k ≤ i → 2 * k ≤ j → ∀ inverted,
        (Lowerer.ofDepth { s with tree := t' } i).condition id inverted =
          (Lowerer.ofDepth s j).condition id inverted) := by
  induction k generalizing id i j with
  | zero => exact hid.elim
  | succ k ih =>
      obtain ⟨i, rfl⟩ : ∃ i', i = i' + 1 := ⟨i - 1, by omega⟩
      obtain ⟨j, rfl⟩ : ∃ j', j = j' + 1 := ⟨j - 1, by omega⟩
      have hagrees : ∀ {i j}, 2 * k ≤ i → 2 * k ≤ j →
          (Lowerer.ofDepth { s with tree := t' } i).Agrees s t' k (Lowerer.ofDepth s j) := by
        intro i j hi hj
        have hchild : ∀ {c}, s.tree.Agree t' k c → _ := fun hc =>
          ih hc (by omega) (by omega) (i := i) (j := j) (by omega) (by omega)
        exact ⟨hk, hk', fun hc => (hchild hc).1, fun inverted hc => (hchild hc).2.2 hi hj inverted,
          fun hc => (hchild hc).2.1⟩
      have h := hagrees (i := i) (j := j) (by omega) (by omega)
      refine ⟨expression_agree h hid, sequence_agree h hid, ?_⟩
      intro hi hj inverted
      -- a condition may fall back to the expression of the node, one level further down
      apply condition_agree h hid
      obtain ⟨i, rfl⟩ : ∃ i', i = i' + 1 := ⟨i - 1, by omega⟩
      obtain ⟨j, rfl⟩ : ∃ j', j = j' + 1 := ⟨j - 1, by omega⟩
      exact expression_agree (hagrees (by omega) (by omega)) hid

end Lowering
end CompilerBackend
