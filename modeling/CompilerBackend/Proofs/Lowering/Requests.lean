import CompilerBackend.Lowering.Statement
import CompilerBackend.Proofs.Program.Holdings
/-!
# Requests

What a lowering asks of the program, read off the tree. A node is lowered in one of several uses;
each use asks for constants and sizes of its own and goes on to uses of other nodes. Constants that
a container folds, that decide a condition or that bound a native slice are not asked for.

- `Setting.asks`, `Setting.parts`: what a use asks for itself, and the uses it goes on to.
- `Setting.Requests`: all that a use comes to ask for; `mem_requests_iff` takes one step down.
-/

namespace CompilerBackend

open Lowering

inductive Use where
  | operand
  | condition
  /-- A function or class without its default values or base classes. -/
  | definition
  | statement
  | handler
  | lines
  deriving DecidableEq

abbrev Usage := Use × NodeId

def operands (ids : List NodeId) : List Usage := ids.map (Use.operand, ·)

@[simp] theorem operands_nil : operands [] = [] := rfl

@[simp] theorem operands_cons (id : NodeId) (ids : List NodeId) :
    operands (id :: ids) = (Use.operand, id) :: operands ids := rfl

@[simp] theorem operands_append (ids ids' : List NodeId) :
    operands (ids ++ ids') = operands ids ++ operands ids' := List.map_append

/-! ## Constants and containers -/

/-- A constant is asked for unless the runtime has a name for it. -/
def Constant.accessAsks : Constant → List Request
  | .none | .ellipsis | .bool _ => []
  | c => [.constant c]

namespace Tree

variable (t : Tree)

/-- A container asks for the constant it folds to, or else for `build`. -/
def containerAsks (fold : List Constant → Constant) (build : List Request) (ids : List NodeId) :
    List Request :=
  match immutableConstants? t ids with
  | some cs => [.constant (fold cs)]
  | none => build

/-- The elements of a container are lowered unless it folds. -/
def containerParts (ids : List NodeId) : List Usage :=
  match immutableConstants? t ids with
  | some _ => []
  | none => operands ids

def tupleAsks (ids : List NodeId) : List Request :=
  t.containerAsks .tuple [.tuple ids.length] ids

def foldedDict? (pairs : List (NodeId × NodeId)) : Option Constant := do
  let ks ← immutableConstants? t (pairs.map (·.1))
  let vs ← immutableConstants? t (pairs.map (·.2))
  return .dict (ks.zip vs)

def dictAsks (pairs : List (NodeId × NodeId)) : List Request :=
  match t.foldedDict? pairs with
  | some c => [.constant c]
  | none => [.dict pairs.length]

def dictParts (pairs : List (NodeId × NodeId)) : List Usage :=
  match t.foldedDict? pairs with
  | some _ => []
  | none => operands (pairs.map (·.1) ++ pairs.map (·.2))

def positionalAsks (ids : List NodeId) : List Request := if ids.isEmpty then [] else t.tupleAsks ids

def namedAsks (pairs : List (NodeId × NodeId)) : List Request :=
  if pairs.isEmpty then [] else t.dictAsks pairs

def namedParts (pairs : List (NodeId × NodeId)) : List Usage :=
  if pairs.isEmpty then [] else t.dictParts pairs

end Tree

/-! ## Scopes and definitions -/

def Provider.copyAsks : Provider → List Request
  | .function f => (f.parameters.all ++ f.userVariables).map fun v => .text v.name
  | _ => []

def Provider.localsAsks (p : Provider) : List Request := if p.hasLiveLocals then [] else p.copyAsks

def FunctionBody.asks (f : FunctionBody) : List Request :=
  .text f.name :: (f.parameters.all ++ f.userVariables).map fun v => .text v.name

/-- The texts of a class name it, its module, its variables and its documentation. -/
def ClassBody.asks (moduleName : String) (c : ClassBody) : List Request :=
  .text c.name :: .text moduleName :: (c.classVariables.map fun v => .text v.name) ++
    c.doc.toList.map .text

/-- What stands for absent operands of code that is compiled at run time. -/
def evalAsks (mode : EvalMode) (globals locals : Option NodeId) : List Request :=
  (if globals.isSome then [] else [.constant .none]) ++
    (if locals.isSome then [] else [.constant .none]) ++
    [.text (evalFilename mode), .text (evalMode mode)]

namespace Setting

variable (s : Setting)

def localsAsks (id : NodeId) : List Request := (s.tree.scope? id).toList.flatMap Provider.localsAsks

def boundParts (lower upper : Option NodeId) : List Usage :=
  if hasNativeBounds s lower upper then [] else operands (lower.toList ++ upper.toList)

/-! ## Expressions -/

def expressionAsks (id : NodeId) : Expr → List Request
  | .constant c => c.accessAsks
  | .makeTuple elements => s.tree.tupleAsks elements
  | .makeList elements => s.tree.containerAsks .list [.list elements.length] elements
  | .makeSet elements => s.tree.containerAsks .set [] elements
  | .makeDict pairs => s.tree.dictAsks pairs
  | .call _ positional named _ _ => s.tree.positionalAsks positional ++ s.tree.namedAsks named
  | .attributeOf _ name => [.text (s.tree.attributeName name id)]
  | .specialAttributeOf _ name => [.text name]
  | .function f => f.asks
  | .classBody c => s.tree.tupleAsks [] ++ c.asks s.moduleName
  | .classBased _ bases => s.tree.tupleAsks bases
  | .importModule name names level =>
    s.localsAsks id ++ [.text name, .constant (importNames names), .constant (.int level)]
  | .builtinImport _ fromList _ inLocals level =>
    (if inLocals.isSome then [] else s.localsAsks id) ++
      (if fromList.isSome then [] else [.constant .none]) ++
      (if level.isSome then [] else [.constant (.int (-1))])
  | .importName _ name => [.text name]
  | .locals => s.localsAsks id
  | .dir => (s.tree.scope? id).toList.flatMap Provider.copyAsks
  | .typeOfThree _ _ _ => [.text s.moduleName]
  | .dict _ named => s.tree.namedAsks named
  | .eval mode _ inGlobals inLocals => evalAsks mode inGlobals inLocals
  | .makeException _ arguments => if arguments.isEmpty then [] else [.tuple arguments.length]
  | .builtin name => [.text name]
  | _ => []

def expressionParts : Expr → List Usage
  | .conditional condition yes no => (Use.condition, condition) :: operands [yes, no]
  | .makeTuple elements => s.tree.containerParts elements
  | .makeList elements => s.tree.containerParts elements
  | .makeSet elements => s.tree.containerParts elements
  | .makeDict pairs => s.tree.dictParts pairs
  | .call callee positional named starList starDict =>
    (Use.operand, callee) :: s.tree.containerParts positional ++ s.tree.namedParts named ++
      operands (starList.toList ++ starDict.toList)
  | .slice source lower upper => (Use.operand, source) :: s.boundParts lower upper
  | .function f => f.body.toList.map (Use.lines, ·)
  | .functionDefaulted definition defaults => operands defaults ++ [(Use.definition, definition)]
  | .classBody c => c.body.toList.map (Use.lines, ·)
  | .classBased classNode bases =>
    s.tree.containerParts bases ++ [(Use.definition, classNode)]
  | .dict positional named => operands positional.toList ++ s.tree.namedParts named
  | .assignment _ source => [(Use.operand, source)]
  | e => operands e.children

/-! ## Conditions and definitions -/

/-- The uses that a condition goes on to; most expressions are tested as operands. -/
def conditionParts (id : NodeId) : NodeKind → List Usage
  | .expr (.constant _) => []
  | .expr (.comparison _ left right) => operands [left, right]
  | .expr (.disjunction ids) => ids.map (Use.condition, ·)
  | .expr (.conjunction ids) => ids.map (Use.condition, ·)
  | .expr (.operation .not [operand]) => [(Use.condition, operand)]
  | _ => [(Use.operand, id)]

/-- What a function or class asks for besides its default values or base classes. -/
def definitionAsks : NodeKind → List Request
  | .expr (.function f) => f.asks
  | .expr (.classBody c) => c.asks s.moduleName
  | _ => []

def definitionParts : NodeKind → List Usage
  | .expr (.function f) => f.body.toList.map (Use.lines, ·)
  | .expr (.classBody c) => c.body.toList.map (Use.lines, ·)
  | _ => []

/-! ## Statements -/

def statementAsks (id : NodeId) : Stmt → List Request
  | .assignAttribute _ name _ => [.text (s.tree.attributeName name id)]
  | .deleteAttribute _ name => [.text (s.tree.attributeName name id)]
  | .exec _ inGlobals inLocals => evalAsks .exec inGlobals inLocals
  | _ => []

/-- The uses that a statement goes on to: no value of a generator, and no part of a raise without
the part before it. -/
def statementParts (id : NodeId) : Stmt → List Usage
  | .assign _ source => [(Use.operand, source)]
  | .assignSlice source lower upper value =>
    (Use.operand, value) :: (Use.operand, source) :: s.boundParts lower upper
  | .delete _ => []
  | .deleteSlice source lower upper => (Use.operand, source) :: s.boundParts lower upper
  | .block body => [(Use.lines, body)]
  | .execInline body => [(Use.lines, body)]
  | .returnValue value =>
    if (s.tree.enclosingFunction? id).any (·.isGenerator) then [] else [(Use.operand, value)]
  | .loop body _ => body.toList.map (Use.lines, ·)
  | .conditional condition yes no =>
    (Use.condition, condition) :: (yes.toList ++ no.toList).map (Use.lines, ·)
  | .tryFinally tried final => [(Use.lines, tried), (Use.lines, final)]
  | .tryExcept tried handlers noRaise =>
    (Use.lines, tried) :: handlers.map (Use.handler, ·) ++ noRaise.toList.map (Use.lines, ·)
  | .raise none _ _ => []
  | .raise (some type) none _ => [(Use.operand, type)]
  | .raise (some type) (some value) traceback => operands (type :: value :: traceback.toList)
  | st => operands st.children

/-! ## All uses -/

def asks : Usage → List Request
  | (.operand, id) => (s.tree.expr? id).toList.flatMap (s.expressionAsks id)
  | (.definition, id) => s.definitionAsks (s.tree.kind id)
  | (.statement, id) => (s.tree.stmt? id).toList.flatMap (s.statementAsks id)
  | _ => []

def parts : Usage → List Usage
  | (.operand, id) => (s.tree.expr? id).toList.flatMap s.expressionParts
  | (.condition, id) => conditionParts id (s.tree.kind id)
  | (.definition, id) => definitionParts (s.tree.kind id)
  | (.statement, id) => (s.tree.stmt? id).toList.flatMap (s.statementParts id)
  | (.handler, id) => (s.tree.handler? id).toList.flatMap fun h =>
      operands h.exceptionTypes ++ h.branch.toList.map (Use.lines, ·)
  | (.lines, id) => ((s.tree.sequence? id).getD []).map (Use.statement, ·)

def Requests (u : Usage) : Set Request :=
  {r | ∃ v, Relation.ReflTransGen (fun u v => v ∈ s.parts u) u v ∧ r ∈ s.asks v}

def AllRequests (us : List Usage) : Set Request := {r | ∃ u ∈ us, r ∈ s.Requests u}

/-- All that the body of a module comes to ask for. -/
def BodyRequests (m : Module) : Set Request :=
  s.AllRequests (m.body.toList.map (Use.lines, ·))

variable {s} {u : Usage} {us vs : List Usage} {r : Request}

theorem mem_requests_iff :
    r ∈ s.Requests u ↔ r ∈ s.asks u ∨ r ∈ s.AllRequests (s.parts u) := by
  constructor
  · rintro ⟨v, hv, hr⟩
    rcases Relation.ReflTransGen.cases_head hv with rfl | ⟨q, hq, hqv⟩
    · exact Or.inl hr
    · exact Or.inr ⟨q, hq, v, hqv, hr⟩
  · rintro (hr | ⟨q, hq, v, hqv, hr⟩)
    · exact ⟨u, Relation.ReflTransGen.refl, hr⟩
    · exact ⟨v, Relation.ReflTransGen.head hq hqv, hr⟩

theorem requests_eq : s.Requests u = {r | r ∈ s.asks u} ∪ s.AllRequests (s.parts u) :=
  Set.ext fun _ => mem_requests_iff

@[simp] theorem allRequests_nil : s.AllRequests [] = ∅ := by simp [AllRequests]

@[simp] theorem allRequests_cons :
    s.AllRequests (u :: us) = s.Requests u ∪ s.AllRequests us := by
  ext r
  simp [AllRequests]

@[simp] theorem allRequests_append :
    s.AllRequests (us ++ vs) = s.AllRequests us ∪ s.AllRequests vs := by
  ext r
  simp [AllRequests, or_and_right, exists_or]

end Setting
end CompilerBackend
