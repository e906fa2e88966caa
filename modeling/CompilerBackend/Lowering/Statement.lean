import CompilerBackend.Target.Control
import CompilerBackend.Lowering.Expression
/-!
# Statements

A statement becomes lines of target text, none of them blank and without a blank margin. A
sequence puts a line marker in front of the first statement of each run from one place, and a
trace line in front of every statement if the options ask for it. Statements without code leave
no marker.
-/

namespace CompilerBackend.Lowering

open Target

/-! ## Raising -/

/-- The code of a raise statement. A traceback is evaluated only behind a value; without one the
traceback is made from the line of the statement. -/
def raising (s : Setting) (self : Lowerer) (id : NodeId)
    (exceptionType value traceback : Option NodeId) : Lower String :=
  match exceptionType with
  | none => return reraiseStatement (s.tree.isHandlerLocal id)
  | some typeNode => do
    let type ← self.expression typeNode
    let v ← self.optional value
    let tb ← if v.isSome then self.optional traceback else pure none
    match tb with
    | some _ => return raiseStatement type v tb none
    | none =>
      return raiseStatement type v none (some (tracebackMaker (s.tree.location id).line))

/-! ## Catching -/

/-- A try statement that fetches one item and ends the run of its body when there is none. -/
structure Fetch where
  target : NodeId
  iterator : NodeId
  branch : NodeId
  deriving DecidableEq

def single? {α : Type} : List α → Option α
  | [a] => some a
  | _ => none

/-- The fetch that a try statement amounts to: it has no code for the case without an exception;
its body is one assignment from `next` of an iterator that cannot raise; its only handler
catches `StopIteration` alone, binds nothing, and control never goes on behind it. -/
def fetch? (t : Tree) (tried : NodeId) (handlers : List NodeId) (noRaise : Option NodeId) :
    Option Fetch := do
  if noRaise.isSome then none
  let handlerNode ← single? handlers
  let assignment ← single? (← t.sequence? tried)
  let .assign target source ← t.stmt? assignment | none
  let .unaryBuiltin .next iterator ← t.expr? source | none
  if t.mayRaise iterator then none
  let handler ← t.handler? handlerNode
  if handler.target.isSome then none
  let caught ← single? handler.exceptionTypes
  let .exception name ← t.expr? caught | none
  if name != "StopIteration" then none
  let branch ← handler.branch
  if t.isAbortative branch then some ⟨target, iterator, branch⟩ else none

def fetching (s : Setting) (self : Lowerer) (f : Fetch) : Lower String := do
  let n ← Lower.onScopes ScopeStack.takeLoopNumber
  let source ← self.expression f.iterator
  let handler ← self.sequence f.branch
  let v ← boundVariable s.tree f.target
  return fetchOrHandle n source handler (variableAssignment s.codeName v (fetchedItem n))

/-- The line that binds the caught exception to the target of a handler. -/
def handlerBinding (s : Setting) (target : Option NodeId) : Lower (List String) :=
  match target with
  | some id => do
    let v ← boundVariable s.tree id
    return [variableAssignment s.codeName v (caughtPart .value)]
  | none => return []

/-- The lines of handlers, in order; `first` tells whether a chain begins. -/
def handlerChain (s : Setting) (self : Lowerer) (first : Bool) :
    List NodeId → Lower (List String)
  | [] => return []
  | id :: rest =>
    match s.tree.handler? id with
    | none => Lower.fail s.tree id (.unrecognisedNode (s.tree.kind id).kindName)
    | some h => do
      let types ← self.expressions h.exceptionTypes
      let binding ← handlerBinding s h.target
      let branch ← self.optionalSequence h.branch
      let others ← handlerChain s self false rest
      return handlerLines types (binding ++ branch.getD []) first ++ others

def catching (s : Setting) (self : Lowerer) (tried : NodeId) (handlers : List NodeId)
    (noRaise : Option NodeId) : Lower String :=
  match fetch? s.tree tried handlers noRaise with
  | some f => fetching s self f
  | none => do
    let n ← Lower.onScopes ScopeStack.takeTryNumber
    let body ← self.sequence tried
    let chain ← handlerChain s self true handlers
    let otherwise ← self.optionalSequence noRaise
    return tryExcept n body chain otherwise

/-! ## Statements -/

/-- The code of a statement, before its margins are checked. -/
def statementForm (s : Setting) (self : Lowerer) (id : NodeId) (st : Stmt) : Lower String := do
  match st with
  | .assign target source =>
    let value ← self.expression source
    let v ← boundVariable s.tree target
    return variableAssignment s.codeName v value
  | .assignAttribute source name value =>
    let v ← self.expression value
    let o ← self.expression source
    let n ← Lower.intern (constantFromTable (.str (s.tree.attributeName name id)))
    return attributeAssignment o n v
  | .assignSubscript subscribed subscript value =>
    let v ← self.expression value
    let o ← self.expression subscribed
    let i ← self.expression subscript
    return subscriptAssignment o i v
  | .assignSlice source lower upper value =>
    let v ← self.expression value
    sliceAssignment s self source lower upper v
  | .delete target =>
    let v ← boundVariable s.tree target
    return variableDeletion s.codeName v
  | .deleteAttribute source name =>
    let o ← self.expression source
    let n ← Lower.intern (constantFromTable (.str (s.tree.attributeName name id)))
    return attributeDeletion o n
  | .deleteSubscript subscribed subscript =>
    let o ← self.expression subscribed
    let i ← self.expression subscript
    return subscriptDeletion o i
  | .deleteSlice source lower upper => sliceDeletion s self source lower upper
  | .block body =>
    let codes ← self.sequence body
    return braced codes
  | .expression value =>
    let o ← self.expression value
    return expressionStatement o
  | .print destination values newline =>
    let d ← self.optional destination
    let os ← self.expressions values
    return print d os newline
  | .returnValue value =>
    if (s.tree.enclosingFunction? id).any (·.isGenerator) then return generatorEnd
    else
      let o ← self.expression value
      return returnStatement o
  | .loop body unwinds =>
    let codes ← self.optionalSequence body
    return loop codes unwinds
  | .conditional condition yes no =>
    let c ← self.condition condition false
    let y ← self.optionalSequence yes
    let n ← self.optionalSequence no
    return branch c y n
  | .continueLoop unwinds => return loopContinue unwinds
  | .breakLoop unwinds => return loopBreak unwinds
  | .importStar source =>
    let o ← self.expression source
    return importStar s.codeName o
  | .tryFinally tried final =>
    let n ← Lower.onScopes ScopeStack.takeTryNumber
    let body ← self.sequence tried
    let last ← self.sequence final
    return tryFinally n body last
  | .tryExcept tried handlers noRaise => catching s self tried handlers noRaise
  | .raise exceptionType value traceback => raising s self id exceptionType value traceback
  | .exec source inGlobals inLocals =>
    let parts ← evalParts s.tree self id .exec source inGlobals inLocals
    return execution parts
  | .execInline body =>
    let codes ← Lower.inScope .inline (self.sequence body)
    return braced codes
  | .unpackCheck iterator count =>
    let i ← self.expression iterator
    return unpackCheck i count
  | .declareGlobal _ => return ""

/-- A statement as code without a blank margin, possibly empty. -/
def statement (s : Setting) (self : Lowerer) (id : NodeId) : Lower String :=
  match s.tree.stmt? id with
  | none => Lower.fail s.tree id (.notAStatement (s.tree.kind id).kindName)
  | some st => do
    let code ← statementForm s self id st
    if Text.hasNoMargin code then return code
    else Lower.fail s.tree id (.malformedCode code)

/-! ## Sequences -/

def traceLines (s : Setting) (id : NodeId) : List String :=
  if s.options.traceExecution then
    [traceLine (s.tree.location id).text (s.tree.kind id).kindName]
  else []

/-- The marker in front of code that comes from another place than the code before it. -/
def markerLines (last : Option Location) (l : Location) : List String :=
  if last = some l then [] else [lineMarker l]

/-- The lines of statements; `last` is the place of the latest marker. -/
def statementLines (s : Setting) (self : Lowerer) (last : Option Location) :
    List NodeId → Lower (List String)
  | [] => return []
  | id :: rest => do
    let l := s.tree.location id
    let code ← Lower.within ⟨(s.tree.kind id).kindName, l⟩ (statement s self id)
    if code.isEmpty then
      let others ← statementLines s self last rest
      return traceLines s id ++ others
    else
      let codeLines := Text.lines code
      if codeLines.any Text.isBlankText then Lower.fail s.tree id (.malformedCode code)
      let others ← statementLines s self (some l) rest
      return traceLines s id ++ markerLines last l ++ codeLines ++ others

def sequence (s : Setting) (self : Lowerer) (id : NodeId) : Lower (List String) :=
  match s.tree.sequence? id with
  | none => Lower.fail s.tree id (.notASequence (s.tree.kind id).kindName)
  | some statements => statementLines s self none statements

end CompilerBackend.Lowering
