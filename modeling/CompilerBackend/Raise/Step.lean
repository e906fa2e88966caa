import CompilerBackend.Tree.Edit
import CompilerBackend.Tree.Property
/-!
# Steps around a raise

An expression that raises unconditionally takes the place of the operation, call or statement
that would evaluate it. What was evaluated before it and may have side effects is kept, in front
of the raise; what would be evaluated behind it is dropped. Statements behind a raise statement
are unreachable and dropped as well. Each change is one step, with the events it reports.

Which handler catches a raise is known for builtin exceptions only. They compare by name, so a match
between two of them is decided before the program runs. A clause without types catches everything.
-/

namespace CompilerBackend

/-- The answer to a question about every run of the program. -/
inductive Verdict where
  | always | never | undecided
  deriving DecidableEq, Inhabited

inductive RaiseEvent where
  /-- A raise took the place of an expression. -/
  | lifted (place : Location)
  /-- A raise took the place of a statement. -/
  | becameStatement (place : Location)
  /-- Statements behind a raise were dropped. -/
  | unreachableDropped (place : Location)
  /-- A raise that opens a try block is caught by one of its handlers for certain. -/
  | knownHandler (place : Location)
  deriving DecidableEq, Inhabited

/-- The outcome of looking at a node or at many: the tree, whether it was changed, and the
events. -/
structure RaiseStep where
  tree : Tree
  changed : Bool := false
  events : List RaiseEvent := []

namespace Tree

/-! ## Which handler catches a raise -/

/-- The builtin exception that a raised type names, by reference or by creation. -/
def raisedName? (t : Tree) (id : NodeId) : Option String :=
  match t.expr? id with
  | some (.exception name) => some name
  | some (.makeException name _) => some name
  | _ => none

def caughtName? (t : Tree) (id : NodeId) : Option String :=
  match t.expr? id with
  | some (.exception name) => some name
  | _ => none

/-- Whether a clause that catches `caught` catches what is raised; without a raised type, the
exception being handled is raised again. -/
def catches (t : Tree) (caught : List NodeId) (raised : Option NodeId) : Verdict :=
  if caught.isEmpty then .always
  else
    match raised.bind t.raisedName? with
    | none => .undecided
    | some name =>
      let names := caught.map t.caughtName?
      if names.contains (some name) then .always
      else if names.all Option.isSome then .never
      else .undecided

/-! ## Steps -/

def isRaise (t : Tree) (id : NodeId) : Bool :=
  match t.expr? id with
  | some (.raise _ _ _) => true
  | _ => false

/-- Nodes that a raise among their children replaces. -/
def yieldsToRaise (t : Tree) (id : NodeId) : Bool :=
  match t.kind id with
  | .expr (.operation _ _) | .expr (.call _ _ _ _ _) => true
  | .stmt (.print _ _ _) | .stmt (.expression _) | .stmt (.raise _ _ _) => true
  | _ => false

def inSequence (t : Tree) (id : NodeId) : Bool :=
  ((t.parent id).bind t.sequence?).isSome

/-- The tree with further side effects in front of those of a raise expression. -/
def prependEffects (t : Tree) (raise : NodeId) (effects : List NodeId) : Tree :=
  match t.expr? raise with
  | some (.raise exceptionType value sideEffects) =>
    (t.setKind raise (.expr (.raise exceptionType value (effects ++ sideEffects)))).setParents
      effects (some raise)
  | _ => t

/-- Adds one expression statement for each expression, at the place of the expression. -/
def addEffectStatements (t : Tree) : List NodeId → Tree × List NodeId
  | [] => (t, [])
  | e :: rest =>
    let (t', ids) := (t.add (.stmt (.expression e)) (t.location e)).addEffectStatements rest
    (t', t.nextId :: ids)

/-- Adds the statements that do what a raise expression does: its side effects in order, then
the raise. -/
def addRaiseStatements (t : Tree) (raise : NodeId) : Tree × List NodeId :=
  match t.expr? raise with
  | some (.raise exceptionType value sideEffects) =>
    let (t', ids) := t.addEffectStatements sideEffects
    (t'.add (.stmt (.raise (some exceptionType) value none)) (t'.location raise),
      ids ++ [t'.nextId])
  | _ => (t, [])

/-- Cuts the evaluation of a node at its first child that raises. A statement is replaced only
where a sequence holds it. -/
def cutAtRaise (t : Tree) (id : NodeId) : RaiseStep :=
  match (t.children id).find? t.isRaise with
  | none => { tree := t }
  | some raise =>
    if (t.kind id).isStmt && !t.inSequence id then { tree := t }
    else
      let evaluated := (t.children id).takeWhile fun c => !t.isRaise c
      let t₁ := t.prependEffects raise (evaluated.filter t.mayHaveSideEffects)
      if (t.kind id).isExpr then
        { tree := t₁.replaceWith id raise, changed := true, events := [.lifted (t.location id)] }
      else
        let (t₂, statements) := t₁.addRaiseStatements raise
        match t₂.splice? id statements with
        | some t₃ =>
          { tree := t₃, changed := true, events := [.becameStatement (t.location id)] }
        | none => { tree := t₂ }

/-- The first handler of the try statement around a raise that catches it for certain, if the
raise opens the tried block. -/
def knownHandler? (t : Tree) (statement sequence : NodeId) : Option NodeId := do
  let tryNode ← t.parent sequence
  let .tryExcept tried handlers _ ← t.stmt? tryNode | none
  if tried != sequence then none
  let .raise exceptionType _ _ ← t.stmt? statement | none
  handlers.find? fun h =>
    (t.handler? h).any fun handler => t.catches handler.exceptionTypes exceptionType == .always

/-- Drops what follows a raise statement in its sequence; if nothing follows and the raise
comes first there, a handler that catches it for certain is reported. -/
def cutBehindRaise (t : Tree) (id : NodeId) : RaiseStep :=
  match t.parent id with
  | none => { tree := t }
  | some parent =>
    match t.sequence? parent with
    | none => { tree := t }
    | some statements =>
      match t.truncateAfter? id with
      | some t' =>
        { tree := t', changed := true, events := [.unreachableDropped (t.location id)] }
      | none =>
        if statements.head? = some id && (t.knownHandler? id parent).isSome then
          { tree := t, events := [.knownHandler (t.location id)] }
        else { tree := t }

/-- The step at a node; it changes nothing where no rule applies. -/
def stepAt (t : Tree) (id : NodeId) : RaiseStep :=
  if t.isRaise id then
    match t.parent id with
    | some parent => if t.yieldsToRaise parent then t.cutAtRaise parent else { tree := t }
    | none => { tree := t }
  else
    match t.stmt? id with
    | some (.raise _ _ _) => t.cutBehindRaise id
    | _ => { tree := t }

end Tree
end CompilerBackend
