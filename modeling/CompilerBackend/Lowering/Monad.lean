import CompilerBackend.Failure
import CompilerBackend.Options.Basic
import CompilerBackend.Program
import CompilerBackend.Scopes
import CompilerBackend.Target.Operand
import CompilerBackend.Tree.Scope
import CompilerBackend.Tree.Walk
/-!
# Lowering

Lowering turns the nodes of a tree into target text. It reads the tree, the options and the
names of the module; it changes the program and the stack of scopes; and it can stop. The changes
made before a stop stay, since a program goes on to be used after one of its modules has failed.
A stop remembers the statements it went through on its way out, innermost first.
-/

namespace CompilerBackend

/-- What a lowering reads and never changes. -/
structure Setting where
  tree : Tree
  options : Options := {}
  /-- The dotted name of the module. -/
  moduleName : String
  /-- The name of the module as part of target names. -/
  codeName : String

structure Progress where
  program : Program := {}
  scopes : ScopeStack := {}
  deriving Inhabited

/-- A statement that a stop went through: the name of its kind and its place. -/
structure PathStep where
  kindName : String
  location : Location
  deriving DecidableEq, Inhabited

inductive Stop where
  /-- A node or its code is defective. -/
  | failed (failure : Failure) (path : List PathStep)
  /-- The nodes below one lead back to it, so there is no end to lowering it. -/
  | endless
  deriving DecidableEq, Inhabited

namespace Stop

def leaving (s : Stop) (step : PathStep) : Stop :=
  match s with
  | .failed failure path => .failed failure (path ++ [step])
  | .endless => .endless

/-- What is reported while the stop travels outward: the failure, then each statement. -/
def trail : Stop → List String
  | .failed failure path =>
    failure.message :: path.map fun s => "Problem with " ++ s.kindName ++ " at " ++ s.location.text
  | .endless => []

end Stop

abbrev Lower := ExceptT Stop (StateM Progress)

namespace Lower

def intern {α : Type} (step : Interning α) : Lower α :=
  ExceptT.mk fun s =>
    let (a, program) := step s.program
    (.ok a, { s with program })

def onScopes {α : Type} (step : ScopeStack → α × ScopeStack) : Lower α :=
  ExceptT.mk fun s =>
    let (a, scopes) := step s.scopes
    (.ok a, { s with scopes })

/-- A step within a scope of its own, which is closed however the step ends. -/
def inScope {α : Type} (kind : ScopeKind) (step : Lower α) : Lower α :=
  ExceptT.mk fun s =>
    let (r, s') := step.run { s with scopes := s.scopes.push kind }
    (r, { s' with scopes := s'.scopes.pop })

/-- A step for a statement of a sequence; a stop remembers the statement. -/
def within {α : Type} (step : PathStep) (body : Lower α) : Lower α :=
  ExceptT.mk fun s =>
    match body.run s with
    | (.ok a, s') => (.ok a, s')
    | (.error stop, s') => (.error (stop.leaving step), s')

def fail {α : Type} (t : Tree) (id : NodeId) (cause : Cause) : Lower α :=
  throw (.failed ⟨cause, t.location id, some (t.dump id)⟩ [])

end Lower

/-- The lowering of nodes, as far as their parents need it. The lowering of a node is
written in terms of this record; `CompilerBackend.Lowering.ModuleText` ties the knot. -/
structure Lowerer where
  /-- An expression as an operand. -/
  expression : NodeId → Lower Operand
  /-- An expression as a condition, or its opposite. -/
  condition : NodeId → Bool → Lower String
  /-- A statement sequence as lines. -/
  sequence : NodeId → Lower (List String)

namespace Lowerer

def endless : Lowerer where
  expression _ := throw .endless
  condition _ _ := throw .endless
  sequence _ := throw .endless

def optional (self : Lowerer) (id : Option NodeId) : Lower (Option Operand) :=
  match id with
  | some id => return some (← self.expression id)
  | none => return none

def expressions (self : Lowerer) : List NodeId → Lower (List Operand)
  | [] => return []
  | id :: rest => do
    let o ← self.expression id
    let os ← self.expressions rest
    return o :: os

def optionalSequence (self : Lowerer) (id : Option NodeId) : Lower (Option (List String)) :=
  match id with
  | some id => return some (← self.sequence id)
  | none => return none

end Lowerer
end CompilerBackend
