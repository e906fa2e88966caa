import CompilerBackend.Lowering.Part
import CompilerBackend.Target.Definition
/-!
# Functions and classes

The body of a function or class is lowered in a scope of its own; its texts are registered
with the scope around it, and the expression that makes the function or class is the operand.
Default values and base classes belong to the scope around the body and come first.
-/

namespace CompilerBackend.Lowering

open Target

/-- How the defaults of a function are reached: immutable constants directly; every other one
is computed where the function is made and read from the function object. -/
def defaultValues (t : Tree) (self : Lowerer) :
    List (NodeId × Variable) → Lower (List Operand × List Operand)
  | [] => return ([], [])
  | (id, v) :: rest =>
    match immutableConstant? t id with
    | some c => do
      let access ← Lower.intern (constantAccess c)
      let (accesses, values) ← defaultValues t self rest
      return (access :: accesses, values)
    | none => do
      let value ← self.expression id
      let (accesses, values) ← defaultValues t self rest
      return (defaultAccess v :: accesses, value :: values)

/-- A function with its default values, one for each parameter that has one. -/
def functionObject (s : Setting) (self : Lowerer) (id : NodeId) (defaults : List NodeId) :
    Lower Operand :=
  match s.tree.expr? id with
  | some (.function f) => do
    let parameters := f.parameters.defaulted
    if parameters.length != defaults.length then
      Lower.fail s.tree id (.mismatchedDefaults defaults.length parameters.length)
    let (accesses, values) ← defaultValues s.tree self (defaults.zip parameters)
    let codes ← Lower.inScope (.function f.codeName f.isGenerator) (self.optionalSequence f.body)
    let code ← Lower.intern
      (functionCode s.codeName f (s.tree.location id) accesses (codes.getD []))
    let declaration := functionDeclaration f.codeName values.length f.closureVariables
    Lower.onScopes fun scopes => ((), scopes.addFunction f.codeName ⟨declaration, code⟩)
    return functionCreation f.codeName values f.closureVariables
  | _ => Lower.fail s.tree id (.unrecognisedNode (s.tree.kind id).kindName)

def classObject (s : Setting) (self : Lowerer) (id : NodeId) (bases : List NodeId) :
    Lower Operand :=
  match s.tree.expr? id with
  | some (.classBody c) => do
    let bases ← tuple s.tree self bases
    let codes ← Lower.inScope (.classBody c.codeName c.name) (self.optionalSequence c.body)
    let body := codes.getD [] ++ [returnStatement liveLocals]
    let creation ← Lower.intern
      (classCreation c.name bases (classDictCreation c.codeName c.closureVariables))
    let code ← Lower.intern (classCode s.moduleName c (s.tree.location id) body)
    let declaration := classDeclaration c.codeName c.closureVariables
    Lower.onScopes fun scopes => ((), scopes.addClass c.codeName ⟨declaration, code⟩)
    return creation
  | _ => Lower.fail s.tree id (.unrecognisedNode (s.tree.kind id).kindName)

end CompilerBackend.Lowering
