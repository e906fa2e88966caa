import CompilerBackend.Tree.Arena
/-!
# Building a tree

A tree is built bottom-up: children before the node that holds them. The builder keeps the
location that new nodes get until it is told another one.
-/

namespace CompilerBackend

/-- A tree under construction, with the location of the next node. -/
structure Builder where
  tree : Tree := {}
  location : Location
  deriving Inhabited

namespace Builder

/-- An empty tree whose nodes will come from the first line of a file. -/
def ofFile (file : String) : Builder := { location := { file, line := 1 } }

def atLine (b : Builder) (line : Nat) : Builder := { b with location := b.location.atLine line }

def atLocation (b : Builder) (l : Location) : Builder := { b with location := l }

def add (b : Builder) (k : NodeKind) : Builder := { b with tree := b.tree.add k b.location }

def addModule (b : Builder) (name : String) (body : Option NodeId) : Builder :=
  let id := b.tree.nextId
  let b' := b.add (.module { name, filename := b.location.file, body })
  { b' with tree := b'.tree.setRoot id }

end Builder

/-- A function without parameters, closure or generator behaviour. -/
def FunctionBody.plain (name : String) (body : Option NodeId) : FunctionBody :=
  { name, codeName := "function_" ++ name, body }

def ClassBody.plain (name : String) (body : Option NodeId) : ClassBody :=
  { name, codeName := "class_" ++ name, body }

def Expr.boundRef (name : String) (kind : VariableKind) : Expr :=
  .variableRef name (some ⟨name, kind⟩)

def Expr.plainCall (callee : NodeId) (positional : List NodeId) : Expr :=
  .call callee positional [] none none

end CompilerBackend
