import CompilerBackend.Target.Assembly
import CompilerBackend.Lowering.Statement
/-!
# The whole lowering

The lowerings of one node, put together for all depths. A step down the tree takes one level,
and one more where a condition falls back to the expression of the same node; a tree of `n`
nodes has no path longer than `n`, so `2 n` levels reach every node. Deeper than that only a
node below itself can lead, and then there is nothing to return.

A module is lowered with scopes of its own over the program that all modules share. Its
documentation, file name and search path are constants as well, interned after its body.
-/

namespace CompilerBackend

/-! ## All depths -/

def Lowerer.over (s : Setting) (self : Lowerer) : Lowerer where
  expression := Lowering.expression s self
  condition := Lowering.condition s.tree self
  sequence := Lowering.sequence s self

def Lowerer.ofDepth (s : Setting) : Nat → Lowerer
  | 0 => Lowerer.endless
  | n + 1 => Lowerer.over s (Lowerer.ofDepth s n)

namespace Setting

def depthBound (s : Setting) : Nat := 2 * s.tree.depthBound

def lowerer (s : Setting) : Lowerer := Lowerer.ofDepth s s.depthBound

def statement (s : Setting) (id : NodeId) : Lower String :=
  Lowering.statement s s.lowerer id

def functionObject (s : Setting) (id : NodeId) (defaults : List NodeId) : Lower Operand :=
  Lowering.functionObject s s.lowerer id defaults

def classObject (s : Setting) (id : NodeId) (bases : List NodeId) : Lower Operand :=
  Lowering.classObject s s.lowerer id bases

def tuple (s : Setting) (elements : List NodeId) : Lower Operand :=
  Lowering.tuple s.tree s.lowerer elements

end Setting

/-! ## Modules -/

namespace Lowering

open Target

def docConstant (doc : Option String) : Constant :=
  match doc with
  | some text => .str text
  | none => .none

def pathOperand (path : Option (List String)) : Interning (Option Operand) :=
  match path with
  | some entries => return some (← constantFromTable (.list (entries.map Constant.str)))
  | none => return none

def finishModule (m : Module) (moduleName : String) (scope : Scope) (codes : List String) :
    Interning String := do
  let doc ← constantFromTable (docConstant m.doc)
  let filename ← constantFromTable (.str m.filename)
  let path ← pathOperand m.path
  moduleText m moduleName doc filename path scope codes

def moduleAt (s : Setting) (id : NodeId) : Lower String :=
  match s.tree.module? id with
  | none => Lower.fail s.tree id (.notAModule (s.tree.kind id).kindName)
  | some m => do
    let codes ← s.lowerer.optionalSequence m.body
    let scope ← Lower.onScopes fun scopes => (scopes.bottom, scopes)
    Lower.intern (finishModule m s.moduleName scope (codes.getD []))

end Lowering

/-- The text of a module under a dotted name, and the program after it. -/
def Tree.moduleText (t : Tree) (options : Options) (id : NodeId) (moduleName : String)
    (program : Program) : Except Stop String × Program :=
  let s : Setting := ⟨t, options, moduleName, Target.moduleIdentifier moduleName⟩
  let (r, progress) := (Lowering.moduleAt s id).run ⟨program, {}⟩
  (r, progress.program)

end CompilerBackend
