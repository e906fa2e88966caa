import CompilerBackend.Tree.Arena
/-!
# Scopes

What encloses a node, found by following parent links upward. Modules, functions and classes
provide variables; the nearest of them is the scope of a node. A node that is itself a function
or class belongs to the scope around it, and so do default values and base classes, which are
not below the body.
-/

namespace CompilerBackend

inductive Provider where
  | module (m : Module)
  | function (f : FunctionBody)
  | classBody (c : ClassBody)

namespace Provider

def isModule : Provider → Bool
  | .module _ => true
  | _ => false

def isClass : Provider → Bool
  | .classBody _ => true
  | _ => false

/-- Whether the locals live in a dict that reads and writes go through. -/
def hasLiveLocals : Provider → Bool
  | .module _ | .classBody _ => true
  | .function f => f.isUnoptimized

end Provider

def NodeKind.provider? : NodeKind → Option Provider
  | .module m => some (.module m)
  | .expr (.function f) => some (.function f)
  | .expr (.classBody c) => some (.classBody c)
  | _ => none

namespace Tree

/-- The chain of parents starting with `id`, at most `n` long. -/
def chainFrom (t : Tree) : Nat → Option NodeId → List NodeId
  | 0, _ => []
  | _ + 1, none => []
  | n + 1, some id => id :: t.chainFrom n (t.parent id)

def ancestors (t : Tree) (id : NodeId) : List NodeId :=
  t.chainFrom t.depthBound (t.parent id)

def provider? (t : Tree) (id : NodeId) : Option Provider := (t.kind id).provider?

def enclosingProvider? (t : Tree) (id : NodeId) : Option NodeId :=
  (t.ancestors id).find? fun a => (t.provider? a).isSome

def scope? (t : Tree) (id : NodeId) : Option Provider :=
  (t.enclosingProvider? id).bind t.provider?

/-- The enclosing function, unless a class or the module comes first. -/
def enclosingFunction? (t : Tree) (id : NodeId) : Option FunctionBody :=
  match t.scope? id with
  | some (.function f) => some f
  | _ => none

def enclosingModule? (t : Tree) (id : NodeId) : Option Module :=
  (t.ancestors id).findSome? t.module?

/-- Whether an exception handler encloses the node within its scope, so that the exception to
raise again is at hand there. -/
def isHandlerLocal (t : Tree) (id : NodeId) : Bool :=
  let decided := (t.ancestors id).findSome? fun a =>
    match t.kind a with
    | .handler _ => some true
    | k => k.provider?.map fun _ => false
  decided.getD false

/-- The innermost class or function that encloses the node, if it is a class. Modules and
everything else are passed over. -/
def enclosingClass? (t : Tree) (id : NodeId) : Option ClassBody :=
  let decided := (t.ancestors id).findSome? fun a =>
    match t.kind a with
    | .expr (.classBody c) => some (some c)
    | .expr (.function _) => some none
    | _ => none
  decided.join

/-- Private names start with two underscores and do not end with two. -/
def isPrivateName (name : String) : Bool :=
  name.toList.take 2 == ['_', '_'] && name.toList.reverse.take 2 != ['_', '_']

/-- The attribute name in use at a node: a private name gets the name of the class whose body
the node stands in, unless a function comes in between. -/
def attributeName (t : Tree) (name : String) (id : NodeId) : String :=
  if isPrivateName name then
    match t.enclosingClass? id with
    | some c => "_" ++ c.name ++ name
    | none => name
  else name

end Tree
end CompilerBackend
