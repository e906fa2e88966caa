import CompilerBackend.Failure
import CompilerBackend.Tree.Slots
/-!
# The arena of a program tree

A tree is an array of nodes with links to their parents and an optional root. Adding a node
makes it the parent of its children, so a node that several others name belongs to the one
added last. Detached nodes stay in the arena; ids are never reused.
-/

namespace CompilerBackend

/-- A node: what it is, which node holds it, and where it came from. -/
structure Node where
  kind : NodeKind
  parent : Option NodeId
  location : Location
  deriving Inhabited

/-- What an id outside the arena stands for: a sequence without statements. -/
def Node.absent : Node := ⟨.sequence [], none, Location.null⟩

structure Tree where
  nodes : Array Node := #[]
  root : Option NodeId := none
  deriving Inhabited

namespace Tree

def size (t : Tree) : Nat := t.nodes.size

def node (t : Tree) (id : NodeId) : Node :=
  t.nodes.getD id.index Node.absent

def kind (t : Tree) (id : NodeId) : NodeKind := (t.node id).kind

def parent (t : Tree) (id : NodeId) : Option NodeId := (t.node id).parent

def location (t : Tree) (id : NodeId) : Location := (t.node id).location

def children (t : Tree) (id : NodeId) : List NodeId := (t.kind id).children

def expr? (t : Tree) (id : NodeId) : Option Expr := (t.kind id).expr?

def stmt? (t : Tree) (id : NodeId) : Option Stmt := (t.kind id).stmt?

def sequence? (t : Tree) (id : NodeId) : Option (List NodeId) := (t.kind id).sequence?

def handler? (t : Tree) (id : NodeId) : Option Handler := (t.kind id).handler?

def module? (t : Tree) (id : NodeId) : Option Module := (t.kind id).module?

def constant? (t : Tree) (id : NodeId) : Option Constant := (t.kind id).constant?

def modifyNode (t : Tree) (id : NodeId) (f : Node → Node) : Tree :=
  { t with nodes := t.nodes.modify id.index f }

def setKind (t : Tree) (id : NodeId) (k : NodeKind) : Tree :=
  t.modifyNode id fun n => { n with kind := k }

def setParent (t : Tree) (id : NodeId) (p : Option NodeId) : Tree :=
  t.modifyNode id fun n => { n with parent := p }

def setParents (t : Tree) (ids : List NodeId) (p : Option NodeId) : Tree :=
  ids.foldl (fun t id => t.setParent id p) t

def setRoot (t : Tree) (id : NodeId) : Tree := { t with root := some id }

def nextId (t : Tree) : NodeId := ⟨t.size⟩

/-- The tree with one more node, which becomes the parent of its children. -/
def add (t : Tree) (k : NodeKind) (l : Location) : Tree :=
  let t' := t.setParents k.children (some t.nextId)
  { t' with nodes := t'.nodes.push ⟨k, none, l⟩ }

/-- How many nodes a path down the tree can have before it repeats one, an id outside the arena
at its end included. -/
def depthBound (t : Tree) : Nat := t.size + 1

end Tree
end CompilerBackend
