import CompilerBackend.Tree.Arena
import CompilerBackend.Tree.Describe
/-!
# Walks down a tree

The pre-order of a subtree, computed with an explicit stack, and its dump, one indented line per
node in that order. Both follow child slots, so a node held in two places is visited twice.
A descent is as deep as the arena is large at most; the stack walk takes one step per visit.
-/

namespace CompilerBackend.Tree

/-- How many visits a descent from `id` makes, at most `n` levels deep. -/
def visits (t : Tree) : Nat → NodeId → Nat
  | 0, _ => 1
  | n + 1, id => (t.children id).foldr (fun c rest => t.visits n c + rest) 1

/-- Takes at most `n` nodes off the stack, its top first. The children of a node go on top of
the rest, the first one uppermost. -/
def walk (t : Tree) : Nat → List NodeId → List NodeId
  | 0, _ => []
  | _ + 1, [] => []
  | n + 1, id :: stack => id :: t.walk n (t.children id ++ stack)

def preOrder (t : Tree) (id : NodeId) : List NodeId :=
  t.walk (t.visits t.depthBound id) [id]

/-- The line of a node `depth` levels below the start of a dump. -/
def dumpLine (t : Tree) (depth : Nat) (id : NodeId) : String :=
  let n := t.node id
  let detail := match n.kind.detail? with
    | some d => " " ++ d
    | none => ""
  String.ofList (List.replicate (2 * depth) ' ') ++ n.kind.kindName ++ detail ++ " @" ++
    toString n.location.line ++ "\n"

/-- The lines of a subtree, at most `n` levels of it. -/
def dumpFrom (t : Tree) : Nat → Nat → NodeId → String
  | 0, _, _ => ""
  | n + 1, depth, id =>
    t.dumpLine depth id ++ String.join ((t.children id).map (t.dumpFrom n (depth + 1)))

def dump (t : Tree) (id : NodeId) : String :=
  t.dumpFrom t.depthBound 0 id

end CompilerBackend.Tree
