import CompilerBackend.Tree.Arena
/-!
# Edits of a tree

Replacing a node, a statement of a sequence, or the end of a sequence. The node taken out is
detached: its parent link is cleared, and it stays in the arena. An edit of a sequence that does
not apply gives `none`, so there is no half-done edit.
-/

namespace CompilerBackend.Tree

/-- The tree with `new` in the place of `old`, in the slots of its parent or as the root. -/
def replaceWith (t : Tree) (old new : NodeId) : Tree :=
  let parent := t.parent old
  let t' := match parent with
    | some p => t.setKind p ((t.kind p).redirect old new)
    | none => if t.root = some old then t.setRoot new else t
  (t'.setParent new parent).setParent old none

/-- The sequence that holds a statement, with the statements before and after it. -/
def sequenceAround? (t : Tree) (id : NodeId) : Option (NodeId × List NodeId × List NodeId) := do
  let p ← t.parent id
  let statements ← t.sequence? p
  if statements.contains id then
    some (p, statements.takeWhile (· != id), (statements.dropWhile (· != id)).drop 1)
  else none

/-- The tree with several statements in the place of one, if a sequence holds that one. -/
def splice? (t : Tree) (old : NodeId) (new : List NodeId) : Option Tree := do
  let (p, before, after) ← t.sequenceAround? old
  let t' := t.setKind p (.sequence (before ++ new ++ after))
  some ((t'.setParents new (some p)).setParent old none)

/-- The tree without the statements that follow one in its sequence, if there are any. -/
def truncateAfter? (t : Tree) (id : NodeId) : Option Tree := do
  let (p, before, after) ← t.sequenceAround? id
  if after.isEmpty then none
  else
    let t' := t.setKind p (.sequence (before ++ [id]))
    some (t'.setParents after none)

/-! ## Edits in place -/

def adoptAll (p : Option NodeId) (ids : List NodeId) : StateM Tree Unit :=
  ids.forM fun id => modify (·.setParent id p)

/-- The splice as a program on one arena, which answers whether it was made. -/
def spliceInPlace (old : NodeId) (news : List NodeId) : StateM Tree Bool := do
  let some p := (← get).parent old | return false
  let some statements := (← get).sequence? p | return false
  if statements.contains old then
    let before := statements.takeWhile (· != old)
    let after := (statements.dropWhile (· != old)).drop 1
    modify (·.setKind p (.sequence (before ++ news ++ after)))
    adoptAll (some p) news
    modify (·.setParent old none)
    return true
  else return false

/-- The cut as a program on one arena, which answers whether it was made. -/
def truncateInPlace (id : NodeId) : StateM Tree Bool := do
  let some p := (← get).parent id | return false
  let some statements := (← get).sequence? p | return false
  if statements.contains id then
    let after := (statements.dropWhile (· != id)).drop 1
    if after.isEmpty then return false
    modify (·.setKind p (.sequence (statements.takeWhile (· != id) ++ [id])))
    adoptAll none after
    return true
  else return false

end CompilerBackend.Tree
