import CompilerBackend.Raise.Step
import CompilerBackend.Tree.Walk
/-!
# Propagation of raises

Steps are taken until none changes the tree. A step can replace nodes that the traversal has
still to visit, so the traversal starts again from the root after each one. A pass is a whole
propagation; passes repeat until one changes nothing or their number is used up.
-/

namespace CompilerBackend

namespace RaiseStep

def after (s : RaiseStep) (earlier : List RaiseEvent) : RaiseStep :=
  { s with events := earlier ++ s.events }

end RaiseStep

namespace Tree

/-- Looks at nodes in order up to the first one where a step changes the tree. -/
def firstStep (t : Tree) : List NodeId → RaiseStep
  | [] => { tree := t }
  | id :: rest =>
    let s := t.stepAt id
    if s.changed then s else (s.tree.firstStep rest).after s.events

/-- Steps from the root, at most `n` of them. -/
def propagateFrom : Nat → Tree → RaiseStep
  | 0, t => { tree := t }
  | n + 1, t =>
    match t.root with
    | none => { tree := t }
    | some root =>
      let s := t.firstStep (t.preOrder root)
      if s.changed then { (propagateFrom n s.tree).after s.events with changed := true } else s

/-- More steps than a tree admits. Count every reachable node twice, but once if a sequence or an
expression statement holds it: each step makes the count smaller, so a tree admits at most two
steps for every node. The square leaves room for arenas in which nodes are shared. -/
def stepBound (t : Tree) : Nat := (2 * t.size + 2) * (2 * t.size + 2)

/-- Steps from the root until none changes the tree. -/
def propagateRaises (t : Tree) : RaiseStep := propagateFrom t.stepBound t

structure Passes where
  tree : Tree
  /-- The passes that changed the tree. -/
  count : Nat
  events : List RaiseEvent

/-- Passes until one changes nothing, at most `n` of them. -/
def passesFrom : Nat → Tree → Passes
  | 0, t => ⟨t, 0, []⟩
  | n + 1, t =>
    let s := t.propagateRaises
    if s.changed then
      let p := passesFrom n s.tree
      ⟨p.tree, p.count + 1, s.events ++ p.events⟩
    else ⟨s.tree, 0, s.events⟩

end Tree

inductive PassEnd where
  /-- All passes that were allowed changed the tree. -/
  | stopped (passes : Nat)
  /-- There were passes left. -/
  | finished (passes : Nat)
  deriving DecidableEq, Inhabited

def PassEnd.of (limit passes : Nat) : PassEnd :=
  if passes = limit then .stopped passes else .finished passes

/-! ## The log -/

inductive LogLevel where
  | debug | warn
  deriving DecidableEq, Inhabited

def LogLevel.name : LogLevel → String
  | .debug => "DEBUG"
  | .warn => "WARN"

/-- An entry of the log; changes of the tree carry tags. -/
structure LogEntry where
  level : LogLevel
  tags : Option String
  message : String
  deriving DecidableEq, Inhabited

def RaiseEvent.entry : RaiseEvent → LogEntry
  | .lifted place => ⟨.debug, some "new_raise", place.text ++
      ": Detected expression exception was propagated to expression upwards."⟩
  | .becameStatement place => ⟨.debug, some "new_raise new_statements", place.text ++
      ": Detected expression exception was converted to raise exception statement."⟩
  | .unreachableDropped place => ⟨.debug, some "new_raise new_statements", place.text ++
      ": Removed unreachable statements from statement sequence."⟩
  | .knownHandler place => ⟨.debug, none, place.text ++
      ": raise is caught by a known handler, branch left in place"⟩

def PassEnd.entry : PassEnd → LogEntry
  | .stopped n => ⟨.warn, none, "optimization stopped after " ++ toString n ++ " passes"⟩
  | .finished n => ⟨.debug, none, "optimization finished after " ++ toString n ++ " passes"⟩

/-- The log of at most `limit` passes: what each of them reports, and how they ended. -/
def Tree.passLog (t : Tree) (limit : Nat) : List LogEntry :=
  (t.passesFrom limit).events.map RaiseEvent.entry ++
    [(PassEnd.of limit (t.passesFrom limit).count).entry]

end CompilerBackend
