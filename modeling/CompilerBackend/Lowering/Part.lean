import CompilerBackend.Lowering.Monad
import CompilerBackend.Target.Access
import CompilerBackend.Target.Operation
import CompilerBackend.Target.Storage
import CompilerBackend.Tree.Property
/-!
# References, containers and slices

What a reference is bound to, and which scope a node belongs to. A reference that name
resolution has missed stops the lowering, and so does a node outside of all scopes.

A container all of whose parts are immutable constants is a constant of the program; any other
one is built element by element.

Where the version slices natively, a slice whose bounds are absent or small integer constants
takes native bounds; other bounds go in as objects. Where it does not, a slice is a subscript
with a slice object. A deletion with other bounds takes a slice object in any version.
-/

namespace CompilerBackend.Lowering

/-! ## References -/

def boundVariable (t : Tree) (id : NodeId) : Lower Variable :=
  match t.expr? id with
  | some (.variableRef _ (some v)) => return v
  | some (.temporaryRef v) => return v
  | some (.variableRef name none) => Lower.fail t id (.unresolvedVariable name)
  | some e => Lower.fail t id (.unrecognisedNode e.kindName)
  | none => Lower.fail t id (.notAnExpression (t.kind id).kindName)

def scopeOf (t : Tree) (id : NodeId) : Lower Provider :=
  match t.scope? id with
  | some p => return p
  | none => Lower.fail t id (.unrecognisedNode (t.kind id).kindName)

/-- The locals at a node: live in a class, a module or an unoptimized function, a copy
elsewhere. -/
def localsAt (s : Setting) (id : NodeId) : Lower Operand := do
  let p ← scopeOf s.tree id
  Lower.intern (Target.localsDict s.codeName p (if p.hasLiveLocals then .live else .copy))

/-- The locals that an import at a node sees: at module level the globals serve as locals. -/
def importLocals (s : Setting) (id : NodeId) (globals : Operand) : Lower Operand := do
  let p ← scopeOf s.tree id
  if p.isModule then return globals else localsAt s id

/-! ## Containers -/

def immutableConstant? (t : Tree) (id : NodeId) : Option Constant :=
  (t.constant? id).filter fun c => !c.isMutable

def immutableConstants? (t : Tree) : List NodeId → Option (List Constant)
  | [] => some []
  | id :: rest => do
    let c ← immutableConstant? t id
    let cs ← immutableConstants? t rest
    return c :: cs

def container (t : Tree) (self : Lowerer) (fold : List Constant → Constant)
    (build : List Operand → Interning Operand) (elements : List NodeId) : Lower Operand :=
  match immutableConstants? t elements with
  | some cs => Lower.intern (Target.constantFromTable (fold cs))
  | none => do
    let os ← self.expressions elements
    Lower.intern (build os)

def tuple (t : Tree) (self : Lowerer) (elements : List NodeId) : Lower Operand :=
  container t self .tuple Target.tupleCreation elements

def list (t : Tree) (self : Lowerer) (elements : List NodeId) : Lower Operand :=
  container t self .list Target.listCreation elements

def set (t : Tree) (self : Lowerer) (elements : List NodeId) : Lower Operand :=
  container t self .set (fun os => return Target.setCreation os) elements

/-- A dict: all keys are lowered before all values. -/
def dict (t : Tree) (self : Lowerer) (pairs : List (NodeId × NodeId)) : Lower Operand :=
  let keys := pairs.map (·.1)
  let values := pairs.map (·.2)
  match immutableConstants? t keys, immutableConstants? t values with
  | some ks, some vs => Lower.intern (Target.constantFromTable (.dict (ks.zip vs)))
  | _, _ => do
    let ks ← self.expressions keys
    let vs ← self.expressions values
    Lower.intern (Target.dictCreation ks vs)

def namedArguments (t : Tree) (self : Lowerer) (pairs : List (NodeId × NodeId)) :
    Lower (Option Operand) :=
  if pairs.isEmpty then return none
  else return some (← dict t self pairs)

/-! ## Slices -/

def isNativeBound (t : Tree) (bound : Option NodeId) : Bool :=
  bound.all t.isIndexable

def hasNativeBounds (s : Setting) (lower upper : Option NodeId) : Bool :=
  s.options.hasSlicing && isNativeBound s.tree lower && isNativeBound s.tree upper

def bound (t : Tree) (self : Lowerer) (id : Option NodeId) (absent : String) : Lower String :=
  match id with
  | none => return absent
  | some id =>
    match (t.constant? id).bind Constant.smallIndex? with
    | some value => return Target.constantBound value
    | none => return Target.computedBound (← self.expression id)

def bounds (t : Tree) (self : Lowerer) (lower upper : Option NodeId) :
    Lower (String × String) := do
  let l ← bound t self lower Target.openLowerBound
  let u ← bound t self upper Target.openUpperBound
  return (l, u)

def boundObjects (self : Lowerer) (lower upper : Option NodeId) :
    Lower (Option Operand × Option Operand) := do
  let l ← self.optional lower
  let u ← self.optional upper
  return (l, u)

def sliceObject (self : Lowerer) (lower upper : Option NodeId) : Lower Operand := do
  let (l, u) ← boundObjects self lower upper
  return Target.sliceObject l u none

def sliceLookup (s : Setting) (self : Lowerer) (source : NodeId)
    (lower upper : Option NodeId) : Lower Operand := do
  let o ← self.expression source
  if hasNativeBounds s lower upper then
    let (l, u) ← bounds s.tree self lower upper
    return Target.indexedSliceLookup o l u
  else if s.options.hasSlicing then
    let (l, u) ← boundObjects self lower upper
    return Target.sliceLookup o l u
  else
    let index ← sliceObject self lower upper
    return Target.subscriptLookup o index

def sliceAssignment (s : Setting) (self : Lowerer) (source : NodeId)
    (lower upper : Option NodeId) (value : Operand) : Lower String := do
  let o ← self.expression source
  if hasNativeBounds s lower upper then
    let (l, u) ← bounds s.tree self lower upper
    return Target.indexedSliceAssignment o l u value
  else if s.options.hasSlicing then
    let (l, u) ← boundObjects self lower upper
    return Target.sliceAssignment o l u value
  else
    let index ← sliceObject self lower upper
    return Target.subscriptAssignment o index value

def sliceDeletion (s : Setting) (self : Lowerer) (source : NodeId)
    (lower upper : Option NodeId) : Lower String := do
  let o ← self.expression source
  if hasNativeBounds s lower upper then
    let (l, u) ← bounds s.tree self lower upper
    return Target.indexedSliceDeletion o l u
  else
    let index ← sliceObject self lower upper
    return Target.subscriptDeletion o index

end CompilerBackend.Lowering
