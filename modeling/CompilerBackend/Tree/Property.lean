import CompilerBackend.Tree.Arena
/-!
# Static properties

Conservative answers about what running a node can do: an expression has side effects or may
raise unless its kind and its parts rule that out, and a statement is abortative only when
control cannot go on behind it.
-/

namespace CompilerBackend

/-- What the evaluation of an expression kind itself can do beyond that of its children. -/
inductive Effect where
  /-- Nothing, and there are no children to evaluate. -/
  | silent
  /-- Nothing of its own. -/
  | ofChildren
  /-- Anything. -/
  | own
  deriving DecidableEq

/-- Reading names, constants and the caught exception is silent; building containers and
choosing among operands adds nothing of its own. -/
def Expr.effect : Expr → Effect
  | .constant _ | .variableRef _ _ | .temporaryRef _ | .builtin _ | .anonymousBuiltin _
  | .exception _ | .caught _ | .globals | .locals | .dir => .silent
  | .makeTuple _ | .makeList _ | .makeSet _ | .makeDict _ | .disjunction _ | .conjunction _
  | .conditional _ _ _ | .sliceObject _ _ _ | .makeException _ _ => .ofChildren
  | _ => .own

namespace Tree

def isImmutableConstant (t : Tree) (id : NodeId) : Bool :=
  (t.constant? id).any fun c => !c.isMutable

def isMutableConstant (t : Tree) (id : NodeId) : Bool :=
  (t.constant? id).any Constant.isMutable

def isIndexable (t : Tree) (id : NodeId) : Bool :=
  ((t.constant? id).bind Constant.smallIndex?).isSome

/-- Whether evaluating a node may have side effects, looking at most `n` levels deep. -/
def mayHaveSideEffectsFrom (t : Tree) : Nat → NodeId → Bool
  | 0, _ => true
  | n + 1, id =>
    match t.expr? id with
    | none => true
    | some e =>
      match e.effect with
      | .silent => false
      | .ofChildren => e.children.any (t.mayHaveSideEffectsFrom n)
      | .own => true

def mayHaveSideEffects (t : Tree) (id : NodeId) : Bool :=
  t.mayHaveSideEffectsFrom t.depthBound id

/-- Whether evaluating a node may raise, looking at most `n` levels deep. Hashing an element of
a set or a key of a dict may raise unless it is an immutable constant; looking up a variable may
raise because it may be unset. -/
def mayRaiseFrom (t : Tree) : Nat → NodeId → Bool
  | 0, _ => true
  | n + 1, id =>
    match t.expr? id with
    | none => true
    | some e =>
      match e with
      | .constant _ | .temporaryRef _ | .builtin _ | .anonymousBuiltin _ | .exception _
      | .caught _ | .globals | .function _ => false
      | .makeTuple elements => elements.any (t.mayRaiseFrom n)
      | .makeList elements => elements.any (t.mayRaiseFrom n)
      | .makeSet elements =>
        elements.any fun c => !t.isImmutableConstant c || t.mayRaiseFrom n c
      | .makeDict pairs =>
        pairs.any fun (k, v) => !t.isImmutableConstant k || t.mayRaiseFrom n v
      | .makeException _ arguments => arguments.any (t.mayRaiseFrom n)
      | _ => true

def mayRaise (t : Tree) (id : NodeId) : Bool :=
  t.mayRaiseFrom t.depthBound id

/-- Whether control never goes on behind a statement or sequence, looking at most `n` levels
deep. -/
def isAbortativeFrom (t : Tree) : Nat → NodeId → Bool
  | 0, _ => false
  | n + 1, id =>
    match t.kind id with
    | .sequence statements => statements.any (t.isAbortativeFrom n)
    | .stmt s =>
      match s with
      | .returnValue _ | .raise _ _ _ | .breakLoop _ | .continueLoop _ => true
      | .conditional _ yes no =>
        yes.any (t.isAbortativeFrom n) && no.any (t.isAbortativeFrom n)
      | .tryFinally tried final => t.isAbortativeFrom n tried || t.isAbortativeFrom n final
      | .block body => t.isAbortativeFrom n body
      | _ => false
    | _ => false

/-- Whether control never goes on behind a statement or sequence. -/
def isAbortative (t : Tree) (id : NodeId) : Bool :=
  t.isAbortativeFrom t.depthBound id

end Tree
end CompilerBackend
