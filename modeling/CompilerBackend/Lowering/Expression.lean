import CompilerBackend.Target.Access
import CompilerBackend.Target.Builtin
import CompilerBackend.Target.Exception
import CompilerBackend.Lowering.Body
import CompilerBackend.Lowering.Part
/-!
# Expressions and conditions

An expression becomes an operand. Its parts are lowered in the order in which the target text
evaluates them, and constants are interned in the same order, so the numbers in handles follow
from the tree alone.
-/

namespace CompilerBackend.Lowering

open Target

def orConstant (self : Lowerer) (id : Option NodeId) (c : Constant) : Lower Operand :=
  match id with
  | some id => self.expression id
  | none => Lower.intern (constantFromTable c)

def evalFilename : EvalMode → String
  | .eval | .exec => "<string>"
  | .execFile => "<execfile>"

def evalMode : EvalMode → String
  | .eval => "eval"
  | .exec | .execFile => "exec"

/-- What running source text needs; the language switches are those at the node. -/
def evalParts (t : Tree) (self : Lowerer) (id : NodeId) (mode : EvalMode) (source : NodeId)
    (globals locals : Option NodeId) : Lower EvalParts := do
  let g ← orConstant self globals .none
  let l ← orConstant self locals .none
  let filename ← Lower.intern (constantFromTable (.str (evalFilename mode)))
  let mode ← Lower.intern (constantFromTable (.str (evalMode mode)))
  let o ← self.expression source
  return ⟨o, g, l, filename, mode, futureFlags (t.location id).future⟩

def importNames (names : Option (List String)) : Constant :=
  match names with
  | some names => .tuple (names.map Constant.str)
  | none => .none

/-- The operand of an expression, before its code is checked. -/
def expressionForm (s : Setting) (self : Lowerer) (id : NodeId) (e : Expr) : Lower Operand := do
  match e with
  | .variableRef _ _ | .temporaryRef _ =>
    let v ← boundVariable s.tree id
    return variableAccess s.codeName v
  | .constant value => Lower.intern (constantAccess value)
  | .operation operator operands =>
    let os ← self.expressions operands
    return operation operator os
  | .disjunction operands =>
    let os ← self.expressions operands
    return Target.disjunction os
  | .conjunction operands =>
    let os ← self.expressions operands
    return Target.conjunction os
  | .comparison comparator left right =>
    let l ← self.expression left
    let r ← self.expression right
    return Target.comparison comparator l r
  | .conditional condition yes no =>
    let c ← self.condition condition false
    let y ← self.expression yes
    let n ← self.expression no
    return choice c y n
  | .makeTuple elements => tuple s.tree self elements
  | .makeList elements => list s.tree self elements
  | .makeSet elements => set s.tree self elements
  | .makeDict pairs => dict s.tree self pairs
  | .call callee positional named starList starDict =>
    let f ← self.expression callee
    let arguments ←
      if positional.isEmpty then pure none else some <$> tuple s.tree self positional
    let names ← namedArguments s.tree self named
    let list ← self.optional starList
    let dict ← self.optional starDict
    return functionCall f arguments names list dict
  | .attributeOf source name =>
    let n ← Lower.intern (constantFromTable (.str (s.tree.attributeName name id)))
    let o ← self.expression source
    return attributeLookup n o
  | .specialAttributeOf source name =>
    let n ← Lower.intern (constantFromTable (.str name))
    let o ← self.expression source
    return specialAttributeLookup n o
  | .subscript source index =>
    let o ← self.expression source
    let i ← self.expression index
    return subscriptLookup o i
  | .slice source lower upper => sliceLookup s self source lower upper
  | .sliceObject lower upper step =>
    let l ← self.optional lower
    let u ← self.optional upper
    let st ← self.optional step
    return Target.sliceObject l u st
  | .function _ => functionObject s self id []
  | .functionDefaulted definition defaults => functionObject s self definition defaults
  | .classBody _ => classObject s self id []
  | .classBased classNode bases => classObject s self classNode bases
  | .yield value forReturn =>
    let v ← self.expression value
    return yielded v forReturn
  | .importModule name names level =>
    let globals := globalsDict s.codeName
    let locals ← importLocals s id globals
    let n ← Lower.intern (constantFromTable (.str name))
    let ns ← Lower.intern (constantFromTable (importNames names))
    let l ← Lower.intern (constantFromTable (.int level))
    return importModule n globals locals ns l
  | .builtinImport name fromList inGlobals inLocals level =>
    let globals ← match inGlobals with
      | some g => self.expression g
      | none => pure (globalsDict s.codeName)
    let locals ← match inLocals with
      | some l => self.expression l
      | none => importLocals s id globals
    let n ← self.expression name
    let ns ← orConstant self fromList .none
    let l ← orConstant self level (.int (-1))
    return importModule n globals locals ns l
  | .importName source name =>
    let n ← Lower.intern (constantFromTable (.str name))
    let o ← self.expression source
    return importName n o
  | .range low high step =>
    let l ← self.expression low
    let h ← self.optional high
    let st ← self.optional step
    return range l h st
  | .globals => return globalsDict s.codeName
  | .locals => localsAt s id
  | .dir =>
    let p ← scopeOf s.tree id
    Lower.intern (dirList s.codeName p)
  | .unaryBuiltin fn value =>
    let v ← self.expression value
    return unaryBuiltin fn v
  | .iterWithSentinel callable sentinel =>
    let c ← self.expression callable
    let st ← self.expression sentinel
    return iterWithSentinel c st
  | .nextWithDefault iterator default =>
    let i ← self.expression iterator
    let d ← self.expression default
    return nextWithDefault i d
  | .typeOfThree name bases namespaceDict =>
    let n ← self.expression name
    let b ← self.expression bases
    let d ← self.expression namespaceDict
    Lower.intern (typeOfThree s.moduleName n b d)
  | .integer kind value base =>
    if kind == .long && s.options.isThird then
      Lower.fail s.tree id (.unrecognisedNode Expr.longKindName)
    let v ← self.optional value
    let b ← self.optional base
    return integer kind v b
  | .dict positional named =>
    let p ← self.optional positional
    let n ← namedArguments s.tree self named
    return Target.dict p n
  | .openFile filename mode buffering =>
    let f ← self.optional filename
    let m ← self.optional mode
    let b ← self.optional buffering
    return openFile f m b
  | .eval mode source inGlobals inLocals =>
    let parts ← evalParts s.tree self id mode source inGlobals inLocals
    return evaluation parts
  | .raise exceptionType value sideEffects =>
    let effects ← self.expressions sideEffects
    let type ← self.expression exceptionType
    let v ← self.optional value
    return raiseExpression effects type v (tracebackMaker (s.tree.location id).line)
  | .makeException name arguments =>
    let os ← self.expressions arguments
    Lower.intern (exceptionCreation name os)
  | .builtin name => Lower.intern (builtinReference name)
  | .anonymousBuiltin name => return anonymousBuiltin name
  | .exception name => return exceptionReference name
  | .assignment target source =>
    let o ← self.expression source
    let v ← boundVariable s.tree target
    return assignmentExpression s.codeName v o
  | .caught part => return caughtPart part
  | .listAppend list value =>
    let l ← self.expression list
    let v ← self.expression value
    return listAppend l v
  | .setAdd set value =>
    let st ← self.expression set
    let v ← self.expression value
    return setAdd st v
  | .dictSet target key value =>
    let d ← self.expression target
    let v ← self.expression value
    let k ← self.expression key
    return dictSet d k v
  | .unpackNext iterator count =>
    let i ← self.expression iterator
    return unpackNext i count

/-- An expression as an operand whose code is neither empty nor blank at an end. -/
def expression (s : Setting) (self : Lowerer) (id : NodeId) : Lower Operand :=
  match s.tree.expr? id with
  | none => Lower.fail s.tree id (.notAnExpression (s.tree.kind id).kindName)
  | some e => do
    let o ← expressionForm s self id e
    match o.defect? with
    | some cause => Lower.fail s.tree id cause
    | none => return o

/-! ## Conditions

An expression that decides a branch becomes a condition of the target. Constants are decided at
once, comparisons need no object, selections become the target's own operators with short
circuit, and a negation turns the inversion around. Anything else is tested as an object. -/

def inverting (inverted : Bool) (condition : String) : String :=
  if inverted then Target.negation condition else condition

def conditions (self : Lowerer) : List NodeId → Lower (List String)
  | [] => return []
  | id :: rest => do
    let c ← self.condition id false
    let cs ← conditions self rest
    return c :: cs

/-- An expression as a condition, or as its opposite. -/
def condition (t : Tree) (self : Lowerer) (id : NodeId) (inverted : Bool) : Lower String := do
  match t.kind id with
  | .expr (.constant value) => return Target.truthCondition (value.truth != inverted)
  | .expr (.comparison comparator left right) => do
    let l ← self.expression left
    let r ← self.expression right
    return inverting inverted (Target.comparisonCondition comparator l r)
  | .expr (.disjunction operands) => do
    let parts ← conditions self operands
    return inverting inverted (Target.anyOf parts)
  | .expr (.conjunction operands) => do
    let parts ← conditions self operands
    return inverting inverted (Target.allOf parts)
  | .expr (.operation .not [operand]) => self.condition operand (!inverted)
  | _ => do
    let o ← self.expression id
    return Target.truthTest inverted o

end CompilerBackend.Lowering
