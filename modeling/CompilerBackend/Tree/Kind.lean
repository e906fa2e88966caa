import CompilerBackend.Constant.Literal
import CompilerBackend.Tree.Operator
/-!
# Node kinds

Every node of a program tree is a module, a statement sequence, an exception handler, an
expression or a statement. A node names its children by id; the arena that resolves the ids is
in `CompilerBackend.Tree.Arena`.
-/

namespace CompilerBackend

structure NodeId where
  index : Nat
  deriving DecidableEq, Inhabited

inductive VariableKind where
  | functionLocal | parameter | closure | moduleGlobal | classLocal | temporary
  deriving DecidableEq, Inhabited

structure Variable where
  name : String
  kind : VariableKind
  deriving DecidableEq, Inhabited

def Variable.isGlobal (v : Variable) : Bool := v.kind == .moduleGlobal

def Variable.isTemporary (v : Variable) : Bool := v.kind == .temporary

structure Parameters where
  positional : List Variable := []
  /-- So many positional parameters at the end have default values. -/
  defaultCount : Nat := 0
  listStar : Option Variable := none
  dictStar : Option Variable := none
  deriving DecidableEq, Inhabited

/-- The positional parameters with default values: never more than there are. -/
def Parameters.defaulted (p : Parameters) : List Variable :=
  p.positional.drop (p.positional.length - p.defaultCount)

/-- All parameters: the positional ones, then the two that collect the rest. -/
def Parameters.all (p : Parameters) : List Variable :=
  p.positional ++ p.listStar.toList ++ p.dictStar.toList

structure FunctionBody where
  name : String
  codeName : String
  doc : Option String := none
  parameters : Parameters := {}
  closureVariables : List Variable := []
  userVariables : List Variable := []
  temporaries : List Variable := []
  /-- A statement sequence. -/
  body : Option NodeId := none
  isGenerator : Bool := false
  /-- The locals live in a dict, because the body can add names to them. -/
  isUnoptimized : Bool := false
  deriving DecidableEq, Inhabited

/-- A class definition; running its body makes the dict of the class. -/
structure ClassBody where
  name : String
  codeName : String
  doc : Option String := none
  closureVariables : List Variable := []
  classVariables : List Variable := []
  temporaries : List Variable := []
  /-- A statement sequence. -/
  body : Option NodeId := none
  deriving DecidableEq, Inhabited

structure Module where
  name : String
  package : Option String := none
  filename : String
  doc : Option String := none
  /-- The search path of a package. -/
  path : Option (List String) := none
  globals : List Variable := []
  temporaries : List Variable := []
  /-- A statement sequence. -/
  body : Option NodeId := none
  deriving DecidableEq, Inhabited

def Module.fullName (m : Module) : String :=
  match m.package with
  | some package => package ++ "." ++ m.name
  | none => m.name

structure Handler where
  /-- Empty for a clause that catches everything. -/
  exceptionTypes : List NodeId := []
  target : Option NodeId := none
  branch : Option NodeId := none
  deriving DecidableEq, Inhabited

inductive Expr where
  /-- A name; without a binding, name resolution has missed it. -/
  | variableRef (name : String) (binding : Option Variable)
  | temporaryRef (binding : Variable)
  | constant (value : Constant)
  | operation (operator : Operator) (operands : List NodeId)
  | disjunction (operands : List NodeId)
  | conjunction (operands : List NodeId)
  | comparison (comparator : Comparator) (left right : NodeId)
  | conditional (condition yes no : NodeId)
  | makeTuple (elements : List NodeId)
  | makeList (elements : List NodeId)
  | makeSet (elements : List NodeId)
  | makeDict (pairs : List (NodeId × NodeId))
  | call (callee : NodeId) (positional : List NodeId) (named : List (NodeId × NodeId))
      (starList starDict : Option NodeId)
  | attributeOf (source : NodeId) (name : String)
  | specialAttributeOf (source : NodeId) (name : String)
  | subscript (source index : NodeId)
  | slice (source : NodeId) (lower upper : Option NodeId)
  | sliceObject (lower upper step : Option NodeId)
  | function (body : FunctionBody)
  | functionDefaulted (definition : NodeId) (defaults : List NodeId)
  | classBody (body : ClassBody)
  | classBased (classNode : NodeId) (bases : List NodeId)
  /-- With `forReturn` it delivers the value of a generator expression. -/
  | yield (value : NodeId) (forReturn : Bool)
  | importModule (name : String) (names : Option (List String)) (level : Int)
  | builtinImport (name : NodeId) (fromList inGlobals inLocals level : Option NodeId)
  | importName (source : NodeId) (name : String)
  | range (low : NodeId) (high step : Option NodeId)
  | globals
  | locals
  | dir
  | unaryBuiltin (fn : UnaryBuiltin) (value : NodeId)
  | iterWithSentinel (callable sentinel : NodeId)
  | nextWithDefault (iterator default : NodeId)
  | typeOfThree (name bases namespaceDict : NodeId)
  | integer (kind : IntegerKind) (value base : Option NodeId)
  | dict (positional : Option NodeId) (named : List (NodeId × NodeId))
  | openFile (filename mode buffering : Option NodeId)
  | eval (mode : EvalMode) (source : NodeId) (inGlobals inLocals : Option NodeId)
  /-- Raises an exception; the side effects are evaluated first, in order. -/
  | raise (exceptionType : NodeId) (value : Option NodeId) (sideEffects : List NodeId)
  | makeException (name : String) (arguments : List NodeId)
  | builtin (name : String)
  | anonymousBuiltin (name : String)
  | exception (name : String)
  | assignment (target source : NodeId)
  | caught (part : CaughtPart)
  | listAppend (list value : NodeId)
  | setAdd (set value : NodeId)
  | dictSet (target key value : NodeId)
  | unpackNext (iterator : NodeId) (count : Nat)
  deriving Inhabited

inductive Stmt where
  | assign (target source : NodeId)
  | assignAttribute (source : NodeId) (name : String) (value : NodeId)
  | assignSubscript (subscribed subscript value : NodeId)
  | assignSlice (source : NodeId) (lower upper : Option NodeId) (value : NodeId)
  | delete (target : NodeId)
  | deleteAttribute (source : NodeId) (name : String)
  | deleteSubscript (subscribed subscript : NodeId)
  | deleteSlice (source : NodeId) (lower upper : Option NodeId)
  | block (body : NodeId)
  | expression (value : NodeId)
  | print (destination : Option NodeId) (values : List NodeId) (newline : Bool)
  | returnValue (value : NodeId)
  /-- With `unwinds`, leaving or repeating the loop crosses a final block. -/
  | loop (body : Option NodeId) (unwinds : Bool)
  | conditional (condition : NodeId) (yes no : Option NodeId)
  | continueLoop (unwinds : Bool)
  | breakLoop (unwinds : Bool)
  | importStar (source : NodeId)
  | tryFinally (tried final : NodeId)
  | tryExcept (tried : NodeId) (handlers : List NodeId) (noRaise : Option NodeId)
  /-- Without a type it raises the exception being handled once more. -/
  | raise (exceptionType value traceback : Option NodeId)
  | exec (source : NodeId) (inGlobals inLocals : Option NodeId)
  | execInline (body : NodeId)
  | unpackCheck (iterator : NodeId) (count : Nat)
  | declareGlobal (names : List String)
  deriving DecidableEq, Inhabited

inductive NodeKind where
  | module (m : Module)
  | sequence (statements : List NodeId)
  | handler (h : Handler)
  | expr (e : Expr)
  | stmt (s : Stmt)
  deriving Inhabited

namespace NodeKind

def isExpr : NodeKind → Bool
  | .expr _ => true
  | _ => false

def isStmt : NodeKind → Bool
  | .stmt _ => true
  | _ => false

def expr? : NodeKind → Option Expr
  | .expr e => some e
  | _ => none

def stmt? : NodeKind → Option Stmt
  | .stmt s => some s
  | _ => none

def sequence? : NodeKind → Option (List NodeId)
  | .sequence statements => some statements
  | _ => none

def handler? : NodeKind → Option Handler
  | .handler h => some h
  | _ => none

def module? : NodeKind → Option Module
  | .module m => some m
  | _ => none

def constant? : NodeKind → Option Constant
  | .expr (.constant value) => some value
  | _ => none

end NodeKind
end CompilerBackend
