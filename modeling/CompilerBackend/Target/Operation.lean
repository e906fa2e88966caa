import CompilerBackend.Program
import CompilerBackend.Tree.Operator
import CompilerBackend.Target.Operand
/-!
# Containers, operations and conditions

The target text of containers built element by element, of operators and comparisons, and of
the tests that branches are decided by.
-/

namespace CompilerBackend.Target

open Text

/-! ## Containers -/

def tupleCreation (elements : List Operand) : Interning Operand := do
  recordTuple elements.length
  return .owned (applied ("MAKE_TUPLE" ++ toString elements.length) (asArguments elements))

def listCreation (elements : List Operand) : Interning Operand := do
  recordList elements.length
  return .owned
    (appliedIfAny ("MAKE_LIST" ++ toString elements.length) (asArguments elements))

def setCreation (elements : List Operand) : Operand :=
  if elements.isEmpty then .owned (applied "PySet_New" ["NULL"])
  else .owned (applied "MAKE_SET" (toString elements.length :: asArguments elements))

/-- The arguments of a dict helper: each value before its key, which is the order in which a
dict display evaluates them. -/
def dictArguments (keys values : List Operand) : List String :=
  (keys.zip values).flatMap fun (k, v) => [v.asArgument, k.asArgument]

def dictCreation (keys values : List Operand) : Interning Operand := do
  recordDict keys.length
  let helper := "MAKE_DICT" ++ toString keys.length
  if keys.isEmpty then return .owned (nullary helper)
  else return .owned (applied helper (dictArguments keys values))

/-! ## Operators -/

def operatorHelper : Operator → String
  | .add => "PyNumber_Add"
  | .sub => "PyNumber_Subtract"
  | .mult => "PyNumber_Multiply"
  | .div => "PyNumber_Divide"
  | .trueDiv => "PyNumber_TrueDivide"
  | .floorDiv => "PyNumber_FloorDivide"
  | .mod => "PyNumber_Remainder"
  | .pow => "PyNumber_Power"
  | .lshift => "PyNumber_Lshift"
  | .rshift => "PyNumber_Rshift"
  | .bitOr => "PyNumber_Or"
  | .bitXor => "PyNumber_Xor"
  | .bitAnd => "PyNumber_And"
  | .not => "UNARY_NOT"
  | .usub => "PyNumber_Negative"
  | .uadd => "PyNumber_Positive"
  | .invert => "PyNumber_Invert"
  | .repr => "PyObject_Repr"

/-- An operator applied to operands. Negation gives one of the two immortal truth values. -/
def operation (operator : Operator) (operands : List Operand) : Operand :=
  let arguments := commaSeparated (asArguments operands)
  match operator with
  | .not => .constant (applied "UNARY_NOT" [arguments])
  | .pow => .owned (applied "POWER_OPERATION" [arguments])
  | operator =>
    let helper := if operator.isUnary then "UNARY_OPERATION" else "BINARY_OPERATION"
    .owned (applied helper [operatorHelper operator, arguments])

def comparatorSuffix : Comparator → String
  | .lt => "LT"
  | .ltE => "LE"
  | .eq => "EQ"
  | .notEq => "NE"
  | .gt => "GT"
  | .gtE => "GE"
  | .is => "IS"
  | .isNot => "ISNOT"
  | .isIn => "IN"
  | .notIn => "NOTIN"
  | .exceptionMatch => "EXCEPTION_MATCH"

/-- A comparison as an object. Membership takes the container first. -/
def comparison (comparator : Comparator) (left right : Operand) : Operand :=
  let l := left.asArgument
  let r := right.asArgument
  match comparator with
  | .is => .constant (applied "BOOL_FROM" [l ++ " == " ++ r])
  | .isNot => .constant (applied "BOOL_FROM" [l ++ " != " ++ r])
  | .isIn => .constant (applied "SEQUENCE_CONTAINS" [r, l])
  | .notIn => .constant (applied "SEQUENCE_CONTAINS_NOT" [r, l])
  | .exceptionMatch =>
    .constant (applied "BOOL_FROM" [applied "PyErr_GivenExceptionMatches" [l, r]])
  | c => .owned (applied ("RICH_COMPARE_" ++ comparatorSuffix c) [l, r])

/-! ## Selection -/

/-- The value of the first operand that decides the selection, else that of the last one. -/
def selectionCode (helper : String) : Operand → List Operand → String
  | last, [] => last.handedOver
  | o, next :: rest =>
    "( " ++ applied helper [o.handedOver] ++ " ?: " ++ selectionCode helper next rest ++ " )"

/-- A selection among operands; `empty` stands for one without operands. -/
def selection (helper : String) (empty : Operand) (operands : List Operand) : Operand :=
  match operands with
  | [] => empty
  | o :: rest => .owned (selectionCode helper o rest)

def disjunction (operands : List Operand) : Operand :=
  selection "SELECT_IF_TRUE" (.constant "Py_False") operands

/-- The first false operand, else the last one. -/
def conjunction (operands : List Operand) : Operand :=
  selection "SELECT_IF_FALSE" (.constant "Py_True") operands

def choice (condition : String) (yes no : Operand) : Operand :=
  .owned ("( " ++ condition ++ " ? " ++ yes.handedOver ++ " : " ++ no.handedOver ++ " )")

/-! ## Conditions -/

def truthCondition (value : Bool) : String := if value then "true" else "false"

def comparisonCondition (comparator : Comparator) (left right : Operand) : String :=
  let l := left.asArgument
  let r := right.asArgument
  match comparator with
  | .is => "( " ++ l ++ " == " ++ r ++ " )"
  | .isNot => "( " ++ l ++ " != " ++ r ++ " )"
  | .isIn => applied "SEQUENCE_CONTAINS_BOOL" [r, l]
  | .notIn => applied "SEQUENCE_CONTAINS_NOT_BOOL" [r, l]
  | .exceptionMatch => applied "PyErr_GivenExceptionMatches" [l, r]
  | c => applied ("RICH_COMPARE_BOOL_" ++ comparatorSuffix c) [l, r]

def negation (condition : String) : String := "( !" ++ condition ++ " )"

def anyOf (parts : List String) : String := "( " ++ " || ".intercalate parts ++ " )"

def allOf (parts : List String) : String := "( " ++ " && ".intercalate parts ++ " )"

/-- The condition that an operand is true, or false if `inverted`. -/
def truthTest (inverted : Bool) (o : Operand) : String :=
  applied (if inverted then "CHECK_IF_FALSE" else "CHECK_IF_TRUE") [o.asArgument]

end CompilerBackend.Target
