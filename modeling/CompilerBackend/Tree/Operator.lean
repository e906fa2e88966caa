/-!
# Operators and builtins

The operators, comparators and builtins that nodes of a program tree name, and how a dump
spells them.
-/

namespace CompilerBackend

inductive Operator where
  | add | sub | mult | div | trueDiv | floorDiv | mod | pow | lshift | rshift
  | bitOr | bitXor | bitAnd | not | usub | uadd | invert | repr
  deriving DecidableEq, Inhabited

namespace Operator

def isUnary : Operator → Bool
  | .not | .usub | .uadd | .invert | .repr => true
  | _ => false

def name : Operator → String
  | .add => "Add"
  | .sub => "Sub"
  | .mult => "Mult"
  | .div => "Div"
  | .trueDiv => "TrueDiv"
  | .floorDiv => "FloorDiv"
  | .mod => "Mod"
  | .pow => "Pow"
  | .lshift => "LShift"
  | .rshift => "RShift"
  | .bitOr => "BitOr"
  | .bitXor => "BitXor"
  | .bitAnd => "BitAnd"
  | .not => "Not"
  | .usub => "USub"
  | .uadd => "UAdd"
  | .invert => "Invert"
  | .repr => "Repr"

def all : List Operator :=
  [.add, .sub, .mult, .div, .trueDiv, .floorDiv, .mod, .pow, .lshift, .rshift,
    .bitOr, .bitXor, .bitAnd, .not, .usub, .uadd, .invert, .repr]

def ofName? (s : String) : Option Operator :=
  all.find? (·.name == s)

end Operator

/-- Comparisons, with the test of an exception against a type among them. -/
inductive Comparator where
  | lt | ltE | eq | notEq | gt | gtE | is | isNot | isIn | notIn | exceptionMatch
  deriving DecidableEq, Inhabited

namespace Comparator

def name : Comparator → String
  | .lt => "Lt"
  | .ltE => "LtE"
  | .eq => "Eq"
  | .notEq => "NotEq"
  | .gt => "Gt"
  | .gtE => "GtE"
  | .is => "Is"
  | .isNot => "IsNot"
  | .isIn => "In"
  | .notIn => "NotIn"
  | .exceptionMatch => "exception_match"

def all : List Comparator :=
  [.lt, .ltE, .eq, .notEq, .gt, .gtE, .is, .isNot, .isIn, .notIn, .exceptionMatch]

def ofName? (s : String) : Option Comparator :=
  all.find? (·.name == s)

end Comparator

inductive UnaryBuiltin where
  | len | chr | ord | bin | oct | hex | iter | next | type | tuple | list | str | unicode
  | float | bool | vars
  deriving DecidableEq, Inhabited

namespace UnaryBuiltin

def name : UnaryBuiltin → String
  | .len => "len"
  | .chr => "chr"
  | .ord => "ord"
  | .bin => "bin"
  | .oct => "oct"
  | .hex => "hex"
  | .iter => "iter"
  | .next => "next"
  | .type => "type"
  | .tuple => "tuple"
  | .list => "list"
  | .str => "str"
  | .unicode => "unicode"
  | .float => "float"
  | .bool => "bool"
  | .vars => "vars"

def all : List UnaryBuiltin :=
  [.len, .chr, .ord, .bin, .oct, .hex, .iter, .next, .type, .tuple, .list, .str, .unicode,
    .float, .bool, .vars]

def ofName? (s : String) : Option UnaryBuiltin :=
  all.find? (·.name == s)

end UnaryBuiltin

inductive IntegerKind where
  | int | long
  deriving DecidableEq, Inhabited

/-- How source text is compiled at run time. -/
inductive EvalMode where
  | eval | exec | execFile
  deriving DecidableEq, Inhabited

def EvalMode.name : EvalMode → String
  | .eval => "eval"
  | .exec => "exec"
  | .execFile => "execfile"

inductive CaughtPart where
  | type | value | traceback
  deriving DecidableEq, Inhabited

end CompilerBackend
