import CompilerBackend.Program
import CompilerBackend.Failure
import CompilerBackend.Target.Operation
import CompilerBackend.Target.Storage
/-!
# Calls, imports and builtins

The target text of calls and of what the compiled language has built in. A helper returns an
owned reference unless its result is immortal.
-/

namespace CompilerBackend.Target

open Text

/-! ## Calls -/

/-- A call with a tuple of positional and a dict of named arguments; arguments behind stars
need the general helper. -/
def functionCall (function : Operand) (tuple dict starList starDict : Option Operand) : Operand :=
  let f := function.asArgument
  if starList.isSome || starDict.isSome then
    .owned (applied "CALL_FUNCTION_WITH_STAR"
      [f, orElse tuple "NULL", orElse dict "NULL", orElse starList "NULL", orElse starDict "NULL"])
  else
    match tuple, dict with
    | none, none => .owned (applied "CALL_FUNCTION_NO_ARGS" [f])
    | some t, none => .owned (applied "CALL_FUNCTION_WITH_POSARGS" [f, t.asArgument])
    | t, some d =>
      .owned (applied "CALL_FUNCTION" [f, orElse t "const_tuple_empty", d.asArgument])

/-- The value that a generator hands out, or delivers at its end with `forReturn`. -/
def yielded (value : Operand) (forReturn : Bool) : Operand :=
  let helper := if forReturn then "YIELD_RETURN" else "YIELD_VALUE"
  .owned (applied helper ["generator", value.handedOver])

/-! ## Imports -/

def importModule (name globals locals names level : Operand) : Operand :=
  .owned (applied "IMPORT_MODULE" (asArguments [name, globals, locals, names, level]))

def importName (name source : Operand) : Operand :=
  .owned (applied "IMPORT_NAME" [source.asArgument, name.asArgument])

def importStar (codeName : String) (source : Operand) : String :=
  terminated (applied "IMPORT_MODULE_STAR" [moduleVariable codeName, source.asArgument])

/-! ## Builtins -/

def builtinReference (name : String) : Interning Operand := do
  let handle ← handleOfText name
  return .borrowed (applied "LOOKUP_BUILTIN" [handle])

/-- A builtin type that has no name in the compiled language. -/
def anonymousBuiltin (name : String) : Operand := .constant ("(PyObject *)&Py" ++ name ++ "_Type")

def exceptionReference (name : String) : Operand := .constant ("PyExc_" ++ name)

def exceptionCreation (name : String) (arguments : List Operand) : Interning Operand := do
  let type := "PyExc_" ++ name
  if arguments.isEmpty then return .owned (applied "CALL_FUNCTION_NO_ARGS" [type])
  else
    let tuple ← tupleCreation arguments
    return .owned (applied "CALL_FUNCTION_WITH_POSARGS" [type, tuple.asArgument])

def unaryBuiltinHelper : UnaryBuiltin → String
  | .len => "BUILTIN_LEN"
  | .chr => "BUILTIN_CHR"
  | .ord => "BUILTIN_ORD"
  | .bin => "BUILTIN_BIN"
  | .oct => "BUILTIN_OCT"
  | .hex => "BUILTIN_HEX"
  | .iter => "MAKE_ITERATOR"
  | .next => "BUILTIN_NEXT1"
  | .type => "BUILTIN_TYPE1"
  | .tuple => "TO_TUPLE"
  | .list => "TO_LIST"
  | .str => "TO_STR"
  | .unicode => "TO_UNICODE"
  | .float => "TO_FLOAT"
  | .bool => "TO_BOOL"
  | .vars => "LOOKUP_VARS"

/-- A builtin of one argument; a truth value is immortal. -/
def unaryBuiltin (fn : UnaryBuiltin) (value : Operand) : Operand :=
  let code := applied (unaryBuiltinHelper fn) [value.asArgument]
  match fn with
  | .bool => .constant code
  | _ => .owned code

def range (low : Operand) (high step : Option Operand) : Operand :=
  match high, step with
  | none, none => .owned (applied "BUILTIN_RANGE" [low.asArgument])
  | some h, none => .owned (applied "BUILTIN_RANGE2" [low.asArgument, h.asArgument])
  | h, some s =>
    .owned (applied "BUILTIN_RANGE3" [low.asArgument, orElse h "Py_None", s.asArgument])

def iterWithSentinel (callable sentinel : Operand) : Operand :=
  .owned (applied "BUILTIN_ITER2" [callable.asArgument, sentinel.asArgument])

def nextWithDefault (iterator default : Operand) : Operand :=
  .owned (applied "BUILTIN_NEXT2" [iterator.asArgument, default.asArgument])

/-- A new type; it belongs to the module that is being lowered. -/
def typeOfThree (moduleName : String) (name bases dict : Operand) : Interning Operand := do
  let handle ← handleOfText moduleName
  return .owned (applied "BUILTIN_TYPE3" (handle :: asArguments [name, bases, dict]))

def integer (kind : IntegerKind) (value base : Option Operand) : Operand :=
  let helper := match kind with
    | .int => "TO_INT"
    | .long => "TO_LONG"
  match value, base with
  | none, none =>
    match kind with
    | .int => .owned (applied "PyInt_FromLong" ["0"])
    | .long => .owned (applied "PyLong_FromLong" ["0"])
  | some v, none => .owned (applied helper [v.asArgument])
  | v, some b => .owned (applied (helper ++ "2") [orElse v "NULL", b.asArgument])

def dict (positional named : Option Operand) : Operand :=
  .owned (applied "BUILTIN_DICT" [orElse positional "NULL", orElse named "NULL"])

def openFile (filename mode buffering : Option Operand) : Operand :=
  .owned (applied "OPEN_FILE"
    [orElse filename "NULL", orElse mode "NULL", orElse buffering "NULL"])

def flagNames (f : FutureFlags) : List String :=
  (if f.division then ["CO_FUTURE_DIVISION"] else []) ++
  (if f.unicodeLiterals then ["CO_FUTURE_UNICODE_LITERALS"] else []) ++
  (if f.absoluteImport then ["CO_FUTURE_ABSOLUTE_IMPORT"] else []) ++
  (if f.printFunction then ["CO_FUTURE_PRINT_FUNCTION"] else [])

def futureFlags (f : FutureFlags) : String :=
  if (flagNames f).isEmpty then "0" else " | ".intercalate (flagNames f)

structure EvalParts where
  source : Operand
  globals : Operand
  locals : Operand
  filename : Operand
  mode : Operand
  flags : String

def evaluation (p : EvalParts) : Operand :=
  .owned (applied "EVAL_CODE"
    [applied "COMPILE_CODE"
      [p.source.asArgument, p.filename.asArgument, p.mode.asArgument, p.flags],
     p.globals.asArgument, p.locals.asArgument])

def execution (p : EvalParts) : String := terminated (evaluation p).dropped

def listAppend (list value : Operand) : Operand :=
  .constant (applied "LIST_APPEND" [list.asArgument, value.asArgument])

def setAdd (set value : Operand) : Operand :=
  .constant (applied "SET_ADD" [set.asArgument, value.asArgument])

def dictSet (target key value : Operand) : Operand :=
  .constant (applied "DICT_SET_ITEM" [target.asArgument, key.asArgument, value.asArgument])

/-- The next item of an unpacked iterator; `count` items have come before. -/
def unpackNext (iterator : Operand) (count : Nat) : Operand :=
  .owned (applied "UNPACK_NEXT" [iterator.asArgument, toString count])

/-- The statement that checks that an unpacked iterator is at its end. -/
def unpackCheck (iterator : Operand) (count : Nat) : String :=
  terminated (applied "UNPACK_ITERATOR_CHECK" [iterator.asArgument, toString count])

end CompilerBackend.Target
