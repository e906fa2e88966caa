import CompilerBackend.Tree.Operator
import CompilerBackend.Target.Operand
/-!
# Raising and catching

The target text that raises exceptions and that guards a block. Exceptions of the compiled
language travel as one kind of target exception; leaving a loop or a generator through a guarded
block takes other kinds, which pass the guard.
-/

namespace CompilerBackend.Target

open Text

/-! ## Raising -/

def tracebackMaker (line : Nat) : String :=
  applied "MAKE_TRACEBACK" ["frame_guard.getFrame()", toString line]

/-- Raises from within an expression. Side effects come first, each evaluated and dropped. -/
def raiseExpression (sideEffects : List Operand) (type : Operand) (value : Option Operand)
    (maker : String) : Operand :=
  let raise := applied "THROW_EXCEPTION"
    (type.handedOver :: (value.map Operand.handedOver).toList ++ [maker])
  if sideEffects.isEmpty then .owned raise
  else
    let parts := sideEffects.map Operand.dropped ++ [raise]
    .owned ("( " ++ commaSeparated parts ++ " )")

/-- The statement that raises an exception, with a traceback or the maker of one. -/
def raiseStatement (type : Operand) (value traceback : Option Operand) (maker : Option String) :
    String :=
  terminated (applied "RAISE_EXCEPTION"
    (type.handedOver :: (value.map Operand.handedOver).toList ++
      (traceback.map Operand.handedOver).toList ++ maker.toList))

def reraiseStatement (handlerLocal : Bool) : String :=
  if handlerLocal then "throw;" else "RERAISE_EXCEPTION();"

def caughtPart : CaughtPart → Operand
  | .type => .borrowed "_exception.getType()"
  | .value => .borrowed "_exception.getValue()"
  | .traceback => .borrowed "_exception.getTraceback()"

/-! ## Catching -/

def handlerCondition (types : List Operand) : String :=
  if types.isEmpty then "true"
  else " || ".intercalate (types.map fun t => applied "_exception.matches" [t.asArgument])

def handlerLines (types : List Operand) (codes : List String) (first : Bool) : List String :=
  ((if first then "if ( " else "else if ( ") ++ handlerCondition types ++ " )") ::
    lines (braced codes)

/-- The variable that says whether a numbered try statement has caught an exception. -/
def caughtFlag (n : Nat) : String := "_caught_" ++ toString n

def catching (codes : List String) : String :=
  "catch ( _PythonException &_exception )\n" ++ braced codes

def uncaughtLines : List String := ["else", "\x7b", indentLine "throw;", "\x7d"]

/-- A try statement with handlers. Code for the case without an exception runs behind the
guard, when the flag says that nothing was caught. -/
def tryExcept (n : Nat) (tried handlers : List String) (noRaise : Option (List String)) : String :=
  match noRaise with
  | some codes =>
    "bool " ++ caughtFlag n ++ " = false;\ntry\n" ++ braced tried ++ "\n" ++
      catching ((caughtFlag n ++ " = true;") :: handlers ++ uncaughtLines) ++ "\nif ( " ++
      caughtFlag n ++ " == false )\n" ++ braced codes
  | none => "try\n" ++ braced tried ++ "\n" ++ catching (handlers ++ uncaughtLines)

/-- A try statement with a final block. A caught exception is kept while the block runs. -/
def tryFinally (n : Nat) (tried final : List String) : String :=
  "_PythonExceptionKeeper " ++ caughtFlag n ++ ";\ntry\n" ++ braced tried ++ "\n" ++
    catching [caughtFlag n ++ ".save( _exception );"] ++ "\n" ++ braced final ++ "\n" ++
    caughtFlag n ++ ".rethrow();"

def fetchedVariable (n : Nat) : String := "_tmp_unpack_" ++ toString n

def fetchedItem (n : Nat) : Operand := .owned (fetchedVariable n)

/-- Fetches the next item of an iterator; the handler runs when there is none, the assignment
behind it. -/
def fetchOrHandle (n : Nat) (source : Operand) (handler : List String) (assignment : String) :
    String :=
  "PyObject *" ++ fetchedVariable n ++ " = " ++ applied "ITERATOR_NEXT" [source.asArgument] ++
    ";\nif ( " ++ fetchedVariable n ++ " == NULL )\n" ++ braced handler ++ "\n" ++ assignment

end CompilerBackend.Target
