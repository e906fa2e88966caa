import CompilerBackend.Failure
/-!
# Target text and its operands

A call has blanks inside its parentheses; a block indents each line of its contents by four blanks
between braces on lines of their own.

An operand is an expression of the target together with what its holder owes the runtime: a
constant is never released, a borrowed reference is released by someone else, an owned one has
to be released exactly once. The three ways of using an operand write that duty into the text.
-/

namespace CompilerBackend

/-! ## Calls and blocks -/

namespace Target

open Text

def applied (f : String) (arguments : List String) : String :=
  f ++ "( " ++ commaSeparated arguments ++ " )"

def nullary (f : String) : String := f ++ "()"

/-- A call that has no blanks in its parentheses when there are no arguments. -/
def appliedIfAny (f : String) (arguments : List String) : String :=
  if arguments.isEmpty then nullary f else applied f arguments

def terminated (code : String) : String := code ++ ";"

def indentLine (line : String) : String := "    " ++ line

def indentedLines (codes : List String) : List String :=
  (codes.flatMap lines).map indentLine

def indented (codes : List String) : String := unlines (indentedLines codes)

/-- A block; an empty one has no lines between its braces. -/
def braced (codes : List String) : String :=
  if codes.isEmpty then "\x7b\n\x7d" else "\x7b\n" ++ indented codes ++ "\n\x7d"

end Target

/-! ## Operands -/

/-- Who releases the value of an operand. -/
inductive Ownership where
  /-- The value is immortal. -/
  | constant
  /-- The value lives as long as its owner, who releases it. -/
  | borrowed
  /-- The holder releases the value. -/
  | owned
  deriving DecidableEq, Inhabited

/-- An expression of the target with its ownership. -/
structure Operand where
  code : String
  ownership : Ownership
  deriving DecidableEq, Inhabited

namespace Operand

open Target

def constant (code : String) : Operand := ⟨code, .constant⟩

def borrowed (code : String) : Operand := ⟨code, .borrowed⟩

def owned (code : String) : Operand := ⟨code, .owned⟩

def isOwned (o : Operand) : Bool := o.ownership == .owned

/-- The number of references that the holder owns. -/
def references (o : Operand) : Nat := if o.isOwned then 1 else 0

/-- The operand as an argument for the duration of one call. -/
def asArgument (o : Operand) : String :=
  if o.isOwned then applied "PyObjectTemporary" [o.code] ++ ".asObject()" else o.code

/-- The operand with one reference handed over to the receiver. -/
def handedOver (o : Operand) : String :=
  if o.isOwned then o.code else applied "INCREASE_REFCOUNT" [o.code]

/-- The operand evaluated for its effects, with what it owns released. -/
def dropped (o : Operand) : String :=
  if o.isOwned then applied "DECREASE_REFCOUNT" [o.code] else o.code

/-- What is wrong with the code of an operand: it is empty, or blank at an end. -/
def defect? (o : Operand) : Option Cause :=
  if o.code.isEmpty then some (.invalidIdentifier o.code)
  else if Text.hasNoMargin o.code then none
  else some (.malformedCode o.code)

end Operand

namespace Target

def asArguments (operands : List Operand) : List String :=
  operands.map Operand.asArgument

/-- An optional operand as an argument, with the code that stands for its absence. -/
def orElse (o : Option Operand) (absent : String) : String :=
  (o.map Operand.asArgument).getD absent

end Target
end CompilerBackend
