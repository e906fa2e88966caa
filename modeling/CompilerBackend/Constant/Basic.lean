import CompilerBackend.Decimal.Double
/-!
# Constants

The values that a program tree carries as literals. Integers have any size, so whether one fits
a slice bound is decidable; doubles are kept as their 64 bits, so equality of constants
separates `0.0` from `-0.0` and one not-a-number from another.
-/

namespace CompilerBackend

inductive Constant where
  | none
  | ellipsis
  | bool (value : Bool)
  | int (value : Int)
  | float (bits : UInt64)
  | str (value : String)
  | unicode (value : String)
  | bytes (value : List UInt8)
  | tuple (elements : List Constant)
  | list (elements : List Constant)
  | set (elements : List Constant)
  | dict (pairs : List (Constant × Constant))
  deriving Inhabited

namespace Constant

def kindName : Constant → String
  | .none => "none"
  | .ellipsis => "ellipsis"
  | .bool _ => "bool"
  | .int _ => "int"
  | .float _ => "float"
  | .str _ => "str"
  | .unicode _ => "unicode"
  | .bytes _ => "bytes"
  | .tuple _ => "tuple"
  | .list _ => "list"
  | .set _ => "set"
  | .dict _ => "dict"

mutual

/-- Lists, sets and dicts can be changed in place, and so can a tuple that holds one. -/
def isMutable : Constant → Bool
  | .list _ | .set _ | .dict _ => true
  | .tuple elements => anyMutable elements
  | _ => false

def anyMutable : List Constant → Bool
  | [] => false
  | c :: rest => isMutable c || anyMutable rest

end

def isNumber : Constant → Bool
  | .bool _ | .int _ | .float _ => true
  | _ => false

/-- The bound that the magnitude of a native slice index stays below: the largest signed
64-bit number, which itself stands for an open end. -/
def indexLimit : Nat := 0x7fffffffffffffff

def integer? : Constant → Option Int
  | .int value => some value
  | .bool value => some (if value then 1 else 0)
  | _ => Option.none

/-- The value of an integer constant that is small enough for a native slice index. -/
def smallIndex? (c : Constant) : Option Int :=
  c.integer?.filter fun value => value.natAbs < indexLimit

/-- The truth value that the compiled language gives a constant: zeros and empty things are
false, not-a-number is true. -/
def truth : Constant → Bool
  | .none => false
  | .ellipsis => true
  | .bool value => value
  | .int value => value != 0
  | .float bits => (Decimal.Double.ofBits bits).isNonzero
  | .str value => !value.isEmpty
  | .unicode value => !value.isEmpty
  | .bytes value => !value.isEmpty
  | .tuple elements => !elements.isEmpty
  | .list elements => !elements.isEmpty
  | .set elements => !elements.isEmpty
  | .dict pairs => !pairs.isEmpty

end Constant
end CompilerBackend
