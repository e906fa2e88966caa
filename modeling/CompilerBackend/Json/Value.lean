/-!
# JSON values

A JSON text as a value. Nothing is lost that a strict reader may object to: members keep their
order and may repeat a key, a number keeps its digits and whether it has a fraction or an
exponent, and a string that names half of a surrogate pair denotes no text.
-/

namespace CompilerBackend

inductive Json where
  | null
  | bool (value : Bool)
  /-- The digits before a fraction or an exponent; `whole` if there is neither. -/
  | number (negative : Bool) (digits : List Char) (whole : Bool)
  /-- The text, unless an escape stands for half of a surrogate pair. -/
  | string (text : Option String)
  | array (elements : List Json)
  | object (members : List (Option String × Json))
  deriving Inhabited

namespace Json

def digitsValue (digits : List Char) : Nat :=
  digits.foldl (fun n c => 10 * n + (c.toNat - '0'.toNat)) 0

/-- The natural number that a value denotes. A sign, a fraction or an exponent makes it another
kind of number, even where it changes nothing. -/
def natural? : Json → Option Nat
  | .number false digits true => some (digitsValue digits)
  | _ => none

def naturalBelow? (bound : Nat) (j : Json) : Option Nat :=
  j.natural?.filter (· < bound)

def bool? : Json → Option Bool
  | .bool value => some value
  | _ => none

/-- The value of a key that stands at most once among the members: `none` if it stands twice,
`some none` if it does not stand there. -/
def member? (members : List (String × Json)) (key : String) : Option (Option Json) :=
  match members.filter (·.1 == key) with
  | [] => some none
  | [(_, value)] => some (some value)
  | _ => none

def textKeys? : List (Option String × Json) → Option (List (String × Json))
  | [] => some []
  | (key, value) :: rest => do
    let k ← key
    let others ← textKeys? rest
    return (k, value) :: others

/-- The fields of a record: named members of an object, further members aside, or the elements
of an array that is no longer than the record. -/
def fields? (names : List String) : Json → Option (List (Option Json))
  | .object members => do
    let ms ← textKeys? members
    names.mapM (member? ms)
  | .array elements =>
    if elements.length ≤ names.length then
      some (elements.map some ++ List.replicate (names.length - elements.length) none)
    else none
  | _ => none

end Json
end CompilerBackend
