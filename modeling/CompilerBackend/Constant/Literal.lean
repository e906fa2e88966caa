import CompilerBackend.Constant.Basic
import CompilerBackend.Text.Lines
import CompilerBackend.Text.Quoted
/-!
# Constants as text

Two texts of a constant. The literal is what the compiled language would read back as the value.
The key identifies the constant in the table of a program: it names the kind in front, at every
level, and spells a double by its bits, so `1`, `1.0` and `True` have three keys.
-/

namespace CompilerBackend.Constant

open Text

def inParens (body : String) : String := "(" ++ body ++ ")"

def inBrackets (body : String) : String := "[" ++ body ++ "]"

def inBraces (body : String) : String := "\x7b" ++ body ++ "\x7d"

def boolLiteral (value : Bool) : String := if value then "True" else "False"

/-- A tuple of one element keeps a comma, which tells it from a parenthesis. -/
def tupleLiteral : List String → String
  | [element] => inParens (element ++ ",")
  | elements => inParens (commaSeparated elements)

mutual

def literal : Constant → String
  | .none => "None"
  | .ellipsis => "Ellipsis"
  | .bool value => boolLiteral value
  | .int value => toString value
  | .float bits => (Decimal.Double.ofBits bits).literal
  | .str value => byteLiteral "" (utf8 value)
  | .unicode value => unicodeLiteral value
  | .bytes value => byteLiteral "b" value
  | .tuple elements => tupleLiteral (literals elements)
  | .list elements => inBrackets (commaSeparated (literals elements))
  | .set elements => "set(" ++ inBrackets (commaSeparated (literals elements)) ++ ")"
  | .dict pairs => inBraces (commaSeparated (pairLiterals pairs))

def literals : List Constant → List String
  | [] => []
  | c :: rest => literal c :: literals rest

def pairLiterals : List (Constant × Constant) → List String
  | [] => []
  | (k, v) :: rest => (literal k ++ ": " ++ literal v) :: pairLiterals rest

end

mutual

def key : Constant → String
  | .none => "none:None"
  | .ellipsis => "ellipsis:Ellipsis"
  | .bool value => "bool:" ++ boolLiteral value
  | .int value => "int:" ++ toString value
  | .float bits => "float:" ++ hexText bits.toNat
  | .str value => "str:" ++ byteLiteral "" (utf8 value)
  | .unicode value => "unicode:" ++ unicodeLiteral value
  | .bytes value => "bytes:" ++ byteLiteral "b" value
  | .tuple elements => "tuple:" ++ inParens (commaSeparated (keys elements))
  | .list elements => "list:" ++ inBrackets (commaSeparated (keys elements))
  | .set elements => "set:" ++ inBraces (commaSeparated (keys elements))
  | .dict pairs => "dict:" ++ inBraces (commaSeparated (pairKeys pairs))

def keys : List Constant → List String
  | [] => []
  | c :: rest => key c :: keys rest

def pairKeys : List (Constant × Constant) → List String
  | [] => []
  | (k, v) :: rest => (key k ++ ": " ++ key v) :: pairKeys rest

end

/-- A list of constants has its keys element by element. -/
theorem keys_eq_map (l : List Constant) : keys l = l.map key := by
  induction l <;> simp [keys, *]

/-- A list of constants has its literals element by element. -/
theorem literals_eq_map (l : List Constant) : literals l = l.map literal := by
  induction l <;> simp [literals, *]

end CompilerBackend.Constant
