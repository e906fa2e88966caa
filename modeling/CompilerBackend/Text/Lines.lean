/-!
# Lines and blanks of text

A text is cut at line feeds. A carriage return right before a line feed belongs to the line
end, any other one to its line, and a line feed at the very end opens no further line.

Blank characters are those of the Unicode property White_Space. The zero width space and the four
information separators are not among them.
-/

namespace CompilerBackend.Text

/-! ## Lines -/

/-- A finished line, given last character first, loses one carriage return at its end. -/
def closeLine : List Char → List Char
  | '\r' :: line => line.reverse
  | line => line.reverse

/-- The lines of `cs`, the current one having begun with `line` (last character first). -/
def linesFrom (line : List Char) : List Char → List (List Char)
  | [] => if line.isEmpty then [] else [line.reverse]
  | c :: cs => if c = '\n' then closeLine line :: linesFrom [] cs else linesFrom (c :: line) cs

def lines (s : String) : List String :=
  (linesFrom [] s.toList).map String.ofList

/-- Lines joined into one text, without a line feed at its end. -/
def unlines (ls : List String) : String :=
  "\n".intercalate ls

def commaSeparated (parts : List String) : String :=
  ", ".intercalate parts

/-! ## Blank characters -/

def isBlank (c : Char) : Bool :=
  let n := c.toNat
  (9 ≤ n && n ≤ 13) || n == 0x20 || n == 0x85 || n == 0xa0 || n == 0x1680 ||
    (0x2000 ≤ n && n ≤ 0x200a) || n == 0x2028 || n == 0x2029 || n == 0x202f ||
    n == 0x205f || n == 0x3000

def trimChars (cs : List Char) : List Char :=
  ((cs.dropWhile isBlank).reverse.dropWhile isBlank).reverse

def trim (s : String) : String :=
  String.ofList (trimChars s.toList)

/-- A text all of whose characters are blank, the empty text included. -/
def isBlankText (s : String) : Bool :=
  s.toList.all isBlank

/-- Whether a text starts and ends with a character that is not blank, or is empty. -/
def hasNoMargin (s : String) : Bool :=
  trim s == s

end CompilerBackend.Text
