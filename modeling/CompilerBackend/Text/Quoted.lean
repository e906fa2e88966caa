import CompilerBackend.Text.Shown
/-!
# Quoted text

Four ways to write a string between quotes: the byte and the character literal of the compiled
language, the string literal of the target, and the quoted text of a message. Every one escapes
its own quote and the backslash, so the closing quote is the only bare one.
-/

namespace CompilerBackend.Text

def utf8 (s : String) : List UInt8 :=
  s.toList.flatMap String.utf8EncodeChar

/-- The digits of `n` in base `b`, least significant first, at most `width` of them. -/
def digitsFrom (b : Nat) : Nat → Nat → List Char
  | 0, _ => []
  | width + 1, n => Nat.digitChar (n % b) :: digitsFrom b width (n / b)

def paddedDigits (b width n : Nat) : List Char :=
  (digitsFrom b width n).reverse

def hexText (n : Nat) : String :=
  String.ofList (Nat.toDigits 16 n)

/-! ## Literals of the compiled language -/

def byteLiteralChars (b : UInt8) : List Char :=
  match Char.ofNat b.toNat with
  | '\\' => ['\\', '\\']
  | '\'' => ['\\', '\'']
  | '\n' => ['\\', 'n']
  | '\r' => ['\\', 'r']
  | '\t' => ['\\', 't']
  | c => if 0x20 ≤ b.toNat ∧ b.toNat ≤ 0x7e then [c] else '\\' :: 'x' :: paddedDigits 16 2 b.toNat

/-- Bytes as a literal in single quotes after a letter or nothing. -/
def byteLiteral (letter : String) (bytes : List UInt8) : String :=
  letter ++ "'" ++ String.ofList (bytes.flatMap byteLiteralChars) ++ "'"

/-- A character inside a character literal: escaped by code point, in the shortest of the three
widths, so the literal reads back as the same characters. -/
def unicodeLiteralChars (c : Char) : List Char :=
  match c with
  | '\\' => ['\\', '\\']
  | '\'' => ['\\', '\'']
  | '\n' => ['\\', 'n']
  | '\r' => ['\\', 'r']
  | '\t' => ['\\', 't']
  | c =>
    let n := c.toNat
    if 0x20 ≤ n ∧ n ≤ 0x7e then [c]
    else if n < 0x100 then '\\' :: 'x' :: paddedDigits 16 2 n
    else if n < 0x10000 then '\\' :: 'u' :: paddedDigits 16 4 n
    else '\\' :: 'U' :: paddedDigits 16 8 n

def unicodeLiteral (s : String) : String :=
  "u'" ++ String.ofList (s.toList.flatMap unicodeLiteralChars) ++ "'"

/-! ## String literals of the target -/

/-- A byte inside a target string. The question mark is escaped because two of them in a row
can start a trigraph; octal escapes have three digits, so a following digit is not taken in. -/
def targetStringChars (b : UInt8) : List Char :=
  match Char.ofNat b.toNat with
  | '\\' => ['\\', '\\']
  | '"' => ['\\', '"']
  | '?' => ['\\', '?']
  | c => if 0x20 ≤ b.toNat ∧ b.toNat ≤ 0x7e then [c] else '\\' :: paddedDigits 8 3 b.toNat

def targetString (bytes : List UInt8) : String :=
  "\"" ++ String.ofList (bytes.flatMap targetStringChars) ++ "\""

/-! ## Text inside a message -/

def messageChars (c : Char) : List Char :=
  match c with
  | '"' => ['\\', '"']
  | '\\' => ['\\', '\\']
  | '\t' => ['\\', 't']
  | '\r' => ['\\', 'r']
  | '\n' => ['\\', 'n']
  | '\x00' => ['\\', '0']
  | c => if isShown c then [c] else ['\\', 'u', '\x7b'] ++ Nat.toDigits 16 c.toNat ++ ['\x7d']

/-- A text in double quotes for a message, with what would not be seen spelled out. -/
def messageQuoted (s : String) : String :=
  "\"" ++ String.ofList (s.toList.flatMap messageChars) ++ "\""

end CompilerBackend.Text
