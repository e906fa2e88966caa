import CompilerBackend.Json.Reader
/-!
# The grammar of JSON

How values are written, rule by rule: blanks stand around values and punctuation, numbers have no
leading zeros, strings escape quotes and control characters. A string denotes the text whose UTF-16
is spelled by its characters and escapes; escapes that spell no UTF-16 leave it without a text.

- `TextWritten`: the strings.
- `Written`: the values, the elements of arrays and the members of objects.
- `IsText`: whole texts; `FollowsGrammar` is said of readers of them.
-/

namespace CompilerBackend.Json

def IsBlanks (cs : List Char) : Prop := ∀ c ∈ cs, isBlank c = true

instance : DecidablePred IsBlanks := fun _ => decidable_of_iff _ List.all_eq_true

/-! ## Strings -/

def utf16 (c : Char) : List Nat :=
  if c.toNat < 0x10000 then [c.toNat]
  else [0xd800 + (c.toNat - 0x10000) / 0x400, 0xdc00 + (c.toNat - 0x10000) % 0x400]

def Piece.units : Piece → List Nat
  | .char c => utf16 c
  | .unit n => [n]

def IsHexDigit (c : Char) (x : Nat) : Prop :=
  "0123456789abcdef".toList[x]? = some c ∨ "0123456789ABCDEF".toList[x]? = some c

/-- The escapes of one letter, each with the character that it stands for. -/
def letterEscapes : List (Char × Char) :=
  [('"', '"'), ('\\', '\\'), ('/', '/'), ('b', '\x08'), ('f', '\x0c'), ('n', '\n'), ('r', '\r'),
    ('t', '\t')]

inductive PiecesWritten : List Piece → List Char → Prop where
  | nil : PiecesWritten [] []
  /-- Quotes, backslashes and control characters have to be escaped. -/
  | plain {c : Char} {ps : List Piece} {cs : List Char} : 0x20 ≤ c.toNat → c ≠ '"' → c ≠ '\\' →
      PiecesWritten ps cs → PiecesWritten (.char c :: ps) (c :: cs)
  | letter {e c : Char} {ps : List Piece} {cs : List Char} : (e, c) ∈ letterEscapes →
      PiecesWritten ps cs → PiecesWritten (.char c :: ps) ('\\' :: e :: cs)
  | unit {a b c d : Char} {w x y z : Nat} {ps : List Piece} {cs : List Char} : IsHexDigit a w →
      IsHexDigit b x → IsHexDigit c y → IsHexDigit d z → PiecesWritten ps cs →
      PiecesWritten (.unit (((w * 16 + x) * 16 + y) * 16 + z) :: ps)
        ('\\' :: 'u' :: a :: b :: c :: d :: cs)

/-- How a string is written, with the text that it denotes if there is one. -/
inductive TextWritten : Option String → List Char → Prop where
  | whole {ps : List Piece} {cs : List Char} {s : String} : PiecesWritten ps cs →
      ps.flatMap Piece.units = s.toList.flatMap utf16 → TextWritten (some s) ('"' :: (cs ++ ['"']))
  | broken {ps : List Piece} {cs : List Char} : PiecesWritten ps cs →
      (∀ s : String, ps.flatMap Piece.units ≠ s.toList.flatMap utf16) →
      TextWritten none ('"' :: (cs ++ ['"']))

/-! ## Numbers -/

def IsDigits (cs : List Char) : Prop := cs ≠ [] ∧ ∀ c ∈ cs, isDigit c = true

instance : DecidablePred IsDigits := fun cs =>
  decidable_of_iff (cs ≠ [] ∧ cs.all isDigit = true) (and_congr_right' List.all_eq_true)

/-- The digits in front of the point: a zero stands alone. -/
def IsInteger (cs : List Char) : Prop := cs = ['0'] ∨ IsDigits cs ∧ cs.head? ≠ some '0'

/-- A fraction, and whether there is none. -/
inductive FractionWritten : Bool → List Char → Prop where
  | absent : FractionWritten true []
  | present {ds : List Char} : IsDigits ds → FractionWritten false ('.' :: ds)

/-- An exponent, and whether there is none. -/
inductive ExponentWritten : Bool → List Char → Prop where
  | absent : ExponentWritten true []
  | present {e : Char} {sign ds : List Char} : e ∈ ['e', 'E'] → sign ∈ [[], ['+'], ['-']] →
      IsDigits ds → ExponentWritten false (e :: (sign ++ ds))

/-! ## Values -/

/-- What a stretch of a text can stand for. -/
inductive Phrase where
  | value (v : Json)
  /-- The elements of an array, between its brackets. -/
  | elements (vs : List Json)
  /-- The members of an object, between its braces. -/
  | members (ms : List (Option String × Json))

inductive Written : Phrase → List Char → Prop where
  | null : Written (.value .null) ['n', 'u', 'l', 'l']
  | bool (b : Bool) :
      Written (.value (.bool b)) (if b then ['t', 'r', 'u', 'e'] else ['f', 'a', 'l', 's', 'e'])
  | number {noFraction noExponent : Bool} {ds fraction exponent : List Char} (negative : Bool) :
      IsInteger ds → FractionWritten noFraction fraction → ExponentWritten noExponent exponent →
      Written (.value (.number negative ds (noFraction && noExponent)))
        ((if negative then ['-'] else []) ++ (ds ++ (fraction ++ exponent)))
  | string {text : Option String} {cs : List Char} : TextWritten text cs →
      Written (.value (.string text)) cs
  | emptyArray {w : List Char} : IsBlanks w → Written (.value (.array [])) ('[' :: (w ++ [']']))
  | array {vs : List Json} {cs : List Char} : Written (.elements vs) cs →
      Written (.value (.array vs)) ('[' :: (cs ++ [']']))
  | emptyObject {w : List Char} : IsBlanks w →
      Written (.value (.object [])) ('\x7b' :: (w ++ ['\x7d']))
  | object {ms : List (Option String × Json)} {cs : List Char} : Written (.members ms) cs →
      Written (.value (.object ms)) ('\x7b' :: (cs ++ ['\x7d']))
  | element {v : Json} {w cs w' : List Char} : IsBlanks w → Written (.value v) cs → IsBlanks w' →
      Written (.elements [v]) (w ++ (cs ++ w'))
  | elements {v : Json} {vs : List Json} {w cs w' ds : List Char} : IsBlanks w →
      Written (.value v) cs → IsBlanks w' → Written (.elements vs) ds →
      Written (.elements (v :: vs)) (w ++ (cs ++ (w' ++ ',' :: ds)))
  | member {key : Option String} {v : Json} {w ks w₁ w₂ cs w' : List Char} : IsBlanks w →
      TextWritten key ks → IsBlanks w₁ → IsBlanks w₂ → Written (.value v) cs → IsBlanks w' →
      Written (.members [(key, v)]) (w ++ (ks ++ (w₁ ++ ':' :: (w₂ ++ (cs ++ w')))))
  | members {key : Option String} {v : Json} {ms : List (Option String × Json)}
      {w ks w₁ w₂ cs w' ds : List Char} : IsBlanks w →
      TextWritten key ks → IsBlanks w₁ → IsBlanks w₂ → Written (.value v) cs → IsBlanks w' →
      Written (.members ms) ds →
      Written (.members ((key, v) :: ms))
        (w ++ (ks ++ (w₁ ++ ':' :: (w₂ ++ (cs ++ (w' ++ ',' :: ds))))))

def IsText (s : String) (v : Json) : Prop :=
  ∃ w cs w', IsBlanks w ∧ Written (.value v) cs ∧ IsBlanks w' ∧ s.toList = w ++ (cs ++ w')

/-- A reader of texts that finds the value of each text that the grammar allows. -/
def FollowsGrammar (read : String → Option Json) : Prop := ∀ s v, IsText s v → read s = some v

end CompilerBackend.Json
