import CompilerBackend.Decimal.Shortest
/-!
# Doubles and their texts

A double is read from its 64 bits as a sign, a mantissa and a power of two. It is written in two
ways: as a literal of the compiled language, which never has an exponent, and as a literal of the
target, which turns to an exponent at `10 ^ 16` and below `10 ^ (-4)`.
-/

namespace CompilerBackend.Decimal

/-- What the bits of a double denote. A finite one is `mantissa · 2 ^ exponent`, up to sign. -/
inductive Double where
  | nan
  | infinity (negative : Bool)
  | finite (negative : Bool) (mantissa : Nat) (exponent : Int)

/-- The leading bit of a mantissa of full length, which is not stored. -/
def hiddenBit : Nat := twoPow 52

/-- The double with the given bits: one of sign, eleven of exponent, fifty-two of fraction. -/
def Double.ofBits (bits : UInt64) : Double :=
  let n := bits.toNat
  let negative := n / twoPow 63 == 1
  let e : Nat := n / hiddenBit % 2048
  let f : Nat := n % hiddenBit
  if e = 2047 then if f = 0 then .infinity negative else .nan
  else if e = 0 then .finite negative f (-1074)
  else .finite negative (hiddenBit + f) ((e : Int) - 1075)

/-- Numbers other than zero, not-a-number included. -/
def Double.isNonzero : Double → Bool
  | .finite _ m _ => m != 0
  | _ => true

/-- The shortest decimal of a positive `m · 2 ^ q`. The gap below is narrow at a power of two,
except at the smallest normal number. -/
def shortestOf (m : Nat) (q : Int) : Digits :=
  (Interval.ofBinary m q (m == hiddenBit && q != -1074)).shortest

/-- The magnitude `m · 2 ^ q` where it is a whole number. -/
def wholeOf? (m : Nat) (q : Int) : Option Nat :=
  if 0 ≤ q then some (m * twoPow q.toNat)
  else if m % twoPow (-q).toNat = 0 then some (m / twoPow (-q).toNat)
  else none

def naturalText (n : Nat) : String :=
  String.ofList (Nat.toDigits 10 n)

def zeros (n : Nat) : List Char :=
  List.replicate n '0'

/-- A decimal written out with a point and without an exponent; `whole` is what follows the
digits of a whole number. -/
def Digits.positional (d : Digits) (whole : String) : String :=
  let cs := Nat.toDigits 10 d.digits
  if 0 ≤ d.exponent then String.ofList (cs ++ zeros d.exponent.toNat) ++ whole
  else
    let places := (-d.exponent).toNat
    if places < cs.length then
      String.ofList (cs.take (cs.length - places) ++ '.' :: cs.drop (cs.length - places))
    else
      String.ofList ('0' :: '.' :: zeros (places - cs.length) ++ cs)

/-- A decimal with one digit before the point, the others behind it, and an exponent. -/
def Digits.scientific (d : Digits) : String :=
  match Nat.toDigits 10 d.digits with
  | [] => ""
  | [c] => String.ofList [c] ++ "e" ++ toString d.exponent
  | c :: cs => String.ofList (c :: '.' :: cs) ++ "e" ++ toString (d.exponent + cs.length)

def signText (negative : Bool) : String :=
  if negative then "-" else ""

/-- A double as a literal of the compiled language: a whole number below `10 ^ 16` exactly and
with one place, everything else by its shortest decimal, always positional. -/
def Double.literal : Double → String
  | .nan => "NaN"
  | .infinity negative => signText negative ++ "inf"
  | .finite negative m q =>
    match wholeOf? m q with
    | some n =>
      if n < tenPow 16 then signText negative ++ naturalText n ++ ".0"
      else signText negative ++ (shortestOf m q).positional ""
    | none => signText negative ++ (shortestOf m q).positional ""

/-- Whether a magnitude is written with an exponent in the target. -/
def needsExponent (m : Nat) (q : Int) : Bool :=
  tenPow 16 * twoPow (-q).toNat ≤ m * twoPow q.toNat ||
    tenPow 4 * m * twoPow q.toNat < twoPow (-q).toNat

/-- A double as a literal of the target: its shortest decimal, `.0` after a whole number, with
an exponent at both ends of the scale. -/
def Double.targetLiteral : Double → String
  | .nan => "NaN"
  | .infinity negative => signText negative ++ "inf"
  | .finite negative m q =>
    if m = 0 then signText negative ++ "0.0"
    else if needsExponent m q then signText negative ++ (shortestOf m q).scientific
    else signText negative ++ (shortestOf m q).positional ".0"

end CompilerBackend.Decimal
