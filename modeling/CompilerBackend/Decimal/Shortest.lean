/-!
# The shortest decimal that reads back

A binary floating point number `m · 2 ^ q` stands for every real nearer to it than to its
neighbours. Among the decimals in that interval this module finds one with the fewest digits,
and among those the one nearest to the number, an exact tie going up. All arithmetic is exact,
over natural numbers with a common denominator.
-/

namespace CompilerBackend.Decimal

def twoPow (n : Nat) : Nat := Nat.pow 2 n

def tenPow (n : Nat) : Nat := Nat.pow 10 n

/-- The reals that round to a number: `low`, `value` and `high` over `scale`. The ends belong
to the interval when it is `closed`. -/
structure Interval where
  low : Nat
  value : Nat
  high : Nat
  scale : Nat
  closed : Bool

/-- The interval of `m · 2 ^ q`. Below a power of two the lower neighbour is only half as far
(`narrow`); an even mantissa wins a tie, which closes the interval. -/
def Interval.ofBinary (m : Nat) (q : Int) (narrow : Bool) : Interval :=
  let up := twoPow (q - 2).toNat
  { low := (4 * m - if narrow then 1 else 2) * up
    value := 4 * m * up
    high := (4 * m + 2) * up
    scale := twoPow (2 - q).toNat
    closed := m % 2 == 0 }

def unitNum (p : Int) : Nat := tenPow p.toNat

def unitDen (p : Int) : Nat := tenPow (-p).toNat

def Interval.holds (i : Interval) (a : Nat) (p : Int) : Bool :=
  let x := a * unitNum p * i.scale
  if i.closed then i.low * unitDen p ≤ x && x ≤ i.high * unitDen p
  else i.low * unitDen p < x && x < i.high * unitDen p

/-- The multiple of `10 ^ p` at or right below the number. -/
def Interval.floor (i : Interval) (p : Int) : Nat :=
  i.value * unitDen p / (i.scale * unitNum p)

/-- The best multiple of `10 ^ p` in the interval, if there is one: of the two neighbours of
the number the nearer, the upper one on a tie. -/
def Interval.onGrid? (i : Interval) (p : Int) : Option Nat :=
  let a := i.floor p
  match i.holds a p, i.holds (a + 1) p with
  | true, true =>
    if 2 * i.value * unitDen p < (2 * a + 1) * unitNum p * i.scale then some a else some (a + 1)
  | true, false => some a
  | false, true => some (a + 1)
  | false, false => none

/-- The first hit on the grids `10 ^ p`, `10 ^ (p - 1)`, …, at most `n` of them refused. -/
def Interval.search (i : Interval) : Nat → Int → Nat × Int
  | 0, p => (i.floor p, p)
  | n + 1, p =>
    match i.onGrid? p with
    | some a => (a, p)
    | none => i.search n (p - 1)

/-- How many times `x` has to be multiplied by ten to reach `y`, at most `n` times. -/
def shortfall : Nat → Nat → Nat → Nat
  | 0, _, _ => 0
  | n + 1, x, y => if y ≤ x then 0 else shortfall n (10 * x) y + 1

/-- The exponent `k` with `10 ^ k ≤ x / y < 10 ^ (k + 1)`, for positive `x` and `y`. -/
def magnitude (x y : Nat) : Int :=
  if y ≤ x then ((Nat.toDigits 10 (x / y)).length : Int) - 1
  else -(shortfall (Nat.toDigits 10 y).length x y : Int)

/-- A decimal `digits · 10 ^ exponent`. -/
structure Digits where
  digits : Nat
  exponent : Int

/-- Zeros at the end of the digits move into the exponent, at most `n` of them. -/
def Digits.stripped : Nat → Digits → Digits
  | 0, d => d
  | n + 1, d =>
    if d.digits % 10 = 0 then Digits.stripped n ⟨d.digits / 10, d.exponent + 1⟩ else d

/-- The decimal with the fewest digits that reads back as the interval's number. Seventeen
digits always do. -/
def Interval.shortest (i : Interval) : Digits :=
  let (a, p) := i.search 17 (magnitude i.value i.scale)
  Digits.stripped 17 ⟨a, p⟩

end CompilerBackend.Decimal
