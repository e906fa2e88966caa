import CompilerBackend.Constant.Literal
import CompilerBackend.OrderedMap
/-!
# The program

What all modules of a program share: the table of constants, in the order of first use, each
with the handle that target text refers to it by, and the sizes of the tuples, lists and dicts
that target text builds element by element.
-/

namespace CompilerBackend

structure TableEntry where
  constant : Constant
  handle : String
  deriving Inhabited

/-- A set of sizes, in ascending order. -/
structure Arities where
  sizes : List Nat := []
  deriving DecidableEq, Inhabited

namespace Arities

/-- The sizes after one is put in its place, unless it stands there already. -/
def insertSizes (n : Nat) : List Nat → List Nat
  | [] => [n]
  | m :: rest =>
    if n < m then n :: m :: rest else if n = m then m :: rest else m :: insertSizes n rest

def insert (a : Arities) (n : Nat) : Arities := ⟨insertSizes n a.sizes⟩

end Arities

/-- The state that all modules of a program add to. -/
structure Program where
  constants : OrderedMap String TableEntry := OrderedMap.empty
  tuples : Arities := {}
  lists : Arities := {}
  dicts : Arities := {}
  deriving Inhabited

/-- A step that may intern constants and record sizes. -/
abbrev Interning := StateM Program

def isNameStart (c : Char) : Bool :=
  ('a' ≤ c && c ≤ 'z') || ('A' ≤ c && c ≤ 'Z') || c == '_'

def isNameChar (c : Char) : Bool :=
  isNameStart c || ('0' ≤ c && c ≤ '9')

/-- Plain names: ASCII letters, digits and underscores, no digit in front. -/
def isPlainName (s : String) : Bool :=
  match s.toList with
  | [] => false
  | c :: cs => isNameStart c && cs.all isNameChar

namespace Program

/-- The handle that a constant gets when the table holds `size` entries. Plain strings keep
their text, three constants have fixed handles, and the others are numbered. -/
def newHandle (size : Nat) (c : Constant) : String :=
  match c with
  | .str value =>
    if isPlainName value then "const_str_plain_" ++ value
    else if value.isEmpty then "const_str_empty"
    else "const_str_" ++ toString size
  | .tuple [] => "const_tuple_empty"
  | .none => "const_none"
  | c => "const_" ++ c.kindName ++ "_" ++ toString size

/-- The handle of a constant, and the program with the constant in its table. -/
def intern (p : Program) (c : Constant) : String × Program :=
  match p.constants.get? c.key with
  | some entry => (entry.handle, p)
  | none =>
    let handle := newHandle p.constants.size c
    (handle, { p with constants := p.constants.insert c.key ⟨c, handle⟩ })

/-- The interned constants in the order of first use. -/
def table (p : Program) : List TableEntry := p.constants.values

end Program

def handleOf (c : Constant) : Interning String := fun p => p.intern c

def handleOfText (s : String) : Interning String := handleOf (.str s)

def recordTuple (n : Nat) : Interning Unit := modify fun p => { p with tuples := p.tuples.insert n }

def recordList (n : Nat) : Interning Unit := modify fun p => { p with lists := p.lists.insert n }

def recordDict (n : Nat) : Interning Unit := modify fun p => { p with dicts := p.dicts.insert n }

end CompilerBackend
