/-!
# Maps in the order of first insertion

An association list in which every key stands once. A new key goes to the end; inserting a key
again replaces its value and keeps its place. Appending a map inserts its entries one by one.
-/

namespace CompilerBackend

/-- A finite map whose entries stand in the order in which their keys were first inserted. -/
structure OrderedMap (κ : Type) (α : Type) where
  entries : List (κ × α)
  deriving DecidableEq

namespace OrderedMap

variable {κ α : Type} [DecidableEq κ]

def empty : OrderedMap κ α := ⟨[]⟩

instance : Inhabited (OrderedMap κ α) := ⟨empty⟩

def insertEntries (k : κ) (v : α) : List (κ × α) → List (κ × α)
  | [] => [(k, v)]
  | (k', v') :: rest => if k' = k then (k, v) :: rest else (k', v') :: insertEntries k v rest

def insert (m : OrderedMap κ α) (k : κ) (v : α) : OrderedMap κ α :=
  ⟨insertEntries k v m.entries⟩

def get? (m : OrderedMap κ α) (k : κ) : Option α :=
  m.entries.lookup k

def append (m n : OrderedMap κ α) : OrderedMap κ α :=
  n.entries.foldl (fun acc (k, v) => acc.insert k v) m

def keys (m : OrderedMap κ α) : List κ :=
  m.entries.map (·.1)

def values (m : OrderedMap κ α) : List α :=
  m.entries.map (·.2)

def size (m : OrderedMap κ α) : Nat :=
  m.entries.length

end OrderedMap
end CompilerBackend
