import CompilerBackend.OrderedMap
/-!
# The stack of scopes

While a module is lowered, a stack of scopes stands for the bodies that are open: the module
at the bottom, functions, classes and inline code above it. A scope collects the texts of the
functions and classes defined in it and counts the try statements and loops of its body. A
closed scope hands its definitions to the one below. The module scope cannot be closed, which
the type of the stack says.
-/

namespace CompilerBackend

inductive ScopeKind where
  | module
  | function (codeName : String) (isGenerator : Bool)
  | classBody (codeName className : String)
  /-- Code that becomes part of the enclosing body. -/
  | inline
  deriving DecidableEq, Inhabited

structure Definition where
  declaration : String
  code : String
  deriving DecidableEq, Inhabited

/-- The definitions of a scope by code name, in the order of first registration. -/
abbrev Definitions := OrderedMap String Definition

structure Scope where
  kind : ScopeKind
  tryCount : Nat := 0
  loopCount : Nat := 0
  functions : Definitions := OrderedMap.empty
  classes : Definitions := OrderedMap.empty
  deriving DecidableEq, Inhabited

def Scope.ofKind (kind : ScopeKind) : Scope := { kind }

def Scope.absorb (s inner : Scope) : Scope :=
  { s with
    functions := s.functions.append inner.functions
    classes := s.classes.append inner.classes }

/-- The open scopes: those inside the module, innermost first, and the module's own. -/
structure ScopeStack where
  inner : List Scope := []
  bottom : Scope := Scope.ofKind .module
  deriving DecidableEq, Inhabited

namespace ScopeStack

def depth (s : ScopeStack) : Nat := s.inner.length + 1

def toList (s : ScopeStack) : List Scope := s.inner ++ [s.bottom]

def current (s : ScopeStack) : Scope := s.inner.headD s.bottom

def push (s : ScopeStack) (kind : ScopeKind) : ScopeStack :=
  { s with inner := Scope.ofKind kind :: s.inner }

def modifyCurrent (s : ScopeStack) (f : Scope → Scope) : ScopeStack :=
  match s.inner with
  | [] => { s with bottom := f s.bottom }
  | top :: rest => { s with inner := f top :: rest }

def pop? (s : ScopeStack) : Option ScopeStack :=
  match s.inner with
  | [] => none
  | top :: rest => some (modifyCurrent { s with inner := rest } (·.absorb top))

/-- Closes the innermost scope; the module's stays. -/
def pop (s : ScopeStack) : ScopeStack := s.pop?.getD s

/-- Whether the nearest body that is a function, class or module is that of a generator. -/
def isGenerator (s : ScopeStack) : Bool :=
  match (s.toList.map Scope.kind).find? (· != .inline) with
  | some (.function _ g) => g
  | _ => false

/-- Changes the first scope that stands for a body of its own; the module's is one. -/
def modifyCountingFrom (f : Scope → Scope) : List Scope → Option (List Scope)
  | [] => none
  | s :: rest =>
    if s.kind = .inline then (modifyCountingFrom f rest).map (s :: ·) else some (f s :: rest)

/-- Changes the scope whose body the code goes into: inline code counts with the body around
it. -/
def modifyCounting (s : ScopeStack) (f : Scope → Scope) : ScopeStack :=
  match modifyCountingFrom f s.inner with
  | some inner => { s with inner }
  | none => { s with bottom := f s.bottom }

def counting (s : ScopeStack) : Scope :=
  (s.inner.find? (·.kind != .inline)).getD s.bottom

/-- The next number of a try statement, and the stack after it is taken. -/
def takeTryNumber (s : ScopeStack) : Nat × ScopeStack :=
  let n := s.counting.tryCount + 1
  (n, s.modifyCounting fun c => { c with tryCount := n })

def takeLoopNumber (s : ScopeStack) : Nat × ScopeStack :=
  let n := s.counting.loopCount + 1
  (n, s.modifyCounting fun c => { c with loopCount := n })

def addFunction (s : ScopeStack) (codeName : String) (d : Definition) : ScopeStack :=
  s.modifyCurrent fun c => { c with functions := c.functions.insert codeName d }

def addClass (s : ScopeStack) (codeName : String) (d : Definition) : ScopeStack :=
  s.modifyCurrent fun c => { c with classes := c.classes.insert codeName d }

end ScopeStack
end CompilerBackend
