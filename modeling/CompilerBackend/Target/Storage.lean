import CompilerBackend.Program
import CompilerBackend.Tree.Scope
import CompilerBackend.Target.Operand
/-!
# Constants, variables and namespaces

How target text names what the program stores. A constant that can be changed in place is copied
on every use, so the one in the table stays as it was. The storage of a variable is named after
its kind; that of a global also after the module.
-/

namespace CompilerBackend.Target

open Text

/-! ## Constants -/

/-- How a constant is taken out of the table: mutable ones as a copy, deep for a tuple. -/
def tableAccess (c : Constant) (handle : String) : Operand :=
  match c with
  | .list _ => .owned (applied "LIST_COPY" [handle])
  | .dict _ => .owned (applied "PyDict_Copy" [handle])
  | .set _ => .owned (applied "PySet_New" [handle])
  | .tuple elements =>
    if Constant.anyMutable elements then .owned (applied "DEEP_COPY" [handle])
    else .constant handle
  | _ => .constant handle

def constantFromTable (c : Constant) : Interning Operand := do
  let handle ← handleOf c
  return tableAccess c handle

/-- A constant, from the table unless the runtime has a name for it. -/
def constantAccess (c : Constant) : Interning Operand :=
  match c with
  | .none => return .constant "Py_None"
  | .bool true => return .constant "Py_True"
  | .bool false => return .constant "Py_False"
  | .ellipsis => return .constant "Py_Ellipsis"
  | c => constantFromTable c

/-! ## Variables -/

def localStorage (name : String) : String := "_python_var_" ++ name

def temporaryStorage (name : String) : String := "_python_tmp_" ++ name

def closureStorage (name : String) : String := "_python_closure_" ++ name

def globalStorage (codeName name : String) : String := "_mvar_" ++ codeName ++ "_" ++ name

def parameterName (name : String) : String := "_python_par_" ++ name

def storage (codeName : String) (v : Variable) : String :=
  match v.kind with
  | .functionLocal | .parameter | .classLocal => localStorage v.name
  | .closure => closureStorage v.name
  | .moduleGlobal => globalStorage codeName v.name
  | .temporary => temporaryStorage v.name

def variableAccess (codeName : String) (v : Variable) : Operand :=
  .borrowed (storage codeName v ++ ".asObject()")

def storeStatement (place : String) (value : String) : String :=
  terminated (applied (place ++ ".assign") [value])

def variableAssignment (codeName : String) (v : Variable) (value : Operand) : String :=
  storeStatement (storage codeName v) value.handedOver

/-- An assignment as an expression, with the assigned value as its own. -/
def assignmentExpression (codeName : String) (v : Variable) (value : Operand) : Operand :=
  .borrowed (applied (storage codeName v ++ ".assignAndGet") [value.handedOver])

def variableDeletion (codeName : String) (v : Variable) : String :=
  terminated (nullary (storage codeName v ++ ".del"))

/-- The default value of a parameter, read from the function object. -/
def defaultAccess (v : Variable) : Operand := .borrowed ("self->m_defaults." ++ v.name)

/-! ## Namespaces -/

def moduleVariable (codeName : String) : String := "_module_" ++ codeName

def globalsDict (codeName : String) : Operand :=
  .borrowed ("((PyModuleObject *)" ++ moduleVariable codeName ++ ")->md_dict")

def liveLocals : Operand := .borrowed "_locals_dict.asObject()"

inductive LocalsMode where
  /-- A fresh dict with the values of the moment. -/
  | copy
  /-- The dict that the scope itself works with. -/
  | live
  deriving DecidableEq, Inhabited

def localEntry (v : Variable) : Interning String := do
  let handle ← handleOfText v.name
  return handle ++ ", &" ++ localStorage v.name

/-- The locals of a scope. A module has its globals, a class its dict; a function's are
collected from its parameters and variables unless they live in a dict. -/
def localsDict (codeName : String) (p : Provider) (mode : LocalsMode) : Interning Operand :=
  match p, mode with
  | .module _, _ => return globalsDict codeName
  | .classBody _, _ => return liveLocals
  | .function _, .live => return liveLocals
  | .function f, .copy => do
    let entries ← (f.parameters.all ++ f.userVariables).mapM localEntry
    if entries.isEmpty then return .owned (nullary "PyDict_New")
    else return .owned (applied "MAKE_LOCALS_DICT" (toString entries.length :: entries))

def dirList (codeName : String) (p : Provider) : Interning Operand := do
  let locals ← localsDict codeName p .copy
  return .owned (applied "BUILTIN_DIR_LOCALS" [locals.asArgument])

end CompilerBackend.Target
