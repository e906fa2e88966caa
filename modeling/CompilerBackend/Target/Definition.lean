import CompilerBackend.Target.Control
import CompilerBackend.Target.Storage
/-!
# Functions and classes

The texts of a function or class definition: the declaration of its maker, its implementation,
and the expression that calls the maker. Default values and shared variables are the arguments
of a function's maker; shared variables are those of a class's.
-/

namespace CompilerBackend.Target

open Text

def closureParameters (closure : List Variable) : List String :=
  closure.map fun v => "PyObjectSharedLocalVariable &closure_" ++ v.name

def closureArguments (closure : List Variable) : List String :=
  closure.map fun v => closureStorage v.name

/-! ## Functions -/

def functionMaker (codeName : String) : String := "MAKE_FUNCTION_" ++ codeName

def functionCreation (codeName : String) (defaults : List Operand) (closure : List Variable) :
    Operand :=
  .owned (appliedIfAny (functionMaker codeName)
    (defaults.map Operand.handedOver ++ closureArguments closure))

def functionDeclaration (codeName : String) (defaultCount : Nat) (closure : List Variable) :
    String :=
  let defaults := (List.range defaultCount).map fun i => "PyObject *default_" ++ toString i
  terminated ("static PyObject *" ++
    appliedIfAny (functionMaker codeName) (defaults ++ closureParameters closure))

def implementationName (f : FunctionBody) : String :=
  "impl_" ++ f.codeName ++ if f.isGenerator then "_generator" else ""

/-- The line that puts a default value into a parameter that was not given. -/
def defaultLine (v : Variable) (access : Operand) : String :=
  let p := parameterName v.name
  "if ( " ++ p ++ " == NULL ) " ++ p ++ " = " ++ access.handedOver ++ ";"

def parameterLine (v : Variable) : Interning String := do
  let handle ← handleOfText v.name
  return terminated (applied ("PyObjectLocalVariable " ++ localStorage v.name)
    [handle, parameterName v.name])

def variableLine (v : Variable) : Interning String := do
  let handle ← handleOfText v.name
  return terminated (applied ("PyObjectLocalVariable " ++ localStorage v.name) [handle])

def temporaryLine (v : Variable) : String :=
  terminated ("PyObjectTempVariable " ++ temporaryStorage v.name)

def frameLine (handle codeName : String) : String :=
  terminated (applied "FrameGuard frame_guard"
    [applied "MAKE_FRAME" [handle, moduleVariable codeName]])

def functionCode (moduleCodeName : String) (f : FunctionBody) (place : Location)
    (defaults : List Operand) (codes : List String) : Interning String := do
  let handle ← handleOfText f.name
  let parameters := f.parameters.all
  let declared ← parameters.mapM parameterLine
  let locals ← f.userVariables.mapM variableLine
  let signature := applied (implementationName f)
    ("CompiledFunctionObject *self" ::
      parameters.map fun v => "PyObject *" ++ parameterName v.name)
  let final := if f.isGenerator then generatorEnd else "return INCREASE_REFCOUNT( Py_None );"
  let body :=
    (f.parameters.defaulted.zip defaults).map (fun (v, access) => defaultLine v access) ++
      declared ++ locals ++ f.temporaries.map temporaryLine ++
      [frameLine handle moduleCodeName] ++ codes ++ [final]
  return unlines
    ["// Function \"" ++ f.name ++ "\" defined at " ++ place.text,
     "static PyObject *" ++ signature,
     braced body]

/-! ## Classes -/

def classDictMaker (codeName : String) : String := "MAKE_CLASS_DICT_" ++ codeName

def classDictCreation (codeName : String) (closure : List Variable) : Operand :=
  .owned (appliedIfAny (classDictMaker codeName) (closureArguments closure))

def classCreation (name : String) (bases dict : Operand) : Interning Operand := do
  let handle ← handleOfText name
  return .owned (applied "MAKE_CLASS" [handle, bases.asArgument, dict.asArgument])

def classSignature (codeName : String) (closure : List Variable) : String :=
  "static PyObject *" ++ appliedIfAny (classDictMaker codeName) (closureParameters closure)

def classDeclaration (codeName : String) (closure : List Variable) : String :=
  terminated (classSignature codeName closure)

def classDocLine (doc : String) : Interning String := do
  let handle ← handleOfText doc
  return storeStatement (localStorage "__doc__") (applied "INCREASE_REFCOUNT" [handle])

def classCode (moduleName : String) (c : ClassBody) (place : Location) (codes : List String) :
    Interning String := do
  let handle ← handleOfText moduleName
  let locals ← c.classVariables.mapM variableLine
  let doc ← c.doc.toList.mapM classDocLine
  let body := locals ++ c.temporaries.map temporaryLine ++
    [storeStatement (localStorage "__module__") (applied "INCREASE_REFCOUNT" [handle])] ++
    doc ++ codes
  return unlines
    ["// Class \"" ++ c.name ++ "\" defined at " ++ place.text,
     classSignature c.codeName c.closureVariables,
     braced body]

end CompilerBackend.Target
