import CompilerBackend.Scopes
import CompilerBackend.Target.Definition
/-!
# Modules and the program

The text of a module with its globals, definitions and entry; the text that starts the program;
and what all modules share: the constants and the helpers that build containers.
-/

namespace CompilerBackend.Target

open Text

/-! ## Modules -/

/-- A character of a module name as part of target names: a dot becomes two underscores, what
cannot stand in a name one. -/
def identifierChars (c : Char) : List Char :=
  if c = '.' then ['_', '_'] else if isNameChar c then [c] else ['_']

def moduleIdentifier (moduleName : String) : String :=
  String.ofList (moduleName.toList.flatMap identifierChars)

def moduleEntry (codeName : String) : String := applied "MOD_INIT_DECL" [codeName]

def moduleDeclaration (moduleName : String) : String :=
  terminated (moduleEntry (moduleIdentifier moduleName))

def globalLine (codeName : String) (v : Variable) : Interning String := do
  let handle ← handleOfText v.name
  return terminated (applied ("static PyObjectGlobalVariable " ++ globalStorage codeName v.name)
    ["&" ++ moduleVariable codeName, "&" ++ handle])

/-- The definitions of a module: its classes, then its functions. -/
def definitionsOf (s : Scope) : List Definition := s.classes.values ++ s.functions.values

/-- Declarations in one paragraph, then each definition in a paragraph of its own. -/
def definitionLines (definitions : List Definition) : List String :=
  (if definitions.isEmpty then [] else "" :: definitions.map (·.declaration)) ++
    definitions.flatMap fun d => ["", d.code]

/-- The text of a module around the code of its body. The documentation, the file name and the
search path are stored before the body runs. -/
def moduleText (m : Module) (moduleName : String) (doc filename : Operand)
    (path : Option Operand) (scope : Scope) (codes : List String) : Interning String := do
  let codeName := moduleIdentifier moduleName
  let handle ← handleOfText moduleName
  let globals ← m.globals.mapM (globalLine codeName)
  let store (name : String) (o : Operand) : String :=
    storeStatement (globalStorage codeName name) o.handedOver
  let body :=
    [moduleVariable codeName ++ " = " ++ terminated (applied "Py_InitModule4"
      [targetString (utf8 moduleName), "NULL", "NULL", "NULL", "PYTHON_API_VERSION"]),
     frameLine handle codeName,
     store "__doc__" doc,
     store "__file__" filename] ++
    (path.map (store "__path__")).toList ++
    m.temporaries.map temporaryLine ++ codes
  return unlines
    (["// Module \"" ++ moduleName ++ "\"",
      terminated ("static PyObject *" ++ moduleVariable codeName)] ++
     globals ++ definitionLines (definitionsOf scope) ++
     ["", moduleEntry codeName, braced body])

/-! ## The program -/

def moduleStart (codeName : String) : String :=
  terminated (applied "MOD_INIT_NAME" [codeName] ++ "()")

/-- The texts of the modules and the entry of the program, which starts all other modules
before the main one. -/
def mainText (codes : List String) (otherModules : List String) : String :=
  let body := ["Py_Initialize();", "_initConstants();"] ++
    otherModules.map (fun name => moduleStart (moduleIdentifier name)) ++
    [moduleStart "__main__", "return 0;"]
  unlines (codes ++ ["", "int main( int argc, char *argv[] )", braced body])

/-! ## Constants -/

/-- The expression that makes the object of a constant. Small integers and texts are made
directly, containers are read from their literal. -/
def constantCreation (c : Constant) : String :=
  match c with
  | .none => applied "INCREASE_REFCOUNT" ["Py_None"]
  | .ellipsis => applied "INCREASE_REFCOUNT" ["Py_Ellipsis"]
  | .bool true => applied "INCREASE_REFCOUNT" ["Py_True"]
  | .bool false => applied "INCREASE_REFCOUNT" ["Py_False"]
  | .int value =>
    match Constant.smallIndex? (.int value) with
    | some small => applied "PyInt_FromLong" [toString small]
    | Option.none => applied "PyLong_FromString"
        ["(char *)" ++ targetString (utf8 (toString value)), "NULL", "10"]
  | .float bits => applied "PyFloat_FromDouble" [(Decimal.Double.ofBits bits).targetLiteral]
  | .str value =>
    let bytes := utf8 value
    applied "PyString_FromStringAndSize" [targetString bytes, toString bytes.length]
  | .unicode value =>
    let bytes := utf8 value
    applied "PyUnicode_DecodeUTF8" [targetString bytes, toString bytes.length, "NULL"]
  | .bytes value =>
    applied "PyBytes_FromStringAndSize" [targetString value, toString value.length]
  | c => applied "UNSTREAM_CONSTANT" [targetString (utf8 c.literal)]

def constantDeclarations (p : Program) : String :=
  unlines (p.table.map fun e => terminated ("extern PyObject *" ++ e.handle))

/-- The storage of all constants of a program and the function that makes them. -/
def constantDefinitions (p : Program) : String :=
  unlines (p.table.map (fun e => terminated ("PyObject *" ++ e.handle)) ++
    ["", "static void _initConstants()",
     braced (p.table.map fun e => e.handle ++ " = " ++ terminated (constantCreation e.constant))])

/-! ## Helpers -/

def helperParameters (parameters : List String) : String :=
  if parameters.isEmpty then "()" else "( " ++ commaSeparated parameters ++ " )"

def helperText (name : String) (parameters : List String) (make : String) (fill : List String) :
    String :=
  "static inline PyObject *" ++ name ++ helperParameters parameters ++ "\n" ++
    braced (("PyObject *result = " ++ make ++ ";") :: fill ++ ["return result;"])

def sequenceHelper (kind constructor setter : String) (n : Nat) : String :=
  helperText ("MAKE_" ++ kind ++ toString n)
    ((List.range n).map fun i => "PyObject *element" ++ toString i)
    (applied constructor [toString n])
    ((List.range n).map fun i => terminated (applied setter
      ["result", toString i, applied "INCREASE_REFCOUNT" ["element" ++ toString i]]))

def tupleHelper (n : Nat) : String := sequenceHelper "TUPLE" "PyTuple_New" "PyTuple_SET_ITEM" n

def listHelper (n : Nat) : String := sequenceHelper "LIST" "PyList_New" "PyList_SET_ITEM" n

/-- The helper for dicts of a size; each value comes before its key. -/
def dictHelper (n : Nat) : String :=
  helperText ("MAKE_DICT" ++ toString n)
    ((List.range n).map fun i => "PyObject *value" ++ toString i ++ ", PyObject *key" ++ toString i)
    (applied "_PyDict_NewPresized" [toString n])
    ((List.range n).map fun i => terminated (applied "PyDict_SetItem"
      ["result", "key" ++ toString i, "value" ++ toString i]))

def paragraphs (texts : List String) : String := "\n\n".intercalate texts

def helpersText (p : Program) : String :=
  let groups := [p.tuples.sizes.map tupleHelper, p.lists.sizes.map listHelper,
    p.dicts.sizes.map dictHelper]
  paragraphs (groups.flatMap id)

end CompilerBackend.Target
