import CompilerBackend.Failure
import CompilerBackend.Target.Operand
/-!
# Control flow and output

The target text of branches, loops, blocks and simple statements, and the lines that keep track
of where the program is.
-/

namespace CompilerBackend.Target

open Text

/-- A branch; without code for the yes case its block is empty. -/
def branch (condition : String) (yes no : Option (List String)) : String :=
  let head := "if ( " ++ condition ++ " )\n" ++ braced (yes.getD [])
  match no with
  | some codes => head ++ "\nelse\n" ++ braced codes
  | none => head

def unwindingBody (body : List String) : String :=
  "try\n" ++ braced body ++ "\ncatch ( ContinueException & )\n\x7b\n\x7d\n" ++
    "catch ( BreakException & )\n" ++ braced ["break;"]

/-- An endless loop; with `unwinds` it is left and repeated by exceptions. -/
def loop (body : Option (List String)) (unwinds : Bool) : String :=
  let codes := body.getD []
  "while ( true )\n" ++ braced (if unwinds then [unwindingBody codes] else codes)

def loopBreak (unwinds : Bool) : String :=
  if unwinds then "throw BreakException();" else "break;"

def loopContinue (unwinds : Bool) : String :=
  if unwinds then "throw ContinueException();" else "continue;"

def expressionStatement (o : Operand) : String := terminated o.dropped

def returnStatement (o : Operand) : String := terminated ("return " ++ o.handedOver)

def generatorEnd : String := "throw ReturnFromGeneratorException();"

/-- One statement for each printed value and one for the end of the line. -/
def printLines (destination : String) (values : List Operand) (newline : Bool) : List String :=
  (values.map fun v => terminated (applied "PRINT_ITEM_TO" [destination, v.asArgument])) ++
    if newline then [terminated (applied "PRINT_NEW_LINE_TO" [destination])] else []

/-- A print statement. A destination is evaluated once, into a variable of a block. -/
def print (destination : Option Operand) (values : List Operand) (newline : Bool) : String :=
  match destination with
  | none => unlines (printLines "NULL" values newline)
  | some d =>
    braced (terminated (applied "PyObjectTemporary _print_target" [d.handedOver]) ::
      printLines "_print_target.asObject()" values newline)

def lineMarker (l : Location) : String :=
  terminated (applied "frame_guard.setLineNumber" [toString l.line])

/-- A character of a trace message; a double quote is escaped. -/
def traceChars (c : Char) : List Char := if c = '"' then ['\\', '"'] else [c]

def traceLine (place kindName : String) : String :=
  "puts( \"Execute: " ++ String.ofList (place.toList.flatMap traceChars) ++ " " ++ kindName ++
    "\" );"

end CompilerBackend.Target
