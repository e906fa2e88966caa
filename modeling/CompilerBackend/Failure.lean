import CompilerBackend.Text.Lines
import CompilerBackend.Text.Quoted
/-!
# Places and failures

Where a node of the program tree came from: a file, a line, and the language switches in force
there. Two locations are the same only if all three agree.

What can be wrong with a program tree or with emitted text, and how it is reported. None of
these is a mistake of the user: each points at a defect of an earlier phase. A failure names its
cause, the place of the offending node and, where there is a node, the dump of its subtree.
-/

namespace CompilerBackend

open Text

/-! ## Places in source files -/

/-- The language switches that a source file can turn on ahead of their time. -/
structure FutureFlags where
  division : Bool := false
  unicodeLiterals : Bool := false
  absoluteImport : Bool := false
  printFunction : Bool := false
  deriving DecidableEq, Inhabited

structure Location where
  file : String
  line : Nat
  future : FutureFlags := {}
  deriving DecidableEq, Inhabited

namespace Location

def null : Location := { file := "<null>", line := 0 }

def atLine (l : Location) (line : Nat) : Location := { l with line }

def text (l : Location) : String :=
  l.file ++ ":" ++ toString l.line

end Location

/-! ## Failures -/

/-- Why lowering stops. The text of a `node` is the name of its kind. -/
inductive Cause where
  | notAnExpression (node : String)
  | notAStatement (node : String)
  | notASequence (node : String)
  | notAModule (node : String)
  | unrecognisedNode (node : String)
  | unresolvedVariable (name : String)
  | invalidIdentifier (code : String)
  | malformedCode (code : String)
  | mismatchedDefaults (defaults parameters : Nat)
  | invalidOptions (message : String)
  deriving DecidableEq, Inhabited

namespace Cause

def name : Cause → String
  | .notAnExpression _ => "NotAnExpression"
  | .notAStatement _ => "NotAStatement"
  | .notASequence _ => "NotAStatementSequence"
  | .notAModule _ => "NotAModule"
  | .unrecognisedNode _ => "UnrecognisedNode"
  | .unresolvedVariable _ => "UnresolvedVariable"
  | .invalidIdentifier _ => "InvalidIdentifier"
  | .malformedCode _ => "MalformedCode"
  | .mismatchedDefaults _ _ => "MismatchedDefaults"
  | .invalidOptions _ => "InvalidConfig"

def message : Cause → String
  | .notAnExpression node => "no expression: " ++ node
  | .notAStatement node => "no statement: " ++ node
  | .notASequence node => "no statement sequence: " ++ node
  | .notAModule node => "no module: " ++ node
  | .unrecognisedNode node => "unrecognised node: " ++ node
  | .unresolvedVariable name =>
    "illegal variable reference, not resolved: " ++ messageQuoted name
  | .invalidIdentifier code => "not a code object: " ++ messageQuoted code
  | .malformedCode code =>
    "code contains leading or trailing whitespace: " ++ messageQuoted code
  | .mismatchedDefaults defaults parameters =>
    "default count mismatch: " ++ toString defaults ++ " defaults, " ++ toString parameters ++
      " parameters"
  | .invalidOptions text => "invalid options: " ++ text

def tip : Cause → String
  | .notAnExpression node => "`" ++ node ++ "` was found where an expression is required"
  | .notAStatement node => "`" ++ node ++ "` was found where a statement is required"
  | .notASequence node =>
    "`" ++ node ++ "` was found where a statement sequence is required"
  | .notAModule node => "`" ++ node ++ "` is not a module"
  | .unrecognisedNode node =>
    "No code generation exists for `" ++ node ++ "` on this target"
  | .unresolvedVariable name =>
    "Variable `" ++ name ++ "` was never bound to storage, name resolution missed it"
  | .invalidIdentifier code => "Emitted identifier `" ++ code ++ "` is not usable"
  | .malformedCode _ => "Statement code must not start or end with whitespace"
  | .mismatchedDefaults defaults parameters =>
    toString defaults ++ " default values given for " ++ toString parameters ++
      " defaulted parameters"
  | .invalidOptions text => "Invalid options: " ++ text

end Cause

structure Failure where
  cause : Cause
  location : Location
  dump : Option String := none
  deriving DecidableEq, Inhabited

namespace Failure

def message (f : Failure) : String :=
  f.cause.message ++ " at " ++ f.location.text

def renderedDump (dump : String) : String :=
  " |\n" ++ String.join ((lines dump).map fun line => " | " ++ line ++ "\n")

def rendered (f : Failure) : String :=
  "Error: " ++ f.cause.name ++ " (" ++ f.cause.tip ++ ")\n-> " ++ f.location.text ++ "\n" ++
    (f.dump.map renderedDump).getD ""

end Failure
end CompilerBackend
