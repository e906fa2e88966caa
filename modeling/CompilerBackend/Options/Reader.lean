import CompilerBackend.Json.Reader
import CompilerBackend.Options.Basic
/-!
# Reading options

Options are a JSON object, or an array of their fields in order. A missing option keeps its
default, a version is given as a whole, and members of other names are passed over. Whatever
does not fit its field makes the whole text invalid.

The compiler leaves all of this to a library, of which it declares the fields and their defaults
only. The readers here stand for that library: `Json.ofText?` for its reader of texts, `fields?` and
the functions below for what it derives from the declaration.
-/

namespace CompilerBackend

/-- A version: both of its numbers, each below 256. -/
def LanguageVersion.ofJson? (j : Json) : Option LanguageVersion := do
  let fields ← j.fields? ["major", "minor"]
  let [some major, some minor] := fields | none
  let a ← major.naturalBelow? UInt8.size
  let b ← minor.naturalBelow? UInt8.size
  return ⟨a.toUInt8, b.toUInt8⟩

namespace Options

/-- A field that keeps its default where it is missing. -/
def fieldOr {α : Type} (default : α) (read : Json → Option α) (field : Option Json) : Option α :=
  match field with
  | some j => read j
  | none => some default

def ofJsonValue? (j : Json) : Option Options := do
  let fields ← j.fields? ["python_version", "trace_execution", "max_optimization_passes"]
  let [version, trace, passes] := fields | none
  let v ← fieldOr {} LanguageVersion.ofJson? version
  let t ← fieldOr false Json.bool? trace
  let p ← fieldOr 64 (fun j => (j.naturalBelow? UInt64.size).map Nat.toUInt64) passes
  return ⟨v, t, p⟩

/-- The options of a text, by some reader of JSON texts. -/
def ofJsonBy? (read : String → Option Json) (s : String) : Option Options :=
  (read s).bind ofJsonValue?

def ofJson? : String → Option Options := ofJsonBy? Json.ofText?

end Options
end CompilerBackend
