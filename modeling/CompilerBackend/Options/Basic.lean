/-!
# Options

What the user of the compiler chooses: the version of the language, whether statements report
themselves when they run, and how many passes the propagation of raises may take.
-/

namespace CompilerBackend

structure LanguageVersion where
  major : UInt8 := 2
  minor : UInt8 := 7
  deriving DecidableEq, Inhabited

structure Options where
  version : LanguageVersion := {}
  traceExecution : Bool := false
  maxPasses : UInt64 := 64
  deriving DecidableEq, Inhabited

namespace Options

/-- The newer version of the language, from 3 on. -/
def isThird (o : Options) : Bool := 3 ≤ o.version.major

def hasSlicing (o : Options) : Bool := o.version.major < 3

def toJson (o : Options) : String :=
  "\x7b\"python_version\":\x7b\"major\":" ++ toString o.version.major.toNat ++ ",\"minor\":" ++
    toString o.version.minor.toNat ++ "\x7d,\"trace_execution\":" ++
    (if o.traceExecution then "true" else "false") ++ ",\"max_optimization_passes\":" ++
    toString o.maxPasses.toNat ++ "\x7d"

end Options
end CompilerBackend
