import CompilerBackend.Target.Operand
/-!
# Attributes, subscripts and slices

The target text that reads, writes and deletes a part of an object. A written value comes first
among the arguments, because it is evaluated first.
-/

namespace CompilerBackend.Target

/-! ## Attributes -/

def attributeLookup (name source : Operand) : Operand :=
  .owned (applied "LOOKUP_ATTRIBUTE" [source.asArgument, name.asArgument])

/-- The value of an attribute that is looked up on the type. -/
def specialAttributeLookup (name source : Operand) : Operand :=
  .owned (applied "LOOKUP_SPECIAL_ATTRIBUTE" [source.asArgument, name.asArgument])

def attributeAssignment (source name value : Operand) : String :=
  terminated (applied "SET_ATTRIBUTE" [value.asArgument, source.asArgument, name.asArgument])

def attributeDeletion (source name : Operand) : String :=
  terminated (applied "DEL_ATTRIBUTE" [source.asArgument, name.asArgument])

/-! ## Subscripts -/

def subscriptLookup (source index : Operand) : Operand :=
  .owned (applied "LOOKUP_SUBSCRIPT" [source.asArgument, index.asArgument])

def subscriptAssignment (source index value : Operand) : String :=
  terminated (applied "SET_SUBSCRIPT" [value.asArgument, source.asArgument, index.asArgument])

def subscriptDeletion (source index : Operand) : String :=
  terminated (applied "DEL_SUBSCRIPT" [source.asArgument, index.asArgument])

/-! ## Slices -/

def openLowerBound : String := "0"

def openUpperBound : String := "PY_SSIZE_T_MAX"

def constantBound (value : Int) : String := toString value

def computedBound (o : Operand) : String := applied "CONVERT_TO_INDEX" [o.asArgument]

def sliceObject (lower upper step : Option Operand) : Operand :=
  .owned (applied "MAKE_SLICEOBJ"
    [orElse lower "Py_None", orElse upper "Py_None", orElse step "Py_None"])

def indexedSliceLookup (source : Operand) (lower upper : String) : Operand :=
  .owned (applied "LOOKUP_INDEX_SLICE" [source.asArgument, lower, upper])

def sliceLookup (source : Operand) (lower upper : Option Operand) : Operand :=
  .owned (applied "LOOKUP_SLICE"
    [source.asArgument, orElse lower "Py_None", orElse upper "Py_None"])

def indexedSliceAssignment (source : Operand) (lower upper : String) (value : Operand) : String :=
  terminated (applied "SET_INDEX_SLICE" [source.asArgument, lower, upper, value.asArgument])

def sliceAssignment (source : Operand) (lower upper : Option Operand) (value : Operand) :
    String :=
  terminated (applied "SET_SLICE"
    [source.asArgument, orElse lower "Py_None", orElse upper "Py_None", value.asArgument])

def indexedSliceDeletion (source : Operand) (lower upper : String) : String :=
  terminated (applied "DEL_SLICE" [source.asArgument, lower, upper])

end CompilerBackend.Target
