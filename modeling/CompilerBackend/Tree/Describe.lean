import CompilerBackend.Tree.Kind
/-!
# Names of node kinds

Every kind has a name and some have a detail: a name, a value or a count that tells nodes of
one kind apart. Dumps and messages show them.
-/

namespace CompilerBackend

namespace Expr

def kindName : Expr → String
  | .variableRef _ _ => "ExpressionVariableRef"
  | .temporaryRef _ => "ExpressionTempVariableRef"
  | .constant _ => "ExpressionConstantRef"
  | .operation _ _ => "ExpressionOperation"
  | .disjunction _ => "ExpressionBoolOR"
  | .conjunction _ => "ExpressionBoolAND"
  | .comparison _ _ _ => "ExpressionComparison"
  | .conditional _ _ _ => "ExpressionConditional"
  | .makeTuple _ => "ExpressionMakeTuple"
  | .makeList _ => "ExpressionMakeList"
  | .makeSet _ => "ExpressionMakeSet"
  | .makeDict _ => "ExpressionMakeDict"
  | .call _ _ _ _ _ => "ExpressionCall"
  | .attributeOf _ _ => "ExpressionAttributeLookup"
  | .specialAttributeOf _ _ => "ExpressionSpecialAttributeLookup"
  | .subscript _ _ => "ExpressionSubscriptLookup"
  | .slice _ _ _ => "ExpressionSliceLookup"
  | .sliceObject _ _ _ => "ExpressionSliceObject"
  | .function _ => "ExpressionFunctionBody"
  | .functionDefaulted _ _ => "ExpressionFunctionBodyDefaulted"
  | .classBody _ => "ExpressionClassBody"
  | .classBased _ _ => "ExpressionClassBodyBased"
  | .yield _ _ => "ExpressionYield"
  | .importModule _ _ _ => "ExpressionImportModule"
  | .builtinImport _ _ _ _ _ => "ExpressionBuiltinImport"
  | .importName _ _ => "ExpressionImportName"
  | .range _ _ _ => "ExpressionBuiltinRange"
  | .globals => "ExpressionBuiltinGlobals"
  | .locals => "ExpressionBuiltinLocals"
  | .dir => "ExpressionBuiltinDir0"
  | .unaryBuiltin _ _ => "ExpressionBuiltinCall1"
  | .iterWithSentinel _ _ => "ExpressionBuiltinIter2"
  | .nextWithDefault _ _ => "ExpressionBuiltinNext2"
  | .typeOfThree _ _ _ => "ExpressionBuiltinType3"
  | .integer _ _ _ => "ExpressionBuiltinInt"
  | .dict _ _ => "ExpressionBuiltinDict"
  | .openFile _ _ _ => "ExpressionBuiltinOpen"
  | .eval _ _ _ _ => "ExpressionBuiltinEval"
  | .raise _ _ _ => "ExpressionRaiseException"
  | .makeException _ _ => "ExpressionBuiltinMakeException"
  | .builtin _ => "ExpressionBuiltinRef"
  | .anonymousBuiltin _ => "ExpressionBuiltinAnonymousRef"
  | .exception _ => "ExpressionBuiltinExceptionRef"
  | .assignment _ _ => "ExpressionAssignmentVariable"
  | .caught _ => "ExpressionCaughtException"
  | .listAppend _ _ => "ExpressionListOperationAppend"
  | .setAdd _ _ => "ExpressionSetOperationAdd"
  | .dictSet _ _ _ => "ExpressionDictOperationSet"
  | .unpackNext _ _ => "ExpressionSpecialUnpack"

/-- The name of the integer builtin that the newer language version has dropped. -/
def longKindName : String := "ExpressionBuiltinLong"

def detail? : Expr → Option String
  | .variableRef name (some _) => some name
  | .variableRef name none => some (name ++ " (unresolved)")
  | .temporaryRef binding => some binding.name
  | .constant value => some value.literal
  | .operation operator _ => some operator.name
  | .comparison comparator _ _ => some comparator.name
  | .attributeOf _ name => some name
  | .specialAttributeOf _ name => some name
  | .function body => some body.name
  | .classBody body => some body.name
  | .importModule name _ _ => some name
  | .importName _ name => some name
  | .unaryBuiltin fn _ => some fn.name
  | .eval mode _ _ _ => some mode.name
  | .makeException name _ => some name
  | .exception name => some name
  | .builtin name => some name
  | .anonymousBuiltin name => some name
  | .unpackNext _ count => some (toString count)
  | _ => none

end Expr

namespace Stmt

def kindName : Stmt → String
  | .assign _ _ => "StatementAssignmentVariable"
  | .assignAttribute _ _ _ => "StatementAssignmentAttribute"
  | .assignSubscript _ _ _ => "StatementAssignmentSubscript"
  | .assignSlice _ _ _ _ => "StatementAssignmentSlice"
  | .delete _ => "StatementDelVariable"
  | .deleteAttribute _ _ => "StatementDelAttribute"
  | .deleteSubscript _ _ => "StatementDelSubscript"
  | .deleteSlice _ _ _ => "StatementDelSlice"
  | .block _ => "StatementTempBlock"
  | .expression _ => "StatementExpressionOnly"
  | .print _ _ _ => "StatementPrint"
  | .returnValue _ => "StatementReturn"
  | .loop _ _ => "StatementLoop"
  | .conditional _ _ _ => "StatementConditional"
  | .continueLoop _ => "StatementContinueLoop"
  | .breakLoop _ => "StatementBreakLoop"
  | .importStar _ => "StatementImportStar"
  | .tryFinally _ _ => "StatementTryFinally"
  | .tryExcept _ _ _ => "StatementTryExcept"
  | .raise _ _ _ => "StatementRaiseException"
  | .exec _ _ _ => "StatementExec"
  | .execInline _ => "StatementExecInline"
  | .unpackCheck _ _ => "StatementSpecialUnpackCheck"
  | .declareGlobal _ => "StatementDeclareGlobal"

def detail? : Stmt → Option String
  | .assignAttribute _ name _ => some name
  | .deleteAttribute _ name => some name
  | .declareGlobal names => some (Text.commaSeparated names)
  | .unpackCheck _ count => some (toString count)
  | _ => none

end Stmt

namespace NodeKind

def kindName : NodeKind → String
  | .module _ => "PythonModule"
  | .sequence _ => "StatementsSequence"
  | .handler _ => "StatementExceptHandler"
  | .expr e => e.kindName
  | .stmt s => s.kindName

def detail? : NodeKind → Option String
  | .module m => some m.fullName
  | .sequence _ | .handler _ => none
  | .expr e => e.detail?
  | .stmt s => s.detail?

end NodeKind
end CompilerBackend
