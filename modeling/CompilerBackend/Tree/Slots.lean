import CompilerBackend.Tree.Kind
/-!
# Child slots

A node kind holds ids of other nodes in slots. `children` lists the slots in the order in which
they are evaluated, which for assignments and for the item of a dict is not the order in which
they are written; `mapChildren` maps every slot and nothing else. The two agree on what a
slot is: `children_mapChildren`.
-/

namespace CompilerBackend

/-- The slots of key and value pairs, each key before its value. -/
def pairSlots (pairs : List (NodeId × NodeId)) : List NodeId :=
  pairs.flatMap fun (k, v) => [k, v]

def mapPairs (f : NodeId → NodeId) (pairs : List (NodeId × NodeId)) : List (NodeId × NodeId) :=
  pairs.map fun (k, v) => (f k, f v)

@[simp] theorem pairSlots_mapPairs (f : NodeId → NodeId) (pairs : List (NodeId × NodeId)) :
    pairSlots (mapPairs f pairs) = (pairSlots pairs).map f := by
  induction pairs <;> simp_all [pairSlots, mapPairs]

@[simp] theorem toList_map (f : NodeId → NodeId) (o : Option NodeId) :
    (o.map f).toList = o.toList.map f := by
  cases o <;> rfl

namespace Expr

def children : Expr → List NodeId
  | .variableRef _ _ | .temporaryRef _ | .constant _ | .importModule _ _ _ | .globals | .locals
  | .dir | .builtin _ | .anonymousBuiltin _ | .exception _ | .caught _ => []
  | .operation _ operands => operands
  | .disjunction operands => operands
  | .conjunction operands => operands
  | .comparison _ left right => [left, right]
  | .conditional condition yes no => [condition, yes, no]
  | .makeTuple elements => elements
  | .makeList elements => elements
  | .makeSet elements => elements
  | .makeDict pairs => pairSlots pairs
  | .call callee positional named starList starDict =>
    callee :: positional ++ pairSlots named ++ starList.toList ++ starDict.toList
  | .attributeOf source _ => [source]
  | .specialAttributeOf source _ => [source]
  | .subscript source index => [source, index]
  | .slice source lower upper => source :: lower.toList ++ upper.toList
  | .sliceObject lower upper step => lower.toList ++ upper.toList ++ step.toList
  | .function f => f.body.toList
  | .functionDefaulted definition defaults => defaults ++ [definition]
  | .classBody c => c.body.toList
  | .classBased classNode bases => bases ++ [classNode]
  | .yield value _ => [value]
  | .builtinImport name fromList inGlobals inLocals level =>
    name :: fromList.toList ++ inGlobals.toList ++ inLocals.toList ++ level.toList
  | .importName source _ => [source]
  | .range low high step => low :: high.toList ++ step.toList
  | .unaryBuiltin _ value => [value]
  | .iterWithSentinel callable sentinel => [callable, sentinel]
  | .nextWithDefault iterator default => [iterator, default]
  | .typeOfThree name bases namespaceDict => [name, bases, namespaceDict]
  | .integer _ value base => value.toList ++ base.toList
  | .dict positional named => positional.toList ++ pairSlots named
  | .openFile filename mode buffering => filename.toList ++ mode.toList ++ buffering.toList
  | .eval _ source inGlobals inLocals => source :: inGlobals.toList ++ inLocals.toList
  | .raise exceptionType value sideEffects => sideEffects ++ exceptionType :: value.toList
  | .makeException _ arguments => arguments
  | .assignment target source => [source, target]
  | .listAppend list value => [list, value]
  | .setAdd set value => [set, value]
  | .dictSet target key value => [target, value, key]
  | .unpackNext iterator _ => [iterator]

def mapChildren (f : NodeId → NodeId) : Expr → Expr
  | .variableRef name binding => .variableRef name binding
  | .temporaryRef binding => .temporaryRef binding
  | .constant value => .constant value
  | .operation operator operands => .operation operator (operands.map f)
  | .disjunction operands => .disjunction (operands.map f)
  | .conjunction operands => .conjunction (operands.map f)
  | .comparison comparator left right => .comparison comparator (f left) (f right)
  | .conditional condition yes no => .conditional (f condition) (f yes) (f no)
  | .makeTuple elements => .makeTuple (elements.map f)
  | .makeList elements => .makeList (elements.map f)
  | .makeSet elements => .makeSet (elements.map f)
  | .makeDict pairs => .makeDict (mapPairs f pairs)
  | .call callee positional named starList starDict =>
    .call (f callee) (positional.map f) (mapPairs f named) (starList.map f) (starDict.map f)
  | .attributeOf source name => .attributeOf (f source) name
  | .specialAttributeOf source name => .specialAttributeOf (f source) name
  | .subscript source index => .subscript (f source) (f index)
  | .slice source lower upper => .slice (f source) (lower.map f) (upper.map f)
  | .sliceObject lower upper step => .sliceObject (lower.map f) (upper.map f) (step.map f)
  | .function body => .function { body with body := body.body.map f }
  | .functionDefaulted definition defaults =>
    .functionDefaulted (f definition) (defaults.map f)
  | .classBody body => .classBody { body with body := body.body.map f }
  | .classBased classNode bases => .classBased (f classNode) (bases.map f)
  | .yield value forReturn => .yield (f value) forReturn
  | .importModule name names level => .importModule name names level
  | .builtinImport name fromList inGlobals inLocals level =>
    .builtinImport (f name) (fromList.map f) (inGlobals.map f) (inLocals.map f) (level.map f)
  | .importName source name => .importName (f source) name
  | .range low high step => .range (f low) (high.map f) (step.map f)
  | .globals => .globals
  | .locals => .locals
  | .dir => .dir
  | .unaryBuiltin fn value => .unaryBuiltin fn (f value)
  | .iterWithSentinel callable sentinel => .iterWithSentinel (f callable) (f sentinel)
  | .nextWithDefault iterator default => .nextWithDefault (f iterator) (f default)
  | .typeOfThree name bases namespaceDict =>
    .typeOfThree (f name) (f bases) (f namespaceDict)
  | .integer kind value base => .integer kind (value.map f) (base.map f)
  | .dict positional named => .dict (positional.map f) (mapPairs f named)
  | .openFile filename mode buffering =>
    .openFile (filename.map f) (mode.map f) (buffering.map f)
  | .eval mode source inGlobals inLocals =>
    .eval mode (f source) (inGlobals.map f) (inLocals.map f)
  | .raise exceptionType value sideEffects =>
    .raise (f exceptionType) (value.map f) (sideEffects.map f)
  | .makeException name arguments => .makeException name (arguments.map f)
  | .builtin name => .builtin name
  | .anonymousBuiltin name => .anonymousBuiltin name
  | .exception name => .exception name
  | .assignment target source => .assignment (f target) (f source)
  | .caught part => .caught part
  | .listAppend list value => .listAppend (f list) (f value)
  | .setAdd set value => .setAdd (f set) (f value)
  | .dictSet target key value => .dictSet (f target) (f key) (f value)
  | .unpackNext iterator count => .unpackNext (f iterator) count

@[simp] theorem children_mapChildren (f : NodeId → NodeId) (e : Expr) :
    (e.mapChildren f).children = e.children.map f := by
  cases e <;> simp [mapChildren, children]

end Expr

namespace Stmt

/-- The children of a statement in the order of evaluation: a stored value comes before the
place that it is stored in. -/
def children : Stmt → List NodeId
  | .assign target source => [source, target]
  | .assignAttribute source _ value => [value, source]
  | .assignSubscript subscribed subscript value => [value, subscribed, subscript]
  | .assignSlice source lower upper value => value :: source :: lower.toList ++ upper.toList
  | .delete target => [target]
  | .deleteAttribute source _ => [source]
  | .deleteSubscript subscribed subscript => [subscribed, subscript]
  | .deleteSlice source lower upper => source :: lower.toList ++ upper.toList
  | .block body => [body]
  | .expression value => [value]
  | .print destination values _ => destination.toList ++ values
  | .returnValue value => [value]
  | .loop body _ => body.toList
  | .conditional condition yes no => condition :: yes.toList ++ no.toList
  | .continueLoop _ | .breakLoop _ | .declareGlobal _ => []
  | .importStar source => [source]
  | .tryFinally tried final => [tried, final]
  | .tryExcept tried handlers noRaise => tried :: handlers ++ noRaise.toList
  | .raise exceptionType value traceback =>
    exceptionType.toList ++ value.toList ++ traceback.toList
  | .exec source inGlobals inLocals => source :: inGlobals.toList ++ inLocals.toList
  | .execInline body => [body]
  | .unpackCheck iterator _ => [iterator]

def mapChildren (f : NodeId → NodeId) : Stmt → Stmt
  | .assign target source => .assign (f target) (f source)
  | .assignAttribute source name value => .assignAttribute (f source) name (f value)
  | .assignSubscript subscribed subscript value =>
    .assignSubscript (f subscribed) (f subscript) (f value)
  | .assignSlice source lower upper value =>
    .assignSlice (f source) (lower.map f) (upper.map f) (f value)
  | .delete target => .delete (f target)
  | .deleteAttribute source name => .deleteAttribute (f source) name
  | .deleteSubscript subscribed subscript => .deleteSubscript (f subscribed) (f subscript)
  | .deleteSlice source lower upper => .deleteSlice (f source) (lower.map f) (upper.map f)
  | .block body => .block (f body)
  | .expression value => .expression (f value)
  | .print destination values newline => .print (destination.map f) (values.map f) newline
  | .returnValue value => .returnValue (f value)
  | .loop body unwinds => .loop (body.map f) unwinds
  | .conditional condition yes no => .conditional (f condition) (yes.map f) (no.map f)
  | .continueLoop unwinds => .continueLoop unwinds
  | .breakLoop unwinds => .breakLoop unwinds
  | .importStar source => .importStar (f source)
  | .tryFinally tried final => .tryFinally (f tried) (f final)
  | .tryExcept tried handlers noRaise =>
    .tryExcept (f tried) (handlers.map f) (noRaise.map f)
  | .raise exceptionType value traceback =>
    .raise (exceptionType.map f) (value.map f) (traceback.map f)
  | .exec source inGlobals inLocals => .exec (f source) (inGlobals.map f) (inLocals.map f)
  | .execInline body => .execInline (f body)
  | .unpackCheck iterator count => .unpackCheck (f iterator) count
  | .declareGlobal names => .declareGlobal names

@[simp] theorem children_mapChildren (f : NodeId → NodeId) (s : Stmt) :
    (s.mapChildren f).children = s.children.map f := by
  cases s <;> simp [mapChildren, children]

end Stmt

namespace NodeKind

/-- The children of a node in the order of evaluation. -/
def children : NodeKind → List NodeId
  | .module m => m.body.toList
  | .sequence statements => statements
  | .handler h => h.exceptionTypes ++ h.target.toList ++ h.branch.toList
  | .expr e => e.children
  | .stmt s => s.children

def mapChildren (f : NodeId → NodeId) : NodeKind → NodeKind
  | .module m => .module { m with body := m.body.map f }
  | .sequence statements => .sequence (statements.map f)
  | .handler h =>
    .handler ⟨h.exceptionTypes.map f, h.target.map f, h.branch.map f⟩
  | .expr e => .expr (e.mapChildren f)
  | .stmt s => .stmt (s.mapChildren f)

@[simp] theorem children_mapChildren (f : NodeId → NodeId) (k : NodeKind) :
    (k.mapChildren f).children = k.children.map f := by
  cases k <;> simp [mapChildren, children]

def holds (k : NodeKind) (id : NodeId) : Bool :=
  k.children.contains id

/-- The node with `new` in every slot that held `old`. -/
def redirect (k : NodeKind) (old new : NodeId) : NodeKind :=
  k.mapChildren fun id => if id = old then new else id

end NodeKind

/-! ## Walking over the slots -/

section Visit

variable {m : Type → Type} [Monad m] (f : NodeId → m NodeId)

def visitPair (p : NodeId × NodeId) : m (NodeId × NodeId) := do
  let k ← f p.1
  let v ← f p.2
  return (k, v)

namespace Expr

/-- The expression with every slot filled by the answer of an action, slot by slot in the order of
evaluation. -/
def visit : Expr → m Expr
  | .variableRef name binding => pure (.variableRef name binding)
  | .temporaryRef binding => pure (.temporaryRef binding)
  | .constant value => pure (.constant value)
  | .importModule name names level => pure (.importModule name names level)
  | .globals => pure .globals
  | .locals => pure .locals
  | .dir => pure .dir
  | .builtin name => pure (.builtin name)
  | .anonymousBuiltin name => pure (.anonymousBuiltin name)
  | .exception name => pure (.exception name)
  | .caught part => pure (.caught part)
  | .operation operator operands => return .operation operator (← operands.mapM f)
  | .disjunction operands => return .disjunction (← operands.mapM f)
  | .conjunction operands => return .conjunction (← operands.mapM f)
  | .comparison comparator left right => return .comparison comparator (← f left) (← f right)
  | .conditional condition yes no => return .conditional (← f condition) (← f yes) (← f no)
  | .makeTuple elements => return .makeTuple (← elements.mapM f)
  | .makeList elements => return .makeList (← elements.mapM f)
  | .makeSet elements => return .makeSet (← elements.mapM f)
  | .makeDict pairs => return .makeDict (← pairs.mapM (visitPair f))
  | .call callee positional named starList starDict =>
    return .call (← f callee) (← positional.mapM f) (← named.mapM (visitPair f))
      (← starList.mapM f) (← starDict.mapM f)
  | .attributeOf source name => return .attributeOf (← f source) name
  | .specialAttributeOf source name => return .specialAttributeOf (← f source) name
  | .subscript source index => return .subscript (← f source) (← f index)
  | .slice source lower upper => return .slice (← f source) (← lower.mapM f) (← upper.mapM f)
  | .sliceObject lower upper step =>
    return .sliceObject (← lower.mapM f) (← upper.mapM f) (← step.mapM f)
  | .function body => return .function { body with body := ← body.body.mapM f }
  | .functionDefaulted definition defaults => do
    let defaults ← defaults.mapM f
    return .functionDefaulted (← f definition) defaults
  | .classBody body => return .classBody { body with body := ← body.body.mapM f }
  | .classBased classNode bases => do
    let bases ← bases.mapM f
    return .classBased (← f classNode) bases
  | .yield value forReturn => return .yield (← f value) forReturn
  | .builtinImport name fromList inGlobals inLocals level =>
    return .builtinImport (← f name) (← fromList.mapM f) (← inGlobals.mapM f)
      (← inLocals.mapM f) (← level.mapM f)
  | .importName source name => return .importName (← f source) name
  | .range low high step => return .range (← f low) (← high.mapM f) (← step.mapM f)
  | .unaryBuiltin fn value => return .unaryBuiltin fn (← f value)
  | .iterWithSentinel callable sentinel => return .iterWithSentinel (← f callable) (← f sentinel)
  | .nextWithDefault iterator default => return .nextWithDefault (← f iterator) (← f default)
  | .typeOfThree name bases namespaceDict =>
    return .typeOfThree (← f name) (← f bases) (← f namespaceDict)
  | .integer kind value base => return .integer kind (← value.mapM f) (← base.mapM f)
  | .dict positional named =>
    return .dict (← positional.mapM f) (← named.mapM (visitPair f))
  | .openFile filename mode buffering =>
    return .openFile (← filename.mapM f) (← mode.mapM f) (← buffering.mapM f)
  | .eval mode source inGlobals inLocals =>
    return .eval mode (← f source) (← inGlobals.mapM f) (← inLocals.mapM f)
  | .raise exceptionType value sideEffects => do
    let sideEffects ← sideEffects.mapM f
    return .raise (← f exceptionType) (← value.mapM f) sideEffects
  | .makeException name arguments => return .makeException name (← arguments.mapM f)
  | .assignment target source => do
    let source ← f source
    return .assignment (← f target) source
  | .listAppend list value => return .listAppend (← f list) (← f value)
  | .setAdd set value => return .setAdd (← f set) (← f value)
  | .dictSet target key value => do
    let target ← f target
    let value ← f value
    return .dictSet target (← f key) value
  | .unpackNext iterator count => return .unpackNext (← f iterator) count

end Expr

namespace Stmt

def visit : Stmt → m Stmt
  | .assign target source => do
    let source ← f source
    return .assign (← f target) source
  | .assignAttribute source name value => do
    let value ← f value
    return .assignAttribute (← f source) name value
  | .assignSubscript subscribed subscript value => do
    let value ← f value
    return .assignSubscript (← f subscribed) (← f subscript) value
  | .assignSlice source lower upper value => do
    let value ← f value
    return .assignSlice (← f source) (← lower.mapM f) (← upper.mapM f) value
  | .delete target => return .delete (← f target)
  | .deleteAttribute source name => return .deleteAttribute (← f source) name
  | .deleteSubscript subscribed subscript =>
    return .deleteSubscript (← f subscribed) (← f subscript)
  | .deleteSlice source lower upper =>
    return .deleteSlice (← f source) (← lower.mapM f) (← upper.mapM f)
  | .block body => return .block (← f body)
  | .expression value => return .expression (← f value)
  | .print destination values newline =>
    return .print (← destination.mapM f) (← values.mapM f) newline
  | .returnValue value => return .returnValue (← f value)
  | .loop body unwinds => return .loop (← body.mapM f) unwinds
  | .conditional condition yes no =>
    return .conditional (← f condition) (← yes.mapM f) (← no.mapM f)
  | .continueLoop unwinds => pure (.continueLoop unwinds)
  | .breakLoop unwinds => pure (.breakLoop unwinds)
  | .declareGlobal names => pure (.declareGlobal names)
  | .importStar source => return .importStar (← f source)
  | .tryFinally tried final => return .tryFinally (← f tried) (← f final)
  | .tryExcept tried handlers noRaise =>
    return .tryExcept (← f tried) (← handlers.mapM f) (← noRaise.mapM f)
  | .raise exceptionType value traceback =>
    return .raise (← exceptionType.mapM f) (← value.mapM f) (← traceback.mapM f)
  | .exec source inGlobals inLocals =>
    return .exec (← f source) (← inGlobals.mapM f) (← inLocals.mapM f)
  | .execInline body => return .execInline (← f body)
  | .unpackCheck iterator count => return .unpackCheck (← f iterator) count

end Stmt

def NodeKind.visit : NodeKind → m NodeKind
  | .module m => return .module { m with body := ← m.body.mapM f }
  | .sequence statements => return .sequence (← statements.mapM f)
  | .handler h =>
    return .handler ⟨← h.exceptionTypes.mapM f, ← h.target.mapM f, ← h.branch.mapM f⟩
  | .expr e => return .expr (← e.visit f)
  | .stmt s => return .stmt (← s.visit f)

end Visit

/-- What the next slot of a child holds once `old` has given way to `new`, with a note of whether
it held `old`. -/
def swapSlot (old new slot : NodeId) : StateM Bool NodeId := do
  if slot = old then
    set true
    return new
  else
    return slot

/-- One child replaced by another wherever it stands, and whether it stood anywhere. -/
def NodeKind.replaceChild (k : NodeKind) (old new : NodeId) : NodeKind × Bool :=
  ((k.visit (swapSlot old new)).run false).run

end CompilerBackend
