import CompilerBackend.Tree.Scope
import CompilerBackend.Proofs.Tree.WellFormed
/-!
# Generated positions

The lowering of a module goes down slot by slot, and each slot asks something of the node that it
holds: its role. A tree is resolved if every node fits the roles it is reached in.

- `NodeKind.fits`: what a role asks of a node.
- `Tree.positions`: the slots that are lowered, with their roles; `Expr.map_positions` and
  `Stmt.map_positions` say that no other slot is left out than `Stmt.passedOver`.
- `Tree.Resolved`: a node and all positions below it fit, with `resolved_iff` for one step down.
-/

namespace CompilerBackend

inductive Role where
  | expression
  | sequence
  | statement
  | handler
  /-- A variable that is written to or deleted. -/
  | target
  /-- A function, to be made with so many default values. -/
  | function (defaults : Nat)
  | classBody
  deriving DecidableEq, Inhabited

abbrev Position := Role × NodeId

/-- How many default values a function takes: never more than it has positional parameters. -/
def Parameters.defaultsTaken (p : Parameters) : Nat := min p.defaultCount p.positional.length

theorem Parameters.length_defaulted (p : Parameters) : p.defaulted.length = p.defaultsTaken := by
  rw [defaulted, List.length_drop, defaultsTaken]
  omega

def Expr.boundVariable? : Expr → Option Variable
  | .variableRef _ binding => binding
  | .temporaryRef binding => some binding
  | _ => none

def Expr.isOperand (third : Bool) : Expr → Bool
  | .variableRef _ binding => binding.isSome
  | .function f => f.parameters.defaultsTaken == 0
  | .integer .long _ _ => !third
  | _ => true

/-- Whether a node can be lowered in a role; the newer version of the language has no long
integers. -/
def NodeKind.fits (third : Bool) : Role → NodeKind → Bool
  | .expression, .expr e => e.isOperand third
  | .sequence, .sequence _ => true
  | .statement, .stmt _ => true
  | .handler, .handler _ => true
  | .target, .expr e => e.boundVariable?.isSome
  | .function n, .expr (.function f) => f.parameters.defaultsTaken == n
  | .classBody, .expr (.classBody _) => true
  | _, _ => false

/-! ## Slots with their roles -/

def Expr.positions : Expr → List Position
  | .function f => f.body.toList.map (Role.sequence, ·)
  | .functionDefaulted definition defaults =>
    defaults.map (Role.expression, ·) ++ [(Role.function defaults.length, definition)]
  | .classBody c => c.body.toList.map (Role.sequence, ·)
  | .classBased classNode bases =>
    bases.map (Role.expression, ·) ++ [(Role.classBody, classNode)]
  | .assignment target source => [(Role.expression, source), (Role.target, target)]
  | e => e.children.map (Role.expression, ·)

/-- The slots of a statement that are lowered. A generator returns no value; a raise without a
type raises what was caught, and a traceback is looked at only behind a value. -/
def Stmt.positions (inGenerator : Bool) : Stmt → List Position
  | .assign target source => [(Role.expression, source), (Role.target, target)]
  | .delete target => [(Role.target, target)]
  | .block body => [(Role.sequence, body)]
  | .execInline body => [(Role.sequence, body)]
  | .returnValue value => if inGenerator then [] else [(Role.expression, value)]
  | .loop body _ => body.toList.map (Role.sequence, ·)
  | .conditional condition yes no =>
    (Role.expression, condition) :: (yes.toList ++ no.toList).map (Role.sequence, ·)
  | .tryFinally tried final => [(Role.sequence, tried), (Role.sequence, final)]
  | .tryExcept tried handlers noRaise =>
    (Role.sequence, tried) :: handlers.map (Role.handler, ·) ++
      noRaise.toList.map (Role.sequence, ·)
  | .raise none _ _ => []
  | .raise (some type) none _ => [(Role.expression, type)]
  | .raise (some type) (some value) traceback =>
    (type :: value :: traceback.toList).map (Role.expression, ·)
  | s => s.children.map (Role.expression, ·)

def Stmt.passedOver (inGenerator : Bool) : Stmt → List NodeId
  | .returnValue value => if inGenerator then [value] else []
  | .raise none value traceback => value.toList ++ traceback.toList
  | .raise (some _) none traceback => traceback.toList
  | _ => []

/-- Every slot of an expression is lowered. -/
theorem Expr.map_positions (e : Expr) : e.positions.map Prod.snd = e.children := by
  cases e with
  | _ => simp [Expr.positions, Expr.children]

/-- Every slot of a statement is lowered or passed over. -/
theorem Stmt.map_positions (inGenerator : Bool) (s : Stmt) :
    (s.positions inGenerator).map Prod.snd ++ s.passedOver inGenerator = s.children := by
  cases s with
  | returnValue value =>
      cases inGenerator <;> simp [Stmt.positions, Stmt.passedOver, Stmt.children]
  | raise exceptionType value traceback =>
      cases exceptionType <;> cases value <;>
        simp [Stmt.positions, Stmt.passedOver, Stmt.children]
  | _ => simp [Stmt.positions, Stmt.passedOver, Stmt.children]

namespace Tree

variable {t : Tree} {third : Bool} {p : Position}

def inGenerator (t : Tree) (id : NodeId) : Bool :=
  (t.enclosingFunction? id).any (·.isGenerator)

def positions (t : Tree) (id : NodeId) : List Position :=
  match t.kind id with
  | .module m => m.body.toList.map (Role.sequence, ·)
  | .sequence statements => statements.map (Role.statement, ·)
  | .handler h =>
    h.exceptionTypes.map (Role.expression, ·) ++ h.target.toList.map (Role.target, ·) ++
      h.branch.toList.map (Role.sequence, ·)
  | .expr e => e.positions
  | .stmt s => s.positions (t.inGenerator id)

/-- The positions below a position, itself included. -/
def Generates (t : Tree) : Position → Position → Prop :=
  Relation.ReflTransGen fun p q => q ∈ t.positions p.2

def Generated (t : Tree) (root : NodeId) (q : Position) : Prop :=
  ∃ p ∈ t.positions root, t.Generates p q

def Resolved (t : Tree) (third : Bool) (p : Position) : Prop :=
  ∀ q, t.Generates p q → (t.kind q.2).fits third q.1 = true

theorem resolved_iff : t.Resolved third p ↔
    (t.kind p.2).fits third p.1 = true ∧ ∀ q ∈ t.positions p.2, t.Resolved third q := by
  constructor
  · intro h
    exact ⟨h p Relation.ReflTransGen.refl, fun q hq r hr => h r (Relation.ReflTransGen.head hq hr)⟩
  · rintro ⟨hfits, hbelow⟩ r hr
    rcases Relation.ReflTransGen.cases_head hr with rfl | ⟨q, hq, hr⟩
    · exact hfits
    · exact hbelow q hq r hr

/-- Everything that a module generates fits exactly if its slots are resolved. -/
theorem forall_generated_iff {root : NodeId} :
    (∀ q, t.Generated root q → (t.kind q.2).fits third q.1 = true) ↔
      ∀ p ∈ t.positions root, t.Resolved third p :=
  ⟨fun h p hp q hq => h q ⟨p, hp, hq⟩, fun h q ⟨p, hp, hq⟩ => h p hp q hq⟩

end Tree
end CompilerBackend
