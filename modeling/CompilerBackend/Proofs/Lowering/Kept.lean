import CompilerBackend.Proofs.Lowering.Ends
import CompilerBackend.Proofs.Scopes.Advance
/-!
# What a lowering leaves as it was

Whether a step of a lowering succeeds or stops, it leaves the stack of scopes as it found it, apart
from definitions in the innermost scope and the counters of the counting one; and it only adds to
the program. A stop within functions, classes and inline code is no exception, since their scopes
are closed however the lowering of their bodies ends. Other relations between the state of affairs
at the start and the one at any end follow in the same way: of a relation only its own rules are
asked, and what functions and classes do with it.

- `Lowerer.Keeps`: the lowerings that the lowering of a node goes on to keep a relation.
- `Lowerer.Keeps.ends`: the case of `Lowerer.Ends` in which any stop will do.
- `keeps_ofDepth`: the lowering of nodes, however many levels deep.
- `Progress.AdvancesTo`: the relation of the whole state of affairs.
-/

namespace CompilerBackend

open Lowering Target

variable {R : Progress → Progress → Prop} [Progress.Closed R]

/-- The lowerings that the lowering of a node goes on to, for nodes that `P` holds of. -/
structure Lowerer.Keeps (R : Progress → Progress → Prop) (P : NodeId → Prop) (lowerer : Lowerer) :
    Prop where
  expression : ∀ {id}, P id → (lowerer.expression id).Keeps R
  condition : ∀ {id}, P id → ∀ inverted, (lowerer.condition id inverted).Keeps R
  sequence : ∀ {id}, P id → (lowerer.sequence id).Keeps R

/-- Functions and classes around what a lowering makes of their bodies. -/
structure Lowerer.Defines (R : Progress → Progress → Prop) (P : NodeId → Prop) (s : Setting)
    (lowerer : Lowerer) : Prop where
  function : ∀ {id ids}, P id → (∀ c ∈ ids, P c) → (functionObject s lowerer id ids).Keeps R
  classBody : ∀ {id ids}, P id → (∀ c ∈ ids, P c) → (classObject s lowerer id ids).Keeps R

/-! ## Ends with any stop -/

omit [Progress.Closed R] in
theorem Lower.Keeps.ends {α : Type} {step : Lower α} (h : step.Keeps R) :
    step.Ends R fun _ => True := ⟨h, fun _ _ _ => trivial⟩

variable {P : NodeId → Prop}

namespace Lowerer.Keeps

variable {self : Lowerer} {o : Option NodeId} {ids : List NodeId}

omit [Progress.Closed R] in
theorem ends (h : self.Keeps R P) : self.Ends R (fun _ => True) P where
  expression hid := (h.expression hid).ends
  condition hid inverted := (h.condition hid inverted).ends
  sequence hid := (h.sequence hid).ends

theorem endless : Lowerer.endless.Keeps R P where
  expression _ := .throws _
  condition _ _ := .throws _
  sequence _ := .throws _

theorem optional (h : self.Keeps R P) (ho : ∀ c ∈ o, P c) : (self.optional o).Keeps R :=
  (h.ends.optional ho).keeps

theorem expressions (h : self.Keeps R P) (hids : ∀ c ∈ ids, P c) :
    (self.expressions ids).Keeps R := (h.ends.expressions hids).keeps

theorem optionalSequence (h : self.Keeps R P) (ho : ∀ c ∈ o, P c) :
    (self.optionalSequence o).Keeps R := (h.ends.optionalSequence ho).keeps

end Lowerer.Keeps

section

variable {s : Setting} {t : Tree} {self : Lowerer} {id : NodeId} {ids : List NodeId}

omit [Progress.Closed R] in
theorem Lowerer.Defines.makes (h : self.Defines R P s) :
    self.Makes R (fun _ => True) P P s where
  function hid hids := (h.function hid hids).ends
  classBody hid hids := (h.classBody hid hids).ends

theorem Tree.blames_any (t : Tree) (id : NodeId) : t.Blames (fun _ => True) id :=
  fun _ _ => trivial

theorem Tree.Zone.of_closed (hP : ∀ {id c}, P id → c ∈ t.children id → P c) :
    t.Zone (fun _ => True) P P where
  below hid := hid
  goesOn hid _ := Tree.holds_goesOn hP (fun _ => hP hid) _
  blames {id} _ := t.blames_any id

theorem keeps_boundVariable (id : NodeId) : (boundVariable t id).Keeps R :=
  (ends_boundVariable (t.blames_any id)).keeps

theorem keeps_tuple (h : self.Keeps R P) (hids : ∀ c ∈ ids, P c) :
    (Lowering.tuple t self ids).Keeps R := (ends_tuple h.ends hids).keeps

theorem keeps_evalParts (h : self.Keeps R P) (mode : EvalMode) {source : NodeId}
    {globals locals : Option NodeId}
    (hc : ∀ c ∈ source :: globals.toList ++ locals.toList, P c) :
    (evalParts t self id mode source globals locals).Keeps R :=
  (ends_evalParts h.ends mode hc).keeps

theorem keeps_sliceAssignment {lower upper : Option NodeId} (h : self.Keeps R P) (hid : P id)
    (hl : ∀ c ∈ lower, P c) (hu : ∀ c ∈ upper, P c) (value : Operand) :
    (Lowering.sliceAssignment s self id lower upper value).Keeps R :=
  (ends_sliceAssignment h.ends hid hl hu value).keeps

theorem keeps_sliceDeletion {lower upper : Option NodeId} (h : self.Keeps R P) (hid : P id)
    (hl : ∀ c ∈ lower, P c) (hu : ∀ c ∈ upper, P c) :
    (Lowering.sliceDeletion s self id lower upper).Keeps R :=
  (ends_sliceDeletion h.ends hid hl hu).keeps

theorem keeps_defaultValues (h : self.Keeps R P) {defaults : List (NodeId × Variable)}
    (hd : ∀ d ∈ defaults, P d.1) : (defaultValues t self defaults).Keeps R :=
  (ends_defaultValues h.ends hd).keeps

section

variable (hP : ∀ {id c}, P id → c ∈ s.tree.children id → P c)
include hP

theorem keeps_statement (h : self.Keeps R P) (hid : P id) :
    (Lowering.statement s self id).Keeps R :=
  (ends_statement (.of_closed hP) h.ends hid).keeps

theorem keeps_sequence (h : self.Keeps R P) (hid : P id) :
    (Lowering.sequence s self id).Keeps R := by
  apply Lower.Ends.keeps
  apply ends_sequence (s.tree.blames_any id)
  intro ids hids c hc
  refine ⟨(keeps_statement hP h (hP hid ?_)).ends, fun _ _ => trivial⟩
  rwa [Tree.children, Tree.sequence?_eq_some_iff.mp hids]

end
end

/-! ## All levels -/

/-- The induction is on the levels: what a node goes on to is one level down. -/
theorem keeps_ofDepth {s : Setting} (hP : ∀ {id c}, P id → c ∈ s.tree.children id → P c)
    (hdefines : ∀ levels, (Lowerer.ofDepth s levels).Keeps R P →
      (Lowerer.ofDepth s levels).Defines R P s) (levels : Nat) :
    (Lowerer.ofDepth s levels).Keeps R P := by
  induction levels with
  | zero => exact .endless
  | succ levels ih =>
      have hz : s.tree.Zone (fun _ => True) P P := .of_closed hP
      constructor
      · intro id hid
        exact (ends_expression hz ih.ends (hdefines levels ih).makes hid).keeps
      · intro id hid inverted
        exact (ends_condition hz ih.ends hid (ih.expression hid).ends inverted).keeps
      · intro id hid
        exact keeps_sequence hP ih hid

/-- A function and a class have scopes of their own for their bodies; their texts go to the scope
around them. -/
theorem keeps_ofDepth_of_adding
    (hfunction : ∀ codeName definition,
      (Lower.onScopes fun scopes => ((), scopes.addFunction codeName definition)).Keeps R)
    (hclass : ∀ codeName definition,
      (Lower.onScopes fun scopes => ((), scopes.addClass codeName definition)).Keeps R)
    (s : Setting) (levels : Nat) : (Lowerer.ofDepth s levels).Keeps R fun _ => True := by
  refine keeps_ofDepth (fun _ _ => trivial) (fun levels h => ⟨fun _ _ => ?_, fun _ _ => ?_⟩) levels
  · apply Lower.Ends.keeps
    exact ends_functionObject (.of_closed fun _ _ => trivial) h.ends trivial (fun _ _ => trivial)
      hfunction
  · apply Lower.Ends.keeps
    exact ends_classObject (.of_closed fun _ _ => trivial) h.ends trivial (fun _ _ => trivial)
      hclass

/-! ## States of affairs that advance -/

/-- What holds of the changes of any step: the program has grown, and the scopes have advanced. -/
structure Progress.AdvancesTo (g g' : Progress) : Prop where
  program : g.program.Extends g'.program
  scopes : g.scopes.AdvancesTo g'.scopes

instance Progress.AdvancesTo.closed : Progress.Closed Progress.AdvancesTo where
  refl _ := ⟨.refl _, .refl _⟩
  trans h h' := ⟨h.program.trans h'.program, h.scopes.trans h'.scopes⟩
  grow h := ⟨h.adds, .refl _⟩
  takeTryNumber g := ⟨.refl _, .takeTryNumber g.scopes⟩
  takeLoopNumber g := ⟨.refl _, .takeLoopNumber g.scopes⟩
  inScope h := ⟨h.program, h.scopes.inScope⟩

theorem advances_onScopes {change : ScopeStack → ScopeStack}
    (h : ∀ scopes : ScopeStack, scopes.AdvancesTo (change scopes)) :
    (Lower.onScopes fun scopes => ((), change scopes)).Keeps Progress.AdvancesTo := fun g =>
  ⟨.refl _, h g.scopes⟩

theorem advances_ofDepth (s : Setting) (levels : Nat) :
    (Lowerer.ofDepth s levels).Keeps Progress.AdvancesTo fun _ => True :=
  keeps_ofDepth_of_adding (fun _ _ => advances_onScopes fun _ => .addFunction _ _)
    (fun _ _ => advances_onScopes fun _ => .addClass _ _) s levels

def Progress.StaysWellFormed (g g' : Progress) : Prop :=
  g.program.WellFormed → g'.program.WellFormed

instance Progress.StaysWellFormed.closed : Progress.Closed Progress.StaysWellFormed where
  refl _ := id
  trans h h' := h' ∘ h
  grow h := h.wellFormed
  takeTryNumber _ := id
  takeLoopNumber _ := id
  inScope h := h

theorem staysWellFormed_ofDepth (s : Setting) (levels : Nat) :
    (Lowerer.ofDepth s levels).Keeps Progress.StaysWellFormed fun _ => True :=
  keeps_ofDepth_of_adding (fun _ _ _ => id) (fun _ _ _ => id) s levels

/-- Whatever the tree and the state of affairs, and whether the lowering of a node succeeds or
stops: the stack has the same scopes, what the innermost one holds has only been added to or
overwritten, and only the counters of the counting scope have gone up. The program has only
grown. -/
theorem lowering_advances (s : Setting) (g : Progress) (id : NodeId) :
    g.AdvancesTo ((s.lowerer.expression id).run g).2 ∧
    (∀ inverted, g.AdvancesTo ((s.lowerer.condition id inverted).run g).2) ∧
    g.AdvancesTo ((s.statement id).run g).2 ∧ g.AdvancesTo ((s.lowerer.sequence id).run g).2 :=
  have h : s.lowerer.Keeps Progress.AdvancesTo fun _ => True := advances_ofDepth s s.depthBound
  ⟨h.expression trivial g, fun inverted => h.condition trivial inverted g,
    keeps_statement (fun _ _ => trivial) h trivial g, h.sequence trivial g⟩

end CompilerBackend
