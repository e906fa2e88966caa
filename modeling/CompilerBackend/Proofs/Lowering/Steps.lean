import CompilerBackend.Proofs.Lowering.Yields
/-!
# Steps of a lowering

What is shown of a step of a lowering whether it succeeds or stops. Its states of affairs before and
after are related: the program has grown, numbers have been taken, and a scope that was opened has
been closed again. And if it stops, the stop is one of those that a predicate allows. Both are shown
along the steps: of a relation only its own rules are asked, and of a predicate that it holds of the
stops that arise.

- `Program.Grows`, `Adds`: what is in the program stays.
- `Progress.Closed`: the rules of a relation.
- `Lower.Keeps`: a step goes to related states of affairs, from any one and with any end.
- `Tree.Blames`: a predicate allows the stops that blame a node, but for those of blank lines.
- `Lower.Ends`: a step goes to related states of affairs, and it only stops as a predicate allows.
-/

namespace CompilerBackend

open Lowering Target

/-- What is in the program stays, and a well-formed program stays one. -/
structure Program.Grows (p p' : Program) : Prop where
  adds : p.Extends p'
  wellFormed : p.WellFormed → p'.WellFormed

namespace Program.Grows

variable {p p' p'' : Program}

theorem refl (p : Program) : p.Grows p := ⟨.refl p, id⟩

theorem trans (h : p.Grows p') (h' : p'.Grows p'') : p.Grows p'' :=
  ⟨h.adds.trans h'.adds, h'.wellFormed ∘ h.wellFormed⟩

theorem intern (p : Program) (c : Constant) : p.Grows (p.intern c).2 := by
  refine ⟨?_, fun hwf => (hwf.intern c).1⟩
  rw [Program.intern]
  cases hget : p.constants.get? c.key with
  | some e => exact Extends.refl p
  | none =>
      exact WellFormed.extends_append
        (OrderedMap.entries_insert (OrderedMap.get?_eq_none_iff.mp hget) _)

end Program.Grows

/-! ## Steps on the program -/

def Adds {α : Type} (step : Interning α) : Prop := ∀ p : Program, p.Grows (step p).2

namespace Adds

variable {α β : Type} {first : Interning α}

theorem pure (a : α) : Adds (Pure.pure a : Interning α) := Program.Grows.refl

theorem bind {next : α → Interning β} (hs : Adds first) (hn : ∀ a, Adds (next a)) :
    Adds (first >>= next) := fun p => (hs p).trans (hn (first p).1 (first p).2)

/-- A step that ends with a result made of that of another. -/
theorem map {f : α → β} (hs : Adds first) : Adds (do return f (← first)) := hs.bind fun _ => pure _

theorem mapM {next : α → Interning β} (hs : ∀ a, Adds (next a)) (l : List α) :
    Adds (l.mapM next) := by
  induction l with
  | nil =>
      rw [List.mapM_nil]
      exact pure []
  | cons a l ih =>
      rw [List.mapM_cons]
      exact (hs a).bind fun _ => ih.map

theorem handleOf (c : Constant) : Adds (CompilerBackend.handleOf c) :=
  fun p => .intern p c

theorem handleOfText (s : String) : Adds (CompilerBackend.handleOfText s) := handleOf (.str s)

theorem recordTuple (n : Nat) : Adds (CompilerBackend.recordTuple n) := fun _ =>
  ⟨⟨List.prefix_refl _, fun _ h => Arities.mem_insertSizes_iff.mpr (.inr h), fun _ h => h,
    fun _ h => h⟩, fun hwf => wellFormed_of_constants hwf rfl⟩

theorem recordList (n : Nat) : Adds (CompilerBackend.recordList n) := fun _ =>
  ⟨⟨List.prefix_refl _, fun _ h => h, fun _ h => Arities.mem_insertSizes_iff.mpr (.inr h),
    fun _ h => h⟩, fun hwf => wellFormed_of_constants hwf rfl⟩

theorem recordDict (n : Nat) : Adds (CompilerBackend.recordDict n) := fun _ =>
  ⟨⟨List.prefix_refl _, fun _ h => h, fun _ h => h,
    fun _ h => Arities.mem_insertSizes_iff.mpr (.inr h)⟩,
    fun hwf => wellFormed_of_constants hwf rfl⟩

theorem constantFromTable (c : Constant) : Adds (Target.constantFromTable c) := (handleOf c).map

theorem constantAccess (c : Constant) : Adds (Target.constantAccess c) := by
  cases c with
  | none => exact pure _
  | ellipsis => exact pure _
  | bool b => cases b <;> exact pure _
  | _ => exact constantFromTable _

theorem tupleCreation (os : List Operand) : Adds (Target.tupleCreation os) :=
  (recordTuple os.length).map

theorem listCreation (os : List Operand) : Adds (Target.listCreation os) :=
  (recordList os.length).map

theorem dictCreation (ks vs : List Operand) : Adds (Target.dictCreation ks vs) := by
  refine (recordDict ks.length).bind fun _ => ?_
  dsimp only
  split <;> exact pure _

theorem exceptionCreation (name : String) (os : List Operand) :
    Adds (Target.exceptionCreation name os) := by
  unfold Target.exceptionCreation
  dsimp only
  split
  · exact pure _
  · exact (tupleCreation os).map

theorem localsDict (codeName : String) (p : Provider) (mode : LocalsMode) :
    Adds (Target.localsDict codeName p mode) := by
  have hentry : ∀ v, Adds (localEntry v) := fun v => (handleOfText v.name).map
  unfold Target.localsDict
  split
  · exact pure _
  · exact pure _
  · exact pure _
  next f =>
    refine (mapM hentry (f.parameters.all ++ f.userVariables)).bind fun entries => ?_
    split <;> exact pure _

theorem functionCode (moduleCodeName : String) (f : FunctionBody) (place : Location)
    (accesses : List Operand) (codes : List String) :
    Adds (Target.functionCode moduleCodeName f place accesses codes) := by
  have hparameter : ∀ v, Adds (parameterLine v) := fun v => (handleOfText v.name).map
  have hvariable : ∀ v, Adds (variableLine v) := fun v => (handleOfText v.name).map
  unfold Target.functionCode
  refine (handleOfText f.name).bind fun _ => ?_
  exact (mapM hparameter f.parameters.all).bind fun _ => (mapM hvariable f.userVariables).map

theorem classCode (moduleName : String) (c : ClassBody) (place : Location) (codes : List String) :
    Adds (Target.classCode moduleName c place codes) := by
  have hvariable : ∀ v, Adds (variableLine v) := fun v => (handleOfText v.name).map
  have hdoc : ∀ doc, Adds (classDocLine doc) := fun doc => (handleOfText doc).map
  unfold Target.classCode
  refine (handleOfText moduleName).bind fun _ => ?_
  exact (mapM hvariable c.classVariables).bind fun _ => (mapM hdoc c.doc.toList).map

end Adds

/-! ## Steps of a lowering -/

/-- A relation between states of affairs that steps of a lowering keep: the program may grow, and
numbers may be taken; and a scope may be closed that was opened for what is between them. -/
class Progress.Closed (R : Progress → Progress → Prop) : Prop where
  refl (g : Progress) : R g g
  trans {g g' g'' : Progress} : R g g' → R g' g'' → R g g''
  grow {g : Progress} {p : Program} : g.program.Grows p → R g { g with program := p }
  takeTryNumber (g : Progress) : R g { g with scopes := g.scopes.takeTryNumber.2 }
  takeLoopNumber (g : Progress) : R g { g with scopes := g.scopes.takeLoopNumber.2 }
  inScope {g g' : Progress} {kind : ScopeKind} :
    R { g with scopes := g.scopes.push kind } g' → R g { g' with scopes := g'.scopes.pop }

def Lower.Keeps {α : Type} (R : Progress → Progress → Prop) (step : Lower α) : Prop :=
  ∀ g : Progress, R g (step.run g).2

variable {R : Progress → Progress → Prop}

namespace Lower.Keeps

variable {α β : Type} {step : Lower α}

theorem ite {c : Prop} [Decidable c] {other : Lower α} (hs : Keeps R step)
    (hother : Keeps R other) : Keeps R (if c then step else other) := by
  split
  · exact hs
  · exact hother

/-- What comes after a step may count on what the step gave. -/
theorem bind_at {next : α → Lower β} (hs : Keeps R step)
    (hn : ∀ g a, (step.run g).1 = .ok a → R g ((next a).run (step.run g).2).2) :
    Keeps R (step >>= next) := by
  intro g
  have hstep := hs g
  have hnext := hn g
  rw [Meets.run_bind]
  rcases hend : step.run g with ⟨stop | a, g'⟩
  all_goals rw [hend] at hstep hnext
  · exact hstep
  · exact hnext a rfl

theorem within (hs : Keeps R step) (place : PathStep) : Keeps R (Lower.within place step) := by
  intro g
  have hstep := hs g
  rw [Meets.run_within]
  rcases hend : step.run g with ⟨stop | a, g'⟩
  all_goals rw [hend] at hstep; exact hstep

variable [Progress.Closed R]

theorem pure (a : α) : Keeps R (Pure.pure a : Lower α) := Progress.Closed.refl

theorem throws (stop : Stop) : Keeps R (throw stop : Lower α) := Progress.Closed.refl

theorem fail (t : Tree) (id : NodeId) (cause : Cause) : Keeps R (Lower.fail t id cause : Lower α) :=
  throws _

/-- Nothing comes after a stop. -/
theorem fail_bind (t : Tree) (id : NodeId) (cause : Cause) (next : α → Lower β) :
    Keeps R (Lower.fail t id cause >>= next) := throws _

theorem bind {next : α → Lower β} (hs : Keeps R step) (hn : ∀ a, Keeps R (next a)) :
    Keeps R (step >>= next) :=
  hs.bind_at fun g a _ => Progress.Closed.trans (hs g) (hn a _)

theorem map (hs : Keeps R step) (f : α → β) : Keeps R (step >>= fun a => Pure.pure (f a)) :=
  hs.bind fun _ => pure _

theorem takeTryNumber : Keeps R (Lower.onScopes ScopeStack.takeTryNumber) :=
  Progress.Closed.takeTryNumber

theorem takeLoopNumber : Keeps R (Lower.onScopes ScopeStack.takeLoopNumber) :=
  Progress.Closed.takeLoopNumber

theorem inScope (hs : Keeps R step) (kind : ScopeKind) : Keeps R (Lower.inScope kind step) :=
  fun g => Progress.Closed.inScope (hs { g with scopes := g.scopes.push kind })

theorem intern {first : Interning α} (hs : Adds first) : Keeps R (Lower.intern first) := fun g =>
  Progress.Closed.grow (hs g.program)

end Lower.Keeps

/-! ## Stops -/

/-- What the check of the lines of a statement reports: the code has no blank margin, so what is
wrong with it is a blank line. -/
def Cause.isBlankLine : Cause → Bool
  | .malformedCode code => Text.hasNoMargin code
  | _ => false

theorem Operand.isBlankLine_of_defect? {o : Operand} {cause : Cause} (h : o.defect? = some cause) :
    cause.isBlankLine = false := by
  rw [Operand.defect?] at h
  split_ifs at h with hempty hmargin
  · rw [← Option.some.inj h]
    rfl
  · rw [← Option.some.inj h]
    exact Bool.eq_false_iff.mpr hmargin

def Tree.Blames (t : Tree) (Q : Stop → Prop) (id : NodeId) : Prop :=
  ∀ cause : Cause, cause.isBlankLine = false →
    Q (.failed ⟨cause, t.location id, some (t.dump id)⟩ [])

/-- A step goes to a related state of affairs however it ends, and the predicate holds of what it
stops with. -/
structure Lower.Ends {α : Type} (R : Progress → Progress → Prop) (Q : Stop → Prop)
    (step : Lower α) : Prop where
  keeps : step.Keeps R
  stops : ∀ (g : Progress) (stop : Stop), (step.run g).1 = .error stop → Q stop

namespace Lower.Ends

variable {α β : Type} {step : Lower α} {Q Q' : Stop → Prop}

theorem imp (hs : Ends R Q step) (hQ : ∀ stop, Q stop → Q' stop) : Ends R Q' step where
  keeps := hs.keeps
  stops g stop hstop := hQ stop (hs.stops g stop hstop)

theorem ite {c : Prop} [Decidable c] {other : Lower α} (hs : Ends R Q step)
    (hother : Ends R Q other) : Ends R Q (if c then step else other) := by
  by_cases hc : c
  · rw [if_pos hc]
    exact hs
  · rw [if_neg hc]
    exact hother

/-- A stop that leaves a statement is another stop. -/
theorem within (hs : Ends R Q' step) {place : PathStep}
    (hQ : ∀ stop, Q' stop → Q (stop.leaving place)) : Ends R Q (Lower.within place step) where
  keeps := hs.keeps.within place
  stops := by
    intro g stop hstop
    have hstops := hs.stops g
    rw [Meets.run_within] at hstop
    rcases hend : step.run g with ⟨stop' | a, g'⟩
    all_goals rw [hend] at hstop hstops
    · rw [← Except.error.inj hstop]
      exact hQ stop' (hstops stop' rfl)
    · cases hstop

variable [Progress.Closed R]

theorem pure (a : α) : Ends R Q (Pure.pure a : Lower α) where
  keeps := .pure a
  stops _ _ hstop := by cases hstop

theorem throws {stop : Stop} (hstop : Q stop) : Ends R Q (throw stop : Lower α) where
  keeps := .throws stop
  stops _ _ h := by
    rw [← Except.error.inj h]
    exact hstop

theorem fail {t : Tree} {id : NodeId} {cause : Cause} (hblames : t.Blames Q id)
    (hcause : cause.isBlankLine = false) : Ends R Q (Lower.fail t id cause : Lower α) :=
  throws (hblames cause hcause)

/-- Nothing comes after a stop. -/
theorem throws_bind {stop : Stop} (hstop : Q stop) (next : α → Lower β) :
    Ends R Q ((throw stop : Lower α) >>= next) := throws hstop

theorem fail_bind {t : Tree} {id : NodeId} {cause : Cause} (hblames : t.Blames Q id)
    (hcause : cause.isBlankLine = false) (next : α → Lower β) :
    Ends R Q (Lower.fail t id cause >>= next) := throws_bind (hblames cause hcause) next

/-- What comes after a step may count on what the step can yield. -/
theorem bind_yields {next : α → Lower β} (hs : Ends R Q step)
    (hn : ∀ a, Yields step a → Ends R Q (next a)) : Ends R Q (step >>= next) where
  keeps := by
    refine hs.keeps.bind_at fun g a ha => ?_
    exact Progress.Closed.trans (hs.keeps g) ((hn a ⟨g, ha⟩).keeps _)
  stops := by
    intro g stop hstop
    have hstops := hs.stops g stop
    have hnext := fun a ha => (hn a ⟨g, ha⟩).stops (step.run g).2 stop
    rw [Meets.run_bind] at hstop
    rcases hend : step.run g with ⟨stop' | a, g'⟩
    all_goals rw [hend] at hstop hstops hnext
    · apply hstops
      rw [← Except.error.inj hstop]
    · exact hnext a rfl hstop

theorem bind {next : α → Lower β} (hs : Ends R Q step) (hn : ∀ a, Ends R Q (next a)) :
    Ends R Q (step >>= next) := hs.bind_yields fun a _ => hn a

theorem map (hs : Ends R Q step) (f : α → β) : Ends R Q (step >>= fun a => Pure.pure (f a)) :=
  hs.bind fun _ => pure _

omit [Progress.Closed R] in
theorem onScopes {change : ScopeStack → α × ScopeStack} (h : (Lower.onScopes change).Keeps R) :
    Ends R Q (Lower.onScopes change) where
  keeps := h
  stops _ _ hstop := by cases hstop

theorem takeTryNumber : Ends R Q (Lower.onScopes ScopeStack.takeTryNumber) :=
  onScopes .takeTryNumber

theorem takeLoopNumber : Ends R Q (Lower.onScopes ScopeStack.takeLoopNumber) :=
  onScopes .takeLoopNumber

theorem inScope (hs : Ends R Q step) (kind : ScopeKind) : Ends R Q (Lower.inScope kind step) where
  keeps := hs.keeps.inScope kind
  stops _ stop hstop := hs.stops _ stop hstop

theorem intern {first : Interning α} (hs : Adds first) : Ends R Q (Lower.intern first) where
  keeps := .intern hs
  stops _ _ hstop := by cases hstop

theorem constantFromTable (c : Constant) : Ends R Q (Lower.intern (Target.constantFromTable c)) :=
  intern (Adds.constantFromTable c)

end Lower.Ends
end CompilerBackend
