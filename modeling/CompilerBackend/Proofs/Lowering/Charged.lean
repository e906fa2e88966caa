import CompilerBackend.Proofs.Lowering.PairedStatements
import CompilerBackend.Proofs.Lowering.Runs
import CompilerBackend.Proofs.Target.UsedTexts
/-!
# What a run charges

A lowering uses the code of an operand in two ways: it hands it on, or it puts it into the text of
a definition and registers that. The second way is charged to the run, so what a node gives and
what it charges together tell how often a variable is read for it. Opening and closing scopes and
counting charge nothing.

- `LocalAccess.registered`: how often the definitions in the open scopes read a variable.
- `LocalAccess.Charges`: a lowering gives what is related to its charge; `Charges.bind`,
  `Charges.inScope`, `Charges.registersFunction`, … are its rules.
- `LocalAccess.Free`: what costs nothing; `Charges.bind_free`.
-/

namespace CompilerBackend

open Target Lowering

/-! ## Sums over ordered maps -/

namespace OrderedMap

variable {κ α : Type} [DecidableEq κ] (weight : α → Nat)

/-- A new value adds to the sum or takes the place of another one. -/
theorem sum_values_insert_le (m : OrderedMap κ α) (k : κ) (a : α) :
    ((m.insert k a).values.map weight).sum ≤ (m.values.map weight).sum + weight a := by
  obtain ⟨l⟩ := m
  induction l with
  | nil => exact (Nat.zero_add (weight a)).ge
  | cons e l ih =>
      have hrest : (((insertEntries k a l).map (·.2)).map weight).sum ≤
          ((l.map (·.2)).map weight).sum + weight a := ih
      change (((insertEntries k a (e :: l)).map (·.2)).map weight).sum ≤
        weight e.2 + ((l.map (·.2)).map weight).sum + weight a
      rw [insertEntries]
      split
      · simp only [List.map_cons, List.sum_cons]
        omega
      · simp only [List.map_cons, List.sum_cons]
        omega

theorem sum_values_append_le (m n : OrderedMap κ α) :
    ((m.append n).values.map weight).sum ≤
      (m.values.map weight).sum + (n.values.map weight).sum := by
  obtain ⟨l⟩ := n
  induction l generalizing m with
  | nil => exact Nat.le_add_right _ _
  | cons e l ih =>
      have hinsert := sum_values_insert_le weight m e.1 e.2
      have hrest := ih (m.insert e.1 e.2)
      change (((m.insert e.1 e.2).append ⟨l⟩).values.map weight).sum ≤
        (m.values.map weight).sum + (weight e.2 + ((l.map (·.2)).map weight).sum)
      have hl : (values (⟨l⟩ : OrderedMap κ α)).map weight = (l.map (·.2)).map weight := rfl
      rw [hl] at hrest
      omega

end OrderedMap

/-! ## Definitions in scopes -/

namespace LocalAccess

variable {a : LocalAccess} {s : ScopeStack} {d : Definition}

/-- How often the definitions of a scope read the variable. -/
def held (a : LocalAccess) (c : Scope) : Nat := ((definitionsOf c).map a.spent).sum

def registered (a : LocalAccess) (s : ScopeStack) : Nat := (s.toList.map a.held).sum

theorem held_eq (c : Scope) : a.held c =
    (c.classes.values.map a.spent).sum + (c.functions.values.map a.spent).sum := by
  rw [held, definitionsOf, List.map_append, List.sum_append]

theorem registered_empty : a.registered {} = 0 := rfl

theorem registered_push (kind : ScopeKind) : a.registered (s.push kind) = a.registered s := by
  change a.held (Scope.ofKind kind) + a.registered s = a.registered s
  exact Nat.zero_add _

theorem registered_modifyCurrent_le {f : Scope → Scope} {n : Nat}
    (h : a.held (f s.current) ≤ a.held s.current + n) :
    a.registered (s.modifyCurrent f) ≤ a.registered s + n := by
  obtain ⟨inner, bottom⟩ := s
  cases inner with
  | nil =>
      change a.held (f bottom) + 0 ≤ a.held bottom + 0 + n
      exact h
  | cons top rest =>
      change a.held (f top) + a.registered ⟨rest, bottom⟩ ≤
        a.held top + a.registered ⟨rest, bottom⟩ + n
      change a.held (f top) ≤ a.held top + n at h
      omega

theorem registered_addFunction_le (codeName : String) :
    a.registered (s.addFunction codeName d) ≤ a.registered s + a.spent d := by
  refine registered_modifyCurrent_le ?_
  have hinsert := OrderedMap.sum_values_insert_le a.spent s.current.functions codeName d
  rw [held_eq, held_eq]
  dsimp only
  omega

theorem registered_addClass_le (codeName : String) :
    a.registered (s.addClass codeName d) ≤ a.registered s + a.spent d := by
  refine registered_modifyCurrent_le ?_
  have hinsert := OrderedMap.sum_values_insert_le a.spent s.current.classes codeName d
  rw [held_eq, held_eq]
  dsimp only
  omega

/-- The scope below takes over what a closed one holds. -/
theorem registered_pop_le : a.registered s.pop ≤ a.registered s := by
  obtain ⟨inner, bottom⟩ := s
  cases inner with
  | nil => exact Nat.le_refl _
  | cons top rest =>
      have hbelow : a.registered (ScopeStack.modifyCurrent ⟨rest, bottom⟩ (·.absorb top)) ≤
          a.registered ⟨rest, bottom⟩ + a.held top := by
        refine registered_modifyCurrent_le ?_
        generalize ScopeStack.current ⟨rest, bottom⟩ = c
        have hclasses := OrderedMap.sum_values_append_le a.spent c.classes top.classes
        have hfunctions := OrderedMap.sum_values_append_le a.spent c.functions top.functions
        rw [held_eq, held_eq, held_eq, Scope.absorb]
        dsimp only
        omega
      exact hbelow.trans_eq (Nat.add_comm _ _)

theorem registered_modifyCounting {f : Scope → Scope}
    (hf : ∀ c, definitionsOf (f c) = definitionsOf c) :
    a.registered (s.modifyCounting f) = a.registered s := by
  have hheld : ∀ c, a.held (f c) = a.held c := fun c => by rw [held, hf, held]
  have hfrom : ∀ {inner inner' : List Scope},
      ScopeStack.modifyCountingFrom f inner = some inner' →
        inner'.map a.held = inner.map a.held := by
    intro inner
    induction inner with
    | nil => exact fun h => nomatch h
    | cons top rest ih =>
        intro inner' h
        rw [ScopeStack.modifyCountingFrom] at h
        split at h
        · obtain ⟨rest', hrest, rfl⟩ := Option.map_eq_some_iff.mp h
          rw [List.map_cons, List.map_cons, ih hrest]
        · rw [← Option.some.inj h, List.map_cons, List.map_cons, hheld]
  unfold ScopeStack.modifyCounting
  split
  next inner' hinner =>
    rw [registered, registered, ScopeStack.toList, ScopeStack.toList, List.map_append,
      List.map_append, hfrom hinner]
  next =>
    rw [registered, registered, ScopeStack.toList, ScopeStack.toList, List.map_append,
      List.map_append, List.map_singleton, List.map_singleton, hheld]

theorem registered_takeTryNumber : a.registered s.takeTryNumber.2 = a.registered s :=
  registered_modifyCounting fun _ => rfl

theorem registered_takeLoopNumber : a.registered s.takeLoopNumber.2 = a.registered s :=
  registered_modifyCounting fun _ => rfl

/-! ## The judgement -/

/-- From a well-formed program a lowering comes to one again, and what it gives is related to how
often the definitions read the variable that are registered on the way. -/
def Charges (a : LocalAccess) {α : Type} (step : Lower α) (R : α → Nat → Prop) : Prop :=
  ∀ ⦃g x g'⦄, g.program.WellFormed → RunsTo step g x g' → g'.program.WellFormed ∧
    ∃ n, R x n ∧ a.registered g'.scopes ≤ a.registered g.scopes + n

def Free {α : Type} (Q : α → Prop) (x : α) (n : Nat) : Prop := n = 0 ∧ Q x

namespace Charges

variable {α β : Type} {step : Lower α} {next : α → Lower β} {R S : α → Nat → Prop}
  {T : β → Nat → Prop} {Q : α → Prop} {x : α}

theorem pure (h : R x 0) : a.Charges (Pure.pure x : Lower α) R := by
  intro g y g' hwf hrun
  obtain ⟨rfl, rfl⟩ := runsTo_pure_iff.mp hrun
  exact ⟨hwf, 0, h, Nat.le_refl _⟩

theorem fail (t : Tree) (id : NodeId) (cause : Cause) :
    a.Charges (Lower.fail t id cause : Lower α) R :=
  fun _ _ _ _ hrun => absurd hrun not_runsTo_fail

/-- Nothing comes after a stop. -/
theorem fail_bind (t : Tree) (id : NodeId) (cause : Cause) :
    a.Charges (Lower.fail t id cause >>= next) T := by
  intro g y g' hwf hrun
  obtain ⟨_, _, hfail, -⟩ := runsTo_bind_iff.mp hrun
  exact absurd hfail not_runsTo_fail

/-- Charges are added up. -/
theorem bind (hs : a.Charges step R)
    (hn : ∀ x n, R x n → a.Charges (next x) fun y m => T y (n + m)) :
    a.Charges (step >>= next) T := by
  intro g y g'' hwf hrun
  obtain ⟨x, g', hstep, hnext⟩ := runsTo_bind_iff.mp hrun
  obtain ⟨hwf', n, hx, hcharge⟩ := hs hwf hstep
  obtain ⟨hwf'', m, hy, hcharge'⟩ := hn x n hx hwf' hnext
  exact ⟨hwf'', n + m, hy, by omega⟩

/-- A step that charges nothing. -/
theorem bind_free (hs : a.Charges step (Free Q)) (hn : ∀ x, Q x → a.Charges (next x) T) :
    a.Charges (step >>= next) T := by
  refine hs.bind fun x n h => ?_
  obtain ⟨rfl, hx⟩ := h
  simp only [Nat.zero_add]
  exact hn x hx

theorem imp (hs : a.Charges step R) (h : ∀ x n, R x n → S x n) : a.Charges step S := by
  intro g x g' hwf hrun
  obtain ⟨hwf', n, hx, hcharge⟩ := hs hwf hrun
  exact ⟨hwf', n, h x n hx, hcharge⟩

/-- What reads nothing and costs nothing is within any bound. -/
theorem of_free {read : α → Nat} {k : Nat} (hs : a.Charges step (Free fun x => read x = 0)) :
    a.Charges step fun x n => read x + n ≤ k := by
  refine hs.imp fun x n h => ?_
  rw [h.1, h.2]
  exact Nat.zero_le k

theorem silent {read : α → Nat} {k : Nat} (h : read x = 0) :
    a.Charges (Pure.pure x : Lower α) fun x n => read x + n ≤ k := of_free (pure ⟨rfl, h⟩)

theorem ite {c : Prop} [Decidable c] {other : Lower α} (hyes : c → a.Charges step R)
    (hno : ¬ c → a.Charges other R) : a.Charges (if c then step else other) R := by
  split
  next hc => exact hyes hc
  next hc => exact hno hc

section

variable {γ δ : Type} {second : Lower β} {third : Lower γ} {budget k l m : Nat}
  {read : α → Nat} {readSecond : β → Nat} {readThird : γ → Nat} {made : δ → Nat}

/-- Two steps, each within its budget, and something made of what they give. -/
theorem binary (hstep : a.Charges step fun x n => read x + n ≤ k)
    (hsecond : a.Charges second fun y n => readSecond y + n ≤ l) {form : α → β → Lower δ}
    (hform : ∀ x y, a.Charges (form x y) (Free fun z => made z = read x + readSecond y))
    (hbudget : k + l = budget) :
    a.Charges
      (do
        let x ← step
        let y ← second
        form x y) fun z n => made z + n ≤ budget := by
  refine hstep.bind fun x i hx => hsecond.bind fun y j hy => (hform x y).imp fun z n hz => ?_
  obtain ⟨rfl, hz⟩ := hz
  omega

/-- Three steps, each within its budget, and something made of what they give. -/
theorem ternary (hstep : a.Charges step fun x n => read x + n ≤ k)
    (hsecond : a.Charges second fun y n => readSecond y + n ≤ l)
    (hthird : a.Charges third fun z n => readThird z + n ≤ m) {form : α → β → γ → Lower δ}
    (hform : ∀ x y z, a.Charges (form x y z)
      (Free fun w => made w = read x + (readSecond y + readThird z)))
    (hbudget : k + (l + m) = budget) :
    a.Charges
      (do
        let x ← step
        let y ← second
        let z ← third
        form x y z) fun w n => made w + n ≤ budget := by
  refine hstep.bind fun x i hx => hsecond.bind fun y j hy => hthird.bind fun z n hz =>
    (hform x y z).imp fun w o hw => ?_
  obtain ⟨rfl, hw⟩ := hw
  omega

end

theorem within (hs : a.Charges step R) (place : PathStep) :
    a.Charges (Lower.within place step) R :=
  fun _ _ _ hwf hrun => hs hwf (runsTo_within_iff.mp hrun)

/-- A closed scope hands on what it holds. -/
theorem inScope (hs : a.Charges step R) (kind : ScopeKind) :
    a.Charges (Lower.inScope kind step) R := by
  intro g x g' hwf hrun
  obtain ⟨hx, rfl⟩ := Prod.mk.inj hrun
  obtain ⟨hwf', n, hR, hcharge⟩ := hs (g := { g with scopes := g.scopes.push kind }) hwf
    (Prod.ext hx rfl)
  rw [registered_push] at hcharge
  exact ⟨hwf', n, hR, registered_pop_le.trans hcharge⟩

theorem intern {first : Interning α} (h : ∀ w, Interned w True first Q) :
    a.Charges (Lower.intern first) (Free Q) := by
  intro g x g' hwf hrun
  obtain ⟨hx, rfl⟩ := Prod.mk.inj hrun
  obtain ⟨hwf', hQ⟩ := Interned.given (w := .lax False False) (fun _ => h _) hwf
  exact ⟨hwf', 0, ⟨rfl, Except.ok.inj hx ▸ hQ⟩, Nat.le_refl _⟩

/-- Changes of the scopes are charged as far as definitions are changed. -/
theorem onScopes {change : ScopeStack → α × ScopeStack} {n : Nat}
    (h : ∀ s, a.registered (change s).2 ≤ a.registered s + n) :
    a.Charges (Lower.onScopes change) fun _ m => m = n := by
  intro g x g' hwf hrun
  obtain ⟨-, rfl⟩ := Prod.mk.inj hrun
  exact ⟨hwf, n, rfl, h g.scopes⟩

theorem takeTryNumber :
    a.Charges (Lower.onScopes ScopeStack.takeTryNumber) (Free fun _ => True) :=
  (onScopes (n := 0) fun _ => registered_takeTryNumber.le).imp fun _ _ hn => ⟨hn, trivial⟩

theorem takeLoopNumber :
    a.Charges (Lower.onScopes ScopeStack.takeLoopNumber) (Free fun _ => True) :=
  (onScopes (n := 0) fun _ => registered_takeLoopNumber.le).imp fun _ _ hn => ⟨hn, trivial⟩

theorem registersFunction (codeName : String) (d : Definition) :
    a.Charges (Lower.onScopes fun scopes => ((), scopes.addFunction codeName d))
      fun _ n => n = a.spent d := onScopes fun _ => registered_addFunction_le codeName

theorem registersClass (codeName : String) (d : Definition) :
    a.Charges (Lower.onScopes fun scopes => ((), scopes.addClass codeName d))
      fun _ n => n = a.spent d := onScopes fun _ => registered_addClass_le codeName

end Charges
end LocalAccess
end CompilerBackend
