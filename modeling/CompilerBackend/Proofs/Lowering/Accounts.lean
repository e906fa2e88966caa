import CompilerBackend.Lowering.Monad
import CompilerBackend.Proofs.Lowering.Meets
import CompilerBackend.Proofs.Program.Holdings
/-!
# Steps with an account

One judgement says what a step asks of the program. If the step succeeds, the program has been asked
for that and for nothing else; and a program that comes later, and so has been asked for all of it,
lets the step repeat itself and stays as it is.

- `Accounts.pure`, `Accounts.bind`, `Accounts.throws`: the rules of the monad.
- `Accounts.intern_request`: a single request.
- `Accounts.onScopes`, `Accounts.inScope`, `Accounts.within`: the rules of the other steps.
-/

namespace CompilerBackend

open Program

/-- A step that has succeeded, from one state of affairs to another. -/
structure Accounted {α : Type} (step : Lower α) (R : Set Request) (Q : α → Prop) (g g' : Progress)
    (a : α) : Prop where
  result : Q a
  asked : ∀ r, g'.program.Has r ↔ g.program.Has r ∨ r ∈ R
  repeats : ∀ q : Program, q.Sound → g'.program.Extends q →
    step.run ⟨q, g.scopes⟩ = (.ok a, ⟨q, g'.scopes⟩)

/-- A step keeps the program sound and only adds to it. If it succeeds, it has asked for `R`, and
its result is as in `Q`. -/
def Accounts {α : Type} (step : Lower α) (R : Set Request) (Q : α → Prop) : Prop :=
  ∀ g : Progress, g.program.Sound →
    (step.run g).2.program.Sound ∧ g.program.Extends (step.run g).2.program ∧
      ∀ a, (step.run g).1 = .ok a → Accounted step R Q g (step.run g).2 a

namespace Accounts

variable {α β : Type} {step : Lower α} {R S : Set Request} {Q : α → Prop}

/-! ## The monad -/

theorem pure {a : α} (h : Q a) : Accounts (Pure.pure a : Lower α) ∅ Q := by
  intro _ hg
  refine ⟨hg, Extends.refl _, fun b hb => ?_⟩
  obtain rfl : a = b := Except.ok.inj hb
  exact ⟨h, fun r => (or_iff_left (Set.notMem_empty r)).symm, fun _ _ _ => rfl⟩

theorem throws (stop : Stop) : Accounts (throw stop : Lower α) R Q :=
  fun _ hg => ⟨hg, Extends.refl _, fun _ ha => nomatch ha⟩

theorem fail (t : Tree) (id : NodeId) (cause : Cause) :
    Accounts (Lower.fail t id cause : Lower α) R Q := throws _

/-- Nothing comes after a stop. -/
theorem fail_bind {T : β → Prop} (t : Tree) (id : NodeId) (cause : Cause) (next : α → Lower β) :
    Accounts (Lower.fail t id cause >>= next) R T := throws _

theorem bind {next : α → Lower β} {T : β → Prop} (hs : Accounts step R Q)
    (hn : ∀ a, Q a → Accounts (next a) S T) : Accounts (step >>= next) (R ∪ S) T := by
  intro g hg
  obtain ⟨hsound, hext, hs⟩ := hs g hg
  rw [Meets.run_bind]
  rcases hend : step.run g with ⟨stop | a, g'⟩
  all_goals rw [hend] at hsound hext hs
  · exact ⟨hsound, hext, fun _ hb => nomatch hb⟩
  · obtain ⟨hresult, hasked, hrepeats⟩ := hs a rfl
    obtain ⟨hsound', hext', hn⟩ := hn a hresult g' hsound
    refine ⟨hsound', hext.trans hext', fun b hb => ?_⟩
    obtain ⟨hresult', hasked', hrepeats'⟩ := hn b hb
    refine ⟨hresult', fun r => ?_, fun q hq hlater => ?_⟩
    · rw [hasked', hasked, Set.mem_union, or_assoc]
    · rw [Meets.run_bind, hrepeats q hq (hext'.trans hlater)]
      exact hrepeats' q hq hlater

/-! ## Weakening -/

theorem congr (hs : Accounts step R Q) (h : R = S) : Accounts step S Q := h ▸ hs

/-! ## Steps -/

theorem intern_pure (a : α) : Lower.intern (Pure.pure a) = (Pure.pure a : Lower α) := rfl

theorem intern_bind (first : Interning α) (next : α → Interning β) :
    Lower.intern (first >>= next) = Lower.intern first >>= fun a => Lower.intern (next a) := rfl

/-- A step that does no more than grant a request. -/
theorem intern_request {first : Interning α} {r : Request} (hgrant : ∀ p, (first p).2 = p.grant r)
    (hlater : ∀ p q : Program, p.Sound → q.Sound → (first p).2.Extends q →
      (first q).1 = (first p).1) : Accounts (Lower.intern first) {r} fun _ => True := by
  intro g hg
  have hrun : ∀ h : Progress, (Lower.intern first).run h =
      (.ok (first h.program).1, ⟨(first h.program).2, h.scopes⟩) := fun _ => rfl
  rw [hrun]
  dsimp only
  rw [hgrant]
  refine ⟨hg.grant r, hg.extends_grant r, fun a ha => ?_⟩
  refine ⟨trivial, fun _ => hg.has_grant_iff, fun q hq hext => ?_⟩
  have hhas : q.Has r :=
    (hg.grant r).has_of_extends hq hext (hg.has_grant_iff.mpr (Or.inr rfl))
  rw [hrun, hgrant, hq.grant_of_has hhas,
    hlater g.program q hg hq (by rw [hgrant]; exact hext), ha]

theorem handleOf (c : Constant) :
    Accounts (Lower.intern (CompilerBackend.handleOf c)) {.constant c} fun _ => True := by
  refine intern_request (fun _ => rfl) fun p q hp hq hext => ?_
  change (q.intern c).1 = (p.intern c).1
  rw [hp.intern_of_extends hq hext]

theorem handleOfText (s : String) :
    Accounts (Lower.intern (CompilerBackend.handleOfText s)) {.text s} fun _ => True :=
  handleOf (.str s)

theorem recordTuple (n : Nat) :
    Accounts (Lower.intern (CompilerBackend.recordTuple n)) {.tuple n} fun _ => True :=
  intern_request (fun _ => rfl) fun _ _ _ _ _ => rfl

theorem recordList (n : Nat) :
    Accounts (Lower.intern (CompilerBackend.recordList n)) {.list n} fun _ => True :=
  intern_request (fun _ => rfl) fun _ _ _ _ _ => rfl

theorem recordDict (n : Nat) :
    Accounts (Lower.intern (CompilerBackend.recordDict n)) {.dict n} fun _ => True :=
  intern_request (fun _ => rfl) fun _ _ _ _ _ => rfl

theorem onScopes (change : ScopeStack → α × ScopeStack) :
    Accounts (Lower.onScopes change) ∅ fun _ => True := by
  intro g hg
  refine ⟨hg, Extends.refl _, fun a ha => ?_⟩
  refine ⟨trivial, fun r => (or_iff_left (Set.notMem_empty r)).symm, fun q _ _ => ?_⟩
  obtain rfl : (change g.scopes).1 = a := Except.ok.inj ha
  rfl

theorem inScope (hs : Accounts step R Q) (kind : ScopeKind) :
    Accounts (Lower.inScope kind step) R Q := by
  intro g hg
  obtain ⟨hsound, hext, hs⟩ := hs ⟨g.program, g.scopes.push kind⟩ hg
  refine ⟨hsound, hext, fun a ha => ?_⟩
  obtain ⟨hresult, hasked, hrepeats⟩ := hs a ha
  refine ⟨hresult, hasked, fun q hq hlater => ?_⟩
  have hrun : ∀ h : Progress, (Lower.inScope kind step).run h =
      ((step.run ⟨h.program, h.scopes.push kind⟩).1,
        ⟨(step.run ⟨h.program, h.scopes.push kind⟩).2.program,
          (step.run ⟨h.program, h.scopes.push kind⟩).2.scopes.pop⟩) := fun _ => rfl
  rw [hrun, hrepeats q hq hlater]
  rfl

theorem within (hs : Accounts step R Q) (place : PathStep) :
    Accounts (Lower.within place step) R Q := by
  intro g hg
  obtain ⟨hsound, hext, hs⟩ := hs g hg
  rw [Meets.run_within]
  rcases hend : step.run g with ⟨stop | a, g'⟩
  all_goals rw [hend] at hsound hext hs
  · refine ⟨hsound, hext, fun b hb => ?_⟩
    cases hb
  · refine ⟨hsound, hext, fun b hb => ?_⟩
    obtain ⟨hresult, hasked, hrepeats⟩ := hs b hb
    refine ⟨hresult, hasked, fun q hq hlater => ?_⟩
    rw [Meets.run_within, hrepeats q hq hlater]

end Accounts
end CompilerBackend
