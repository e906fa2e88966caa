import CompilerBackend.Lowering.Monad
import CompilerBackend.Proofs.Lowering.Registered
import CompilerBackend.Proofs.Target.Interned
/-!
# What a lowering meets

One judgement says three things about a part of a lowering. It keeps the program well-formed and
only adds to it, whatever happens. Its result and the definitions it registers are as stated, once
the program after it is a part of the one that handles are looked up in. And it succeeds exactly
if a condition on the tree holds, in so far as `T` lets one tell: where names hold no blanks and
the tree below is as deep as the levels that are left.

- `Meets.pure`, `Meets.bind`, `Meets.fail`: the rules of the monad.
- `Meets.intern`, `Meets.onScopes`, `Meets.inScope`, `Meets.within`: the rules of its steps.
-/

namespace CompilerBackend

open Program Target

structure Outcome (w : Wording) (T Φ : Prop) {α : Type} (Q : α → Prop)
    (end_ : Except Stop α × Progress) : Prop where
  registered : Registered w end_.2.scopes
  result : ∀ a, end_.1 = .ok a → Q a
  accepts : T → ((∃ a, end_.1 = .ok a) ↔ Φ)

/-- From facts `H`, a lowering gives results as in `Q` and, where `T` holds, gives one exactly if
`Φ` holds. -/
def Meets (w : Wording) (T H : Prop) {α : Type} (step : Lower α) (Φ : Prop) (Q : α → Prop) : Prop :=
  ∀ g : Progress, g.program.WellFormed →
    (step.run g).2.program.WellFormed ∧ g.program.Extends (step.run g).2.program ∧
      (H → (step.run g).2.program.Extends w.program → Registered w g.scopes →
        Outcome w T Φ Q (step.run g))

namespace Meets

variable {w : Wording} {T H : Prop} {α β : Type}

/-! ## The monad -/

theorem pure {a : α} {Q : α → Prop} (h : H → Q a) :
    Meets w T H (Pure.pure a : Lower α) True Q := by
  intro g hg
  refine ⟨hg, Extends.refl _, fun hH _ hscopes => ⟨hscopes, fun b hb => ?_, fun _ => ?_⟩⟩
  · rw [← Except.ok.inj hb]
    exact h hH
  · exact ⟨fun _ => trivial, fun _ => ⟨a, rfl⟩⟩

theorem throws (stop : Stop) {Q : α → Prop} : Meets w T H (throw stop : Lower α) False Q := by
  intro g hg
  refine ⟨hg, Extends.refl _, fun _ _ hscopes => ⟨hscopes, fun b hb => ?_, fun _ => ?_⟩⟩
  · exact nomatch hb
  · exact ⟨fun ⟨_, hb⟩ => (nomatch hb), False.elim⟩

theorem fail (t : Tree) (id : NodeId) (cause : Cause) {Q : α → Prop} :
    Meets w T H (Lower.fail t id cause : Lower α) False Q := throws _

/-- Nothing comes after a stop. -/
theorem fail_bind (t : Tree) (id : NodeId) (cause : Cause) (next : α → Lower β) {Q : β → Prop} :
    Meets w T H (Lower.fail t id cause >>= next) False Q := throws _

theorem run_bind (step : Lower α) (next : α → Lower β) (g : Progress) :
    (step >>= next).run g = match step.run g with
      | (.ok a, g') => (next a).run g'
      | (.error stop, g') => (.error stop, g') := by
  have hdef : (step >>= next).run g = ExceptT.bindCont next (step.run g).1 (step.run g).2 := rfl
  rw [hdef]
  split
  next a g' h => rw [h]; rfl
  next stop g' h => rw [h]; rfl

theorem bind {step : Lower α} {next : α → Lower β} {Φ Ψ : Prop} {Q : α → Prop} {R : β → Prop}
    (hs : Meets w T H step Φ Q) (hn : ∀ a, Meets w T (H ∧ Q a) (next a) Ψ R) :
    Meets w T H (step >>= next) (Φ ∧ Ψ) R := by
  intro g hg
  obtain ⟨hwf, hext, hs⟩ := hs g hg
  rw [run_bind]
  rcases hend : step.run g with ⟨stop | a, g'⟩
  all_goals rw [hend] at hwf hext hs
  · refine ⟨hwf, hext, fun hH hfinal hscopes => ?_⟩
    obtain ⟨hregistered, -, haccepts⟩ := hs hH hfinal hscopes
    refine ⟨hregistered, fun b hb => (nomatch hb), fun hT => ?_⟩
    have hΦ : ¬ Φ := fun hΦ => nomatch ((haccepts hT).mpr hΦ).choose_spec
    exact ⟨fun ⟨_, hb⟩ => (nomatch hb), fun h => absurd h.1 hΦ⟩
  · obtain ⟨hwf', hext', hn⟩ := hn a g' hwf
    refine ⟨hwf', hext.trans hext', fun hH hfinal hscopes => ?_⟩
    obtain ⟨hregistered, hresult, haccepts⟩ := hs hH (hext'.trans hfinal) hscopes
    obtain ⟨hregistered', hresult', haccepts'⟩ :=
      hn ⟨hH, hresult a rfl⟩ hfinal hregistered
    refine ⟨hregistered', hresult', fun hT => ?_⟩
    have hΦ : Φ := (haccepts hT).mp ⟨a, rfl⟩
    rw [haccepts' hT]
    exact ⟨fun hΨ => ⟨hΦ, hΨ⟩, And.right⟩

/-! ## Weakening -/

theorem iff {step : Lower α} {Φ Ψ : Prop} {Q : α → Prop} (hs : Meets w T H step Φ Q)
    (h : T → H → (Φ ↔ Ψ)) : Meets w T H step Ψ Q := by
  intro g hg
  obtain ⟨hwf, hext, hs⟩ := hs g hg
  refine ⟨hwf, hext, fun hH hfinal hscopes => ?_⟩
  obtain ⟨hregistered, hresult, haccepts⟩ := hs hH hfinal hscopes
  exact ⟨hregistered, hresult, fun hT => (haccepts hT).trans (h hT hH)⟩

theorem imp {step : Lower α} {Φ : Prop} {Q R : α → Prop} (hs : Meets w T H step Φ Q)
    (h : H → ∀ a, Q a → R a) : Meets w T H step Φ R := by
  intro g hg
  obtain ⟨hwf, hext, hs⟩ := hs g hg
  refine ⟨hwf, hext, fun hH hfinal hscopes => ?_⟩
  obtain ⟨hregistered, hresult, haccepts⟩ := hs hH hfinal hscopes
  exact ⟨hregistered, fun a ha => h hH a (hresult a ha), haccepts⟩

theorem weaken {T' H' : Prop} {step : Lower α} {Φ : Prop} {Q : α → Prop}
    (hs : Meets w T' H' step Φ Q) (hT : T → T') (hH : H → H') : Meets w T H step Φ Q := by
  intro g hg
  obtain ⟨hwf, hext, hs⟩ := hs g hg
  refine ⟨hwf, hext, fun h hfinal hscopes => ?_⟩
  obtain ⟨hregistered, hresult, haccepts⟩ := hs (hH h) hfinal hscopes
  exact ⟨hregistered, hresult, fun h => haccepts (hT h)⟩

/-- What a lowering gives, it gives in some run. -/
theorem traced {step : Lower α} {Φ : Prop} {Q : α → Prop} (hs : Meets w T H step Φ Q) :
    Meets w T H step Φ fun a => Q a ∧ ∃ g, (step.run g).1 = .ok a := by
  intro g hg
  obtain ⟨hwf, hext, hs⟩ := hs g hg
  refine ⟨hwf, hext, fun hH hfinal hscopes => ?_⟩
  obtain ⟨hregistered, hresult, haccepts⟩ := hs hH hfinal hscopes
  exact ⟨hregistered, fun a ha => ⟨hresult a ha, g, ha⟩, haccepts⟩

/-! ## Steps -/

theorem intern {step : Interning α} {Q : α → Prop} (hs : Interned w H step Q) :
    Meets w T H (Lower.intern step) True Q := by
  intro g hg
  obtain ⟨hwf, hext, hs⟩ := hs g.program hg
  refine ⟨hwf, hext, fun hH hfinal hscopes => ⟨hscopes, fun a ha => ?_, fun _ => ?_⟩⟩
  · rw [← Except.ok.inj ha]
    exact hs hH hfinal
  · exact ⟨fun _ => trivial, fun _ => ⟨_, rfl⟩⟩

theorem onScopes {step : ScopeStack → α × ScopeStack} {Q : α → Prop}
    (hs : H → ∀ scopes, Registered w scopes → Registered w (step scopes).2 ∧ Q (step scopes).1) :
    Meets w T H (Lower.onScopes step) True Q := by
  intro g hg
  refine ⟨hg, Extends.refl _, fun hH _ hscopes => ?_⟩
  obtain ⟨hregistered, hresult⟩ := hs hH g.scopes hscopes
  refine ⟨hregistered, fun a ha => ?_, fun _ => ⟨fun _ => trivial, fun _ => ⟨_, rfl⟩⟩⟩
  rw [← Except.ok.inj ha]
  exact hresult

/-- A stop within a statement remembers it, and nothing else is different. -/
theorem run_within (step : Lower α) (place : PathStep) (g : Progress) :
    (Lower.within place step).run g = match step.run g with
      | (.ok a, g') => (.ok a, g')
      | (.error stop, g') => (.error (stop.leaving place), g') := rfl

theorem within {step : Lower α} {Φ : Prop} {Q : α → Prop} (hs : Meets w T H step Φ Q)
    (place : PathStep) : Meets w T H (Lower.within place step) Φ Q := by
  intro g hg
  obtain ⟨hwf, hext, hs⟩ := hs g hg
  rw [run_within]
  rcases hend : step.run g with ⟨stop | a, g'⟩
  all_goals rw [hend] at hwf hext hs
  · refine ⟨hwf, hext, fun hH hfinal hscopes => ?_⟩
    obtain ⟨hregistered, -, haccepts⟩ := hs hH hfinal hscopes
    refine ⟨hregistered, fun b hb => (nomatch hb), fun hT => ?_⟩
    rw [← haccepts hT]
    exact ⟨fun ⟨_, hb⟩ => (nomatch hb), fun ⟨_, hb⟩ => (nomatch hb)⟩
  · exact ⟨hwf, hext, hs⟩

theorem inScope {step : Lower α} {Φ : Prop} {Q : α → Prop} (hs : Meets w T H step Φ Q)
    (kind : ScopeKind) : Meets w T H (Lower.inScope kind step) Φ Q := by
  intro g hg
  obtain ⟨hwf, hext, hs⟩ := hs { g with scopes := g.scopes.push kind } hg
  refine ⟨hwf, hext, fun hH hfinal hscopes => ?_⟩
  obtain ⟨hregistered, hresult, haccepts⟩ := hs hH hfinal (hscopes.push kind)
  exact ⟨hregistered.pop, hresult, haccepts⟩

end Meets
end CompilerBackend
