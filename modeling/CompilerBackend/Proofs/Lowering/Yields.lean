import CompilerBackend.Lowering.ModuleText
import CompilerBackend.Proofs.Lowering.Meets
import CompilerBackend.Proofs.Target.Statements
/-!
# What a lowering yields

A lowering read backwards, whatever scopes are open and whatever the program holds: from the code
that has come out of it to the code that its parts have become.

- `Yields`: a value comes out of a run of a lowering.
- `Yields.of_bind`, `yields_pure_iff`, `Yields.of_within`: the steps of the monad.
- `Yields.of_statement`, `Yields.of_statementLines`: the code of a statement and of a sequence.
-/

namespace CompilerBackend

open Lowering

def Yields {α : Type} (step : Lower α) (a : α) : Prop := ∃ g : Progress, (step.run g).1 = .ok a

variable {α β : Type} {a : α} {b : β} {s : Setting} {self : Lowerer} {id : NodeId}

theorem exists_yields {step : Lower α} {g : Progress}
    (h : (step.run g).1.toOption.isSome = true) : ∃ a, Yields step a := by
  cases hend : (step.run g).1 with
  | ok a => exact ⟨a, g, hend⟩
  | error stop =>
      rw [hend] at h
      cases h

theorem yields_pure_iff {a' : α} : Yields (pure a : Lower α) a' ↔ a' = a := by
  constructor
  · rintro ⟨g, hg⟩
    exact (Except.ok.inj hg).symm
  · rintro rfl
    exact ⟨{}, rfl⟩

theorem not_yields_throw {stop : Stop} : ¬ Yields (throw stop : Lower α) a := by
  rintro ⟨g, hg⟩
  cases hg

theorem not_yields_fail {t : Tree} {cause : Cause} : ¬ Yields (Lower.fail t id cause : Lower α) a :=
  not_yields_throw

/-- What a step yields and what the next one makes of it. -/
theorem Yields.of_bind {step : Lower α} {next : α → Lower β} (h : Yields (step >>= next) b) :
    ∃ a, Yields step a ∧ Yields (next a) b := by
  obtain ⟨g, hg⟩ := h
  rw [Meets.run_bind] at hg
  rcases hend : step.run g with ⟨stop | a, g'⟩
  all_goals rw [hend] at hg
  · cases hg
  · exact ⟨a, ⟨g, by rw [hend]⟩, g', hg⟩

theorem Yields.of_within {step : Lower α} {place : PathStep}
    (h : Yields (Lower.within place step) a) : Yields step a := by
  obtain ⟨g, hg⟩ := h
  rw [Meets.run_within] at hg
  rcases hend : step.run g with ⟨stop | a', g'⟩
  all_goals rw [hend] at hg
  · cases hg
  · exact ⟨g, by rw [hend]; exact hg⟩

/-- Expressions yield one operand each. -/
theorem Yields.of_expressions {ids : List NodeId} {os : List Operand}
    (h : Yields (self.expressions ids) os) :
    List.Forall₂ (fun id o => Yields (self.expression id) o) ids os := by
  induction ids generalizing os with
  | nil =>
      rw [yields_pure_iff.mp h]
      exact .nil
  | cons id ids ih =>
      obtain ⟨o, ho, h⟩ := h.of_bind
      obtain ⟨rest, hrest, h⟩ := h.of_bind
      rw [yields_pure_iff.mp h]
      exact .cons ho (ih hrest)

theorem Yields.of_optional {n : Option NodeId} {o : Option Operand}
    (h : Yields (self.optional n) o) :
    Option.Rel (fun id o => Yields (self.expression id) o) n o := by
  cases n with
  | none =>
      rw [yields_pure_iff.mp h]
      exact .none
  | some id =>
      obtain ⟨a, ha, h⟩ := h.of_bind
      rw [yields_pure_iff.mp h]
      exact .some ha

/-- A statement yields the code of its form. -/
theorem Yields.of_statement {code : String} (h : Yields (Lowering.statement s self id) code) :
    ∃ st, s.tree.stmt? id = some st ∧ Yields (statementForm s self id st) code := by
  unfold Lowering.statement at h
  split at h
  next => exact absurd h not_yields_fail
  next st hst =>
      obtain ⟨code', hform, h⟩ := h.of_bind
      split at h
      next =>
          rw [yields_pure_iff.mp h]
          exact ⟨st, hst, hform⟩
      next => exact absurd h not_yields_fail

/-- Where a line of a sequence comes from. -/
inductive LineOrigin (s : Setting) (self : Lowerer) (ids : List NodeId) (l : String) : Prop
  | trace {id : NodeId} : id ∈ ids → l ∈ traceLines s id → LineOrigin s self ids l
  | marker {id : NodeId} : id ∈ ids → l = Target.lineMarker (s.tree.location id) →
      LineOrigin s self ids l
  | code {id : NodeId} {code : String} : id ∈ ids → Yields (Lowering.statement s self id) code →
      l ∈ Text.lines code → Text.isBlankText l = false → LineOrigin s self ids l

theorem LineOrigin.later {ids : List NodeId} {l : String} (h : LineOrigin s self ids l) :
    LineOrigin s self (id :: ids) l := by
  cases h with
  | trace hid hl => exact .trace (List.mem_cons_of_mem _ hid) hl
  | marker hid hl => exact .marker (List.mem_cons_of_mem _ hid) hl
  | code hid hcode hl hblank => exact .code (List.mem_cons_of_mem _ hid) hcode hl hblank

theorem Yields.of_statementLines {last : Option Location} {ids : List NodeId} {ls : List String}
    (h : Yields (statementLines s self last ids) ls) : ∀ l ∈ ls, LineOrigin s self ids l := by
  induction ids generalizing last ls with
  | nil =>
      rw [statementLines] at h
      rw [yields_pure_iff.mp h]
      exact fun l hl => absurd hl List.not_mem_nil
  | cons id ids ih =>
      intro l hl
      obtain ⟨code, hcode, h⟩ := h.of_bind
      have hid : id ∈ id :: ids := List.mem_cons_self
      dsimp only at h
      split at h
      next =>
          obtain ⟨others, hothers, h⟩ := h.of_bind
          rw [yields_pure_iff.mp h] at hl
          rcases List.mem_append.mp hl with hl | hl
          · exact .trace hid hl
          · exact (ih hothers l hl).later
      next =>
          split at h
          next =>
              obtain ⟨_, hfail, _⟩ := h.of_bind
              exact absurd hfail not_yields_fail
          next hblank =>
              obtain ⟨others, hothers, h⟩ := h.of_bind
              rw [yields_pure_iff.mp h] at hl
              rcases List.mem_append.mp hl with hl | hl
              · rcases List.mem_append.mp hl with hl | hl
                · rcases List.mem_append.mp hl with hl | hl
                  · exact .trace hid hl
                  · rw [markerLines] at hl
                    split at hl
                    next => exact absurd hl List.not_mem_nil
                    next => exact .marker hid (List.mem_singleton.mp hl)
                · have hfull : Text.isBlankText l = false := by
                    by_contra hl'
                    exact hblank (List.any_eq_true.mpr ⟨l, hl, by simpa using hl'⟩)
                  exact .code hid hcode.of_within hl hfull
              · exact (ih hothers l hl).later

theorem LineOrigin.ne_empty {ids : List NodeId} {l : String} (h : LineOrigin s self ids l) :
    l ≠ "" := by
  intro hnil
  have hblank : Text.isBlankText l = true := by
    rw [hnil]
    rfl
  cases h with
  | trace _ hl =>
      rw [traceLines] at hl
      split at hl
      next =>
        rw [List.mem_singleton.mp hl, Target.isBlankText_traceLine] at hblank
        cases hblank
      next => exact absurd hl List.not_mem_nil
  | marker _ hl =>
      rw [hnil] at hl
      exact absurd (String.append_eq_empty_iff.mp hl.symm).2 (by decide)
  | code _ _ _ hfull =>
      rw [hfull] at hblank
      cases hblank

/-- A sequence yields the lines of its statements. -/
theorem Yields.of_sequence {levels : Nat} {ls : List String}
    (h : Yields ((Lowerer.ofDepth s levels).sequence id) ls) :
    ∃ self ids, s.tree.sequence? id = some ids ∧ Yields (statementLines s self none ids) ls := by
  cases levels with
  | zero => exact absurd h not_yields_throw
  | succ levels =>
      dsimp only [Lowerer.ofDepth, Lowerer.over, Lowering.sequence] at h
      split at h
      next => exact absurd h not_yields_fail
      next ids hids => exact ⟨Lowerer.ofDepth s levels, ids, hids, h⟩

/-- Where a sequence has code, its code has lines. -/
theorem Yields.lines_ne_nil {levels : Nat} {ls : List String}
    (h : Yields ((Lowerer.ofDepth s levels).sequence id) ls) (hne : ls ≠ []) :
    ls.flatMap Text.lines ≠ [] := by
  obtain ⟨self, ids, -, hlines⟩ := h.of_sequence
  obtain ⟨l, ls, rfl⟩ := List.exists_cons_of_ne_nil hne
  have hl : l ≠ "" := (hlines.of_statementLines l List.mem_cons_self).ne_empty
  intro hnil
  have hnone : Text.lines l = [] := by
    rw [List.flatMap_cons] at hnil
    exact (List.append_eq_nil_iff.mp hnil).1
  exact hl (Text.eq_empty_of_lines_eq_nil hnone)

end CompilerBackend
