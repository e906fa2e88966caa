import CompilerBackend.Proofs.Lowering.Yields
import CompilerBackend.Proofs.Target.Flow
/-!
# Final blocks

The code of a try statement with a final block, run with the control flow of the target language.
Only exceptions of the compiled language are stopped behind the guarded block. So the final block is
run if control leaves the guarded block behind its last line or by such an exception; and it is
skipped if control jumps, as it does at the code of a return, of a break and of a continue.

- `Stmt.Leaves`, `jumps_of_leaves`: statements whose code does nothing but leave.
- `final_block_run_iff_not_jump`: when a final block is run.
-/

namespace CompilerBackend

open Text Target Lowering

variable {s : Setting} {self : Lowerer} {id : NodeId}

/-! ## Statements that leave -/

/-- A return, or the end of a pass through a loop. -/
inductive Stmt.Leaves : Stmt → Prop
  | returnValue (value : NodeId) : Leaves (.returnValue value)
  | breakLoop (unwinds : Bool) : Leaves (.breakLoop unwinds)
  | continueLoop (unwinds : Bool) : Leaves (.continueLoop unwinds)

theorem isJump_of_lineSort {l c : String} {ls τ : List String} {host : Host} {e e₀ : Exit}
    (hcut : cutLines c = l :: ls) (hsort : lineSort l = .leaves e₀) (hjump : e₀.isJump = true)
    (h : Runs host (chunks (cutLines c)) τ e) : e = .raises ∨ e.isJump = true := by
  have hne : e₀ ≠ .completes := by
    rintro rfl
    cases hjump
  rw [hcut, chunks_cons (ne_brace_of_leaves hsort)] at h
  rcases h.jumps hsort hne with rfl | rfl
  · exact Or.inl rfl
  · exact Or.inr hjump

/-- The code of a statement that leaves ends in a jump, or in an exception of the value. -/
theorem jumps_of_leaves {st : Stmt} {code : String} {host : Host} {τ : List String} {e : Exit}
    (hst : s.tree.stmt? id = some st) (hleaves : st.Leaves)
    (hcode : Yields (Lowering.statement s self id) code)
    (h : Runs host (chunks (cutLines code)) τ e) : e = .raises ∨ e.isJump = true := by
  obtain ⟨st', hst', hform⟩ := hcode.of_statement
  rw [hst] at hst'
  cases hst'
  -- a line by itself
  have hline : ∀ (l : String) (e₀ : Exit), Unbroken l → lineSort l = .leaves e₀ →
      e₀.isJump = true → code = l → e = .raises ∨ e.isJump = true := by
    intro l e₀ hflat hsort hjump hl
    exact isJump_of_lineSort (by rw [hl, cutLines_of_unbroken hflat]) hsort hjump h
  cases hleaves with
  | returnValue value =>
      dsimp only [statementForm] at hform
      split at hform
      next =>
        exact hline generatorEnd (.throws .generatorEnd) (by simp [Unbroken, generatorEnd])
          rfl rfl (yields_pure_iff.mp hform)
      next =>
        obtain ⟨o, -, hreturn⟩ := hform.of_bind
        have hcode : code = "return " ++ (o.handedOver ++ ";") := by
          rw [yields_pure_iff.mp hreturn, returnStatement, terminated, String.append_assoc]
        obtain ⟨l, ls, hcut, hopens⟩ := cutLines_append (a := "return ") (by simp [Unbroken])
          (o.handedOver ++ ";")
        have hreturn : (("return ", .leaves .returns) : String × LineSort) ∈ keyOpenings := by decide
        have hsort : lineSort l = .leaves .returns := lineSort_of_opening hreturn hopens
        rw [← hcode] at hcut
        exact isJump_of_lineSort hcut hsort rfl h
  | breakLoop unwinds =>
      have hcode := yields_pure_iff.mp hform
      cases unwinds with
      | false => exact hline "break;" .breaks (by simp [Unbroken]) rfl rfl hcode
      | true =>
          exact hline "throw BreakException();" (.throws .loopBreak) (by simp [Unbroken]) rfl rfl
            hcode
  | continueLoop unwinds =>
      have hcode := yields_pure_iff.mp hform
      cases unwinds with
      | false => exact hline "continue;" .continues (by simp [Unbroken]) rfl rfl hcode
      | true =>
          exact hline "throw ContinueException();" (.throws .loopContinue) (by simp [Unbroken]) rfl rfl
            hcode

/-! ## Final blocks -/

/-- A final block is run, once, behind a guarded block that control leaves by completing or by an
exception of the compiled language. It is skipped where control jumps out of the guarded block, and
that is what control does at a return, a break or a continue, unless the value of the return raises
an exception. -/
theorem final_block_run_iff_not_jump {tried final : NodeId} {code : String}
    (hst : s.tree.stmt? id = some (.tryFinally tried final)) (hcode : Yields (s.statement id) code) :
    (∃ n body last, Yields (s.lowerer.sequence tried) body ∧
        Yields (s.lowerer.sequence final) last ∧
        ∀ host τ e, Runs host (chunks (cutLines code)) τ e ↔
          ∃ τ₁ e₁, Runs host (chunks (body.flatMap lines)) τ₁ e₁ ∧
            Concludes host n (last.flatMap lines) (keeperLine n :: τ₁) e₁ τ e) ∧
      ∀ self leaving st c, s.tree.stmt? leaving = some st → st.Leaves →
        Yields (Lowering.statement s self leaving) c →
          ∀ host τ e, Runs host (chunks (cutLines c)) τ e → e = .raises ∨ e.isJump = true := by
  constructor
  · obtain ⟨st, hst', hform⟩ := hcode.of_statement
    rw [hst] at hst'
    cases hst'
    obtain ⟨n, -, hform⟩ := hform.of_bind
    obtain ⟨body, hbody, hform⟩ := hform.of_bind
    obtain ⟨last, hlast, hform⟩ := hform.of_bind
    refine ⟨n, body, last, hbody, hlast, fun host τ e => ?_⟩
    rw [yields_pure_iff.mp hform]
    exact runs_tryFinally_iff hbody.lines_ne_nil hlast.lines_ne_nil
  · intro self leaving st c hst hleaves hc host τ e
    exact jumps_of_leaves hst hleaves hc

/-! ## A loop -/

/-- `while True:` with `try: break` and `finally: print`. -/
def leavingEarly : Tree where
  nodes :=
    let entry (kind : NodeKind) (parent : Option NodeId) : Node :=
      ⟨kind, parent, { file := "spam.py", line := 1 }⟩
    #[entry (.stmt (.loop (some ⟨1⟩) false)) none,
      entry (.sequence [⟨2⟩]) (some ⟨0⟩),
      entry (.stmt (.tryFinally ⟨3⟩ ⟨5⟩)) (some ⟨1⟩),
      entry (.sequence [⟨4⟩]) (some ⟨2⟩),
      entry (.stmt (.breakLoop false)) (some ⟨3⟩),
      entry (.sequence [⟨6⟩]) (some ⟨2⟩),
      entry (.stmt (.print none [] true)) (some ⟨5⟩)]

def leavingPlace : Location := { file := "spam.py", line := 1 }

theorem sequence_leavingEarly {body : List String}
    (h : Yields ((Setting.lowerer ⟨leavingEarly, {}, "spam", "spam"⟩).sequence ⟨3⟩) body) :
    body = [lineMarker leavingPlace, "break;"] := by
  obtain ⟨g, hg⟩ := h
  have hrun : (((Setting.lowerer ⟨leavingEarly, {}, "spam", "spam"⟩).sequence ⟨3⟩).run g).1 =
      .ok [lineMarker leavingPlace, "break;"] := by
    rfl
  rw [hrun] at hg
  exact (Except.ok.inj hg).symm

/-- The only way out of the guarded block, if no helper raises an exception, is the break. -/
theorem runs_leavingEarly {host : Host} (hcalm : ∀ l, ¬ host.mayRaise l) {τ : List String}
    {e : Exit} :
    Runs host (chunks ([lineMarker leavingPlace, "break;"].flatMap lines)) τ e ↔
      τ = [lineMarker leavingPlace, "break;"] ∧ e = .breaks := by
  have hlines : [lineMarker leavingPlace, "break;"].flatMap lines =
      [lineMarker leavingPlace, "break;"] := by
    rfl
  have hmarker : lineSort (lineMarker leavingPlace) = .plain := by rfl
  have hbreak : lineSort "break;" = .leaves .breaks := by rfl
  have hopen : lineMarker leavingPlace ≠ "\x7b" := by
    intro h
    exact absurd (congrArg String.length h) (by decide)
  have hexit : ∀ e, LineExit host "break;" e ↔ e = .breaks := by
    intro e
    constructor
    · rintro (hplain | ⟨_, hraise⟩ | hleaves)
      · rw [hbreak] at hplain
        cases hplain
      · exact absurd hraise (hcalm _)
      · rw [hbreak] at hleaves
        cases hleaves
        rfl
    · rintro rfl
      exact .leaves hbreak
  rw [hlines, chunks_cons hopen, chunks_cons (by decide), chunks_nil,
    runs_plain_iff hmarker (hcalm _)]
  simp only [runs_leaving_iff hbreak (by decide), hexit]
  constructor
  · rintro ⟨_, ⟨rfl, rfl⟩, rfl⟩
    exact ⟨rfl, rfl⟩
  · rintro ⟨rfl, rfl⟩
    exact ⟨_, ⟨rfl, rfl⟩, rfl⟩

/-- The line end of the final block is not printed in any run. -/
theorem final_block_run_iff_not_jump_leavingEarly :
    leavingEarly.stmt? ⟨2⟩ = some (.tryFinally ⟨3⟩ ⟨5⟩) ∧
      ∃ code n, Yields (Setting.statement ⟨leavingEarly, {}, "spam", "spam"⟩ ⟨2⟩) code ∧
        ∀ host : Host, (∀ l, ¬ host.mayRaise l) → ∀ τ e, Runs host (chunks (cutLines code)) τ e ↔
          τ = [keeperLine n, lineMarker leavingPlace, "break;"] ∧ e = .breaks := by
  have hst : leavingEarly.stmt? ⟨2⟩ = some (.tryFinally ⟨3⟩ ⟨5⟩) := by rfl
  obtain ⟨code, hcode⟩ : ∃ code,
      Yields (Setting.statement ⟨leavingEarly, {}, "spam", "spam"⟩ ⟨2⟩) code :=
    exists_yields (g := {}) (by decide +kernel)
  obtain ⟨n, body, last, hbody, -, hruns⟩ :=
    (final_block_run_iff_not_jump (s := ⟨leavingEarly, {}, "spam", "spam"⟩) hst hcode).1
  rw [sequence_leavingEarly hbody] at hruns
  refine ⟨hst, code, n, hcode, fun host hcalm τ e => ?_⟩
  rw [hruns host τ e]
  simp only [runs_leavingEarly hcalm]
  constructor
  · rintro ⟨τ₁, e₁, ⟨rfl, rfl⟩, hconcludes⟩
    exact hconcludes
  · rintro ⟨rfl, rfl⟩
    exact ⟨_, _, ⟨rfl, rfl⟩, rfl, rfl⟩

end CompilerBackend
