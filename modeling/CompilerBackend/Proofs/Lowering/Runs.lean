import CompilerBackend.Proofs.Lowering.Yields
import CompilerBackend.Proofs.Text.BlankLines
/-!
# Runs of a lowering

A run starts from one state of the program and the scopes and ends in a value and another state.

- `RunsTo`: the judgement; `runsTo_bind_iff` and the like are its rules.
- `runsTo_expression_iff`, `runsTo_statement_iff`: the runs of nodes, with the checks behind them.
- `BeginsRun`, `markerText`: where a marker stands, and its text.
- `marked`: the lines of statements around their codes; `runsTo_statementLines_of_codes`: a sequence
  has these lines.
-/

namespace CompilerBackend

open Lowering Target

def RunsTo {α : Type} (step : Lower α) (g : Progress) (a : α) (g' : Progress) : Prop :=
  step.run g = (.ok a, g')

variable {α β : Type} {a a' : α} {b : β} {g g' g'' : Progress} {s : Setting} {self : Lowerer}
  {id : NodeId} {ids : List NodeId}

theorem exists_runsTo {step : Lower α} (h : (step.run g).1.toOption.isSome = true) :
    ∃ a g', RunsTo step g a g' := by
  rcases hend : step.run g with ⟨stop | a, g'⟩
  · rw [hend] at h
    exact nomatch h
  · exact ⟨a, g', hend⟩

theorem exists_runsTo_of_value {step : Lower α} (h : (step.run g).1.toOption = some a) :
    ∃ g', RunsTo step g a g' := by
  obtain ⟨a', g', hrun⟩ := exists_runsTo (by rw [h]; rfl)
  rw [hrun] at h
  obtain rfl : a' = a := Option.some.inj h
  exact ⟨g', hrun⟩

/-! ## Rules -/

theorem runsTo_pure_iff : RunsTo (pure a : Lower α) g a' g' ↔ a' = a ∧ g' = g := by
  constructor
  · intro h
    obtain ⟨hok, hg⟩ := Prod.mk.inj h
    exact ⟨(Except.ok.inj hok).symm, hg.symm⟩
  · rintro ⟨rfl, rfl⟩
    rfl

theorem not_runsTo_fail {t : Tree} {cause : Cause} :
    ¬ RunsTo (Lower.fail t id cause : Lower α) g a g' := fun h => nomatch (Prod.mk.inj h).1

theorem runsTo_bind_iff {step : Lower α} {next : α → Lower β} :
    RunsTo (step >>= next) g b g'' ↔ ∃ a g', RunsTo step g a g' ∧ RunsTo (next a) g' b g'' := by
  unfold RunsTo
  rw [Meets.run_bind]
  constructor
  · intro h
    rcases hend : step.run g with ⟨stop | a, g'⟩
    all_goals rw [hend] at h
    · exact nomatch (Prod.mk.inj h).1
    · exact ⟨a, g', rfl, h⟩
  · rintro ⟨a, g', hstep, hnext⟩
    rw [hstep]
    exact hnext

theorem runsTo_within_iff {step : Lower α} {place : PathStep} :
    RunsTo (Lower.within place step) g a g' ↔ RunsTo step g a g' := by
  unfold RunsTo
  rw [Meets.run_within]
  rcases step.run g with ⟨stop | a, g'⟩
  · exact ⟨fun h => (nomatch (Prod.mk.inj h).1), fun h => nomatch (Prod.mk.inj h).1⟩
  · exact Iff.rfl

/-- A lowering is a function of the state that it begins in. -/
theorem RunsTo.unique {step : Lower α} (h : RunsTo step g a g') (h' : RunsTo step g a' g'') :
    a = a' ∧ g' = g'' := by
  obtain ⟨hok, hg⟩ := Prod.mk.inj (h.symm.trans h')
  exact ⟨Except.ok.inj hok, hg⟩

/-! ## Nodes -/

theorem runsTo_expression_iff {e : Expr} {o : Operand} (he : s.tree.expr? id = some e) :
    RunsTo (Lowering.expression s self id) g o g' ↔
      RunsTo (expressionForm s self id e) g o g' ∧ o.defect? = none := by
  unfold Lowering.expression
  rw [he]
  dsimp only
  rw [runsTo_bind_iff]
  constructor
  · rintro ⟨o', g₁, hform, hchecked⟩
    cases hdefect : o'.defect? with
    | none =>
        rw [hdefect] at hchecked
        obtain ⟨rfl, rfl⟩ := runsTo_pure_iff.mp hchecked
        exact ⟨hform, hdefect⟩
    | some cause =>
        rw [hdefect] at hchecked
        exact absurd hchecked not_runsTo_fail
  · rintro ⟨hform, hdefect⟩
    refine ⟨o, g', hform, ?_⟩
    rw [hdefect]
    exact runsTo_pure_iff.mpr ⟨rfl, rfl⟩

theorem runsTo_statement_iff {st : Stmt} {code : String} (hst : s.tree.stmt? id = some st) :
    RunsTo (Lowering.statement s self id) g code g' ↔
      RunsTo (statementForm s self id st) g code g' ∧ Text.hasNoMargin code = true := by
  unfold Lowering.statement
  rw [hst]
  dsimp only
  rw [runsTo_bind_iff]
  constructor
  · rintro ⟨code', g₁, hform, hchecked⟩
    split at hchecked
    next hmargin =>
        obtain ⟨rfl, rfl⟩ := runsTo_pure_iff.mp hchecked
        exact ⟨hform, hmargin⟩
    next => exact absurd hchecked not_runsTo_fail
  · rintro ⟨hform, hmargin⟩
    refine ⟨code, g', hform, ?_⟩
    rw [if_pos hmargin]
    exact runsTo_pure_iff.mpr ⟨rfl, rfl⟩

/-- The code of an operand is neither empty nor blank at an end. -/
theorem RunsTo.edged {levels : Nat} {o : Operand}
    (h : RunsTo ((Lowerer.ofDepth s levels).expression id) g o g') : Text.Edged o.code.toList := by
  cases levels with
  | zero => cases (Prod.mk.inj h).1
  | succ levels =>
      have hrun : RunsTo (Lowering.expression s (Lowerer.ofDepth s levels) id) g o g' := h
      cases he : s.tree.expr? id with
      | none =>
          rw [Lowering.expression, he] at hrun
          exact absurd hrun not_runsTo_fail
      | some e =>
          have hdefect := ((runsTo_expression_iff he).mp hrun).2
          rw [Operand.defect?] at hdefect
          split at hdefect
          next => cases hdefect
          next hne =>
            split at hdefect
            next hmargin =>
                apply Text.edged_of_hasNoMargin hmargin
                intro hnil
                apply hne
                rw [hnil]
                rfl
            next => cases hdefect

theorem runsTo_expressions_cons_iff {os : List Operand} :
    RunsTo (self.expressions (id :: ids)) g os g'' ↔ ∃ o rest g',
      os = o :: rest ∧ RunsTo (self.expression id) g o g' ∧ RunsTo (self.expressions ids) g' rest g'' := by
  rw [Lowerer.expressions, runsTo_bind_iff]
  constructor
  · rintro ⟨o, g₁, ho, hrest⟩
    obtain ⟨rest, g₂, hrest, hend⟩ := runsTo_bind_iff.mp hrest
    obtain ⟨rfl, rfl⟩ := runsTo_pure_iff.mp hend
    exact ⟨o, rest, g₁, rfl, ho, hrest⟩
  · rintro ⟨o, rest, g₁, rfl, ho, hrest⟩
    exact ⟨o, g₁, ho, runsTo_bind_iff.mpr ⟨rest, g'', hrest, runsTo_pure_iff.mpr ⟨rfl, rfl⟩⟩⟩

theorem runsTo_mapM_cons_iff {step : α → Lower β} {as : List α} {bs : List β} :
    RunsTo ((a :: as).mapM step) g bs g' ↔ ∃ b rest g₁, bs = b :: rest ∧
      RunsTo (step a) g b g₁ ∧ RunsTo (as.mapM step) g₁ rest g' := by
  rw [List.mapM_cons, runsTo_bind_iff]
  constructor
  · rintro ⟨b, g₁, hb, hrest⟩
    obtain ⟨rest, g₂, hrest, hend⟩ := runsTo_bind_iff.mp hrest
    obtain ⟨rfl, rfl⟩ := runsTo_pure_iff.mp hend
    exact ⟨b, rest, g₁, rfl, hb, hrest⟩
  · rintro ⟨b, rest, g₁, rfl, hb, hrest⟩
    exact ⟨b, g₁, hb, runsTo_bind_iff.mpr ⟨rest, g', hrest, runsTo_pure_iff.mpr ⟨rfl, rfl⟩⟩⟩

theorem runsTo_mapM_concat {step : α → Lower β} {as : List α} {bs : List β}
    (h : RunsTo (as.mapM step) g bs g') (ha : RunsTo (step a) g' b g'') :
    RunsTo ((as ++ [a]).mapM step) g (bs ++ [b]) g'' := by
  have hlast : RunsTo ([a].mapM step) g' [b] g'' := by
    rw [List.mapM_cons]
    refine runsTo_bind_iff.mpr ⟨b, g'', ha, runsTo_bind_iff.mpr ⟨[], g'', ?_, ?_⟩⟩
    · exact runsTo_pure_iff.mpr ⟨rfl, rfl⟩
    · exact runsTo_pure_iff.mpr ⟨rfl, rfl⟩
  rw [List.mapM_append]
  refine runsTo_bind_iff.mpr ⟨bs, g', h, runsTo_bind_iff.mpr ⟨[b], g'', hlast, ?_⟩⟩
  exact runsTo_pure_iff.mpr ⟨rfl, rfl⟩

theorem length_of_expressions {os : List Operand} (h : RunsTo (self.expressions ids) g os g') :
    os.length = ids.length :=
  (Yields.of_expressions ⟨g, congrArg Prod.fst h⟩).length_eq.symm

/-! ## Sequences -/

/-- Tells the line of the source that the code behind it comes from. -/
def markerText (n : Nat) : String := "frame_guard.setLineNumber( " ++ toString n ++ " );"

theorem lineMarker_eq (place : Location) : lineMarker place = markerText place.line := by
  have hopen : "frame_guard.setLineNumber( " = "frame_guard.setLineNumber" ++ "( " := by decide
  have hclose : " );" = " )" ++ ";" := by decide
  unfold lineMarker markerText terminated applied Text.commaSeparated
  rw [hopen, hclose, String.intercalate_singleton]
  simp only [String.append_assoc]

/-- No code is in front, or the code in front comes from another file, from another line, or from a
place with other flags. -/
def BeginsRun (last : Option Location) (place : Location) : Prop :=
  ∀ before ∈ last, before.file ≠ place.file ∨ before.line ≠ place.line ∨ before.future ≠ place.future

instance (last : Option Location) (place : Location) : Decidable (BeginsRun last place) :=
  inferInstanceAs (Decidable (∀ before ∈ last, _))

theorem beginsRun_iff {last : Option Location} {place : Location} :
    BeginsRun last place ↔ last ≠ some place := by
  constructor
  · rintro h rfl
    rcases h place rfl with hfile | hline | hfuture
    · exact hfile rfl
    · exact hline rfl
    · exact hfuture rfl
  · intro h before hbefore
    by_contra hsame
    simp only [not_or, not_not] at hsame
    obtain ⟨hfile, hline, hfuture⟩ := hsame
    obtain ⟨file, line, future⟩ := before
    obtain rfl : file = place.file := hfile
    obtain rfl : line = place.line := hline
    obtain rfl : future = place.future := hfuture
    exact h hbefore

/-- The marker in front of the code of a statement, if it has one. -/
def marking (last : Option Location) (place : Location) : List String :=
  if BeginsRun last place then [markerText place.line] else []

theorem markerLines_eq (last : Option Location) (place : Location) :
    markerLines last place = marking last place := by
  by_cases h : last = some place
  · rw [markerLines, marking, if_pos h, if_neg (mt beginsRun_iff.mp (not_not_intro h))]
  · rw [markerLines, marking, if_neg h, if_pos (beginsRun_iff.mpr h), lineMarker_eq]

/-- The lines of statements around their codes: a trace line, a marker, and the code, where none of
the codes is empty. -/
def marked (s : Setting) : Option Location → List (NodeId × String) → List String
  | _, [] => []
  | last, (id, code) :: rest =>
    traceLines s id ++ marking last (s.tree.location id) ++ Text.lines code ++
      marked s (some (s.tree.location id)) rest

/-- A code of which a sequence consists: not empty, and none of its lines is blank. -/
def IsFull (code : String) : Prop := code ≠ "" ∧ (Text.lines code).any Text.isBlankText = false

/-- A sequence of statements with code has their lines. -/
theorem runsTo_statementLines_of_codes {codes : List String} (hfull : ∀ c ∈ codes, IsFull c)
    (h : RunsTo (ids.mapM (Lowering.statement s self)) g codes g') (last : Option Location) :
    RunsTo (statementLines s self last ids) g (marked s last (ids.zip codes)) g' := by
  induction ids generalizing g codes last with
  | nil =>
      rw [List.mapM_nil] at h
      obtain ⟨rfl, rfl⟩ := runsTo_pure_iff.mp h
      exact runsTo_pure_iff.mpr ⟨rfl, rfl⟩
  | cons id ids ih =>
      rw [List.mapM_cons] at h
      obtain ⟨code, g₁, hcode, h⟩ := runsTo_bind_iff.mp h
      obtain ⟨rest, g₂, hrest, h⟩ := runsTo_bind_iff.mp h
      obtain ⟨rfl, rfl⟩ := runsTo_pure_iff.mp h
      obtain ⟨⟨hne, hblank⟩, hfull⟩ := List.forall_mem_cons.mp hfull
      -- neither the test for an empty code nor the one for blank lines ends the sequence
      refine runsTo_bind_iff.mpr ⟨code, g₁, runsTo_within_iff.mpr hcode, ?_⟩
      have hempty : code.isEmpty = false := by simpa using hne
      dsimp only
      rw [hempty, hblank, markerLines_eq]
      exact runsTo_bind_iff.mpr ⟨_, _, ih hfull hrest _, runsTo_pure_iff.mpr ⟨rfl, rfl⟩⟩

/-- The lines of a statement that has code. -/
theorem RunsTo.of_statementLines_singleton {last : Option Location} {ls : List String} {code : String}
    (h : RunsTo (statementLines s self last [id]) g ls g')
    (hcode : RunsTo (Lowering.statement s self id) g code g'') (hne : code ≠ "") :
    IsFull code ∧ ls = marked s last [(id, code)] := by
  obtain ⟨code', g₁, hcode', h⟩ := runsTo_bind_iff.mp h
  obtain ⟨rfl, rfl⟩ := (runsTo_within_iff.mp hcode').unique hcode
  have hempty : code'.isEmpty = false := by simpa using hne
  dsimp only at h
  rw [hempty] at h
  cases hblank : (Text.lines code').any Text.isBlankText with
  | true =>
      rw [hblank] at h
      obtain ⟨_, _, hfail, -⟩ := runsTo_bind_iff.mp h
      exact absurd hfail not_runsTo_fail
  | false =>
      rw [hblank] at h
      obtain ⟨others, g₂, hothers, h⟩ := runsTo_bind_iff.mp h
      obtain ⟨rfl, rfl⟩ := runsTo_pure_iff.mp hothers
      obtain ⟨rfl, rfl⟩ := runsTo_pure_iff.mp h
      rw [markerLines_eq]
      exact ⟨⟨hne, hblank⟩, rfl⟩

end CompilerBackend
