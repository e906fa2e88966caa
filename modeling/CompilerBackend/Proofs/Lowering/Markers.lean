import CompilerBackend.Proofs.Lowering.Sequences
import Mathlib.Data.List.DropRight
/-!
# Markers in force

A statement runs under the marker that stands nearest in front of its code. A sequence puts a marker
in front of the first code of each run from one place; the codes of a run can hold markers of their
own, and these are in force behind them.

- `InForce`: the line of the nearest marker in front of what follows some lines.
- `marked_append`, `marked_run`: the lines of codes, run by run.
- `leading_eq`: the marker of a run stands in front of its first code.
- `inForce_in_sequence`: which marker is in force in front of a code.
-/

namespace CompilerBackend

open Lowering Target Text Program

variable {s : Setting} {g g' : Progress} {id : NodeId} {n k : Nat} {ls a b : List String}

/-! ## Nearest markers -/

/-- The line, apart from blanks around it, is the marker of a line of the source. -/
def Marks (n : Nat) (l : String) : Prop := trim l = markerText n

/-- The nearest marker in front of what follows the lines is that of a line of the source. -/
def InForce (n : Nat) (ls : List String) : Prop :=
  ∃ above l below, ls = above ++ l :: below ∧ Marks n l ∧ ∀ m ∈ below, ∀ k, ¬ Marks k m

theorem markerText_inj (h : markerText n = markerText k) : n = k := by
  unfold markerText at h
  have hdigits : toString n = toString k := by
    simpa only [String.append_left_inj, String.append_right_inj] using h
  exact Nat.repr_injective hdigits

theorem marks_markerText : Marks n (markerText k) ↔ n = k := by
  have hfirm : Firm Helper.nameless (markerText k) := by
    have hmarker := (line_lineMarker (w := Helper.nameless) (Location.null.atLine k)).firm
    rw [lineMarker_eq] at hmarker
    exact hmarker
  have htrim : trim (markerText k) = markerText k :=
    beq_iff_eq.mp (hasNoMargin_of_solid hfirm.term.solid.starts hfirm.stops)
  rw [Marks, htrim]
  constructor
  · exact fun h => (markerText_inj h).symm
  · rintro rfl
    rfl

theorem Marks.unique {l : String} (h : Marks n l) (h' : Marks k l) : n = k :=
  markerText_inj (h.symm.trans h')

/-- The nearest marker is one marker. -/
theorem InForce.unique (h : InForce n ls) (h' : InForce k ls) : n = k := by
  obtain ⟨above, l, below, rfl, hl, hbelow⟩ := h
  obtain ⟨above', l', below', hsplit, hl', hbelow'⟩ := h'
  rcases List.append_eq_append_iff.mp hsplit with ⟨inner, -, hinner⟩ | ⟨inner, -, hinner⟩
  · cases inner with
    | nil => exact hl.unique ((List.cons.inj hinner).1 ▸ hl')
    | cons m inner =>
        have hmem : l' ∈ below :=
          (List.cons.inj hinner).2 ▸ List.mem_append_right inner List.mem_cons_self
        exact absurd hl' (hbelow l' hmem k)
  · cases inner with
    | nil => exact hl.unique ((List.cons.inj hinner).1 ▸ hl')
    | cons m inner =>
        have hmem : l ∈ below' :=
          (List.cons.inj hinner).2 ▸ List.mem_append_right inner List.mem_cons_self
        exact absurd hl (hbelow' l hmem n)

theorem inForce_append : InForce n (a ++ b) ↔
    InForce n b ∨ (InForce n a ∧ ∀ l ∈ b, ∀ k, ¬ Marks k l) := by
  constructor
  · rintro ⟨above, l, below, hsplit, hl, hbelow⟩
    rcases List.append_eq_append_iff.mp hsplit with ⟨inner, rfl, rfl⟩ | ⟨inner, rfl, hinner⟩
    · exact Or.inl ⟨inner, l, below, rfl, hl, hbelow⟩
    · cases inner with
      | nil =>
          rw [List.nil_append] at hinner
          exact Or.inl ⟨[], l, below, hinner.symm, hl, hbelow⟩
      | cons m inner =>
          obtain ⟨rfl, rfl⟩ := List.cons.inj hinner
          refine Or.inr ⟨⟨above, l, inner, rfl, hl, fun m hm => ?_⟩, fun m hm => ?_⟩
          · exact hbelow m (List.mem_append_left b hm)
          · exact hbelow m (List.mem_append_right inner hm)
  · rintro (⟨above, l, below, rfl, hl, hbelow⟩ | ⟨⟨above, l, below, rfl, hl, hbelow⟩, hb⟩)
    · exact ⟨a ++ above, l, below, (List.append_assoc _ _ _).symm, hl, hbelow⟩
    · refine ⟨above, l, below ++ b, by simp, hl, fun m hm => ?_⟩
      exact (List.mem_append.mp hm).elim (hbelow m) (hb m)

theorem not_inForce_nil : ¬ InForce n [] := by
  rintro ⟨above, l, below, hnil, -⟩
  exact absurd hnil (by simp)

/-- Lines without a marker in force have no marker. -/
theorem exists_inForce_iff : (∃ n, InForce n ls) ↔ ∃ l ∈ ls, ∃ n, Marks n l := by
  induction ls using List.reverseRecOn with
  | nil => exact ⟨fun ⟨_, h⟩ => absurd h not_inForce_nil, fun ⟨_, h, _⟩ => nomatch h⟩
  | append_singleton ls l ih =>
      constructor
      · rintro ⟨n, above, m, below, hsplit, hm, -⟩
        exact ⟨m, hsplit ▸ List.mem_append_right above List.mem_cons_self, n, hm⟩
      · rintro ⟨m, hm, n, hn⟩
        by_cases hl : ∃ k, Marks k l
        · obtain ⟨k, hk⟩ := hl
          exact ⟨k, ls, l, [], rfl, hk, fun _ h => nomatch h⟩
        · have hmem : m ∈ ls := by
            rcases List.mem_append.mp hm with hm | hm
            · exact hm
            · exact absurd ⟨n, List.mem_singleton.mp hm ▸ hn⟩ hl
          obtain ⟨k, hk⟩ := ih.mpr ⟨m, hmem, n, hn⟩
          refine ⟨k, inForce_append.mpr (Or.inr ⟨hk, fun d hd j hj => hl ⟨j, ?_⟩⟩)⟩
          rwa [List.mem_singleton.mp hd] at hj

theorem inForce_singleton {l : String} : InForce n [l] ↔ Marks n l := by
  constructor
  · rintro ⟨above, m, below, hsplit, hm, -⟩
    obtain ⟨-, hcons⟩ | ⟨-, hnil⟩ := List.singleton_eq_append_iff.mp hsplit
    · exact (List.cons.inj hcons).1 ▸ hm
    · exact absurd hnil (by simp)
  · exact fun h => ⟨[], l, [], rfl, h, fun _ hm => nomatch hm⟩

/-- Behind a marker, it is in force until the next one. -/
theorem inForce_behind_marker (front inside : List String) (k : Nat) :
    InForce n (front ++ [markerText k] ++ inside) ↔
      InForce n inside ∨ (n = k ∧ ∀ j, ¬ InForce j inside) := by
  have hmarker : InForce n (front ++ [markerText k]) ↔ n = k := by
    rw [inForce_append, inForce_singleton, marks_markerText]
    refine or_iff_left fun h => h.2 _ List.mem_cons_self k (marks_markerText.mpr rfl)
  have hnone : (∀ l ∈ inside, ∀ k, ¬ Marks k l) ↔ ∀ k, ¬ InForce k inside := by
    rw [← not_exists, exists_inForce_iff]
    simp only [not_exists, not_and]
  rw [inForce_append, hmarker, hnone]

/-! ## Runs of codes -/

variable {last : Option Location} {place : Location} {run codes : List (NodeId × String)}

def lastPlace (s : Setting) (last : Option Location) (codes : List (NodeId × String)) :
    Option Location :=
  codes.foldl (fun _ c => some (s.tree.location c.1)) last

theorem marked_append (codes others : List (NodeId × String)) :
    marked s last (codes ++ others) =
      marked s last codes ++ marked s (lastPlace s last codes) others := by
  induction codes generalizing last with
  | nil => rfl
  | cons c codes ih =>
      rw [List.cons_append, marked, marked, ih]
      exact (List.append_assoc _ _ _).symm

/-- A run from one place has its marker in front, if that place is another one. -/
theorem marked_run (hplain : s.options.traceExecution = false)
    (hrun : ∀ c ∈ run, s.tree.location c.1 = place) :
    marked s last run ++ marking (lastPlace s last run) place =
      marking last place ++ run.flatMap (lines ·.2) := by
  induction run generalizing last with
  | nil => exact (List.append_nil _).symm
  | cons c run ih =>
      obtain ⟨hc, hrest⟩ := List.forall_mem_cons.mp hrun
      have hnext : lastPlace s last (c :: run) = lastPlace s (some place) run :=
        congrArg (fun l => lastPlace s (some l) run) hc
      have hsame : marking (some place) place = [] := if_neg (mt beginsRun_iff.mp (not_not_intro rfl))
      rw [hnext, marked, traceLines_eq_nil hplain, hc, List.nil_append, List.append_assoc, ih hrest,
        hsame, List.nil_append, List.flatMap_cons, List.append_assoc]

theorem lastPlace_append (codes others : List (NodeId × String)) :
    lastPlace s last (codes ++ others) = lastPlace s (lastPlace s last codes) others :=
  List.foldl_append

theorem lastPlace_concat (codes : List (NodeId × String)) (c : NodeId × String) :
    lastPlace s last (codes ++ [c]) = some (s.tree.location c.1) := by
  rw [lastPlace_append]
  rfl

/-- The lines in front of the code of a statement from a place, behind other codes. -/
def leading (s : Setting) (before : List (NodeId × String)) (place : Location) : List String :=
  marked s none before ++ marking (lastPlace s none before) place

/-- The codes right in front that come from the same place. -/
def sharing (s : Setting) (before : List (NodeId × String)) (place : Location) :
    List (NodeId × String) :=
  before.rtakeWhile fun c => s.tree.location c.1 = place

/-- The marker of a run stands in front of its first code. -/
theorem leading_eq (hplain : s.options.traceExecution = false) (before : List (NodeId × String))
    (place : Location) : ∃ front,
      leading s before place =
        front ++ [markerText place.line] ++ (sharing s before place).flatMap (lines ·.2) := by
  -- before the run stands nothing, or a code from another place, so the run begins with a marker
  set p : NodeId × String → Bool := fun c => s.tree.location c.1 = place with hp
  set earlier := before.rdropWhile p with hearlier
  have hsplit : before = earlier ++ sharing s before place :=
    (List.rdropWhile_append_rtakeWhile (p := p)).symm
  have hrun : ∀ c ∈ sharing s before place, s.tree.location c.1 = place := fun c hc =>
    of_decide_eq_true (List.mem_rtakeWhile_imp (p := p) hc)
  have hother : lastPlace s none earlier ≠ some place := by
    cases hlast : earlier using List.reverseRecOn with
    | nil => exact nofun
    | append_singleton others c _ =>
        rw [lastPlace_concat]
        have hne : earlier ≠ [] := by rw [hlast]; simp
        have hnot := List.rdropWhile_last_not p before hne
        simp only [← hearlier, hlast, List.getLast_append_singleton] at hnot
        exact fun h => hnot (decide_eq_true (Option.some.inj h))
  refine ⟨marked s none earlier, ?_⟩
  calc leading s before place
      = marked s none (earlier ++ sharing s before place) ++
          marking (lastPlace s none (earlier ++ sharing s before place)) place := by
        rw [← hsplit, leading]
    _ = marked s none earlier ++ (marked s (lastPlace s none earlier) (sharing s before place) ++
          marking (lastPlace s (lastPlace s none earlier) (sharing s before place)) place) := by
        rw [marked_append, lastPlace_append, List.append_assoc]
    _ = marked s none earlier ++ [markerText place.line] ++
          (sharing s before place).flatMap (lines ·.2) := by
        rw [marked_run hplain hrun, marking, if_pos (beginsRun_iff.mpr hother), List.append_assoc]

/-! ## Sequences -/

/-- Without a trace, what is in force in front of the code of a statement is its own line, unless
the codes from its place that share its marker hold markers themselves: then it is the last of
these. -/
theorem inForce_in_sequence (hplain : s.options.traceExecution = false) {levels : Nat}
    (h : RunsTo (Lowering.sequence s (Lowerer.ofDepth s levels) id) g ls g') :
    ∃ ids codes, s.tree.sequence? id = some ids ∧
      RunsTo (ids.mapM (Lowering.statement s (Lowerer.ofDepth s levels))) g codes g' ∧
      ∀ before c behind, withCode ids codes = before ++ c :: behind →
        let place := s.tree.location c.1
        ls = leading s before place ++ lines c.2 ++ marked s (some place) behind ∧
        ∀ n, InForce n (leading s before place) ↔
          InForce n ((sharing s before place).flatMap (lines ·.2)) ∨
            (n = place.line ∧ ∀ k, ¬ InForce k ((sharing s before place).flatMap (lines ·.2))) := by
  obtain ⟨ids, codes, hids, hcodes, -, rfl⟩ := (runsTo_sequence_iff hplain).mp h
  refine ⟨ids, codes, hids, hcodes, fun before c behind hsplit => ⟨?_, fun n => ?_⟩⟩
  · rw [hsplit, marked_append, marked, traceLines_eq_nil hplain, List.nil_append, leading]
    simp only [List.append_assoc]
  · obtain ⟨front, hfront⟩ := leading_eq hplain before (s.tree.location c.1)
    rw [hfront]
    exact inForce_behind_marker front _ _

theorem not_marks_of_head {l : String} (h : (trim l).toList.head? ≠ some 'f') : ¬ Marks n l := by
  intro hl
  have hhead : (markerText n).toList.head? = some 'f' := by
    unfold markerText
    exact head_append (head_append (by decide) _) _
  exact h (hl ▸ hhead)

/-- In the code of the branch, its own marker comes last. -/
theorem inForce_branch (above : List String) :
    InForce 2 (above ++ ["    frame_guard.setLineNumber( 2 );", "    _mvar_spam_y.asObject();",
      "\x7d"]) := by
  refine ⟨above, _, _, rfl, by unfold Marks; decide +kernel, fun m hm k => not_marks_of_head ?_⟩
  fin_cases hm
  · decide +kernel
  · decide +kernel

def branchingCodes : List String :=
  ["if ( CHECK_IF_TRUE( _mvar_spam_x.asObject() ) )\n\x7b\n    frame_guard.setLineNumber( 2 );\n" ++
     "    _mvar_spam_y.asObject();\n\x7d",
   "", "_mvar_spam_y.asObject();"]

/-- What is in force in front of the last statement of `branching` stands in the code of the first. -/
theorem inForce_in_sequence_branching :
    branchingSetting.options.traceExecution = false ∧
    (∃ g', RunsTo (Lowering.sequence branchingSetting (Lowerer.ofDepth branchingSetting 5) ⟨0⟩) {}
      branchingLines g') ∧
    withCode [⟨1⟩, ⟨6⟩, ⟨7⟩] branchingCodes =
      [(⟨1⟩, branchingCodes[0])] ++ (⟨7⟩, branchingCodes[2]) :: [] ∧
    branchingLines = leading branchingSetting [(⟨1⟩, branchingCodes[0])]
      (branchingSetting.tree.location ⟨7⟩) ++ lines branchingCodes[2] ∧
    InForce 2 (leading branchingSetting [(⟨1⟩, branchingCodes[0])]
      (branchingSetting.tree.location ⟨7⟩)) := by
  obtain ⟨g', hrun⟩ := runsTo_branching
  obtain ⟨ids, codes, hids, hcodes, hall⟩ := inForce_in_sequence (by rfl) hrun
  obtain rfl : [⟨1⟩, ⟨6⟩, ⟨7⟩] = ids := Option.some.inj hids
  have hvalue : (([⟨1⟩, ⟨6⟩, ⟨7⟩].mapM (Lowering.statement branchingSetting
      (Lowerer.ofDepth branchingSetting 5))).run {}).1.toOption = some branchingCodes := by
    decide +kernel
  rw [hcodes] at hvalue
  obtain rfl : codes = branchingCodes := Option.some.inj hvalue
  have hsplit : withCode [⟨1⟩, ⟨6⟩, ⟨7⟩] branchingCodes =
      [(⟨1⟩, branchingCodes[0])] ++ (⟨7⟩, branchingCodes[2]) :: [] := rfl
  obtain ⟨hlines, hforce⟩ := hall _ _ _ hsplit
  have hshared : (sharing branchingSetting [(⟨1⟩, branchingCodes[0])]
      (branchingSetting.tree.location ⟨7⟩)).flatMap (lines ·.2) =
        ["if ( CHECK_IF_TRUE( _mvar_spam_x.asObject() ) )", "\x7b"] ++
          ["    frame_guard.setLineNumber( 2 );", "    _mvar_spam_y.asObject();", "\x7d"] := by
    decide +kernel
  refine ⟨rfl, ⟨g', hrun⟩, hsplit, hlines.trans (List.append_nil _), (hforce 2).mpr (Or.inl ?_)⟩
  rw [hshared]
  exact inForce_branch _

/-- The last statement of `branching` is on line 1 and runs under the line of the branch. -/
theorem branching_under_other_line :
    branchingSetting.options.traceExecution = false ∧
    (∃ g', RunsTo (Lowering.sequence branchingSetting (Lowerer.ofDepth branchingSetting 5) ⟨0⟩) {}
      branchingLines g') ∧
    (∃ g', RunsTo (Lowering.statement branchingSetting (Lowerer.ofDepth branchingSetting 5) ⟨7⟩) {}
      "_mvar_spam_y.asObject();" g') ∧
    (branchingSetting.tree.location ⟨7⟩).line = 1 ∧
    ∃ front, branchingLines = front ++ ["_mvar_spam_y.asObject();"] ∧
      InForce 2 front ∧ ¬ InForce 1 front := by
  have htwo : InForce 2 (["frame_guard.setLineNumber( 1 );",
      "if ( CHECK_IF_TRUE( _mvar_spam_x.asObject() ) )", "\x7b"] ++
        ["    frame_guard.setLineNumber( 2 );", "    _mvar_spam_y.asObject();", "\x7d"]) :=
    inForce_branch _
  exact ⟨rfl, runsTo_branching, exists_runsTo_of_value (by decide +kernel), rfl, _, rfl, htwo,
    fun hone => absurd (hone.unique htwo) (by decide)⟩

end CompilerBackend
