import CompilerBackend.Proofs.Lowering.PairedStatements
import CompilerBackend.Proofs.Lowering.Runs
import CompilerBackend.Proofs.Program.Helpers
import CompilerBackend.Proofs.Program.Reached
import CompilerBackend.Proofs.Target.Flow
/-!
# Lines of a sequence

A sequence without a trace consists of the codes of its statements, cut into lines, with a marker in
front of each run from one place. Statements without code count for nothing. Each line is a line of
any block around it, so the sequence can be read back from as many blocks as it is put into.

- `runsTo_statementLines_iff`: the lines of statements, by their codes.
- `RunsTo.given`: what lowerings give, in their runs.
- `unreturned_of_runsTo_sequence`: carriage returns in lines come from names.
- `wrapped`, `unwrapped?`: lines put into blocks, and read back from there.
- `sequence_lines`: the lines of a sequence.
-/

namespace CompilerBackend

open Lowering Target Text Program

variable {s : Setting} {self : Lowerer} {g g' : Progress} {id : NodeId} {ids : List NodeId}
  {ls : List String}

/-! ## Codes and lines -/

def withCode (ids : List NodeId) (codes : List String) : List (NodeId × String) :=
  (ids.zip codes).filter (·.2 ≠ "")

theorem withCode_cons_empty (id : NodeId) (codes : List String) :
    withCode (id :: ids) ("" :: codes) = withCode ids codes := by
  simp [withCode]

theorem withCode_cons {code : String} (h : code ≠ "") (codes : List String) :
    withCode (id :: ids) (code :: codes) = (id, code) :: withCode ids codes := by
  simp [withCode, h]

theorem traceLines_eq_nil (hplain : s.options.traceExecution = false) (id : NodeId) :
    traceLines s id = [] := by
  rw [traceLines, hplain]
  rfl

/-- Without a trace, a statement adds to the lines of the rest by its code, if it has any. -/
theorem runsTo_statementLines_cons_iff (hplain : s.options.traceExecution = false)
    {last : Option Location} :
    RunsTo (statementLines s self last (id :: ids)) g ls g' ↔
      ∃ code g₁, RunsTo (Lowering.statement s self id) g code g₁ ∧
        ((code = "" ∧ RunsTo (statementLines s self last ids) g₁ ls g') ∨
          (IsFull code ∧ ∃ others,
            RunsTo (statementLines s self (some (s.tree.location id)) ids) g₁ others g' ∧
              ls = marking last (s.tree.location id) ++ lines code ++ others)) := by
  rw [statementLines, runsTo_bind_iff]
  refine exists_congr fun code => exists_congr fun g₁ => and_congr runsTo_within_iff ?_
  dsimp only
  rw [traceLines_eq_nil hplain, List.nil_append, markerLines_eq]
  split
  next hempty =>
      have hnil : code = "" := String.isEmpty_iff.mp hempty
      rw [runsTo_bind_iff, or_iff_left fun h => h.1.1 hnil]
      constructor
      · rintro ⟨others, g₂, hothers, h⟩
        obtain ⟨rfl, rfl⟩ := runsTo_pure_iff.mp h
        exact ⟨hnil, hothers⟩
      · rintro ⟨-, hothers⟩
        exact ⟨ls, g', hothers, runsTo_pure_iff.mpr ⟨rfl, rfl⟩⟩
  next hne =>
      rw [String.isEmpty_iff] at hne
      rw [or_iff_right fun h => hne h.1]
      split
      next hblank =>
          constructor
          · intro h
            obtain ⟨_, _, hfail, -⟩ := runsTo_bind_iff.mp h
            exact absurd hfail not_runsTo_fail
          · rintro ⟨⟨-, hsolid⟩, -⟩
            exact absurd (hblank.symm.trans hsolid) (by decide)
      next hsolid =>
          rw [Bool.not_eq_true] at hsolid
          rw [runsTo_bind_iff]
          constructor
          · rintro ⟨others, g₂, hothers, h⟩
            obtain ⟨rfl, rfl⟩ := runsTo_pure_iff.mp h
            exact ⟨⟨hne, hsolid⟩, others, hothers, rfl⟩
          · rintro ⟨-, others, hothers, rfl⟩
            exact ⟨others, g', hothers, runsTo_pure_iff.mpr ⟨rfl, rfl⟩⟩

/-- Without a trace, statements have lines exactly if they have codes, of which none has a blank
line; and the statements without code count for nothing. -/
theorem runsTo_statementLines_iff (hplain : s.options.traceExecution = false)
    {last : Option Location} :
    RunsTo (statementLines s self last ids) g ls g' ↔ ∃ codes,
      RunsTo (ids.mapM (Lowering.statement s self)) g codes g' ∧
        (∀ c ∈ codes, c ≠ "" → IsFull c) ∧ ls = marked s last (withCode ids codes) := by
  -- a statement without code hands on the last place, one with code hands on its own
  induction ids generalizing g ls last with
  | nil =>
      constructor
      · intro h
        obtain ⟨rfl, rfl⟩ := runsTo_pure_iff.mp h
        exact ⟨[], runsTo_pure_iff.mpr ⟨rfl, rfl⟩, fun _ hc => (nomatch hc), rfl⟩
      · rintro ⟨codes, hcodes, -, rfl⟩
        obtain ⟨rfl, rfl⟩ := runsTo_pure_iff.mp hcodes
        exact runsTo_pure_iff.mpr ⟨rfl, rfl⟩
  | cons id ids ih =>
      rw [runsTo_statementLines_cons_iff hplain]
      constructor
      · rintro ⟨code, g₁, hcode, ⟨rfl, hrest⟩ | ⟨hfull, others, hrest, rfl⟩⟩
        · obtain ⟨codes, hcodes, hall, rfl⟩ := ih.mp hrest
          exact ⟨"" :: codes, runsTo_mapM_cons_iff.mpr ⟨"", codes, g₁, rfl, hcode, hcodes⟩,
            List.forall_mem_cons.mpr ⟨fun h => absurd rfl h, hall⟩,
            by rw [withCode_cons_empty]⟩
        · obtain ⟨codes, hcodes, hall, rfl⟩ := ih.mp hrest
          exact ⟨code :: codes, runsTo_mapM_cons_iff.mpr ⟨code, codes, g₁, rfl, hcode, hcodes⟩,
            List.forall_mem_cons.mpr ⟨fun _ => hfull, hall⟩,
            by rw [withCode_cons hfull.1, marked, traceLines_eq_nil hplain, List.nil_append]⟩
      · rintro ⟨codes, hcodes, hall, rfl⟩
        obtain ⟨code, rest, g₁, rfl, hcode, hrest⟩ := runsTo_mapM_cons_iff.mp hcodes
        obtain ⟨hfull, hothers⟩ := List.forall_mem_cons.mp hall
        refine ⟨code, g₁, hcode, ?_⟩
        by_cases hempty : code = ""
        · subst hempty
          rw [withCode_cons_empty]
          exact Or.inl ⟨rfl, ih.mpr ⟨rest, hrest, hothers, rfl⟩⟩
        · refine Or.inr ⟨hfull hempty, _, ih.mpr ⟨rest, hrest, hothers, rfl⟩, ?_⟩
          rw [withCode_cons hempty, marked, traceLines_eq_nil hplain, List.nil_append]

theorem runsTo_sequence_iff (hplain : s.options.traceExecution = false) :
    RunsTo (Lowering.sequence s self id) g ls g' ↔ ∃ ids codes, s.tree.sequence? id = some ids ∧
      RunsTo (ids.mapM (Lowering.statement s self)) g codes g' ∧
        (∀ c ∈ codes, c ≠ "" → IsFull c) ∧ ls = marked s none (withCode ids codes) := by
  rw [Lowering.sequence]
  cases hids : s.tree.sequence? id with
  | none => exact ⟨fun h => absurd h not_runsTo_fail, fun ⟨_, _, h, _⟩ => nomatch h⟩
  | some ids =>
      dsimp only
      rw [runsTo_statementLines_iff hplain]
      constructor
      · rintro ⟨codes, hcodes, hfull, rfl⟩
        exact ⟨ids, codes, rfl, hcodes, hfull, rfl⟩
      · rintro ⟨ids', codes, heq, hcodes, hfull, rfl⟩
        obtain rfl : ids = ids' := Option.some.inj heq
        exact ⟨codes, hcodes, hfull, rfl⟩

/-! ## Carriage returns -/

/-- The wording of which only some blank characters matter. -/
def Wording.sparing (absent : Char → Prop) : Wording := { Wording.lax False False with absent }

theorem lax_sparing (absent : Char → Prop) : (Wording.sparing absent).Lax :=
  ⟨fun _ => trivial, fun _ => trivial, id, id⟩

theorem spared_of_not_mem {c : Char} {name : String} (h : c ∉ name.toList) :
    Spared (Wording.sparing (· = c)) name := fun _ hd _ heq => absurd (heq ▸ hd) h

theorem codeNamed_sparing {absent : Char → Prop} {codeName : String}
    (h : Spared (Wording.sparing absent) codeName) :
    CodeNamed (Wording.sparing absent) codeName := by
  have hlax := lax_sparing absent
  have hterm : ∀ {t : String}, Starts t → Spared (Wording.sparing absent) t →
      Term (Wording.sparing absent) t := fun hstarts hspared =>
    ⟨⟨⟨hlax.worded _, False.elim, hspared⟩, hstarts, False.elim⟩, False.elim⟩
  have hfixed : ∀ {a : String}, isLead a = true → Spared (Wording.sparing absent) a :=
    fun ha => (inline_of_isLead ha).spared
  refine ⟨fun hname => hterm ?_ ?_, hterm ?_ ?_⟩
  · exact (((starts_of_isHead (by rfl)).append _).append _).append _
  · exact (((hfixed (by rfl)).append h).append (hfixed (by rfl))).append hname.spared
  · exact (starts_of_isHead (by rfl)).append _
  · exact (hfixed (by rfl)).append h

/-- No name or file name that the lowering of a node can come to holds the character. -/
def Tree.Lacks (t : Tree) (c : Char) (top : NodeId) : Prop :=
  ∀ n, t.Connected top n → c ∉ (t.location n).file.toList ∧
    ∀ name ∈ (t.kind n).names ++ (t.kind n).titles, c ∉ name.toList

theorem grounded_sparing {c : Char} {top : NodeId} (hcode : c ∉ s.codeName.toList)
    (hlacks : s.tree.Lacks c top) : Grounded (Wording.sparing (· = c)) s False top where
  pairs _ _ _ hserving := hserving.2.elim
  tight := False.elim
  codeName := codeNamed_sparing (spared_of_not_mem hcode)
  suits n hn := by
    obtain ⟨hfile, hnames⟩ := hlacks n hn
    have hlax := lax_sparing (· = c)
    exact ⟨⟨hlax.calm _, False.elim, spared_of_not_mem hfile⟩, fun name hname =>
      ⟨⟨hlax.calm _, False.elim, spared_of_not_mem (hnames name (List.mem_append_left _ hname))⟩,
        False.elim⟩,
      fun _ _ => hlax.calm _, fun _ _ => hlax.worded _, fun _ => hlax.allows _⟩

/-- In a wording that allows any token, what a lowering gives it gives in each run, whatever the
scopes hold. -/
theorem RunsTo.given {α : Type} {w : Wording} {step : Lower α} {a : α} {T Φ : Prop} {Q : α → Prop}
    (h : RunsTo step g a g') (hg : g.program.WellFormed) (hlax : w.Lax)
    (hmeets : Meets (w.onto g'.program) T True step Φ Q) : Q a ∧ g'.program.WellFormed := by
  obtain ⟨hwf, -, hends⟩ := hmeets g hg
  rw [h] at hwf hends
  exact ⟨(hends trivial (Extends.refl _) ((hlax.onto _).registered _)).result a rfl, hwf⟩

/-- A carriage return comes from a name. -/
theorem unreturned_of_runsTo_sequence (hcode : '\r' ∉ s.codeName.toList)
    (hlacks : s.tree.Lacks '\r' id) {levels : Nat} (hg : g.program.WellFormed)
    (h : RunsTo ((Lowerer.ofDepth s levels).sequence id) g ls g') : ∀ l ∈ ls, '\r' ∉ l.toList := by
  have hlax := lax_sparing (· = '\r')
  have hground := grounded_onto (grounded_sparing hcode hlacks) hlax g'.program
  obtain ⟨hcodes, -⟩ := h.given hg hlax
    ((meets_ofDepth hground levels).sequence (Tree.Connected.refl s.tree id))
  intro l hl hmem
  exact absurd ((hcodes l hl).clear '\r' hmem (by decide) rfl) (by decide)

/-! ## Lines of codes -/

theorem isLine_lineMarker (place : Location) :
    IsLine (lineMarker place) ∧ isBlankText (lineMarker place) = false := by
  have hfirm : Firm Helper.nameless (lineMarker place) := (line_lineMarker place).firm
  exact ⟨(hfirm.term.piece.inline trivial).isLine, hfirm.term.solid.starts.isBlankText_eq_false⟩

/-- The lines of full codes are neither blank nor broken. -/
theorem solid_of_mem_marked (hplain : s.options.traceExecution = false) {last : Option Location}
    {codes : List (NodeId × String)} (hfull : ∀ c ∈ codes, IsFull c.2) :
    ∀ l ∈ marked s last codes, isBlankText l = false ∧ '\n' ∉ l.toList := by
  induction codes generalizing last with
  | nil => exact fun _ hl => nomatch hl
  | cons code rest ih =>
      obtain ⟨⟨-, hsolid⟩, hrest⟩ := List.forall_mem_cons.mp hfull
      intro l hl
      rw [marked, traceLines_eq_nil hplain, List.nil_append, List.append_assoc, List.mem_append,
        List.mem_append] at hl
      rcases hl with hl | hl | hl
      · unfold marking at hl
        split at hl
        next =>
          rw [List.mem_singleton.mp hl, ← lineMarker_eq]
          exact ⟨(isLine_lineMarker _).2, (isLine_lineMarker _).1.flat⟩
        next => exact nomatch hl
      · refine ⟨?_, flat_of_mem_lines hl⟩
        rw [List.any_eq_false] at hsolid
        exact Bool.not_eq_true _ ▸ hsolid l hl
      · exact ih hrest l hl

theorem mem_of_mem_withCode {codes : List String} {c : NodeId × String}
    (h : c ∈ withCode ids codes) : c.2 ∈ codes ∧ c.2 ≠ "" := by
  obtain ⟨hmem, hne⟩ := List.mem_filter.mp h
  exact ⟨(List.of_mem_zip hmem).2, by simpa using hne⟩

/-! ## Lines in blocks -/

def wrapped (ls : List String) : Nat → List String
  | 0 => ls
  | n + 1 => [braced (wrapped ls n)]

def outdentLine? (l : String) : Option String :=
  if "    ".toList <+: l.toList then some (dedentLine l) else none

/-- The lines in a block: those between the ones for the braces, without their indentation. -/
def contents? : List String → Option (List String)
  | [] => none
  | l :: ls =>
    if l = "\x7b" ∧ ls.getLast? = some "\x7d" then ls.dropLast.mapM outdentLine? else none

def unwrapped? : Nat → List String → Option (List String)
  | 0, ls => some ls
  | n + 1, ls => (contents? ls).bind (unwrapped? n)

theorem outdentLine?_indentLine (l : String) : outdentLine? (indentLine l) = some l := by
  have hpre : "    ".toList <+: (indentLine l).toList := by
    rw [indentLine, String.toList_append]
    exact List.prefix_append _ _
  rw [outdentLine?, if_pos hpre, dedentLine_indentLine]

theorem contents?_block (ls : List String) :
    contents? ("\x7b" :: ls.map indentLine ++ ["\x7d"]) = some ls := by
  rw [List.cons_append, contents?, if_pos ⟨rfl, List.getLast?_concat⟩, List.dropLast_concat]
  induction ls with
  | nil => rfl
  | cons l ls ih =>
      rw [List.map_cons, List.mapM_cons, outdentLine?_indentLine, ih]
      rfl

theorem wrapped_lines (hls : ∀ l ∈ ls, IsLine l ∧ l ≠ "") (n : Nat) :
    (wrapped ls n ≠ [] → (wrapped ls n).flatMap lines ≠ []) ∧
      ∀ l ∈ (wrapped ls n).flatMap lines, IsLine l := by
  induction n with
  | zero =>
      rw [wrapped, flatMap_lines fun l hl => ⟨(hls l hl).1.flat, (hls l hl).2⟩]
      exact ⟨id, fun l hl => (hls l hl).1⟩
  | succ n ih =>
      rw [wrapped, List.flatMap_singleton, lines_braced ih.1 ih.2]
      refine ⟨fun _ => by simp, fun l hl => ?_⟩
      rcases List.mem_append.mp hl with hl | hl
      · rcases List.mem_cons.mp hl with rfl | hl
        · exact isLine_brace.1
        · obtain ⟨m, hm, rfl⟩ := List.mem_map.mp hl
          exact isLine_indentLine (ih.2 m hm)
      · rw [List.mem_singleton.mp hl]
        exact isLine_brace.2

/-- Lines come back from any number of blocks. -/
theorem unwrapped?_wrapped (hls : ∀ l ∈ ls, IsLine l ∧ l ≠ "") (n : Nat) :
    unwrapped? n ((wrapped ls n).flatMap lines) = some ls := by
  induction n with
  | zero => rw [unwrapped?, wrapped, flatMap_lines fun l hl => ⟨(hls l hl).1.flat, (hls l hl).2⟩]
  | succ n ih =>
      obtain ⟨hne, hlines⟩ := wrapped_lines hls n
      rw [wrapped, List.flatMap_singleton, lines_braced hne hlines, unwrapped?, contents?_block,
        Option.bind_some, ih]

/-! ## Sequences -/

/-- Without a trace, the lines of a sequence are those of its statements' codes that are not empty,
with a marker in front of each code that is the first one or comes from another place than the one
before it. No line is blank or broken. If no name has a carriage return, the lines come back from
any number of blocks. -/
theorem sequence_lines (hplain : s.options.traceExecution = false) {levels : Nat}
    (h : RunsTo (Lowering.sequence s (Lowerer.ofDepth s levels) id) g ls g') :
    (∃ ids codes, s.tree.sequence? id = some ids ∧
      RunsTo (ids.mapM (Lowering.statement s (Lowerer.ofDepth s levels))) g codes g' ∧
        ls = marked s none (withCode ids codes)) ∧
    (∀ l ∈ ls, isBlankText l = false ∧ '\n' ∉ l.toList) ∧
    ('\r' ∉ s.codeName.toList → g.program.WellFormed → s.tree.Lacks '\r' id →
      ∀ n, unwrapped? n ((wrapped ls n).flatMap lines) = some ls) := by
  obtain ⟨ids, codes, hids, hcodes, hfull, rfl⟩ := (runsTo_sequence_iff hplain).mp h
  have hkept : ∀ c ∈ withCode ids codes, IsFull c.2 := fun c hc =>
    hfull c.2 (mem_of_mem_withCode hc).1 (mem_of_mem_withCode hc).2
  have hsolid : ∀ l ∈ marked s none (withCode ids codes), isBlankText l = false ∧ '\n' ∉ l.toList :=
    solid_of_mem_marked hplain hkept
  refine ⟨⟨ids, codes, hids, hcodes, rfl⟩, hsolid, fun hcode hg hlacks => ?_⟩
  have hdeep : RunsTo ((Lowerer.ofDepth s (levels + 1)).sequence id) g _ g' := h
  have hreturns := unreturned_of_runsTo_sequence hcode hlacks hg hdeep
  refine unwrapped?_wrapped fun l hl => ⟨⟨(hsolid l hl).2, fun hlast => ?_⟩, ?_⟩
  · exact hreturns l hl (List.mem_of_getLast? hlast)
  · rintro rfl
    exact absurd (hsolid "" hl).1 (by decide)

theorem Tree.lacks_of_nodes {t : Tree} {c : Char} {top : NodeId}
    (h : ∀ n ∈ Node.absent :: t.nodes.toList,
      (n.location.file :: (n.kind.names ++ n.kind.titles)).all (!·.toList.contains c) = true) :
    t.Lacks c top := by
  intro n _
  have hall := h _ (t.node_mem n)
  simp only [List.all_eq_true, Bool.not_eq_true', List.contains_eq_mem, decide_eq_false_iff_not,
    List.forall_mem_cons] at hall
  exact hall

/-- The body `if x: y`, `global z`, `y`; all but the body of the branch is on one line. -/
def branching : Tree where
  nodes :=
    let entry (line : Nat) (kind : NodeKind) (parent : Option NodeId) : Node :=
      ⟨kind, parent, { file := "spam.py", line }⟩
    let global (name : String) : NodeKind :=
      .expr (.variableRef name (some ⟨name, .moduleGlobal⟩))
    #[entry 1 (.sequence [⟨1⟩, ⟨6⟩, ⟨7⟩]) none,
      entry 1 (.stmt (.conditional ⟨2⟩ (some ⟨3⟩) none)) (some ⟨0⟩),
      entry 1 (global "x") (some ⟨1⟩),
      entry 2 (.sequence [⟨4⟩]) (some ⟨1⟩),
      entry 2 (.stmt (.expression ⟨5⟩)) (some ⟨3⟩),
      entry 2 (global "y") (some ⟨4⟩),
      entry 1 (.stmt (.declareGlobal ["z"])) (some ⟨0⟩),
      entry 1 (.stmt (.expression ⟨8⟩)) (some ⟨0⟩),
      entry 1 (global "y") (some ⟨7⟩)]

def branchingSetting : Setting :=
  { tree := branching, moduleName := "spam", codeName := moduleIdentifier "spam" }

def branchingLines : List String :=
  ["frame_guard.setLineNumber( 1 );",
   "if ( CHECK_IF_TRUE( _mvar_spam_x.asObject() ) )",
   "\x7b",
   "    frame_guard.setLineNumber( 2 );",
   "    _mvar_spam_y.asObject();",
   "\x7d",
   "_mvar_spam_y.asObject();"]

theorem runsTo_branching : ∃ g', RunsTo
    (Lowering.sequence branchingSetting (Lowerer.ofDepth branchingSetting 5) ⟨0⟩) {} branchingLines
      g' :=
  exists_runsTo_of_value (by decide +kernel)

/-- Three codes, of which one is empty, share one marker. -/
theorem sequence_lines_branching :
    branchingSetting.options.traceExecution = false ∧
    '\r' ∉ branchingSetting.codeName.toList ∧ Program.WellFormed {} ∧
    branchingSetting.tree.Lacks '\r' ⟨0⟩ ∧
    (∃ g', RunsTo (Lowering.sequence branchingSetting (Lowerer.ofDepth branchingSetting 5) ⟨0⟩) {}
      branchingLines g') ∧
    (∃ codes, branchingLines = marked branchingSetting none (withCode [⟨1⟩, ⟨6⟩, ⟨7⟩] codes)) ∧
    unwrapped? 2 ((wrapped branchingLines 2).flatMap lines) = some branchingLines := by
  have hcode : '\r' ∉ branchingSetting.codeName.toList := by decide +kernel
  have hlacks : branchingSetting.tree.Lacks '\r' ⟨0⟩ := Tree.lacks_of_nodes (by decide +kernel)
  obtain ⟨g', hrun⟩ := runsTo_branching
  obtain ⟨⟨ids, codes, hids, -, hmarked⟩, -, hwrapped⟩ := sequence_lines (by rfl) hrun
  obtain rfl : [⟨1⟩, ⟨6⟩, ⟨7⟩] = ids := Option.some.inj hids
  exact ⟨rfl, hcode, wellFormed_empty, hlacks, ⟨g', hrun⟩, ⟨codes, hmarked⟩,
    hwrapped hcode wellFormed_empty hlacks 2⟩

end CompilerBackend
