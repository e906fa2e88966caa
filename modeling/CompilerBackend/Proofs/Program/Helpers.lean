import CompilerBackend.Target.Assembly
import CompilerBackend.Proofs.Program.Declarations
import CompilerBackend.Proofs.Program.Holdings
import CompilerBackend.Proofs.Text.Lines
import CompilerBackend.Proofs.Target.Codes
/-!
# The definitions of helpers

The text that a program leaves for its helpers, read back: which helpers it defines, with which
parameters, and the lines that do their work.

- `definitionsIn_helpersText`: a definition for each recorded size, and nothing else.
- `Program.Sound.defined`: each of these helpers is defined once.
-/

namespace CompilerBackend

open Text Target Program

/-! ## Reading -/

structure HelperDefinition where
  name : String
  parameters : List String
  /-- The lines from the opening brace to the closing one. -/
  body : List String

def definitionStart : String := "static inline PyObject *"

/-- The name and the parameters of a helper whose definition begins with the line. -/
def definitionHead? (line : String) : Option (String × List String) :=
  let rest := line.toList.drop definitionStart.toList.length
  if definitionStart.toList <+: line.toList then
    (callArguments? (rest.dropWhile isNameChar)).map
      (String.ofList (rest.takeWhile isNameChar), ·)
  else none

def definitionsFrom : List String → List HelperDefinition
  | [] => []
  | line :: rest =>
    match definitionHead? line with
    | some (name, parameters) =>
      ⟨name, parameters, rest.takeWhile (· != "\x7d")⟩ :: definitionsFrom rest
    | none => definitionsFrom rest

def definitionsIn (text : String) : List HelperDefinition := definitionsFrom (lines text)

/-- No other line begins a definition. -/
theorem definitionHead?_of_head? {line : String} (h : line.toList.head? ≠ some 's') :
    definitionHead? line = none := by
  refine if_neg fun ⟨rest, hrest⟩ => h ?_
  rw [← hrest, List.head?_append]
  rfl

theorem definitionsFrom_append {ls : List String} (h : ∀ l ∈ ls, definitionHead? l = none)
    (rest : List String) : definitionsFrom (ls ++ rest) = definitionsFrom rest := by
  induction ls with
  | nil => rfl
  | cons l ls ih =>
      rw [List.cons_append, definitionsFrom, h l List.mem_cons_self]
      exact ih fun l hl => h l (List.mem_cons_of_mem _ hl)

/-- A definition of several lines, up to its closing brace. -/
theorem definitionsFrom_cons {line name : String} {parameters body : List String}
    (hline : definitionHead? line = some (name, parameters))
    (hbody : ∀ l ∈ body, definitionHead? l = none ∧ l ≠ "\x7d") (rest : List String) :
    definitionsFrom (line :: body ++ ["\x7d"] ++ rest) =
      ⟨name, parameters, body⟩ :: definitionsFrom rest := by
  have hopen : ∀ l ∈ body, (l != "\x7d") = true := fun l hl => bne_iff_ne.mpr (hbody l hl).2
  rw [List.cons_append, List.cons_append, definitionsFrom, hline]
  dsimp only
  rw [List.append_assoc, List.takeWhile_append_of_pos hopen,
    definitionsFrom_append fun l hl => (hbody l hl).1]
  have hclose : definitionHead? "\x7d" = none := definitionHead?_of_head? (by decide)
  rw [List.singleton_append, definitionsFrom, hclose, List.takeWhile_cons_of_neg (by simp),
    List.append_nil]

/-! ## Helpers by size -/

namespace Helper

/-- The parameters of the helper for a size; for each entry of a dict a value, then its key. -/
def parameters : Helper → Nat → List String
  | .dict, n => (List.range n).flatMap fun i =>
      ["PyObject *value" ++ toString i, "PyObject *key" ++ toString i]
  | _, n => (List.range n).map fun i => "PyObject *element" ++ toString i

def creation (h : Helper) (n : Nat) : String :=
  let constructor := match h with
    | .tuple => "PyTuple_New"
    | .list => "PyList_New"
    | .dict => "_PyDict_NewPresized"
  applied constructor [toString n]

/-- The line that puts the parameters for one place into the container. -/
def fill (h : Helper) (i : Nat) : String :=
  let element := applied "INCREASE_REFCOUNT" ["element" ++ toString i]
  terminated <| match h with
    | .tuple => applied "PyTuple_SET_ITEM" ["result", toString i, element]
    | .list => applied "PyList_SET_ITEM" ["result", toString i, element]
    | .dict => applied "PyDict_SetItem" ["result", "key" ++ toString i, "value" ++ toString i]

def body (h : Helper) (n : Nat) : List String :=
  ("PyObject *result = " ++ h.creation n ++ ";") :: (List.range n).map h.fill ++ ["return result;"]

def definition (h : Helper) (n : Nat) : HelperDefinition :=
  ⟨h.name n, h.parameters n, "\x7b" :: (h.body n).map indentLine⟩

def head (h : Helper) (n : Nat) : String :=
  definitionStart ++ h.name n ++ helperParameters (h.parameters n)

def lines (h : Helper) (n : Nat) : List String :=
  h.head n :: (h.definition n).body ++ ["\x7d"]

def text (h : Helper) (n : Nat) : String :=
  match h with
  | .tuple => tupleHelper n
  | .list => listHelper n
  | .dict => dictHelper n

/-- Each pair of parameters may as well be two parameters. -/
theorem commaSeparated_pairs (a b : Nat → String) (l : List Nat) :
    commaSeparated (l.map fun i => a i ++ ", " ++ b i) =
      commaSeparated (l.flatMap fun i => [a i, b i]) := by
  induction l with
  | nil => rfl
  | cons i l ih =>
      rw [List.map_cons, List.flatMap_cons, List.cons_append, List.singleton_append, commaSeparated,
        commaSeparated, String.intercalate_cons_cons]
      cases l with
      | nil =>
          rw [List.map_nil, List.flatMap_nil, String.intercalate_singleton,
            String.intercalate_singleton]
      | cons j l =>
          rw [commaSeparated, commaSeparated, List.map_cons, List.flatMap_cons, List.cons_append] at ih
          rw [List.map_cons, List.flatMap_cons, List.cons_append, String.intercalate_cons_cons,
            String.intercalate_cons_cons, ih]
          simp only [String.append_assoc]

/-- The parameter list of a dict helper. -/
theorem helperParameters_dict (n : Nat) :
    helperParameters ((List.range n).map fun i =>
      "PyObject *value" ++ toString i ++ ", PyObject *key" ++ toString i) =
      helperParameters (Helper.dict.parameters n) := by
  have hpair : ∀ i : Nat, "PyObject *value" ++ toString i ++ ", PyObject *key" ++ toString i =
      "PyObject *value" ++ toString i ++ ", " ++ ("PyObject *key" ++ toString i) := by
    intro i
    rw [show ", PyObject *key" = ", " ++ "PyObject *key" by decide]
    simp only [String.append_assoc]
  rw [helperParameters, helperParameters]
  simp only [hpair, commaSeparated_pairs, parameters]
  cases n with
  | zero => rfl
  | succ n => simp [List.range_succ_eq_map]

theorem text_eq (h : Helper) (n : Nat) :
    h.text n = h.head n ++ "\n" ++ braced (h.body n) := by
  have htuple : "MAKE_" ++ "TUPLE" = "MAKE_TUPLE" := by decide
  have hlist : "MAKE_" ++ "LIST" = "MAKE_LIST" := by decide
  unfold text head body name start definitionStart creation fill
  cases h with
  | tuple =>
      unfold tupleHelper sequenceHelper helperText parameters
      rw [htuple]
  | list =>
      unfold listHelper sequenceHelper helperText parameters
      rw [hlist]
  | dict =>
      unfold dictHelper helperText
      rw [helperParameters_dict]

/-! ## Line by line -/

def nameless : Wording where
  program := {}
  stray _ := True
  converts _ := True
  tight := True
  absent _ := True
  plain := True
  apart := True
  pairs _ _ := True

variable {h : Helper} {n : Nat} {s : String}

theorem term_of_mem_parameters (hs : s ∈ h.parameters n) : Term nameless s := by
  cases h with
  | tuple =>
      obtain ⟨i, -, rfl⟩ := List.mem_map.mp hs
      exact (term_natural i).lead (by rfl)
  | list =>
      obtain ⟨i, -, rfl⟩ := List.mem_map.mp hs
      exact (term_natural i).lead (by rfl)
  | dict =>
      obtain ⟨i, -, hs⟩ := List.mem_flatMap.mp hs
      simp only [List.mem_cons, List.not_mem_nil, or_false] at hs
      rcases hs with rfl | rfl
      · exact (term_natural i).lead (by rfl)
      · exact (term_natural i).lead (by rfl)

theorem term_creation (h : Helper) (n : Nat) : Term nameless (h.creation n) := by
  cases h <;> exact Term.call (by rfl) (by simpa using (term_natural n).phrase)

theorem solid_fill (h : Helper) (i : Nat) : Solid nameless (h.fill i) := by
  have hnumbered {a : String} (ha : (isHead a && isFlat a) = true) :
      Phrase nameless (a ++ toString i) := ((term_natural i).lead ha).phrase
  have hresult : Phrase nameless "result" := Phrase.text (by rfl)
  have helement : Phrase nameless
      (applied "INCREASE_REFCOUNT" ["element" ++ toString i]) :=
    (Term.call (by rfl) (by simpa using hnumbered (a := "element") (by rfl))).phrase
  refine Solid.terminated ?_
  cases h
  case dict =>
    exact (Term.call (by rfl) (by simpa using ⟨hresult, hnumbered (a := "key") (by rfl),
      hnumbered (a := "value") (by rfl)⟩)).solid
  all_goals
    exact (Term.call (by rfl)
      (by simpa using ⟨hresult, (term_natural i).phrase, helement⟩)).solid

theorem solid_of_mem_body (hs : s ∈ h.body n) : Solid nameless s := by
  rw [body, List.mem_append, List.mem_cons, List.mem_map, List.mem_singleton] at hs
  rcases hs with (rfl | ⟨i, -, rfl⟩) | rfl
  · exact ((term_creation h n).lead (by rfl)).solid.tail (by rfl)
  · exact solid_fill h i
  · exact Solid.text (by rfl)

theorem callArguments?_helperParameters (h : Helper) (n : Nat) :
    callArguments? (helperParameters (h.parameters n)).toList = some (h.parameters n) := by
  have hterm : ∀ s ∈ h.parameters n, Term nameless s := fun s => term_of_mem_parameters
  have htrim : (h.parameters n).map trim = h.parameters n := by
    refine (List.map_congr_left fun s hs => ?_).trans (List.map_id _)
    have hsolid := (hterm s hs).solid
    exact beq_iff_eq.mp (hasNoMargin_of_solid hsolid.starts (hsolid.stops trivial))
  unfold helperParameters
  split
  next hnil =>
    rw [List.isEmpty_iff.mp hnil]
    rfl
  next =>
    have hread := callArguments?_applied (fun s hs => (hterm s hs).flat trivial)
      (fun s hs => (hterm s hs).solid.starts.isBlankText_eq_false) []
    rw [String.toList_append, String.toList_append, ← List.append_nil (_ ++ _), hread, htrim]

/-- The first line of a definition tells the name and the parameters. -/
theorem definitionHead?_head (h : Helper) (n : Nat) :
    definitionHead? (h.head n) = some (h.name n, h.parameters n) := by
  have hparen : ∀ c ∈ (helperParameters (h.parameters n)).toList.head?, isNameChar c = false := by
    unfold helperParameters
    split
    · simp; decide
    · simp; decide
  obtain ⟨htake, hdrop⟩ := takeWhile_name (isNameChar_of_mem_helperName h n) hparen
  have hsplit : (h.head n).toList = definitionStart.toList ++
      ((h.name n).toList ++ (helperParameters (h.parameters n)).toList) := by
    rw [head, String.toList_append, String.toList_append, List.append_assoc]
  unfold definitionHead?
  dsimp only
  rw [hsplit, if_pos (List.prefix_append _ _), List.drop_left, htake, hdrop,
    callArguments?_helperParameters, String.ofList_toList]
  rfl

theorem head?_indentLine (l : String) : (indentLine l).toList.head? = some ' ' := by
  rw [toList_indentLine]
  rfl

theorem definitionsFrom_lines (h : Helper) (n : Nat) (rest : List String) :
    definitionsFrom (h.lines n ++ rest) = h.definition n :: definitionsFrom rest := by
  refine definitionsFrom_cons (definitionHead?_head h n) (fun l hl => ?_) rest
  have hhead : l.toList.head? ≠ some 's' ∧ l.toList.head? ≠ some '\x7d' := by
    rcases List.mem_cons.mp hl with rfl | hl
    · decide
    · obtain ⟨s, -, rfl⟩ := List.mem_map.mp hl
      rw [head?_indentLine]
      decide
  refine ⟨definitionHead?_of_head? hhead.1, ?_⟩
  rintro rfl
  exact hhead.2 rfl

theorem isLine_of_mem_lines {l : String} (hl : l ∈ h.lines n) : IsLine l := by
  have hparameters : Inline (helperParameters (h.parameters n)) := by
    unfold helperParameters
    split
    · exact inline_of_isLead (by rfl)
    · exact (((Piece.commaSeparated fun s hs => (term_of_mem_parameters hs).piece).lead
        (by rfl)).tail (by rfl)).inline trivial
  rw [lines, List.mem_append, List.mem_cons, definition, List.mem_cons, List.mem_map,
    List.mem_singleton] at hl
  rcases hl with (rfl | rfl | ⟨s, hs, rfl⟩) | rfl
  · exact (((inline_of_isLead (by rfl)).append (inline_of_visible fun c hc =>
      isBlank_of_isNameChar (isNameChar_of_mem_helperName h n c hc))).append hparameters).isLine
  · exact isLine_brace.1
  · exact isLine_indentLine ((solid_of_mem_body hs).piece.inline trivial).isLine
  · exact isLine_brace.2

theorem text_eq_unlines (h : Helper) (n : Nat) : h.text n = unlines (h.lines n) := by
  have hbody : (h.body n).flatMap Text.lines = h.body n := by
    refine flatMap_lines fun s hs => ?_
    have hsolid := solid_of_mem_body hs
    refine ⟨(hsolid.piece.inline trivial).isLine.flat, ?_⟩
    rintro rfl
    obtain ⟨c, hc, -⟩ := hsolid.starts
    exact nomatch hc
  rw [text_eq, braced_eq_unlines (by rw [hbody]; exact id), indentedLines, hbody]
  exact (unlines_cons (by simp) (h.head n)).symm

end Helper

/-! ## The text of a program -/

def Program.helpers (q : Program) : List (Helper × Nat) :=
  [.tuple, .list, .dict].flatMap fun h : Helper => (h.sizes q).map (h, ·)

theorem Program.mem_helpers {q : Program} {h : Helper} {n : Nat} :
    (h, n) ∈ q.helpers ↔ n ∈ h.sizes q := by
  cases h <;> simp [Program.helpers]

theorem helpersText_eq (q : Program) :
    helpersText q = paragraphs (q.helpers.map fun d => d.1.text d.2) := by
  rw [helpersText, Program.helpers]
  simp [Helper.text, Helper.sizes, Function.comp_def]

/-- Paragraphs are apart by one empty line. -/
theorem lines_paragraphs {lss : List (List String)}
    (h : ∀ ls ∈ lss, (∀ l ∈ ls, IsLine l) ∧ ∃ l, ls.getLast? = some l ∧ l ≠ "") :
    lines (paragraphs (lss.map unlines)) = [""].intercalate lss := by
  induction lss with
  | nil => rfl
  | cons ls lss ih =>
      have hrest := ih fun ms hms => h ms (List.mem_cons_of_mem ls hms)
      obtain ⟨hls, last, hlast, hne⟩ := h ls List.mem_cons_self
      cases lss with
      | nil =>
          rw [List.map_singleton, paragraphs, String.intercalate_singleton, List.intercalate_singleton]
          refine lines_unlines hls fun l hl => ?_
          rw [hlast, Option.mem_some_iff] at hl
          rwa [← hl]
      | cons ms lss =>
          have hlsne : ls ≠ [] := fun hnil => by simp [hnil] at hlast
          have hblank : ∀ l ∈ ls ++ [""], IsLine l := List.forall_mem_append.mpr
            ⟨hls, List.forall_mem_singleton.mpr ⟨by simp, by simp⟩⟩
          have hjoined : paragraphs ((ls :: ms :: lss).map unlines) =
              unlines (ls ++ [""] ++ [paragraphs ((ms :: lss).map unlines)]) := by
            rw [List.append_assoc, unlines_append hlsne (by simp), List.singleton_append,
              unlines_cons_cons, unlines_singleton, String.empty_append, List.map_cons,
              List.map_cons, paragraphs, paragraphs, String.intercalate_cons_cons,
              show "\n\n" = "\n" ++ "\n" by decide]
            simp only [String.append_assoc]
          rw [hjoined, lines_unlines_concat hblank, hrest, List.intercalate_cons_cons]

theorem lines_helpersText (q : Program) :
    lines (helpersText q) = [""].intercalate (q.helpers.map fun d => d.1.lines d.2) := by
  have htexts : (q.helpers.map fun d => d.1.text d.2) =
      (q.helpers.map fun d => d.1.lines d.2).map unlines := by
    rw [List.map_map]
    exact List.map_congr_left fun d _ => d.1.text_eq_unlines d.2
  rw [helpersText_eq, htexts]
  refine lines_paragraphs fun ls hls => ?_
  obtain ⟨⟨h, n⟩, -, rfl⟩ := List.mem_map.mp hls
  refine ⟨fun l => Helper.isLine_of_mem_lines, "\x7d", ?_, by simp⟩
  rw [Helper.lines, List.getLast?_concat]

/-- The text defines a helper for each recorded size, and nothing else. -/
theorem definitionsIn_helpersText (q : Program) :
    definitionsIn (helpersText q) = q.helpers.map fun d => d.1.definition d.2 := by
  rw [definitionsIn, lines_helpersText]
  induction q.helpers with
  | nil => rfl
  | cons first others ih =>
      obtain ⟨h, n⟩ := first
      cases others with
      | nil =>
          have hread := Helper.definitionsFrom_lines h n []
          rw [List.append_nil] at hread
          rw [List.map_singleton, List.intercalate_singleton, hread]
          rfl
      | cons second others =>
          have hblank : definitionHead? "" = none := definitionHead?_of_head? (by simp)
          rw [List.map_cons] at ih
          rw [List.map_cons, List.map_cons, List.intercalate_cons_cons, List.append_assoc,
            Helper.definitionsFrom_lines, List.singleton_append, definitionsFrom, hblank, ih]
          rfl

/-! ## One definition for each helper -/

theorem Helper.name_inj {h h' : Helper} {n n' : Nat} :
    h.name n = h'.name n' ↔ h = h' ∧ n = n' := by
  constructor
  · intro heq
    have hstart : h'.start.toList <+: (h.name n).toList := by
      rw [heq, Helper.name, String.toList_append]
      exact List.prefix_append _ _
    obtain rfl : h' = h := helper_eq_of_begins hstart
    refine ⟨rfl, Nat.repr_inj.mp (String.toList_inj.mp ?_)⟩
    have hchars := congrArg String.toList heq
    rw [Helper.name, Helper.name, String.toList_append, String.toList_append] at hchars
    exact List.append_cancel_left hchars
  · rintro ⟨rfl, rfl⟩
    rfl

theorem Program.Sound.nodup_helpers {q : Program} (hq : q.Sound) : q.helpers.Nodup := by
  have hsizes : ∀ h : Helper, (h.sizes q).Nodup := by
    intro h
    cases h with
    | tuple => exact hq.tuples.imp Nat.ne_of_lt
    | list => exact hq.lists.imp Nat.ne_of_lt
    | dict => exact hq.dicts.imp Nat.ne_of_lt
  refine List.nodup_flatMap.mpr ⟨fun h _ => (hsizes h).map fun _ _ heq => (Prod.mk.inj heq).2, ?_⟩
  refine List.Pairwise.imp (R := (· ≠ ·)) (fun hne d hd hd' => hne ?_) (by decide)
  obtain ⟨_, -, rfl⟩ := List.mem_map.mp hd
  obtain ⟨_, -, heq⟩ := List.mem_map.mp hd'
  exact (Prod.mk.inj heq).1.symm

/-- The helper for a recorded size is defined once. -/
theorem Program.Sound.defined {q : Program} (hq : q.Sound) {h : Helper} {n : Nat}
    (hn : n ∈ h.sizes q) :
    (definitionsIn (helpersText q)).filter (·.name == h.name n) = [h.definition n] := by
  have hsame : ∀ d : Helper × Nat, ((d.1.definition d.2).name == h.name n) = (d == (h, n)) := by
    rintro ⟨h', n'⟩
    rw [Bool.eq_iff_iff, beq_iff_eq, beq_iff_eq, Prod.mk.injEq]
    exact Helper.name_inj
  have hcount : q.helpers.count (h, n) = 1 :=
    List.count_eq_one_of_mem hq.nodup_helpers (Program.mem_helpers.mpr hn)
  rw [definitionsIn_helpersText, List.filter_map]
  simp only [Function.comp_def, hsame]
  rw [List.filter_beq, hcount]
  rfl

end CompilerBackend
