import CompilerBackend.Proofs.Target.Pages
/-!
# Control flow of target text

The lines of a block of target text, run as the target language runs them. A line that stands by
itself passes control on, raises an exception of the compiled language if the helpers behind it let
it, or leaves the blocks around it; the lines that head a block guard it, choose it or repeat it.
A guard stops what its clauses name and nothing else.

- `chunks`: lines cut into lines by themselves and blocks.
- `Runs`: the runs of a block, with the lines that are run and the way control leaves it.
- `runs_plain_iff`, `runs_block_iff`, `runs_guarded_iff`: runs, by what a block begins with.
- `runs_tryFinally_iff`: the runs of a try statement with a final block.
- `runs_fetchOrHandle_iff`: the runs of the fetch of an item, with one and without.
-/

namespace CompilerBackend.Target

open Text

/-! ## Ways out of a block -/

/-- What is thrown to leave a loop or a generator through guarded blocks. -/
inductive Signal where
  | loopBreak
  | loopContinue
  | generatorEnd
  deriving DecidableEq

inductive Exit where
  /-- Behind its last line. -/
  | completes
  /-- By an exception of the compiled language. -/
  | raises
  | throws (signal : Signal)
  | returns
  | breaks
  | continues
  deriving DecidableEq

/-- Whether control leaves a block early and without an exception of the compiled language. -/
def Exit.isJump (e : Exit) : Bool := e != .completes && e != .raises

/-! ## Sorts of lines -/

/-- The part that a line has in the flow of control. -/
inductive LineSort where
  | plain
  | leaves (e : Exit)
  /-- Heads a guarded block. -/
  | guards
  /-- Heads a clause for what has left a guarded block in a way. -/
  | catches (e : Exit)
  | tests
  | otherwiseTests
  | otherwise
  | repeats
  deriving DecidableEq

def keyLines : List (String × LineSort) :=
  [("break;", .leaves .breaks), ("continue;", .leaves .continues), ("throw;", .leaves .raises),
    ("throw BreakException();", .leaves (.throws .loopBreak)),
    ("throw ContinueException();", .leaves (.throws .loopContinue)),
    ("throw ReturnFromGeneratorException();", .leaves (.throws .generatorEnd)),
    ("try", .guards), ("catch ( _PythonException &_exception )", .catches .raises),
    ("catch ( BreakException & )", .catches (.throws .loopBreak)),
    ("catch ( ContinueException & )", .catches (.throws .loopContinue)),
    ("else", .otherwise), ("while ( true )", .repeats)]

def keyOpenings : List (String × LineSort) :=
  [("return ", .leaves .returns), ("if ( ", .tests), ("else if ( ", .otherwiseTests)]

def lineSort (l : String) : LineSort :=
  ((keyLines.find? fun k => l = k.1) <|>
    keyOpenings.find? fun k => k.1.toList.isPrefixOf l.toList).elim .plain Prod.snd

/-- The characters that lines with a part in the flow of control begin with. -/
def keyInitials : List Char := ['b', 'c', 't', 'e', 'w', 'r', 'i']

theorem keys_initial : ∀ k ∈ keyLines ++ keyOpenings, ∃ c ∈ keyInitials, k.1.toList.head? = some c := by
  simp [keyLines, keyOpenings, keyInitials]

theorem lineSort_plain {l : String} (h : ∀ c ∈ l.toList.head?, c ∉ keyInitials) :
    lineSort l = .plain := by
  have hlines : keyLines.find? (fun k => l = k.1) = none := by
    rw [List.find?_eq_none]
    intro k hk heq
    obtain ⟨c, hc, hhead⟩ := keys_initial k (List.mem_append_left _ hk)
    rw [← of_decide_eq_true heq] at hhead
    exact h c hhead hc
  have hopenings : keyOpenings.find? (fun k => k.1.toList.isPrefixOf l.toList) = none := by
    rw [List.find?_eq_none]
    intro k hk hopens
    obtain ⟨c, hc, hhead⟩ := keys_initial k (List.mem_append_right _ hk)
    obtain ⟨tail, htail⟩ := List.isPrefixOf_iff_prefix.mp hopens
    refine h c ?_ hc
    rw [← htail, List.head?_append, hhead]
    rfl
  rw [lineSort, hlines, hopenings]
  rfl

/-- A line that begins like one of the openings has no other part in the flow of control. -/
theorem lineSort_of_opening {k : String × LineSort} {l : String} (hk : k ∈ keyOpenings)
    (h : k.1.toList <+: l.toList) : lineSort l = k.2 := by
  have hlines : keyLines.find? (fun k => l = k.1) = none := by
    rw [List.find?_eq_none]
    intro k' hk' heq
    rw [of_decide_eq_true heq] at h
    have hapart : ∀ k ∈ keyOpenings, ∀ k' ∈ keyLines, ¬ k.1.toList <+: k'.1.toList := by decide
    exact hapart k hk k' hk' h
  -- of two openings of one line, one would begin the other
  have hone : ∀ k' ∈ keyOpenings, k'.1.toList.isPrefixOf l.toList = decide (k' = k) := by
    have hapart : ∀ k ∈ keyOpenings, ∀ k' ∈ keyOpenings, k.1.toList <+: k'.1.toList → k = k' := by
      decide
    intro k' hk'
    rw [Bool.eq_iff_iff, List.isPrefixOf_iff_prefix, decide_eq_true_iff]
    constructor
    · intro h'
      rcases List.prefix_or_prefix_of_prefix h' h with hp | hp
      · exact hapart k' hk' k hk hp
      · exact (hapart k hk k' hk' hp).symm
    · rintro rfl
      exact h
  have hopening : keyOpenings.find? (fun k => k.1.toList.isPrefixOf l.toList) = some k := by
    have hfind : ∀ k ∈ keyOpenings, keyOpenings.find? (fun k' => decide (k' = k)) = some k := by
      decide
    rw [List.find?_congr hone, hfind k hk]
  rw [lineSort, hlines, hopening]
  rfl

/-! ## Blocks within lines -/

inductive Chunk where
  | line (l : String)
  /-- A block, its lines one level less deep. -/
  | block (ls : List String)

def dedentLine (l : String) : String := String.ofList (l.toList.drop 4)

theorem dedentLine_indentLine (l : String) : dedentLine (indentLine l) = l := by
  rw [dedentLine, toList_indentLine]
  exact String.ofList_toList

/-- The parts of a block; `inner` has the lines so far, last one first, of a block that is open. -/
def chunksFrom (inner : Option (List String)) : List String → List Chunk
  | [] => (inner.map fun ls => Chunk.block ls.reverse).toList
  | l :: ls =>
    match inner with
    | none => if l = "\x7b" then chunksFrom (some []) ls else .line l :: chunksFrom none ls
    | some inside =>
      if l = "\x7d" then .block inside.reverse :: chunksFrom none ls
      else chunksFrom (some (dedentLine l :: inside)) ls

def chunks (ls : List String) : List Chunk := chunksFrom none ls

@[simp] theorem chunks_nil : chunks [] = [] := rfl

theorem chunks_cons {l : String} (h : l ≠ "\x7b") (ls : List String) :
    chunks (l :: ls) = .line l :: chunks ls := by
  rw [chunks, chunksFrom]
  exact if_neg h

theorem indentLine_ne_brace (l : String) : indentLine l ≠ "\x7d" := by
  intro h
  have hchars := congrArg String.toList h
  rw [toList_indentLine] at hchars
  simp at hchars

theorem chunksFrom_block (inside ls rest : List String) :
    chunksFrom (some inside) (ls.map indentLine ++ "\x7d" :: rest) =
      .block (inside.reverse ++ ls) :: chunks rest := by
  induction ls generalizing inside with
  | nil =>
      rw [List.map_nil, List.nil_append, chunksFrom, List.append_nil]
      exact if_pos rfl
  | cons l ls ih =>
      rw [List.map_cons, List.cons_append, chunksFrom]
      refine (if_neg (indentLine_ne_brace l)).trans ?_
      rw [ih, dedentLine_indentLine, List.reverse_cons, List.append_assoc, List.singleton_append]

/-- A block is read back from its lines between the braces. -/
theorem chunks_block (ls rest : List String) :
    chunks ("\x7b" :: ls.map indentLine ++ "\x7d" :: rest) = .block ls :: chunks rest :=
  chunksFrom_block [] ls rest

/-! ## Runs -/

def keeperLine (n : Nat) : String := "_PythonExceptionKeeper " ++ caughtFlag n ++ ";"

def saveLine (n : Nat) : String := caughtFlag n ++ ".save( _exception );"

def rethrowLine (n : Nat) : String := caughtFlag n ++ ".rethrow();"

/-- The helpers that target text calls: which lines can raise an exception of the compiled language.
To declare a keeper of an exception and to keep one is safe. -/
structure Host where
  mayRaise : String → Prop
  keeper_safe : ∀ n, ¬ mayRaise (keeperLine n)
  save_safe : ∀ n, ¬ mayRaise (saveLine n)

/-- How control can leave a line that stands by itself. -/
inductive LineExit (host : Host) (l : String) : Exit → Prop
  | passes : lineSort l = .plain → LineExit host l .completes
  | raises : lineSort l = .plain ∨ lineSort l = .leaves .returns → host.mayRaise l →
      LineExit host l .raises
  | leaves {e : Exit} : lineSort l = .leaves e → LineExit host l e

/-- The clauses at the start of a list of parts, and the parts behind them. -/
def clauses : List Chunk → List (Exit × List String) × List Chunk
  | .line l :: .block b :: rest =>
    match lineSort l with
    | .catches e => ((e, b) :: (clauses rest).1, (clauses rest).2)
    | _ => ([], .line l :: .block b :: rest)
  | rest => ([], rest)

/-- The further cases of a choice at the start of a list of parts, each a condition and a block, and
the parts behind them. Where no case need apply, an empty block is one of them. -/
def alternatives : List Chunk → List (String × List String) × List Chunk
  | .line l :: .block b :: rest =>
    match lineSort l with
    | .otherwiseTests => ((l, b) :: (alternatives rest).1, (alternatives rest).2)
    | .otherwise => ([(l, b)], rest)
    | _ => ([("else", [])], .line l :: .block b :: rest)
  | rest => ([("else", [])], rest)

mutual

/-- The parts of a block are run in order up to one that control leaves in another way than behind
its last line. -/
inductive Runs (host : Host) : List Chunk → List String → Exit → Prop
  | done : Runs host [] [] .completes
  | next {parts rest : List Chunk} {τ τ' : List String} {e : Exit} :
      First host parts rest τ .completes → Runs host rest τ' e → Runs host parts (τ ++ τ') e
  | left {parts rest : List Chunk} {τ : List String} {e : Exit} :
      First host parts rest τ e → e ≠ .completes → Runs host parts τ e

/-- The runs of the statement that a list of parts begins with; `rest` is behind it. -/
inductive First (host : Host) : List Chunk → List Chunk → List String → Exit → Prop
  | line {l : String} {rest : List Chunk} {e : Exit} :
      LineExit host l e → First host (.line l :: rest) rest [l] e
  | block {b : List String} {rest : List Chunk} {τ : List String} {e : Exit} :
      Runs host (chunks b) τ e → First host (.block b :: rest) rest τ e
  | unstopped {l : String} {b : List String} {rest : List Chunk} {τ : List String} {e : Exit} :
      lineSort l = .guards → Runs host (chunks b) τ e → (clauses rest).1.lookup e = none →
        First host (.line l :: .block b :: rest) (clauses rest).2 τ e
  | stopped {l : String} {b clause : List String} {rest : List Chunk} {τ τ' : List String}
      {e e' : Exit} :
      lineSort l = .guards → Runs host (chunks b) τ e → (clauses rest).1.lookup e = some clause →
        Runs host (chunks clause) τ' e' →
          First host (.line l :: .block b :: rest) (clauses rest).2 (τ ++ τ') e'
  | chosen {l condition : String} {b case : List String} {rest : List Chunk} {τ : List String}
      {e : Exit} :
      lineSort l = .tests → (condition, case) ∈ (l, b) :: (alternatives rest).1 →
        Runs host (chunks case) τ e →
          First host (.line l :: .block b :: rest) (alternatives rest).2 (l :: τ) e
  | undecided {l condition : String} {b case : List String} {rest : List Chunk} :
      lineSort l = .tests → (condition, case) ∈ (l, b) :: (alternatives rest).1 →
        host.mayRaise condition →
          First host (.line l :: .block b :: rest) (alternatives rest).2 [l] .raises
  | again {l : String} {b : List String} {rest behind : List Chunk} {τ τ' : List String}
      {e e' : Exit} :
      lineSort l = .repeats → Runs host (chunks b) τ e → e = .completes ∨ e = .continues →
        First host (.line l :: .block b :: rest) behind τ' e' →
          First host (.line l :: .block b :: rest) behind (τ ++ τ') e'
  | broken {l : String} {b : List String} {rest : List Chunk} {τ : List String} :
      lineSort l = .repeats → Runs host (chunks b) τ .breaks →
        First host (.line l :: .block b :: rest) rest τ .completes
  | escaped {l : String} {b : List String} {rest : List Chunk} {τ : List String} {e : Exit} :
      lineSort l = .repeats → Runs host (chunks b) τ e →
        e ≠ .completes → e ≠ .continues → e ≠ .breaks →
          First host (.line l :: .block b :: rest) rest τ e

end

/-- What becomes of a run of the first statement: the rest of the block is run behind it, unless
control has left the block. -/
def GoesOn (host : Host) (rest : List Chunk) (τ₁ : List String) (e₁ : Exit) (τ : List String)
    (e : Exit) : Prop :=
  if e₁ = .completes then ∃ τ₂, Runs host rest τ₂ e ∧ τ = τ₁ ++ τ₂ else τ = τ₁ ∧ e = e₁

variable {host : Host} {l : String} {b : List String} {rest : List Chunk} {τ : List String}
  {e : Exit}

theorem goesOn_append {ρ τ₁ : List String} {e₁ : Exit} :
    GoesOn host rest (ρ ++ τ₁) e₁ τ e ↔ ∃ τ', GoesOn host rest τ₁ e₁ τ' e ∧ τ = ρ ++ τ' := by
  by_cases he : e₁ = .completes
  · simp only [GoesOn, if_pos he]
    constructor
    · rintro ⟨τ₂, hrest, rfl⟩
      exact ⟨τ₁ ++ τ₂, ⟨τ₂, hrest, rfl⟩, List.append_assoc ..⟩
    · rintro ⟨_, ⟨τ₂, hrest, rfl⟩, rfl⟩
      exact ⟨τ₂, hrest, (List.append_assoc ..).symm⟩
  · simp only [GoesOn, if_neg he]
    constructor
    · rintro ⟨rfl, rfl⟩
      exact ⟨τ₁, ⟨rfl, rfl⟩, rfl⟩
    · rintro ⟨_, ⟨rfl, rfl⟩, rfl⟩
      exact ⟨rfl, rfl⟩

theorem runs_cons_iff {part : Chunk} : Runs host (part :: rest) τ e ↔
    ∃ behind τ₁ e₁, First host (part :: rest) behind τ₁ e₁ ∧ GoesOn host behind τ₁ e₁ τ e := by
  constructor
  · intro h
    cases h with
    | next hfirst hrest => exact ⟨_, _, _, hfirst, by rw [GoesOn, if_pos rfl]; exact ⟨_, hrest, rfl⟩⟩
    | left hfirst hne => exact ⟨_, _, _, hfirst, by rw [GoesOn, if_neg hne]; exact ⟨rfl, rfl⟩⟩
  · rintro ⟨behind, τ₁, e₁, hfirst, hon⟩
    by_cases he : e₁ = .completes
    · rw [GoesOn, if_pos he] at hon
      obtain ⟨τ₂, hrest, rfl⟩ := hon
      subst he
      exact .next hfirst hrest
    · rw [GoesOn, if_neg he] at hon
      obtain ⟨rfl, rfl⟩ := hon
      exact .left hfirst he

theorem runs_nil_iff : Runs host [] τ e ↔ τ = [] ∧ e = .completes := by
  constructor
  · intro h
    cases h with
    | done => exact ⟨rfl, rfl⟩
    | next hfirst => cases hfirst
    | left hfirst => cases hfirst
  · rintro ⟨rfl, rfl⟩
    exact .done

/-- A line that heads nothing is the first statement by itself. -/
theorem first_line_iff {behind : List Chunk} {τ₁ : List String} {e₁ : Exit}
    (h : lineSort l = .plain ∨ ∃ e, lineSort l = .leaves e) :
    First host (.line l :: rest) behind τ₁ e₁ ↔ behind = rest ∧ τ₁ = [l] ∧ LineExit host l e₁ := by
  constructor
  · intro hfirst
    cases hfirst with
    | line hexit => exact ⟨rfl, rfl, hexit⟩
    | unstopped hs | stopped hs | chosen hs | undecided hs | again hs | broken hs | escaped hs =>
        rw [hs] at h
        rcases h with h | ⟨e, h⟩ <;> cases h
  · rintro ⟨rfl, rfl, hexit⟩
    exact .line hexit

/-- A line that heads nothing and does not leave raises, or passes control on. -/
theorem runs_line_iff (hsort : lineSort l = .plain) : Runs host (.line l :: rest) τ e ↔
    (host.mayRaise l ∧ τ = [l] ∧ e = .raises) ∨ ∃ τ', Runs host rest τ' e ∧ τ = l :: τ' := by
  rw [runs_cons_iff]
  simp only [first_line_iff (Or.inl hsort)]
  constructor
  · rintro ⟨_, _, e₁, ⟨rfl, rfl, hexit⟩, hon⟩
    cases hexit with
    | passes => exact Or.inr (by rwa [GoesOn, if_pos rfl] at hon)
    | raises _ hraise =>
        rw [GoesOn, if_neg (by decide)] at hon
        exact Or.inl ⟨hraise, hon⟩
    | leaves hs =>
        rw [hsort] at hs
        cases hs
  · rintro (⟨hraise, rfl, rfl⟩ | h)
    · exact ⟨rest, [l], .raises, ⟨rfl, rfl, .raises (Or.inl hsort) hraise⟩,
        by rw [GoesOn, if_neg (by decide)]; exact ⟨rfl, rfl⟩⟩
    · exact ⟨rest, [l], .completes, ⟨rfl, rfl, .passes hsort⟩, by rwa [GoesOn, if_pos rfl]⟩

/-- A safe line passes control on. -/
theorem runs_plain_iff (hsort : lineSort l = .plain) (hsafe : ¬ host.mayRaise l) :
    Runs host (.line l :: rest) τ e ↔ ∃ τ', Runs host rest τ' e ∧ τ = l :: τ' := by
  rw [runs_line_iff hsort]
  exact or_iff_right fun h => hsafe h.1

/-- Nothing is run behind a line that leaves. -/
theorem runs_leaving_iff {e₀ : Exit} (hsort : lineSort l = .leaves e₀) (hne : e₀ ≠ .completes) :
    Runs host (.line l :: rest) τ e ↔ τ = [l] ∧ LineExit host l e := by
  have hexit : ¬ LineExit host l .completes := by
    intro h
    cases h with
    | passes hs =>
        rw [hsort] at hs
        cases hs
    | leaves hs =>
        rw [hsort] at hs
        cases hs
        exact hne rfl
  rw [runs_cons_iff]
  simp only [first_line_iff (Or.inr ⟨e₀, hsort⟩)]
  constructor
  · rintro ⟨_, _, e₁, ⟨rfl, rfl, he₁⟩, hon⟩
    have hgone : e₁ ≠ .completes := fun heq => hexit (heq ▸ he₁)
    rw [GoesOn, if_neg hgone] at hon
    rw [hon.1, hon.2]
    exact ⟨rfl, he₁⟩
  · rintro ⟨rfl, he⟩
    have hgone : e ≠ .completes := fun heq => hexit (heq ▸ he)
    exact ⟨rest, [l], e, ⟨rfl, rfl, he⟩, by rw [GoesOn, if_neg hgone]; exact ⟨rfl, rfl⟩⟩

/-- Control does not come behind a line that leaves. -/
theorem Runs.jumps {e₀ : Exit} (h : Runs host (.line l :: rest) τ e)
    (hsort : lineSort l = .leaves e₀) (hne : e₀ ≠ .completes) : e = .raises ∨ e = e₀ := by
  rcases ((runs_leaving_iff hsort hne).mp h).2 with hplain | ⟨_, _⟩ | hleaves
  · rw [hsort] at hplain
    cases hplain
  · exact Or.inl rfl
  · rw [hsort] at hleaves
    cases hleaves
    exact Or.inr rfl

theorem ne_brace_of_leaves {e₀ : Exit} (hsort : lineSort l = .leaves e₀) : l ≠ "\x7b" := by
  rintro rfl
  have hplain : lineSort "\x7b" = .plain := lineSort_plain (by simp [keyInitials])
  rw [hplain] at hsort
  cases hsort

theorem runs_block_iff : Runs host (.block b :: rest) τ e ↔
    ∃ τ₁ e₁, Runs host (chunks b) τ₁ e₁ ∧ GoesOn host rest τ₁ e₁ τ e := by
  rw [runs_cons_iff]
  constructor
  · rintro ⟨behind, τ₁, e₁, hfirst, hon⟩
    cases hfirst with
    | block hruns => exact ⟨τ₁, e₁, hruns, hon⟩
  · rintro ⟨τ₁, e₁, hruns, hon⟩
    exact ⟨rest, τ₁, e₁, .block hruns, hon⟩

/-- What is behind a part that completes begins with a block. -/
theorem goesOn_block_iff {τ₁ : List String} : GoesOn host (.block b :: rest) τ₁ .completes τ e ↔
    ∃ τ₂ e₂, Runs host (chunks b) τ₂ e₂ ∧ GoesOn host rest (τ₁ ++ τ₂) e₂ τ e := by
  rw [GoesOn, if_pos rfl]
  simp only [runs_block_iff, goesOn_append]
  constructor
  · rintro ⟨τ', ⟨τ₂, e₂, hruns, hon⟩, rfl⟩
    exact ⟨τ₂, e₂, hruns, τ', hon, rfl⟩
  · rintro ⟨τ₂, e₂, hruns, τ', hon, rfl⟩
    exact ⟨τ', ⟨τ₂, e₂, hruns, hon⟩, rfl⟩

/-- A guarded block, and the clause for the way control has left it. -/
theorem runs_guarded_iff (hsort : lineSort l = .guards) :
    Runs host (.line l :: .block b :: rest) τ e ↔
      ∃ τ₁ e₁, Runs host (chunks b) τ₁ e₁ ∧
        (((clauses rest).1.lookup e₁ = none ∧ GoesOn host (clauses rest).2 τ₁ e₁ τ e) ∨
          ∃ clause τ₂ e₂, (clauses rest).1.lookup e₁ = some clause ∧
            Runs host (chunks clause) τ₂ e₂ ∧ GoesOn host (clauses rest).2 (τ₁ ++ τ₂) e₂ τ e) := by
  rw [runs_cons_iff]
  constructor
  · rintro ⟨behind, τ₁, e₁, hfirst, hon⟩
    cases hfirst with
    | line hexit =>
        cases hexit with
        | passes hs | leaves hs =>
            rw [hsort] at hs
            cases hs
        | raises hs =>
            rw [hsort] at hs
            rcases hs with hs | hs <;> cases hs
    | unstopped _ hruns hnone => exact ⟨_, _, hruns, Or.inl ⟨hnone, hon⟩⟩
    | stopped _ hruns hsome hclause => exact ⟨_, _, hruns, Or.inr ⟨_, _, _, hsome, hclause, hon⟩⟩
    | chosen hs | undecided hs | again hs | broken hs | escaped hs =>
        rw [hsort] at hs
        cases hs
  · rintro ⟨τ₁, e₁, hruns, ⟨hnone, hon⟩ | ⟨clause, τ₂, e₂, hsome, hclause, hon⟩⟩
    · exact ⟨_, _, _, .unstopped hsort hruns hnone, hon⟩
    · exact ⟨_, _, _, .stopped hsort hruns hsome hclause, hon⟩

/-! ## A final block -/

theorem head_append {a : String} {c : Char} (h : a.toList.head? = some c) (b : String) :
    (a ++ b).toList.head? = some c := by
  rw [String.toList_append, List.head?_append, h]
  rfl

theorem head_keepingLines (n : Nat) : (keeperLine n).toList.head? = some '_' ∧
    (saveLine n).toList.head? = some '_' ∧ (rethrowLine n).toList.head? = some '_' := by
  have hflag : (caughtFlag n).toList.head? = some '_' := head_append (by simp) _
  exact ⟨head_append (head_append (by simp) _) _, head_append hflag _, head_append hflag _⟩

/-- A line of a keeper has no part of its own in the flow of control and opens no block. -/
theorem lineSort_of_underscore {l : String} (h : l.toList.head? = some '_') :
    lineSort l = .plain ∧ l ≠ "\x7b" := by
  constructor
  · apply lineSort_plain
    intro c hc
    rw [h] at hc
    rw [← Option.some.inj hc]
    decide
  · rintro rfl
    simp at h

theorem unbroken_caughtFlag (n : Nat) : Unbroken (caughtFlag n) :=
  (unbroken_of_isLead (by rfl)).append (unbroken_of_visible fun _ hc =>
    isBlank_of_isNameChar (Program.isNameChar_of_isDigit (Program.isDigit_of_mem_natural hc)))

theorem unbroken_keepingLines (n : Nat) :
    Unbroken (keeperLine n) ∧ Unbroken (saveLine n) ∧ Unbroken (rethrowLine n) := by
  have hflag := unbroken_caughtFlag n
  refine ⟨?_, ?_, ?_⟩
  · exact ((unbroken_of_isLead (by rfl)).append hflag).append (unbroken_of_isLead (by rfl))
  · exact hflag.append (unbroken_of_isLead (by rfl))
  · exact hflag.append (unbroken_of_isLead (by rfl))

variable {codes tried last : List String} {n : Nat}

theorem cutLines_braced (hne : codes ≠ [] → codes.flatMap lines ≠ []) :
    cutLines (braced codes) = "\x7b" :: (codes.flatMap lines).map indentLine ++ ["\x7d"] := by
  rw [braced_eq_unlines hne, indentedLines]
  apply cutLines_unlines_of_unbroken (by simp)
  intro l hl
  rcases List.mem_append.mp hl with hl | hl
  · rcases List.mem_cons.mp hl with rfl | hl
    · exact isLine_brace.1.flat
    · obtain ⟨inner, hinner, rfl⟩ := List.mem_map.mp hl
      obtain ⟨code, -, hcode⟩ := List.mem_flatMap.mp hinner
      have hflat := flat_of_mem_lines hcode
      rw [Unbroken, toList_indentLine]
      simpa using hflat
  · rw [List.mem_singleton.mp hl]
    exact isLine_brace.2.flat

/-- A block among other lines. -/
theorem chunks_braced (hne : codes ≠ [] → codes.flatMap lines ≠ []) (below : List String) :
    chunks (cutLines (braced codes) ++ below) = .block (codes.flatMap lines) :: chunks below := by
  rw [cutLines_braced hne, List.append_assoc]
  exact chunks_block _ below

theorem chunks_tryFinally (htried : tried ≠ [] → tried.flatMap lines ≠ [])
    (hlast : last ≠ [] → last.flatMap lines ≠ []) :
    chunks (cutLines (tryFinally n tried last)) =
      [.line (keeperLine n), .line "try", .block (tried.flatMap lines),
        .line "catch ( _PythonException &_exception )", .block [saveLine n],
        .block (last.flatMap lines), .line (rethrowLine n)] := by
  obtain ⟨hkeeper, hsave, hrethrow⟩ := unbroken_keepingLines n
  obtain ⟨hhead, -, hhead'⟩ := head_keepingLines n
  have hsaved : [saveLine n].flatMap lines = [saveLine n] :=
    flatMap_lines (by simpa using ⟨hsave, by simp [saveLine]⟩)
  have htry : Unbroken "try" := unbroken_of_isLead (by rfl)
  have hcatch : Unbroken "catch ( _PythonException &_exception )" := by simp [Unbroken]
  have hcut : cutLines (tryFinally n tried last) =
      keeperLine n :: "try" :: (cutLines (braced tried) ++
        "catch ( _PythonException &_exception )" :: (cutLines (braced [saveLine n]) ++
          (cutLines (braced last) ++ [rethrowLine n]))) := by
    have hlines : tryFinally n tried last =
        unlines [keeperLine n, "try", braced tried, catching [saveLine n], braced last,
          rethrowLine n] := tryFinally_eq n tried last
    rw [hlines, catching_eq, cutLines_unlines (by simp)]
    simp only [List.flatMap_cons, List.flatMap_nil, List.append_nil]
    rw [cutLines_unlines (by simp), cutLines_of_unbroken hkeeper, cutLines_of_unbroken hrethrow,
      cutLines_of_unbroken htry]
    simp only [List.flatMap_cons, List.flatMap_nil, List.append_nil, cutLines_of_unbroken hcatch,
      List.nil_append, List.cons_append]
  rw [hcut, chunks_cons (lineSort_of_underscore hhead).2, chunks_cons (by decide), chunks_braced htried,
    chunks_cons (by decide), chunks_braced (by rw [hsaved]; exact id), chunks_braced hlast,
    chunks_cons (lineSort_of_underscore hhead').2, hsaved, chunks_nil]

/-- How the run of a try statement goes on behind its guarded block. If control has jumped out of the
guarded block, it is over. Else an exception is kept, the final block is run, and the exception is
raised again. -/
def Concludes (host : Host) (n : Nat) (last : List String) (τ₁ : List String) (e₁ : Exit)
    (τ : List String) (e : Exit) : Prop :=
  if e₁.isJump then τ = τ₁ ∧ e = e₁
  else
    ∃ τ₂ e₂, Runs host (chunks last) τ₂ e₂ ∧
      GoesOn host [.line (rethrowLine n)]
        (τ₁ ++ (if e₁ = .raises then [saveLine n] else []) ++ τ₂) e₂ τ e

theorem concludes_cons_iff {ls τ₁ : List String} {e₁ : Exit} :
    Concludes host n ls (l :: τ₁) e₁ τ e ↔ ∃ τ', Concludes host n ls τ₁ e₁ τ' e ∧ τ = l :: τ' := by
  by_cases he : e₁.isJump = true
  · simp only [Concludes, if_pos he]
    constructor
    · rintro ⟨rfl, rfl⟩
      exact ⟨τ₁, ⟨rfl, rfl⟩, rfl⟩
    · rintro ⟨_, ⟨rfl, rfl⟩, rfl⟩
      exact ⟨rfl, rfl⟩
  · simp only [Concludes, if_neg he, List.cons_append]
    constructor
    · rintro ⟨τ₂, e₂, hruns, hrest⟩
      obtain ⟨τ', hon, rfl⟩ := (goesOn_append (ρ := [l])).mp hrest
      exact ⟨τ', ⟨τ₂, e₂, hruns, hon⟩, rfl⟩
    · rintro ⟨τ', ⟨τ₂, e₂, hruns, hon⟩, rfl⟩
      exact ⟨τ₂, e₂, hruns, (goesOn_append (ρ := [l])).mpr ⟨τ', hon, rfl⟩⟩

theorem runs_save_iff {τ₂ : List String} {e₂ : Exit} :
    Runs host (chunks [saveLine n]) τ₂ e₂ ↔ τ₂ = [saveLine n] ∧ e₂ = .completes := by
  obtain ⟨hsort, hbrace⟩ := lineSort_of_underscore (head_keepingLines n).2.1
  rw [chunks_cons hbrace, chunks_nil, runs_plain_iff hsort (host.save_safe n)]
  simp only [runs_nil_iff]
  constructor
  · rintro ⟨_, ⟨rfl, rfl⟩, rfl⟩
    exact ⟨rfl, rfl⟩
  · rintro ⟨rfl, rfl⟩
    exact ⟨[], ⟨rfl, rfl⟩, rfl⟩

/-- The final block is run behind a guarded block that control has left by completing or by an
exception, and it is skipped where control has jumped out of the guarded block. -/
theorem runs_tryFinally_iff (htried : tried ≠ [] → tried.flatMap lines ≠ [])
    (hlast : last ≠ [] → last.flatMap lines ≠ []) :
    Runs host (chunks (cutLines (tryFinally n tried last))) τ e ↔
      ∃ τ₁ e₁, Runs host (chunks (tried.flatMap lines)) τ₁ e₁ ∧
        Concludes host n (last.flatMap lines) (keeperLine n :: τ₁) e₁ τ e := by
  have hguard : lineSort "try" = .guards := by rfl
  have hkeeper := (lineSort_of_underscore (head_keepingLines n).1).1
  have hclauses : clauses [.line "catch ( _PythonException &_exception )", .block [saveLine n],
      .block (last.flatMap lines), .line (rethrowLine n)] =
      ([(.raises, [saveLine n])], [.block (last.flatMap lines), .line (rethrowLine n)]) := by
    have hcatch : lineSort "catch ( _PythonException &_exception )" = .catches .raises := by
      rfl
    simp only [clauses, hcatch]
  rw [chunks_tryFinally htried hlast, runs_plain_iff hkeeper (host.keeper_safe n)]
  simp only [runs_guarded_iff hguard, hclauses]
  -- behind the guarded block, before the declaration of the keeper is put in front
  have hbehind : ∀ τ₁ e₁ τ', Concludes host n (last.flatMap lines) τ₁ e₁ τ' e ↔
      ([(Exit.raises, [saveLine n])].lookup e₁ = none ∧
          GoesOn host [.block (last.flatMap lines), .line (rethrowLine n)] τ₁ e₁ τ' e) ∨
        ∃ clause τ₂ e₂, [(Exit.raises, [saveLine n])].lookup e₁ = some clause ∧
          Runs host (chunks clause) τ₂ e₂ ∧
            GoesOn host [.block (last.flatMap lines), .line (rethrowLine n)] (τ₁ ++ τ₂) e₂ τ' e := by
    intro τ₁ e₁ τ'
    have hlookup : [(Exit.raises, [saveLine n])].lookup e₁ =
        if e₁ = .raises then some [saveLine n] else none := by
      cases e₁ <;> rfl
    rw [hlookup]
    by_cases hraises : e₁ = .raises
    · subst hraises
      have hkept : Concludes host n (last.flatMap lines) τ₁ .raises τ' e ↔
          GoesOn host [.block (last.flatMap lines), .line (rethrowLine n)] (τ₁ ++ [saveLine n])
            .completes τ' e := by
        rw [goesOn_block_iff]
        exact Iff.rfl
      rw [hkept, if_pos rfl]
      constructor
      · intro hon
        exact Or.inr ⟨_, _, _, rfl, runs_save_iff.mpr ⟨rfl, rfl⟩, hon⟩
      · rintro (⟨hnone, -⟩ | ⟨clause, τ₂, e₂, hclause, hsave, hon⟩)
        · cases hnone
        · cases hclause
          obtain ⟨rfl, rfl⟩ := runs_save_iff.mp hsave
          exact hon
    · have hunkept : Concludes host n (last.flatMap lines) τ₁ e₁ τ' e ↔
          GoesOn host [.block (last.flatMap lines), .line (rethrowLine n)] τ₁ e₁ τ' e := by
        by_cases hcompletes : e₁ = .completes
        · subst hcompletes
          rw [goesOn_block_iff]
          simp [Concludes, Exit.isJump]
        · rw [Concludes, GoesOn, if_neg hcompletes, if_pos (by simp [Exit.isJump, hcompletes, hraises])]
      rw [hunkept, if_neg hraises]
      constructor
      · intro hon
        exact Or.inl ⟨rfl, hon⟩
      · rintro (⟨-, hon⟩ | ⟨clause, τ₂, e₂, hclause, -⟩)
        · exact hon
        · cases hclause
  constructor
  · rintro ⟨τ', ⟨τ₁, e₁, hruns, hon⟩, rfl⟩
    exact ⟨τ₁, e₁, hruns, concludes_cons_iff.mpr ⟨τ', (hbehind τ₁ e₁ τ').mpr hon, rfl⟩⟩
  · rintro ⟨τ₁, e₁, hruns, hconcludes⟩
    obtain ⟨τ', hon, rfl⟩ := concludes_cons_iff.mp hconcludes
    exact ⟨τ', ⟨τ₁, e₁, hruns, (hbehind τ₁ e₁ τ').mp hon⟩, rfl⟩

/-! ## A fetch -/

/-- The first line of a text, in so far as it is known. -/
theorem cutLines_append {a : String} (h : Unbroken a) (b : String) :
    ∃ l ls, cutLines (a ++ b) = l :: ls ∧ a.toList <+: l.toList := by
  have hsplit : ∀ as : List Char, '\n' ∉ as → ∃ cs rows,
      (as ++ b.toList).splitOn '\n' = (as ++ cs) :: rows := by
    intro as
    induction as with
    | nil =>
        intro _
        obtain ⟨cs, rows, hrows⟩ := List.exists_cons_of_ne_nil
          (List.splitOnP_ne_nil (fun c => c == '\n') b.toList)
        exact ⟨cs, rows, hrows⟩
    | cons c as ih =>
        intro hflat
        obtain ⟨cs, rows, hrows⟩ := ih fun hmem => hflat (List.mem_cons_of_mem c hmem)
        have hc : ¬ (c == '\n') = true := fun hc =>
          hflat (beq_iff_eq.mp hc ▸ List.mem_cons_self)
        refine ⟨cs, rows, ?_⟩
        rw [List.splitOn] at hrows ⊢
        rw [List.cons_append, List.splitOnP_cons_eq_if_modifyHead, if_neg hc, hrows]
        rfl
  obtain ⟨cs, rows, hrows⟩ := hsplit a.toList h
  refine ⟨String.ofList (a.toList ++ cs), rows.map String.ofList, ?_, ?_⟩
  · rw [cutLines, String.toList_append, hrows, List.map_cons]
  · rw [String.toList_ofList]
    exact List.prefix_append _ _

def fetchLine (n : Nat) (iterator : String) : String :=
  "PyObject *_tmp_unpack_" ++ toString n ++ " = ITERATOR_NEXT( " ++ iterator ++ " );"

def absenceLine (n : Nat) : String := "if ( _tmp_unpack_" ++ toString n ++ " == NULL )"

/-- The runs of a fetch, by those of what is run behind the test: with an item, and without one. -/
inductive Fetched (host : Host) (n : Nat) (iterator : String)
    (item absent : List String → Exit → Prop) : List String → Exit → Prop
  | failed (h : host.mayRaise (fetchLine n iterator)) :
      Fetched host n iterator item absent [fetchLine n iterator] .raises
  | untested (h : host.mayRaise (absenceLine n) ∨ host.mayRaise "else") :
      Fetched host n iterator item absent [fetchLine n iterator, absenceLine n] .raises
  | item {τ : List String} {e : Exit} (h : item τ e) :
      Fetched host n iterator item absent (fetchLine n iterator :: absenceLine n :: τ) e
  | absent {τ : List String} {e : Exit} (h : absent τ e) :
      Fetched host n iterator item absent (fetchLine n iterator :: absenceLine n :: τ) e

variable {source : Operand} {handler : List String} {assignment : String}

theorem fetchOrHandle_lines (n : Nat) (source : Operand) (handler : List String)
    (assignment : String) : fetchOrHandle n source handler assignment =
      unlines [fetchLine n source.asArgument, absenceLine n, braced handler, assignment] := by
  have hfetch : "PyObject *" ++ (fetchedVariable n ++ " = " ++
      applied "ITERATOR_NEXT" [source.asArgument]) ++ ";" = fetchLine n source.asArgument := by
    have hhead : "PyObject *_tmp_unpack_" = "PyObject *" ++ "_tmp_unpack_" := by decide
    have hcall : " = ITERATOR_NEXT( " = " = " ++ ("ITERATOR_NEXT" ++ "( ") := by decide
    have hend : " );" = " )" ++ ";" := by decide
    unfold fetchLine fetchedVariable applied commaSeparated
    rw [hhead, hcall, hend, String.intercalate_singleton]
    simp only [String.append_assoc]
  have htest : "if ( " ++ (fetchedVariable n ++ " == NULL") ++ " )" = absenceLine n := by
    have hhead : "if ( _tmp_unpack_" = "if ( " ++ "_tmp_unpack_" := by decide
    have hend : " == NULL )" = " == NULL" ++ " )" := by decide
    unfold absenceLine fetchedVariable
    rw [hhead, hend]
    simp only [String.append_assoc]
  rw [fetchOrHandle_eq, hfetch, htest]

theorem unbroken_natural (n : Nat) : Unbroken (toString n) :=
  unbroken_of_visible fun _ hc =>
    isBlank_of_isNameChar (Program.isNameChar_of_isDigit (Program.isDigit_of_mem_natural hc))

theorem unbroken_fetchLine (h : Unbroken source.asArgument) (n : Nat) :
    Unbroken (fetchLine n source.asArgument) ∧ Unbroken (absenceLine n) := by
  constructor
  · refine Unbroken.append (Unbroken.append (Unbroken.append (Unbroken.append ?_
      (unbroken_natural n)) ?_) h) ?_
    all_goals exact unbroken_of_isLead (by rfl)
  · refine Unbroken.append (Unbroken.append ?_ (unbroken_natural n)) ?_
    all_goals exact unbroken_of_isLead (by rfl)

theorem lineSort_fetchLine (n : Nat) (iterator : String) :
    lineSort (fetchLine n iterator) = .plain ∧ fetchLine n iterator ≠ "\x7b" := by
  have hhead : (fetchLine n iterator).toList.head? = some 'P' := by
    unfold fetchLine
    exact head_append (head_append (head_append (head_append (by decide) _) _) _) _
  constructor
  · apply lineSort_plain
    intro c hc
    rw [hhead] at hc
    rw [← Option.some.inj hc]
    decide
  · rintro hopen
    rw [hopen] at hhead
    exact absurd hhead (by decide)

theorem opens_absenceLine (n : Nat) : "if ( ".toList <+: (absenceLine n).toList := by
  have hopens : "if ( ".toList <+: "if ( _tmp_unpack_".toList := by decide
  unfold absenceLine
  simp only [String.append_assoc, String.toList_append]
  exact hopens.trans (List.prefix_append _ _)

theorem lineSort_absenceLine (n : Nat) :
    lineSort (absenceLine n) = .tests ∧ absenceLine n ≠ "\x7b" := by
  have hopening : (("if ( ", LineSort.tests) : String × LineSort) ∈ keyOpenings := by decide
  refine ⟨lineSort_of_opening hopening (opens_absenceLine n), ?_⟩
  intro hopen
  have hopens := opens_absenceLine n
  rw [hopen] at hopens
  exact absurd hopens (by decide)

/-- The parts of a fetch, if the iterator is in one line. -/
theorem chunks_fetchOrHandle (hflat : Unbroken source.asArgument)
    (hhandler : handler ≠ [] → handler.flatMap lines ≠ []) :
    chunks (cutLines (fetchOrHandle n source handler assignment)) =
      .line (fetchLine n source.asArgument) :: .line (absenceLine n) ::
        .block (handler.flatMap lines) :: chunks (cutLines assignment) := by
  obtain ⟨hfetch, habsence⟩ := unbroken_fetchLine hflat n
  rw [fetchOrHandle_lines, cutLines_unlines (by simp)]
  simp only [List.flatMap_cons, List.flatMap_nil, List.append_nil, cutLines_of_unbroken hfetch,
    cutLines_of_unbroken habsence, List.singleton_append]
  rw [chunks_cons (lineSort_fetchLine n _).2, chunks_cons (lineSort_absenceLine n).2,
    chunks_braced hhandler]

/-- A choice runs one of its cases, unless a condition raises. -/
theorem runs_test_iff (h : lineSort l = .tests) : Runs host (.line l :: .block b :: rest) τ e ↔
    ∃ c ∈ (l, b) :: (alternatives rest).1, (host.mayRaise c.1 ∧ τ = [l] ∧ e = .raises) ∨
      ∃ τ₁ e₁ τ', Runs host (chunks c.2) τ₁ e₁ ∧ GoesOn host (alternatives rest).2 τ₁ e₁ τ' e ∧
        τ = l :: τ' := by
  rw [runs_cons_iff]
  constructor
  · rintro ⟨behind, τ₁, e₁, hfirst, hon⟩
    cases hfirst with
    | line hexit =>
        cases hexit with
        | passes hs | leaves hs =>
            rw [h] at hs
            cases hs
        | raises hs =>
            rw [h] at hs
            rcases hs with hs | hs <;> cases hs
    | chosen _ hc hruns =>
        obtain ⟨τ', hbehind, rfl⟩ := (goesOn_append (ρ := [l])).mp hon
        exact ⟨_, hc, Or.inr ⟨_, _, τ', hruns, hbehind, rfl⟩⟩
    | undecided _ hc hraise =>
        rw [GoesOn, if_neg (by decide)] at hon
        exact ⟨_, hc, Or.inl ⟨hraise, hon⟩⟩
    | unstopped hs | stopped hs | again hs | broken hs | escaped hs =>
        rw [h] at hs
        cases hs
  · rintro ⟨c, hc, ⟨hraise, rfl, rfl⟩ | ⟨τ₁, e₁, τ', hruns, hon, rfl⟩⟩
    · exact ⟨_, _, _, .undecided h hc hraise, by rw [GoesOn, if_neg (by decide)]; exact ⟨rfl, rfl⟩⟩
    · exact ⟨_, _, _, .chosen h hc hruns, (goesOn_append (ρ := [l])).mpr ⟨τ', hon, rfl⟩⟩

/-- A choice without another case, in front of a line of another sort. -/
theorem alternatives_of_plain (h : lineSort l = .plain) :
    alternatives (.line l :: rest) = ([("else", [])], .line l :: rest) := by
  rcases rest with _ | ⟨l' | b, rest⟩
  · rfl
  · rfl
  · simp only [alternatives, h]

/-- Behind an item the assignment is run, without one the handler, and the assignment behind it only
if control comes to the end of the handler. -/
theorem runs_fetchOrHandle_iff (hflat : Unbroken source.asArgument)
    (hhandler : handler ≠ [] → handler.flatMap lines ≠ [])
    (hassign : alternatives (chunks (cutLines assignment)) =
      ([("else", [])], chunks (cutLines assignment))) :
    Runs host (chunks (cutLines (fetchOrHandle n source handler assignment))) τ e ↔
      Fetched host n source.asArgument (Runs host (chunks (cutLines assignment)))
        (fun τ e => ∃ τ₁ e₁, Runs host (chunks (handler.flatMap lines)) τ₁ e₁ ∧
          GoesOn host (chunks (cutLines assignment)) τ₁ e₁ τ e) τ e := by
  rw [chunks_fetchOrHandle hflat hhandler, runs_line_iff (lineSort_fetchLine n _).1]
  simp only [runs_test_iff (lineSort_absenceLine n).1, hassign, List.mem_cons, List.not_mem_nil,
    or_false, exists_eq_or_imp, exists_eq_left, chunks_nil, runs_nil_iff]
  constructor
  · rintro (⟨hraise, rfl, rfl⟩ | ⟨_, (⟨hraise, rfl, rfl⟩ | ⟨τ₁, e₁, τ', hruns, hon, rfl⟩) |
      (⟨hraise, rfl, rfl⟩ | ⟨_, _, τ', ⟨rfl, rfl⟩, hon, rfl⟩), rfl⟩)
    · exact .failed hraise
    · exact .untested (Or.inl hraise)
    · exact .absent ⟨τ₁, e₁, hruns, hon⟩
    · exact .untested (Or.inr hraise)
    · rw [GoesOn, if_pos rfl] at hon
      obtain ⟨τ₂, hruns, rfl⟩ := hon
      exact .item hruns
  · intro h
    cases h with
    | failed hraise => exact Or.inl ⟨hraise, rfl, rfl⟩
    | untested hraise =>
        rcases hraise with hraise | hraise
        · exact Or.inr ⟨_, Or.inl (Or.inl ⟨hraise, rfl, rfl⟩), rfl⟩
        · exact Or.inr ⟨_, Or.inr (Or.inl ⟨hraise, rfl, rfl⟩), rfl⟩
    | item hruns =>
        refine Or.inr ⟨_, Or.inr (Or.inr ⟨[], .completes, _, ⟨rfl, rfl⟩, ?_, rfl⟩), rfl⟩
        rw [GoesOn, if_pos rfl]
        exact ⟨_, hruns, rfl⟩
    | absent hruns =>
        obtain ⟨τ₁, e₁, hruns, hon⟩ := hruns
        exact Or.inr ⟨_, Or.inl (Or.inr ⟨τ₁, e₁, _, hruns, hon, rfl⟩), rfl⟩

end CompilerBackend.Target
