import CompilerBackend.Proofs.Lowering.Fetching
import CompilerBackend.Proofs.Lowering.Kept
import CompilerBackend.Proofs.Lowering.PairedModules
import CompilerBackend.Proofs.Lowering.Runs
import CompilerBackend.Proofs.Tree.Enclosing
import CompilerBackend.Raise.Step
/-!
# The trail of a stop

A lowering that stops blames one node, and its stop remembers the statements that it leaves on its
way out. On a tree these are the nodes around the blamed one, and the node itself, as far as a
sequence holds them, with one exception: the body of a try statement that is lowered as a fetch is
not lowered as a sequence, and so a stop passes its only statement without remembering it. Nothing
is lowered behind a stop.

- `Tree.isRemembered`: the nodes that a stop remembers; `outward_goesOn`: there are none between a
  node and those that its lowering goes on to.
- `Tree.StopsFrom`: the stops that come out of the lowering of a node, along the tree.
- `StopsFrom.exists_path`: where such a stop comes from, and which statements it has left.
- `stopping_ofDepth`: with enough levels for what is below a node, its lowering stops only in this
  way; the induction is on the levels.
- `statementLines_stopped`: what stands behind the statement that stops a sequence does not matter.
- `moduleText_trail`: the trail of a module.
-/

namespace CompilerBackend

open Lowering Target

namespace Tree

variable {t : Tree} {top id n m c : NodeId} {ids : List NodeId} {stop : Stop} {cause : Cause}

/-! ## Statements that a stop leaves -/

/-- The sequence is the body of a try statement that is lowered as a fetch. -/
def isFetched (t : Tree) (id : NodeId) : Bool :=
  ((t.parent id).bind t.stmt?).any fun
    | .tryExcept tried handlers noRaise =>
      tried == id && (fetch? t tried handlers noRaise).isSome
    | _ => false

/-- A stop remembers that it has left the node: a sequence holds it, and no fetch passes it over. -/
def isRemembered (t : Tree) (id : NodeId) : Bool :=
  t.inSequence id && !(t.parent id).any t.isFetched

def pathStep (t : Tree) (id : NodeId) : PathStep := ⟨(t.kind id).kindName, t.location id⟩

/-- What a stop that leaves the nodes remembers of them. -/
def remembered (t : Tree) (ids : List NodeId) : List PathStep :=
  (ids.filter t.isRemembered).map t.pathStep

/-- The nodes that a stop leaves that blames the node. What is wrong with a blank line is found
when the statement has been left. -/
def leftFrom (t : Tree) (cause : Cause) (id : NodeId) : List NodeId :=
  if cause.isBlankLine then t.ancestors id else id :: t.ancestors id

/-- The nodes around a node as a stop sees them. -/
def outward (t : Tree) (id : NodeId) : List PathStep := t.remembered (id :: t.ancestors id)

theorem isRemembered_of_parent (hp : t.parent c = some id) :
    t.isRemembered c = ((t.sequence? id).isSome && !t.isFetched id) := by
  rw [isRemembered, inSequence, hp]
  rfl

theorem isFetched_iff : t.isFetched c = true ↔ ∃ id handlers noRaise, t.parent c = some id ∧
    t.stmt? id = some (.tryExcept c handlers noRaise) ∧
    (fetch? t c handlers noRaise).isSome = true := by
  rw [isFetched, Option.any_eq_true]
  constructor
  · rintro ⟨st, hst, hfetch⟩
    obtain ⟨id, hparent, hkind⟩ := Option.bind_eq_some_iff.mp hst
    cases st with
    | tryExcept tried handlers noRaise =>
        obtain ⟨heq, hsome⟩ := Bool.and_eq_true_iff.mp hfetch
        obtain rfl := eq_of_beq heq
        exact ⟨id, handlers, noRaise, hparent, hkind, hsome⟩
    | _ => cases hfetch
  · rintro ⟨id, handlers, noRaise, hparent, hst, hsome⟩
    refine ⟨_, Option.bind_eq_some_iff.mpr ⟨id, hparent, hst⟩, ?_⟩
    show (c == c && (fetch? t c handlers noRaise).isSome) = true
    rw [beq_self_eq_true, hsome]
    rfl

/-- Only try statements hold what they fetch. -/
theorem not_isFetched_of_stmt? (hp : t.parent c = some id)
    (hst : ∀ handlers noRaise, t.stmt? id = some (.tryExcept c handlers noRaise) →
      fetch? t c handlers noRaise = none) : t.isFetched c = false := by
  apply Bool.eq_false_iff.mpr
  intro h
  obtain ⟨id', handlers, noRaise, hparent, hkind, hsome⟩ := isFetched_iff.mp h
  obtain rfl : id = id' := Option.some.inj (hp.symm.trans hparent)
  rw [hst handlers noRaise hkind] at hsome
  cases hsome

namespace IsTree

theorem outward_child (h : t.IsTree top) (hp : t.parent top = none) (hid : t.Reaches top id)
    (hc : c ∈ t.children id) : t.outward c = if (t.sequence? id).isSome && !t.isFetched id then
      t.pathStep c :: t.outward id else t.outward id := by
  rw [outward, h.ancestors_child hp hid hc, remembered, List.filter_cons,
    isRemembered_of_parent (h.linked hid hc)]
  split
  · rfl
  · rfl

/-- A node that is not held by a sequence leaves nothing to remember. -/
theorem outward_of_sequence?_none (h : t.IsTree top) (hp : t.parent top = none)
    (hid : t.Reaches top id) (hc : c ∈ t.children id) (hnone : t.sequence? id = none) :
    t.outward c = t.outward id := by
  rw [h.outward_child hp hid hc, hnone]
  rfl

/-- Of a node of another kind, what it holds is no body of a fetch either. -/
theorem outward_of_kind {k : NodeKind} (h : t.IsTree top) (hp : t.parent top = none)
    (hid : t.Reaches top id) (hc : c ∈ t.children id) (hkind : t.kind id = k)
    (hnone : k.sequence? = none)
    (hst : ∀ tried handlers noRaise, k.stmt? ≠ some (.tryExcept tried handlers noRaise)) :
    t.outward c = t.outward id ∧ t.isFetched c = false := by
  subst hkind
  refine ⟨h.outward_of_sequence?_none hp hid hc hnone, ?_⟩
  exact not_isFetched_of_stmt? (h.linked hid hc) fun _ _ heq => absurd heq (hst _ _ _)

theorem outward_of_isFetched (h : t.IsTree top) (hp : t.parent top = none)
    (hid : t.Reaches top id) (hc : c ∈ t.children id) (hfetched : t.isFetched id = true) :
    t.outward c = t.outward id := by
  rw [h.outward_child hp hid hc, hfetched, Bool.not_true, Bool.and_false]
  rfl

end IsTree

/-! ## What a lowering goes on to -/

/-- A lowering goes on to children, unless it is that of a fetch. -/
theorem mem_goesOn (hc : c ∈ t.goesOn id) :
    (c ∈ t.children id ∧ ∀ tried handlers noRaise,
      t.stmt? id = some (.tryExcept tried handlers noRaise) →
        fetch? t tried handlers noRaise = none) ∨
    ∃ tried handlers noRaise f, t.kind id = .stmt (.tryExcept tried handlers noRaise) ∧
      fetch? t tried handlers noRaise = some f ∧
        (c = f.iterator ∨ c = f.branch ∨ c = f.target) := by
  rw [goesOn] at hc
  cases hst : t.stmt? id with
  | none =>
      rw [hst] at hc
      exact Or.inl ⟨hc, fun _ _ _ h => by cases h⟩
  | some st =>
      have hkind := stmt?_eq_some_iff.mp hst
      rw [hst] at hc
      rw [children, hkind]
      cases st with
      | tryExcept tried handlers noRaise =>
          replace hc : c ∈ (Stmt.tryExcept tried handlers noRaise).goesOn t := hc
          rw [Stmt.goesOn] at hc
          cases hfetch : fetch? t tried handlers noRaise with
          | none =>
              rw [hfetch] at hc
              refine Or.inl ⟨hc, fun _ _ _ h => ?_⟩
              cases h
              exact hfetch
          | some f =>
              rw [hfetch] at hc
              simp only [List.mem_cons, List.not_mem_nil, or_false] at hc
              exact Or.inr ⟨tried, handlers, noRaise, f, rfl, hfetch, hc⟩
      | _ => exact Or.inl ⟨hc, fun _ _ _ h => by cases h⟩

/-- The parts of a fetch have the same around them to remember as the try statement. On the ways
down to them there is one statement of a sequence, and it is not remembered. -/
theorem IsTree.outward_fetch {f : Fetch} {tried assignment source handler caught : NodeId}
    (h : t.IsTree top) (hp : t.parent top = none) (hid : t.Reaches top id)
    (hkind : t.kind id = .stmt (.tryExcept tried [handler] none))
    (hfetch : fetch? t tried [handler] none = some f)
    (hf : f.Amounts t tried assignment source handler caught)
    (hc : c = f.iterator ∨ c = f.branch ∨ c = f.target) :
    t.outward c = t.outward id ∧ t.isFetched c = false := by
  obtain ⟨hbody, hparts, hiterator, hbranch⟩ := hf.slots
  have hslots : tried ∈ t.children id ∧ handler ∈ t.children id := by
    simp [children, hkind, NodeKind.children, Stmt.children]
  have hnone : t.sequence? id = none := by
    rw [sequence?, hkind]
    rfl
  have hfetched : t.isFetched tried = true := by
    refine isFetched_iff.mpr ⟨id, [handler], none, h.linked hid hslots.1, ?_, ?_⟩
    · exact stmt?_eq_some_iff.mpr hkind
    · rw [hfetch]
      rfl
  have htried := hid.child hslots.1
  have hassignment := htried.child hbody
  have heq : t.outward assignment = t.outward id := by
    rw [h.outward_of_isFetched hp htried hbody hfetched,
      h.outward_of_sequence?_none hp hid hslots.1 hnone]
  rcases hc with rfl | rfl | rfl
  · rw [← heq, ← (h.outward_of_kind hp hassignment hparts.1 hf.assignment rfl
      fun _ _ _ h => by cases h).1]
    exact h.outward_of_kind hp (hassignment.child hparts.1) hiterator hf.source rfl
      fun _ _ _ h => by cases h
  · rw [← h.outward_of_sequence?_none hp hid hslots.2 hnone]
    exact h.outward_of_kind hp (hid.child hslots.2) hbranch hf.handler rfl
      fun _ _ _ h => by cases h
  · rw [← heq]
    exact h.outward_of_kind hp hassignment hparts.2 hf.assignment rfl fun _ _ _ h => by cases h

/-- Nothing is to be remembered between a node and those that its lowering goes on to. -/
theorem IsTree.outward_goesOn (h : t.IsTree top) (hp : t.parent top = none)
    (hid : t.Reaches top id) (hnone : t.sequence? id = none) (hc : c ∈ t.goesOn id) :
    t.outward c = t.outward id ∧ t.isFetched c = false := by
  rcases mem_goesOn hc with ⟨hc, hfetch⟩ | ⟨tried, handlers, noRaise, f, hkind, hfetch, hc⟩
  · refine ⟨h.outward_of_sequence?_none hp hid hc hnone, ?_⟩
    exact not_isFetched_of_stmt? (h.linked hid hc) fun handlers noRaise => hfetch c handlers noRaise
  · obtain ⟨rfl, assignment, source, handler, caught, rfl, hf⟩ := fetch?_amounts hfetch
    exact h.outward_fetch hp hid hkind hfetch hf hc

theorem below_of_mem_goesOn (hc : c ∈ t.goesOn id) : t.Below id c :=
  holds_goesOn (fun hn hc => hn.child hc) (fun _ => Below.of_child) c hc

/-! ## Stops along a tree -/

/-- The stops that come out of the lowering of a node. One blames the node, or it comes out of a
node that the lowering goes on to. Out of a sequence comes a stop of one of its statements, which
then remembers the statement, or one that blames the statement for a blank line. -/
inductive StopsFrom (t : Tree) : NodeId → Stop → Prop
  | here {id : NodeId} {cause : Cause} : cause.isBlankLine = false →
      StopsFrom t id (.failed ⟨cause, t.location id, some (t.dump id)⟩ [])
  | deeper {id c : NodeId} {stop : Stop} : t.sequence? id = none → c ∈ t.goesOn id →
      StopsFrom t c stop → StopsFrom t id stop
  | statement {id c : NodeId} {ids : List NodeId} {stop : Stop} : t.sequence? id = some ids →
      c ∈ ids → StopsFrom t c stop → StopsFrom t id (stop.leaving (t.pathStep c))
  | blankLine {id c : NodeId} {ids : List NodeId} {cause : Cause} : t.sequence? id = some ids →
      c ∈ ids → cause.isBlankLine = true →
        StopsFrom t id (.failed ⟨cause, t.location c, some (t.dump c)⟩ [])

/-- The statements of a sequence are its children. -/
theorem mem_children_of_sequence? (hseq : t.sequence? id = some ids) (hc : c ∈ ids) :
    c ∈ t.children id := by
  rw [children, sequence?_eq_some_iff.mp hseq]
  exact hc

/-- A statement of a sequence is remembered, unless the sequence is the body of a fetch. -/
theorem IsTree.outward_statement (h : t.IsTree top) (hp : t.parent top = none)
    (hid : t.Reaches top id) (hseq : t.sequence? id = some ids) (hc : c ∈ ids)
    (hfetched : t.isFetched id = false) : t.outward c = t.pathStep c :: t.outward id := by
  rw [h.outward_child hp hid (mem_children_of_sequence? hseq hc), hseq, hfetched]
  rfl

/-- The induction is on the way that the stop has come out. At each node on it, what the stop
remembers and what it is still to leave are what it leaves in all. -/
theorem StopsFrom.exists_path (hstop : t.StopsFrom m stop) (h : t.IsTree top)
    (hp : t.parent top = none) (hm : t.Reaches top m) (hfetched : t.isFetched m = false) :
    ∃ n cause path, t.Reaches m n ∧
      stop = .failed ⟨cause, t.location n, some (t.dump n)⟩ path ∧
      (cause.isBlankLine = true → t.inSequence n = true) ∧
      path ++ t.outward m = t.remembered (t.leftFrom cause n) := by
  induction hstop with
  | @here id cause hcause =>
      refine ⟨id, cause, [], Reaches.refl t id, rfl, ?_, ?_⟩
      · intro hblank
        rw [hcause] at hblank
        cases hblank
      · rw [leftFrom, hcause]
        rfl
  | @deeper id c stop hnone hc hstop ih =>
      obtain ⟨hsame, hfree⟩ := h.outward_goesOn hp hm hnone hc
      have hbelow := (below_of_mem_goesOn hc).reaches
      obtain ⟨n, cause, path, hn, hfailed, hblank, hpath⟩ := ih (hm.trans hbelow) hfree
      rw [hsame] at hpath
      exact ⟨n, cause, path, hbelow.trans hn, hfailed, hblank, hpath⟩
  | @statement id c ids stop hseq hc hstop ih =>
      have hchild := mem_children_of_sequence? hseq hc
      have hfree : t.isFetched c = false := by
        apply not_isFetched_of_stmt? (h.linked hm hchild)
        intro handlers noRaise hst
        rw [stmt?, sequence?_eq_some_iff.mp hseq] at hst
        cases hst
      obtain ⟨n, cause, path, hn, rfl, hblank, hpath⟩ := ih (hm.child hchild) hfree
      refine ⟨n, cause, path ++ [t.pathStep c], ?_, rfl, hblank, ?_⟩
      · exact ((Reaches.refl t id).child hchild).trans hn
      · rw [← hpath, h.outward_statement hp hm hseq hc hfetched, List.append_assoc]
        rfl
  | @blankLine id c ids cause hseq hc hcause =>
      have hchild := mem_children_of_sequence? hseq hc
      refine ⟨c, cause, [], (Reaches.refl t id).child hchild, rfl, fun _ => ?_, ?_⟩
      · rw [inSequence, h.linked hm hchild, Option.bind_some, hseq]
        rfl
      · rw [leftFrom, if_pos hcause, h.ancestors_child hp hm hchild]
        rfl

end Tree

/-! ## Levels -/

section

variable {s : Setting} {t : Tree} {id m : NodeId} {levels more : Nat}

def Progress.Unrelated (_ _ : Progress) : Prop := True

instance Progress.Unrelated.closed : Progress.Closed Progress.Unrelated where
  refl _ := trivial
  trans _ _ := trivial
  grow _ := trivial
  takeTryNumber _ := trivial
  takeLoopNumber _ := trivial
  inScope _ := trivial

/-- The node is below the other one, and what comes out of it comes out of the other one too. -/
structure Tree.LeadsOut (t : Tree) (id m : NodeId) : Prop where
  below : t.Below id m
  stops : ∀ stop, t.StopsFrom m stop → t.StopsFrom id stop

theorem Tree.zone_stopsFrom (t : Tree) (id : NodeId) :
    t.Zone (t.StopsFrom id) (fun m => m = id ∨ t.LeadsOut id m) (t.LeadsOut id) where
  below hm := Or.inr hm
  goesOn := by
    rintro m c (rfl | hm) hnone hc
    · exact ⟨below_of_mem_goesOn hc, fun stop hstop => .deeper hnone hc hstop⟩
    · obtain ⟨d, hd, hreaches⟩ := hm.below
      refine ⟨⟨d, hd, hreaches.trans (below_of_mem_goesOn hc).reaches⟩, fun stop hstop => ?_⟩
      exact hm.stops stop (.deeper hnone hc hstop)
  blames := by
    rintro m (rfl | hm) cause hcause
    · exact .here hcause
    · exact hm.stops _ (.here hcause)

/-- What is shown of the lowering with so many levels: one fewer does for an expression or a
sequence than for a condition. -/
structure Lowering.Stopping (s : Setting) (levels : Nat) : Prop where
  expression : ∀ {id}, s.tree.Deep (levels + 1) id →
    ((Lowerer.ofDepth s levels).expression id).Ends Progress.Unrelated (s.tree.StopsFrom id)
  condition : ∀ {id}, s.tree.Deep levels id → ∀ inverted,
    ((Lowerer.ofDepth s levels).condition id inverted).Ends Progress.Unrelated
      (s.tree.StopsFrom id)
  sequence : ∀ {id}, s.tree.Deep (levels + 1) id →
    ((Lowerer.ofDepth s levels).sequence id).Ends Progress.Unrelated (s.tree.StopsFrom id)

/-- With two levels more, a node is lowered from others whose stops are known. -/
theorem Lowering.Stopping.ends (h : Stopping s levels) (hid : s.tree.Deep (levels + 2) id) :
    (Lowerer.ofDepth s levels).Ends Progress.Unrelated (s.tree.StopsFrom id)
      (s.tree.LeadsOut id) where
  expression hm := (h.expression ((hid.below hm.below).mono (Nat.le_succ levels))).imp hm.stops
  condition hm inverted := (h.condition (hid.below hm.below) inverted).imp hm.stops
  sequence hm := (h.sequence ((hid.below hm.below).mono (Nat.le_succ levels))).imp hm.stops

theorem Lowering.Stopping.makes (h : Stopping s levels) (hid : s.tree.Deep (levels + 2) id) :
    (Lowerer.ofDepth s levels).Makes Progress.Unrelated (s.tree.StopsFrom id)
      (fun m => m = id ∨ s.tree.LeadsOut id m) (s.tree.LeadsOut id) s where
  function hm hids := ends_functionObject (s.tree.zone_stopsFrom id) (h.ends hid) hm hids
    fun _ _ _ => trivial
  classBody hm hids := ends_classObject (s.tree.zone_stopsFrom id) (h.ends hid) hm hids
    fun _ _ _ => trivial

/-- The induction is on the levels; with fewer than two, there is nothing below a node. -/
theorem Lowering.stopping_ofDepth (s : Setting) (levels : Nat) : Stopping s levels := by
  induction levels with
  | zero =>
      constructor
      · exact fun hid => absurd hid (Tree.not_deep_of_lt_two (by omega))
      · exact fun hid => absurd hid (Tree.not_deep_of_lt_two (by omega))
      · exact fun hid => absurd hid (Tree.not_deep_of_lt_two (by omega))
  | succ levels ih =>
      constructor
      · intro id hid
        exact ends_expression (s.tree.zone_stopsFrom id) (ih.ends hid) (ih.makes hid) (Or.inl rfl)
      · intro id hid inverted
        have hmore := hid.mono (Nat.le_succ (levels + 1))
        exact ends_condition (s.tree.zone_stopsFrom id) (ih.ends hmore) (Or.inl rfl)
          (ih.expression hid) inverted
      · intro id hid
        apply ends_sequence fun cause hcause => .here hcause
        intro ids hids c hc
        have hchild := Tree.Below.of_child (Tree.mem_children_of_sequence? hids hc)
        have hdeep : s.tree.Deep (levels + 2) c := (hid.below hchild).mono (by omega)
        constructor
        · refine (ends_statement (s.tree.zone_stopsFrom c) (ih.ends hdeep) (Or.inl rfl)).imp ?_
          exact fun stop hstop => .statement hids hc hstop
        · exact fun cause hcause => .blankLine hids hc hcause

end

/-! ## The first stop of a sequence -/

section

variable {s : Setting} {self : Lowerer} {last : Option Location} {id : NodeId} {ids : List NodeId}
  {g : Progress} {stop : Stop}

/-- The lines of one statement, with the place of the latest marker behind them. -/
def statementPart (s : Setting) (self : Lowerer) (last : Option Location) (id : NodeId) :
    Lower (Option Location × List String) := do
  let l := s.tree.location id
  let code ← Lower.within (s.tree.pathStep id) (Lowering.statement s self id)
  if code.isEmpty then return (last, traceLines s id)
  else
    if (Text.lines code).any Text.isBlankText then Lower.fail s.tree id (.malformedCode code)
    return (some l, traceLines s id ++ markerLines last l ++ Text.lines code)

/-- A sequence is lowered statement by statement. -/
theorem statementLines_cons (s : Setting) (self : Lowerer) (last : Option Location) (id : NodeId)
    (ids : List NodeId) : statementLines s self last (id :: ids) =
      statementPart s self last id >>= fun part =>
        statementLines s self part.1 ids >>= fun others => pure (part.2 ++ others) := by
  rw [statementLines, statementPart]
  simp only [bind_assoc, Tree.pathStep]
  congr 1
  funext code
  by_cases hempty : code.isEmpty = true
  · rw [if_pos hempty, if_pos hempty, pure_bind]
  · rw [if_neg hempty, if_neg hempty]
    by_cases hblank : (Text.lines code).any Text.isBlankText = true
    · rw [if_pos hblank, if_pos hblank]
      rfl
    · rw [if_neg hblank, if_neg hblank]
      simp only [pure_bind]

/-- Behind a statement that stops, there is nothing. -/
theorem run_statementLines_of_error {g' : Progress}
    (h : (statementPart s self last id).run g = (.error stop, g')) (ids : List NodeId) :
    (statementLines s self last (id :: ids)).run g = (.error stop, g') := by
  rw [statementLines_cons, Meets.run_bind, h]

theorem run_statementLines_of_ok {part : Option Location × List String} {g' : Progress}
    (h : (statementPart s self last id).run g = (.ok part, g')) (ids : List NodeId) :
    (statementLines s self last (id :: ids)).run g =
      (statementLines s self part.1 ids >>= fun others => pure (part.2 ++ others)).run g' := by
  rw [statementLines_cons, Meets.run_bind, h]

/-- One of the statements is the last that is lowered. Those before it have their lines, and what
stands behind it does not matter. -/
def StopsAtFirst (s : Setting) (self : Lowerer) (last : Option Location) (ids : List NodeId)
    (g : Progress) : Prop :=
  ∃ before c after, ids = before ++ c :: after ∧
    (∃ ls g', RunsTo (statementLines s self last before) g ls g') ∧
    ∀ more, (statementLines s self last (before ++ c :: more)).run g =
      (statementLines s self last ids).run g

/-- The induction is on the statements; the first one stops the sequence, or those behind it do. -/
theorem statementLines_stopped (h : ((statementLines s self last ids).run g).1 = .error stop) :
    StopsAtFirst s self last ids g := by
  induction ids generalizing last g with
  | nil => cases h
  | cons id ids ih =>
      rcases hpart : (statementPart s self last id).run g with ⟨stop' | part, g'⟩
      · refine ⟨[], id, ids, rfl, ⟨[], g, rfl⟩, fun more => ?_⟩
        rw [List.nil_append, run_statementLines_of_error hpart, run_statementLines_of_error hpart]
      · have hrest : ((statementLines s self part.1 ids).run g').1 = .error stop := by
          rw [run_statementLines_of_ok hpart, Meets.run_bind] at h
          rcases hend : (statementLines s self part.1 ids).run g' with ⟨stop' | others, g''⟩
          all_goals rw [hend] at h
          · exact h
          · cases h
        obtain ⟨before, c, after, rfl, ⟨ls, g'', hbefore⟩, hmore⟩ := ih hrest
        refine ⟨id :: before, c, after, rfl, ⟨part.2 ++ ls, g'', ?_⟩, fun more => ?_⟩
        · rw [RunsTo, run_statementLines_of_ok hpart]
          exact runsTo_bind_iff.mpr ⟨ls, g'', hbefore, runsTo_pure_iff.mpr ⟨rfl, rfl⟩⟩
        · rw [List.cons_append, run_statementLines_of_ok hpart, run_statementLines_of_ok hpart,
            Meets.run_bind, Meets.run_bind, hmore more]

end

/-! ## Modules -/

section

variable {t : Tree} {root : NodeId} {m : Module} {options : Options} {moduleName : String}
  {p : Program} {stop : Stop}

theorem exists_of_optionalSequence {self : Lowerer} {o : Option NodeId} {g g' : Progress}
    (h : (self.optionalSequence o).run g = (.error stop, g')) :
    ∃ id ∈ o, (self.sequence id).run g = (.error stop, g') := by
  cases o with
  | none => cases h
  | some id =>
      refine ⟨id, rfl, ?_⟩
      rw [Lowerer.optionalSequence, Meets.run_bind] at h
      rcases hend : (self.sequence id).run g with ⟨stop' | codes, g''⟩
      all_goals rw [hend] at h
      · obtain ⟨hstop, hg⟩ := Prod.mk.inj h
        rw [Except.error.inj hstop, hg]
      · cases h

/-- A module stops where its body stops, and nothing is done behind that. -/
theorem Tree.moduleText_stopped (hm : t.module? root = some m)
    (h : (t.moduleText options root moduleName p).1 = .error stop) :
    ∃ body ∈ m.body, ∃ g : Progress,
      ((t.settingOf options moduleName).lowerer.sequence body).run ⟨p, {}⟩ = (.error stop, g) ∧
      (t.moduleText options root moduleName p).2 = g.program := by
  have heq := moduleText_eq_end hm options moduleName p
  rcases hend : ((t.settingOf options moduleName).lowerer.optionalSequence m.body).run ⟨p, {}⟩ with
    ⟨stop' | codes, g⟩
  all_goals replace heq := heq.trans (congrArg (moduleEnd m moduleName) hend)
  · rw [heq] at h ⊢
    obtain rfl := Except.error.inj h
    obtain ⟨body, hbody, hrun⟩ := exists_of_optionalSequence hend
    exact ⟨body, hbody, g, hrun, rfl⟩
  · rw [heq] at h
    cases h

/-- What stops a module comes out of its top. -/
theorem Tree.IsTree.stopsFrom_root (htree : t.IsTree root)
    (h : (t.moduleText options root moduleName p).1 = .error stop) : t.StopsFrom root stop := by
  cases hm : t.module? root with
  | none =>
      unfold Tree.moduleText moduleAt at h
      dsimp only at h
      rw [hm] at h
      rw [← Except.error.inj h]
      exact .here rfl
  | some m =>
      obtain ⟨body, hbody, g, hrun, -⟩ := Tree.moduleText_stopped hm h
      have hkind := Tree.module?_eq_some_iff.mp hm
      have hchild : body ∈ t.children root := by
        rw [Tree.children, hkind]
        exact Option.mem_toList.mpr hbody
      have hdeep : t.Deep ((t.settingOf options moduleName).depthBound + 1) body :=
        ⟨t.depthBound, htree.fitsIn (Tree.Below.of_child hchild).reaches, Nat.le_succ _⟩
      have hends := (stopping_ofDepth (t.settingOf options moduleName) _).sequence hdeep
      apply Tree.StopsFrom.deeper
      · rw [Tree.sequence?, hkind]
        rfl
      · show body ∈ t.goesOn root
        rw [Tree.goesOn, Tree.stmt?, hkind]
        exact hchild
      · exact hends.stops ⟨p, {}⟩ stop (by rw [← Setting.lowerer, hrun])

def Tree.problemAt (t : Tree) (id : NodeId) : String :=
  "Problem with " ++ (t.kind id).kindName ++ " at " ++ (t.location id).text

/-- **If a module stops, the trail is the way to one node.** The stop names the node, and what is
reported is what is wrong with it and then the statements that the stop has left, innermost first.
These are the node and those around it that a sequence holds, but for the statement that a fetch is
made of; and not the node itself, if it has been left already since what is wrong is a blank line of
its code. Nothing is done behind the stop: the program is left as the body of the module leaves it
that stops, and of a sequence that stops only what stands before one of its statements has been
lowered. -/
theorem moduleText_trail (htree : t.IsTree root) (hparent : t.parent root = none)
    (h : (t.moduleText options root moduleName p).1 = .error stop) :
    let s := t.settingOf options moduleName
    (∃ n cause path, t.Reaches root n ∧
      stop = .failed ⟨cause, t.location n, some (t.dump n)⟩ path ∧
      (cause.isBlankLine = true → t.inSequence n = true) ∧
      stop.trail = (cause.message ++ " at " ++ (t.location n).text) ::
        ((t.leftFrom cause n).filter t.isRemembered).map t.problemAt) ∧
    (∀ m, t.module? root = some m → ∃ body ∈ m.body, ∃ g : Progress,
      (s.lowerer.sequence body).run ⟨p, {}⟩ = (.error stop, g) ∧
      (t.moduleText options root moduleName p).2 = g.program) ∧
    ∀ {levels last ids g stop'},
      ((statementLines s (Lowerer.ofDepth s levels) last ids).run g).1 = .error stop' →
        StopsAtFirst s (Lowerer.ofDepth s levels) last ids g := by
  refine ⟨?_, fun m hm => Tree.moduleText_stopped hm h, statementLines_stopped⟩
  have hfetched : t.isFetched root = false := by
    rw [Tree.isFetched, hparent]
    rfl
  have houtward : t.outward root = [] := by
    rw [Tree.outward, Tree.ancestors, hparent, Tree.remembered, List.filter_cons,
      Tree.isRemembered, Tree.inSequence, hparent]
    rfl
  obtain ⟨n, cause, path, hn, hfailed, hblank, hpath⟩ :=
    (htree.stopsFrom_root h).exists_path htree hparent (Tree.Reaches.refl t root) hfetched
  refine ⟨n, cause, path, hn, hfailed, hblank, ?_⟩
  rw [houtward, List.append_nil] at hpath
  rw [hfailed, hpath, Tree.remembered]
  show _ :: List.map _ (List.map t.pathStep _) = _ :: _
  rw [List.map_map]
  rfl

/-- In a block, `try: x = next(())` with `except StopIteration: break`, where `x` is not bound. -/
def unboundFetch : Tree where
  nodes :=
    let entry (kind : NodeKind) (parent : Option NodeId) (line : Nat) : Node :=
      ⟨kind, parent, { file := "spam.py", line }⟩
    #[entry (.module { name := "spam", filename := "spam.py", body := some ⟨1⟩ }) none 1,
      entry (.sequence [⟨2⟩]) (some ⟨0⟩) 1,
      entry (.stmt (.block ⟨3⟩)) (some ⟨1⟩) 5,
      entry (.sequence [⟨4⟩]) (some ⟨2⟩) 1,
      entry (.stmt (.tryExcept ⟨5⟩ [⟨10⟩] none)) (some ⟨3⟩) 4,
      entry (.sequence [⟨6⟩]) (some ⟨4⟩) 1,
      entry (.stmt (.assign ⟨7⟩ ⟨8⟩)) (some ⟨5⟩) 2,
      entry (.expr (.variableRef "x" none)) (some ⟨6⟩) 2,
      entry (.expr (.unaryBuiltin .next ⟨9⟩)) (some ⟨6⟩) 2,
      entry (.expr (.constant (.tuple []))) (some ⟨8⟩) 2,
      entry (.handler ⟨[⟨11⟩], none, some ⟨12⟩⟩) (some ⟨4⟩) 3,
      entry (.expr (.exception "StopIteration")) (some ⟨10⟩) 3,
      entry (.sequence [⟨13⟩]) (some ⟨10⟩) 3,
      entry (.stmt (.breakLoop false)) (some ⟨12⟩) 3]
  root := some ⟨0⟩

def reported (result : Except Stop String × Program) : List String :=
  match result.1 with
  | .error stop => stop.trail
  | .ok _ => []

/-- The assignment is held by a sequence, but the trail passes it over. -/
theorem moduleText_trail_unboundFetch :
    unboundFetch.IsTree ⟨0⟩ ∧ unboundFetch.parent ⟨0⟩ = none ∧
    unboundFetch.inSequence ⟨6⟩ = true ∧ unboundFetch.isRemembered ⟨6⟩ = false ∧
    ∃ stop, (unboundFetch.moduleText {} ⟨0⟩ "spam" {}).1 = .error stop ∧
      stop.trail = ["illegal variable reference, not resolved: \"x\" at spam.py:2",
        "Problem with StatementTryExcept at spam.py:4",
        "Problem with StatementTempBlock at spam.py:5"] ∧
      ∃ n cause path, unboundFetch.Reaches ⟨0⟩ n ∧
        stop = .failed ⟨cause, unboundFetch.location n, some (unboundFetch.dump n)⟩ path ∧
        stop.trail = (cause.message ++ " at " ++ (unboundFetch.location n).text) ::
          ((unboundFetch.leftFrom cause n).filter unboundFetch.isRemembered).map
            unboundFetch.problemAt := by
  have hwf : unboundFetch.WellFormed := Tree.WellFormed.of_arena rfl rfl (by decide) (by decide)
  obtain ⟨hparent, htree⟩ := hwf ⟨0⟩ rfl
  have htrail : reported (unboundFetch.moduleText {} ⟨0⟩ "spam" {}) =
      ["illegal variable reference, not resolved: \"x\" at spam.py:2",
        "Problem with StatementTryExcept at spam.py:4",
        "Problem with StatementTempBlock at spam.py:5"] := by decide +kernel
  refine ⟨htree, hparent, by decide, by decide, ?_⟩
  rw [reported] at htrail
  cases hstop : (unboundFetch.moduleText {} ⟨0⟩ "spam" {}).1 with
  | ok text =>
      rw [hstop] at htrail
      cases htrail
  | error stop =>
      rw [hstop] at htrail
      obtain ⟨⟨n, cause, path, hn, hfailed, -, hpath⟩, -⟩ := moduleText_trail htree hparent hstop
      exact ⟨stop, rfl, htrail, n, cause, path, hn, hfailed, hpath⟩

end

end CompilerBackend
