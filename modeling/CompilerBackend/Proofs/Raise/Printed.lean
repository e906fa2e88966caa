import CompilerBackend.Proofs.Lowering.Printing
import CompilerBackend.Proofs.Program.Propagated
import CompilerBackend.Proofs.Raise.Frame
/-!
# A raise among printed values

A print statement prints each of its values before it evaluates the next one. If one of them is an
expression that raises, the statement gives way to expression statements for what was evaluated
before, and to a raise statement; and no line of their code prints. So the values in front of the
raise are no longer printed, unless there are none.

- `Carried.inOneLine`: rewrites keep names in one line.
- `PrintsNothing`: no line of the code of a statement prints, in whatever program.
- `Spread.printsNothing`, `Introduced.printsNothing`: the statements that take the place of one.
- `print_of_raise_silent`: the code before the propagation prints, the code after it does not.
-/

namespace CompilerBackend

open Target Lowering

namespace Tree

variable {t t' : Tree} {id holder raise n : NodeId} {source : NodeId → NodeId}
  {options : Options} {moduleName : String}

/-! ## Names -/

theorem Carried.inOneLine (r : Carried t t' source) (h : ∀ root ∈ t.root, t.InOneLine root) :
    ∀ root ∈ t'.root, t'.InOneLine root := by
  intro root hroot n hn
  obtain ⟨hparent, htree⟩ := r.wellFormed_new root hroot
  have hn' : t'.Reachable n := ⟨root, hroot, htree.reaches_of_connected hparent hn⟩
  -- what is reached in the old tree is connected to its root
  have hold : ∀ {m}, t.Reachable m → Unbroken (t.location m).file ∧
      ∀ name ∈ (t.kind m).names ++ (t.kind m).titles, Unbroken name := by
    rintro m ⟨top, htop, hm⟩
    exact h top htop m ((Connected.refl t top).below hm)
  constructor
  · obtain ⟨m, hm, hplace⟩ := r.place hn'
    rw [hplace]
    exact (hold hm).1
  · rcases r.shown hn' with ⟨hnames, htitles⟩ | ⟨hstays, hnames, htitles⟩
    · rw [hnames, htitles]
      exact List.forall_mem_nil _
    · rw [hnames, htitles]
      exact (hold hstays).2

/-- What is connected to a reachable node is connected to the root. -/
theorem InOneLine.of_reachable (h : ∀ root ∈ t.root, t.InOneLine root) (hn : t.Reachable n) :
    t.InOneLine n := by
  obtain ⟨root, hroot, hreach⟩ := hn
  exact fun m hm => h root hroot m (((Connected.refl t root).below hreach).trans hm)

/-! ## New statements -/

/-- No line of the code of the statement prints, whatever program and scopes it is lowered in. -/
def PrintsNothing (t : Tree) (options : Options) (moduleName : String) (n : NodeId) : Prop :=
  ∀ g g' code, g.program.Reached →
    RunsTo ((t.settingOf options moduleName).statement n) g code g' → printing code = []

theorem printsNothing_of_evaluates (hlines : ∀ root ∈ t.root, t.InOneLine root)
    (hn : t.Reachable n) {st : Stmt} (hst : t.stmt? n = some st) (h : Evaluates st) :
    t.PrintsNothing options moduleName n := fun _ _ _ hg hrun =>
  printing_of_evaluates (s := t.settingOf options moduleName) (.of_reachable hlines hn)
    (isIdentifier_moduleIdentifier moduleName) hg.wellFormed hst h hrun

/-- Each of the statements that take the place of one evaluates an expression or raises. -/
theorem Spread.evaluates {c : Cut t id} {left right : List NodeId}
    (s : Spread c holder left right t') (hn : n ∈ t.freshIds (c.kept.length + 1)) :
    ∃ st, t'.stmt? n = some st ∧ Evaluates st := by
  rcases fresh_cases hn with ⟨i, e, hi, rfl⟩ | rfl
  · exact ⟨_, stmt?_eq_some_iff.mpr (s.kind_effect i e hi), .expression _⟩
  · exact ⟨_, stmt?_eq_some_iff.mpr s.kind_last, .raise _ _ _⟩

theorem Spread.printsNothing {c : Cut t id} {left right : List NodeId}
    (s : Spread c holder left right t') (h : t.WellFormed) (hid : t.Reachable id)
    (hy : t.yieldsToRaise id = true) {st : Stmt} (hst : t.kind id = .stmt st)
    (w : Placed t id holder left right) (hlines : ∀ root ∈ t.root, t.InOneLine root)
    (hn : n ∈ t.freshIds (c.kept.length + 1)) : t'.PrintsNothing options moduleName n := by
  have hreach : t'.Reachable n := s.reachable_fresh h hid w hn
  obtain ⟨new, hnew, hevaluates⟩ := s.evaluates hn
  exact printsNothing_of_evaluates ((s.carried h hid hy hst w).inOneLine hlines) hreach hnew
    hevaluates

theorem Introduced.printsNothing (i : Introduced t t' n)
    (hlines : ∀ root ∈ t'.root, t'.InOneLine root) (hn : t'.Reachable n) :
    t'.PrintsNothing options moduleName n := by
  cases i with
  | effect hkind _ _ =>
      exact printsNothing_of_evaluates hlines hn (stmt?_eq_some_iff.mpr hkind) (.expression _)
  | raised _ _ _ _ _ hkind _ =>
      exact printsNothing_of_evaluates hlines hn (stmt?_eq_some_iff.mpr hkind) (.raise _ _ _)

/-! ## Print statements -/

variable {destination : Option NodeId} {values : List NodeId} {newline : Bool}

/-- A print statement was one, with raises in some slots. -/
theorem Amended.of_print {k k' : NodeKind} (h : Amended t k k')
    (hk : k' = .stmt (.print destination values newline)) :
    ∃ f d vs, t.Redirects f ∧ k = .stmt (.print d vs newline) ∧ values = vs.map f := by
  cases h with
  | @slots f k hf =>
      cases k with
      | stmt st =>
          cases st with
          | print d vs b =>
              obtain ⟨-, rfl, rfl⟩ := Stmt.print.inj (NodeKind.stmt.inj hk)
              exact ⟨f, d, vs, hf, rfl, rfl⟩
          | _ => cases NodeKind.stmt.inj hk
      | _ => cases hk
  | raise _ _ => cases hk
  | sequence _ _ => cases hk

/-- A raise keeps its slot in the nodes that are left. -/
theorem Framed.mem_children_of_print (h : Framed t t')
    (hkind : t.kind id = .stmt (.print destination values newline)) (hid : t.Has id)
    (hmem : raise ∈ values) (hraise : t.isRaise raise = true) :
    (∃ d vs, t'.kind id = .stmt (.print d vs newline)) ∧ raise ∈ t'.children id := by
  have hamended := h.kind id hid
  rw [hkind] at hamended
  obtain ⟨f, hf, hnew⟩ := hamended.of_stmt
  have hkept : f raise = raise := by
    by_contra hmove
    have hnot := isApplication_of_isRaise hraise
    rw [(hf raise hmove).1] at hnot
    exact Bool.noConfusion hnot
  refine ⟨⟨_, _, hnew⟩, ?_⟩
  rw [children, hnew]
  refine List.mem_append_right _ ?_
  have hslot : f raise ∈ values.map f := List.mem_map_of_mem hmem
  rwa [hkept] at hslot

/-- Once no rule applies, a print statement of a sequence that had a raise among its values is
gone. -/
theorem Framed.not_reachable_print (hf : Framed t t') (h : t.WellFormed) (h' : t'.WellFormed)
    (settled : ∀ i, t'.Reachable i → t'.Settled i) (hid : t.Reachable id)
    (hkind : t.kind id = .stmt (.print destination values newline))
    (hheld : t.inSequence id = true) (hmem : raise ∈ values) (hraise : t.isRaise raise = true) :
    ¬ t'.Reachable id := by
  intro hr
  have hchild : raise ∈ t.children id := by
    rw [children, hkind]
    exact List.mem_append_right _ hmem
  have hhas : t.Has id := h.has_of_reachable hid hid hchild
  obtain ⟨⟨d, vs, hnew⟩, hchild'⟩ := hf.mem_children_of_print hkind hhas hmem hraise
  obtain ⟨q, others, hq, hseq⟩ := inSequence_iff.mp (hf.stays id hhas hr hheld)
  obtain ⟨ty, v, es, hk⟩ := isRaise_iff.mp (hf.isRaise_after hraise)
  exact (settled raise (hr.child hchild')).raise hk (h'.parent_child hr hchild')
    (.print hnew hq hseq)

/-- A print statement that is left was one, so it has no value of another one but for raises. -/
theorem Framed.not_mem_print (hf : Framed t t') (h : t.WellFormed) (hid : t.Reachable id)
    {v : NodeId} (hv : v ∈ t.children id) (hplain : t.isRaise v = false) (hgone : ¬ t'.Reachable id)
    (hn : t'.Reachable n) (hkind : t'.kind n = .stmt (.print destination values newline)) :
    v ∉ values := by
  intro hmem
  by_cases hhas : t.Has n
  · obtain ⟨f, d, vs, hredirects, hold, rfl⟩ := (hf.kind n hhas).of_print hkind
    obtain ⟨v₀, hv₀, rfl⟩ := List.mem_map.mp hmem
    by_cases hkept : f v₀ = v₀
    · -- a node that two nodes hold is held by one
      have hchild : f v₀ ∈ t.children n := by
        rw [children, hold, hkept]
        exact List.mem_append_right _ hv₀
      have hparent := h.parent_child (hf.reachable n hhas hn) hchild
      obtain rfl : id = n := Option.some.inj ((h.parent_child hid hv).symm.trans hparent)
      exact hgone hn
    · rw [(hredirects v₀ hkept).2] at hplain
      exact Bool.noConfusion hplain
  · have hthere : t'.Has n := Has.of_stmt hkind
    cases hf.introduced n hthere hhas with
    | effect hnew _ _ => cases NodeKind.stmt.inj (hnew.symm.trans hkind)
    | raised _ _ _ _ _ hnew _ => cases NodeKind.stmt.inj (hnew.symm.trans hkind)

end Tree

variable {t : Tree} {id holder raise : NodeId}

/-- A print statement prints its values, in order, to its destination. With a raise among them, the
step at the raise puts statements in its place that print nothing. After the propagation the
statement is gone, no new statement prints, and no print statement has any of its values, those
aside that raise. -/
theorem print_of_raise_silent (h : t.WellFormed) (hlines : ∀ root ∈ t.root, t.InOneLine root)
    (hid : t.Reachable id) {destination : Option NodeId} {values statements : List NodeId}
    {newline : Bool} (hprint : t.stmt? id = some (.print destination values newline))
    (hparent : t.parent id = some holder) (hholder : t.sequence? holder = some statements)
    (hmem : raise ∈ values) (hraise : t.isRaise raise = true) (options : Options)
    (moduleName : String) :
    let u := t.propagateRaises.tree
    let s := t.settingOf options moduleName
    (∀ g g' code, g.program.Reached → RunsTo (s.statement id) g code g' →
      ∃ d os, Option.Rel (fun n o => Yields (s.lowerer.expression n) o) destination d ∧
        List.Forall₂ (fun n o => Yields (s.lowerer.expression n) o) values os ∧
          printing code = printCalls (printTarget d) os newline) ∧
      (∃ left new right, statements = left ++ id :: right ∧
        (t.stepAt raise).tree.sequence? holder = some (left ++ new ++ right) ∧
          ∀ n ∈ new, (t.stepAt raise).tree.PrintsNothing options moduleName n) ∧
      ¬ u.Reachable id ∧
      (∀ n, u.Has n → ¬ t.Has n → u.Reachable n → u.PrintsNothing options moduleName n) ∧
      ∀ n d vs b, u.Reachable n → u.stmt? n = some (.print d vs b) →
        ∀ v ∈ values, t.isRaise v = false → v ∉ vs := by
  intro u s
  have hkind := Tree.stmt?_eq_some_iff.mp hprint
  have hchild : ∀ v ∈ values, v ∈ t.children id := by
    intro v hv
    rw [Tree.children, hkind]
    exact List.mem_append_right _ hv
  have hseq := Tree.sequence?_eq_some_iff.mp hholder
  obtain ⟨k, run⟩ := Tree.exists_run h
  have hframed : Tree.Framed t u :=
    run.preserves h (Tree.Framed.refl t) fun v v' hv hr hf => hf.trans (hr.framed hv)
  have hgone : ¬ u.Reachable id :=
    hframed.not_reachable_print h (run.wellFormed h) (fun i hi => run.settled h hi) hid hkind
      (Tree.inSequence_iff.mpr ⟨holder, statements, hparent, hseq⟩) hmem hraise
  refine ⟨fun g g' code hg hrun => ?_, ?_, hgone, fun n hhas hnew hn => ?_, ?_⟩
  · obtain ⟨d, os, hd, hos, -, hprinting⟩ := printing_of_print (s := s)
      (.of_reachable hlines hid) (isIdentifier_moduleIdentifier moduleName) hg.wellFormed hprint hrun
    exact ⟨d, os, hd, hos, hprinting⟩
  · have hyields : t.yieldsToRaise id = true := by rw [Tree.yieldsToRaise, hkind]
    obtain ⟨r, hfind⟩ : ∃ r, (t.children id).find? t.isRaise = some r := by
      rw [← Option.isSome_iff_exists, List.find?_isSome]
      exact ⟨raise, hchild raise hmem, hraise⟩
    obtain ⟨left, right, w⟩ := Tree.exists_placed h hid hparent hseq
    obtain ⟨c, t', -, -, spread, heq⟩ := Tree.cutAtRaise_of_held h hid hkind w hfind
    have hstep : (t.stepAt raise).tree = t' := by
      rw [Tree.stepAt_of_raise hraise (h.parent_child hid (hchild raise hmem)) hyields, heq]
    rw [hstep]
    refine ⟨left, _, right, ?_, Tree.sequence?_eq_some_iff.mpr spread.kind_holder, fun n hn => ?_⟩
    · exact NodeKind.sequence.inj (hseq.symm.trans w.kind_eq)
    · exact spread.printsNothing h hid hyields hkind w hlines hn
  · have hlines' : ∀ root ∈ u.root, u.InOneLine root :=
      run.preserves (P := fun v => ∀ root ∈ v.root, v.InOneLine root) h hlines
        fun v v' hv hr hv' => (hr.carried hv).elim fun _ hcarried => hcarried.inOneLine hv'
    exact (hframed.introduced n hhas hnew).printsNothing hlines' hn
  · exact fun n d vs b hn hst v hv hplain =>
      hframed.not_mem_print h hid (hchild v hv) hplain hgone hn (Tree.stmt?_eq_some_iff.mp hst)

/-! ## A destination, a name and a raise -/

/-- The module `print >>d, a, raise TypeError`. -/
def printedName : Tree where
  nodes :=
    let entry (kind : NodeKind) (parent : Option NodeId) : Node :=
      ⟨kind, parent, { file := "spam.py", line := 1 }⟩
    let global (name : String) : NodeKind :=
      .expr (.variableRef name (some ⟨name, .moduleGlobal⟩))
    #[entry (.module { name := "spam", filename := "spam.py", body := some ⟨1⟩ }) none,
      entry (.sequence [⟨2⟩]) (some ⟨0⟩),
      entry (.stmt (.print (some ⟨3⟩) [⟨4⟩, ⟨5⟩] true)) (some ⟨1⟩),
      entry (global "d") (some ⟨2⟩),
      entry (global "a") (some ⟨2⟩),
      entry (.expr (.raise ⟨6⟩ none [])) (some ⟨2⟩),
      entry (.expr (.exception "TypeError")) (some ⟨5⟩)]
  root := some ⟨0⟩

theorem runsTo_printedName : ∃ code g',
    RunsTo ((printedName.settingOf {} "spam").statement ⟨2⟩) {} code g' := by
  have hprint : printedName.stmt? ⟨2⟩ = some (.print (some ⟨3⟩) [⟨4⟩, ⟨5⟩] true) := by rfl
  obtain ⟨code, g', hform⟩ : ∃ code g', RunsTo (statementForm (printedName.settingOf {} "spam")
      (printedName.settingOf {} "spam").lowerer ⟨2⟩ (.print (some ⟨3⟩) [⟨4⟩, ⟨5⟩] true))
      {} code g' := exists_runsTo (by decide +kernel)
  have hbraced : ∃ codes, code = braced codes := by
    have hyields : Yields (statementForm _ _ _ (.print (some ⟨3⟩) [⟨4⟩, ⟨5⟩] true)) code :=
      ⟨{}, congrArg Prod.fst hform⟩
    obtain ⟨d, hdestination, hyields⟩ := hyields.of_bind
    obtain ⟨o, -, hdestination⟩ := hdestination.of_bind
    obtain ⟨os, -, hyields⟩ := hyields.of_bind
    obtain rfl := yields_pure_iff.mp hdestination
    exact ⟨_, yields_pure_iff.mp hyields⟩
  obtain ⟨codes, rfl⟩ := hbraced
  exact ⟨_, g', (runsTo_statement_iff (s := printedName.settingOf {} "spam") hprint).mpr
    ⟨hform, (stated_braced codes).hasNoMargin⟩⟩

/-- Three lines printed to the destination; the one statement that is left does not print. -/
theorem print_of_raise_silent_printedName :
    printedName.WellFormed ∧ (∀ root ∈ printedName.root, printedName.InOneLine root) ∧
      printedName.Reachable ⟨2⟩ ∧ printedName.isRaise ⟨5⟩ = true ∧
      (∃ g' code d os, RunsTo ((printedName.settingOf {} "spam").statement ⟨2⟩) {} code g' ∧
        os.length = 2 ∧ printing code = printCalls "_print_target.asObject()" os true ∧
          Yields ((printedName.settingOf {} "spam").lowerer.expression ⟨3⟩) d) ∧
      (printedName.stepAt ⟨5⟩).tree.PrintsNothing {} "spam" ⟨7⟩ ∧
      ¬ printedName.propagateRaises.tree.Reachable ⟨2⟩ ∧
      printedName.propagateRaises.tree.sequence? ⟨1⟩ = some [⟨7⟩] ∧
      printedName.propagateRaises.tree.PrintsNothing {} "spam" ⟨7⟩ := by
  have hwf : printedName.WellFormed := Tree.WellFormed.of_arena rfl rfl (by decide) (by decide)
  have hlines : ∀ root ∈ printedName.root, printedName.InOneLine root := fun _ _ =>
    Tree.inOneLine_of_nodes (by decide +kernel)
  have hroot : printedName.Reachable ⟨0⟩ := ⟨⟨0⟩, rfl, Tree.Reaches.refl _ _⟩
  have hid : printedName.Reachable ⟨2⟩ := (hroot.child (c := ⟨1⟩) (by decide)).child (by decide)
  have hprint : printedName.stmt? ⟨2⟩ = some (.print (some ⟨3⟩) [⟨4⟩, ⟨5⟩] true) := by rfl
  have hparent : printedName.parent ⟨2⟩ = some ⟨1⟩ := by rfl
  have hheld : printedName.sequence? ⟨1⟩ = some [⟨2⟩] := by rfl
  have hvalue : (⟨5⟩ : NodeId) ∈ ([⟨4⟩, ⟨5⟩] : List NodeId) := by decide
  have hraise : printedName.isRaise ⟨5⟩ = true := by rfl
  obtain ⟨hbefore, ⟨left, new, right, hstatements, hseq, hstep⟩, hgone, hafter, -⟩ :=
    print_of_raise_silent hwf hlines hid hprint hparent hheld hvalue hraise {} "spam"
  have hnew : (printedName.stepAt ⟨5⟩).tree.sequence? ⟨1⟩ = some [⟨7⟩] := by rfl
  have hmem : (⟨7⟩ : NodeId) ∈ new := by
    rw [hnew] at hseq
    have hlength := congrArg List.length hstatements
    simp only [List.length_cons, List.length_nil, List.length_append] at hlength
    obtain rfl : left = [] := List.length_eq_zero_iff.mp (by omega)
    obtain rfl : right = [] := List.length_eq_zero_iff.mp (by omega)
    rw [List.nil_append, List.append_nil] at hseq
    rw [← Option.some.inj hseq]
    exact List.mem_cons_self
  obtain ⟨code, g', hrun⟩ := runsTo_printedName
  obtain ⟨_, os, ⟨hd⟩, hos, hprinting⟩ := hbefore {} g' code .empty hrun
  obtain ⟨k, run⟩ := Tree.exists_run hwf
  have hlast : printedName.propagateRaises.tree.Reachable ⟨7⟩ :=
    (run.wellFormed hwf).mem_live.mp (by decide)
  exact ⟨hwf, hlines, hid, hraise, ⟨g', code, _, os, hrun, hos.length_eq.symm, hprinting, hd⟩,
    hstep ⟨7⟩ hmem, hgone, by rfl, hafter ⟨7⟩ (by decide) (by decide) hlast⟩

end CompilerBackend
