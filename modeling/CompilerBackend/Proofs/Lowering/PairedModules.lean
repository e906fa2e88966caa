import CompilerBackend.Proofs.Lowering.PairedStatements
import CompilerBackend.Proofs.Target.Pages
/-!
# Modules side by side

The text of a module is laid out around its definitions and the lines of its body. With and without
a trace the globals are the same, each definition is a pair of twins, and so are the lines of the
body; what is registered is what the tree defines.

- `Assembled`: the two texts of a module.
- `moduleText_assembled`: a module has two such texts, or none for the same reason.
-/

namespace CompilerBackend

open Program Text Target Lowering

variable {w : Wording} {t : Tree} {options : Options} {root : NodeId} {moduleName : String}
  {m : Module} {p : Program} {H : Prop}

/-! ## What is around the body -/

theorem Twins.code {l : String} (hl : CodeLine l) (hs : Starts l) (hplain : ¬ w.plain) :
    Twins w [l] [l] where
  lines _ hmem := by rwa [List.mem_singleton.mp hmem]
  plain_eq := by
    rw [untraced, List.filter_singleton, isTraceLine_of_starts hs]
    rfl
  nested hp := absurd hp hplain

/-- The line that registers a module with the runtime. -/
theorem codeLine_moduleInit (hlax : w.Lax) (hu : w.unbroken) (moduleName : String) :
    CodeLine (moduleVariable (moduleIdentifier moduleName) ++ " = " ++
      terminated (applied "Py_InitModule4"
        [targetString (utf8 moduleName), "NULL", "NULL", "NULL", "PYTHON_API_VERSION"])) ∧
      Starts (moduleVariable (moduleIdentifier moduleName) ++ " = " ++
        terminated (applied "Py_InitModule4"
          [targetString (utf8 moduleName), "NULL", "NULL", "NULL", "PYTHON_API_VERSION"])) := by
  have hmodule : Term w (moduleVariable (moduleIdentifier moduleName)) :=
    (isIdentifier_moduleIdentifier moduleName).codeNamed.moduleVariable
  have hname : Piece w (targetString (utf8 moduleName)) :=
    ⟨hlax.worded _, fun ht => absurd ht hlax.tight,
      fun _ hc hblank _ => eq_space_of_isBlank (printable_targetString _ _ hc) hblank⟩
  have hcall : Piece w (applied "Py_InitModule4"
      [targetString (utf8 moduleName), "NULL", "NULL", "NULL", "PYTHON_API_VERSION"]) := by
    refine Piece.applied (Piece.text (by rfl)) fun s hs => ?_
    simp only [List.mem_cons, List.not_mem_nil, or_false] at hs
    rcases hs with rfl | rfl | rfl | rfl | rfl
    · exact hname
    · exact Piece.text (by rfl)
    · exact Piece.text (by rfl)
    · exact Piece.text (by rfl)
    · exact Piece.text (by rfl)
  have hpiece := hmodule.piece.sep (m := " = ") (by rfl) hcall.terminated
  have hstarts := (hmodule.solid.starts.append " = ").append (terminated (applied "Py_InitModule4"
    [targetString (utf8 moduleName), "NULL", "NULL", "NULL", "PYTHON_API_VERSION"]))
  have hstops : Stops ";" := stops_of_code (by rfl) (by rfl)
  exact ⟨codeLine_of_starts (hpiece.unbroken hu) hstarts ((hstops.append _).append _), hstarts⟩

theorem interned_globalLine_line (hlax : w.Lax) {codeName : String} (hc : CodeNamed w codeName)
    {v : Variable} (h : Named w v.name) (p : Program) :
    Interned (w.onto p) H (globalLine codeName v) (GlobalLine w) := by
  refine (interned_handleOfText v.name).bind fun handle => Interned.pure fun hh => ⟨?_, ?_⟩
  · refine Line.of_term (((hc.globalStorage h).lead (by rfl)).applied ?_)
    simpa using ⟨hc.moduleVariable.phrase.lead (by rfl),
      (hlax.term hh.2).phrase.lead (by rfl)⟩
  · rw [terminated, applied, globalStart]
    simp only [String.toList_append, List.append_assoc]
    exact List.prefix_append _ _

theorem interned_moduleOpening (hlax : w.Lax) (hplain : ¬ w.plain) (hu : w.unbroken)
    (hv : ∀ v ∈ m.globals ++ m.temporaries, Named w v.name) (p : Program) :
    Interned (w.onto p) H (moduleOpening m moduleName) fun r =>
      (∀ l ∈ r.1, GlobalLine w l) ∧ Twins w r.2 r.2 := by
  have hc : CodeNamed w (moduleIdentifier moduleName) :=
    (isIdentifier_moduleIdentifier moduleName).codeNamed
  have hstore : ∀ {name : String} {o : Operand}, isLead name = true → isPlainName name = true →
      o.Fine w → Line w (storeStatement (globalStorage (moduleIdentifier moduleName) name)
        o.handedOver) := by
    intro name o hlead hname ho
    have hnamed : Named w name := ⟨⟨Calm.text hlead, fun ht => absurd ht hlax.tight,
      (inline_of_isLead hlead).spared⟩, fun hp => absurd hp hplain⟩
    exact line_storeStatement (hc.globalStorage hnamed) ho.handedOver.phrase
  obtain ⟨hinit, hstarts⟩ := codeLine_moduleInit hlax hu moduleName
  unfold moduleOpening
  refine (interned_constantFromTable _).bind fun doc => (interned_constantFromTable _).bind
    fun filename => (interned_pathOperand m.path).bind fun path =>
      (interned_handleOfText moduleName).bind fun handle => (Interned.mapM fun v hmem =>
        interned_globalLine_line hlax hc (hv v (List.mem_append_left _ hmem)) p).bind
          fun globals => Interned.pure fun h => ?_
  obtain ⟨⟨⟨⟨⟨-, hdoc⟩, hfile⟩, hpath⟩, hhandle⟩, hglobals⟩ := h
  have hlines : ∀ l ∈ [frameLine handle (moduleIdentifier moduleName),
      storeStatement (globalStorage (moduleIdentifier moduleName) "__doc__") doc.handedOver,
      storeStatement (globalStorage (moduleIdentifier moduleName) "__file__") filename.handedOver] ++
      (path.map fun o => storeStatement (globalStorage (moduleIdentifier moduleName) "__path__")
        o.handedOver).toList ++ m.temporaries.map temporaryLine, Line w l := by
    simp only [List.mem_append, List.mem_cons, List.not_mem_nil, or_false]
    rintro l (((rfl | rfl | rfl) | hl) | hl)
    · exact line_frameLine hc (hlax.term hhandle)
    · exact hstore (by rfl) (by decide +kernel) (hlax.fine hdoc)
    · exact hstore (by rfl) (by decide +kernel) (hlax.fine hfile)
    · obtain ⟨o, ho, rfl⟩ := Option.map_eq_some_iff.mp (Option.mem_toList.mp hl)
      exact hstore (by rfl) (by decide +kernel) (hlax.fine (hpath o ho))
    · obtain ⟨v, hmem, rfl⟩ := List.mem_map.mp hl
      exact line_temporaryLine (hv v (List.mem_append_right _ hmem))
  exact ⟨hglobals, (Twins.code hinit hstarts hplain).append (Twins.lined hlines (Or.inr hu))⟩

/-! ## The two texts of a module -/

/-- The texts in a log as a module lists them: those of classes, then those of functions. -/
def Log.listed (t : Tree) (log : Log) : List Definition :=
  (log.onto t.className? .empty).values ++ (log.onto t.functionName? .empty).values

/-- What the texts of a module with a trace and without are put together from. -/
structure Assembly (t : Tree) (w : Wording) (m : Module) where
  globals : List String
  opening : List String
  traced : List String
  plain : List String
  records : List Record
  globalLines : ∀ l ∈ globals, GlobalLine w l
  openingTwins : Twins w opening opening
  bodyTwins : Twins w traced plain
  fits : ∀ r ∈ records, r.Fits t w
  defines : t.Defines m.body.toList (records.map (·.node))

namespace Assembly

def tracedText (a : Assembly t w m) (moduleName : String) : String :=
  moduleLayout moduleName a.globals (Log.listed t (a.records.map fun r => (r.node, r.traced)))
    (a.opening ++ a.traced)

def plainText (a : Assembly t w m) (moduleName : String) : String :=
  moduleLayout moduleName a.globals (Log.listed t (a.records.map fun r => (r.node, r.plain)))
    (a.opening ++ a.plain)

end Assembly

/-- Of single scopes, the one of the module holds everything. -/
theorem Abreast.bottom {f : Frame} {s' s : ScopeStack} (h : Abreast t [f] s' s) :
    SameBody t f s'.bottom s.bottom := by
  obtain ⟨inner', bottom'⟩ := s'
  obtain ⟨inner, bottom⟩ := s
  unfold Abreast ScopeStack.toList at h
  cases inner' with
  | nil =>
      cases inner with
      | nil => cases h with | cons h hrest => exact h
      | cons c inner => cases h with | cons h hrest => cases inner <;> exact nomatch hrest
  | cons c' inner' =>
      cases inner with
      | nil => cases h with | cons h hrest => cases inner' <;> exact nomatch hrest
      | cons c inner => cases h with | cons h hrest => cases inner' <;> cases inner <;> exact nomatch hrest

def moduleEnd (m : Module) (moduleName : String) :
    Except Stop (Option (List String)) × Progress → Except Stop String × Program
  | (.ok codes, g) =>
    let (text, p) := finishModule m moduleName g.scopes.bottom (codes.getD []) g.program
    (.ok text, p)
  | (.error stop, g) => (.error stop, g.program)

theorem moduleText_eq_end (hm : t.module? root = some m) (options : Options) (moduleName : String)
    (p : Program) : t.moduleText options root moduleName p =
      let s : Setting := ⟨t, options, moduleName, moduleIdentifier moduleName⟩
      moduleEnd m moduleName ((s.lowerer.optionalSequence m.body).run ⟨p, {}⟩) := by
  unfold Tree.moduleText moduleAt
  dsimp only
  rw [hm]
  dsimp only
  rw [Meets.run_bind]
  generalize (Lowerer.optionalSequence _ m.body).run _ = e
  obtain ⟨stop | codes, g⟩ := e
  · rfl
  · rfl

/-- Two lowerings of the body of a module end with two texts, or with none for the same reason. -/
theorem Ended.assembled {e' e : Except Stop (Option (List String)) × Progress}
    (h : Ended t w (.ofKind .module) [] (t.Defines m.body.toList) (Option.Rel (Twins w)) e' e)
    (hlax : w.Lax) (hplain : ¬ w.plain) (hu : w.unbroken)
    (hv : ∀ v ∈ m.globals ++ m.temporaries, Named w v.name) (moduleName : String) :
    (moduleEnd m moduleName e').2 = (moduleEnd m moduleName e).2 ∧
      ((∃ stop, (moduleEnd m moduleName e').1 = .error stop ∧
        (moduleEnd m moduleName e).1 = .error stop) ∨
      ∃ a : Assembly t w m, (moduleEnd m moduleName e').1 = .ok (a.tracedText moduleName) ∧
        (moduleEnd m moduleName e).1 = .ok (a.plainText moduleName)) := by
  cases h with
  | stopped stop hprogram => exact ⟨hprogram, .inl ⟨stop, rfl, rfl⟩⟩
  | @finished codes' codes g' g records hresult hprogram hwf hscopes hfits hlog =>
      obtain ⟨hglobals, hopening⟩ := (interned_moduleOpening (H := True) hlax hplain hu hv
        (moduleOpening m moduleName g.program).2 g.program hwf).2.2 trivial (Extends.refl _)
      have hend : ∀ (codes : Option (List String)) (g' : Progress) (log : Log),
          g'.program = g.program → Scope.Holds t (.ofKind .module) g'.scopes.bottom log →
          moduleEnd m moduleName (.ok codes, g') =
            (.ok (moduleLayout moduleName (moduleOpening m moduleName g.program).1.1
              (log.listed t) ((moduleOpening m moduleName g.program).1.2 ++ codes.getD [])),
              (moduleOpening m moduleName g.program).2) := by
        intro codes g' log hprogram hholds
        have hlisted : definitionsOf g'.scopes.bottom = log.listed t := by
          rw [definitionsOf, hholds.functions, hholds.classes]
          rfl
        rw [moduleEnd, finishModule_eq, hlisted, hprogram]
        rfl
      rw [hend codes' g' _ hprogram hscopes.bottom.traced, hend codes g _ rfl hscopes.bottom.plain]
      exact ⟨rfl, .inr ⟨⟨_, _, codes'.getD [], codes.getD [], records, hglobals, hopening,
        twins_getD hresult, hfits, hlog⟩, rfl, rfl⟩⟩

/-- A module has two texts, or none for the same reason; the program is the same in both cases. -/
theorem moduleText_assembled
    (hg : Grounded w ⟨t, { options with traceExecution := false }, moduleName,
      moduleIdentifier moduleName⟩ False root)
    (hlax : w.Lax) (hplain : ¬ w.plain) (hu : w.unbroken) (hm : t.module? root = some m)
    (hp : p.WellFormed) (b : Bool) :
    let traced := t.moduleText { options with traceExecution := b } root moduleName p
    let plain := t.moduleText { options with traceExecution := false } root moduleName p
    traced.2 = plain.2 ∧ ((∃ stop, traced.1 = .error stop ∧ plain.1 = .error stop) ∨
      ∃ a : Assembly t w m, traced.1 = .ok (a.tracedText moduleName) ∧
        plain.1 = .ok (a.plainText moduleName)) := by
  intro traced plain
  have hkind := Tree.module?_eq_some_iff.mp hm
  have hbody : ∀ c ∈ m.body, t.Connected root c := fun c hc =>
    (Tree.Connected.refl t root).child (by
      rw [Tree.children, hkind]
      exact Option.mem_toList.mpr hc)
  have hv : ∀ v ∈ m.globals ++ m.temporaries, Named w v.name := fun v hmem =>
    (hg.suits root (Tree.Connected.refl t root)).names v.name (by
      rw [hkind]
      exact List.mem_map_of_mem hmem)
  have hpaired := paired_optionalSequence
    (pairs_ofDepth (b := b) hg hlax (Or.inr hu) (fun _ => hu) rfl (2 * t.depthBound)) hbody
    (.ofKind .module) [] ⟨p, {}⟩ ⟨p, {}⟩ rfl hp (Abreast.start {})
  have htraced : traced = moduleEnd m moduleName (((Lowerer.ofDepth
      (Setting.tracing ⟨t, { options with traceExecution := false }, moduleName,
        moduleIdentifier moduleName⟩ b) (2 * t.depthBound)).optionalSequence m.body).run ⟨p, {}⟩) :=
    moduleText_eq_end hm _ moduleName p
  have hplainly : plain = moduleEnd m moduleName (((Lowerer.ofDepth
      ⟨t, { options with traceExecution := false }, moduleName, moduleIdentifier moduleName⟩
        (2 * t.depthBound)).optionalSequence m.body).run ⟨p, {}⟩) :=
    moduleText_eq_end hm _ moduleName p
  rw [htraced, hplainly]
  exact Ended.assembled hpaired hlax hplain hu hv moduleName

end CompilerBackend
