import CompilerBackend.Proofs.Lowering.Logged
import CompilerBackend.Proofs.Lowering.PairedModules
import CompilerBackend.Proofs.Program.Reached
/-!
# Modules with and without a trace

A trace changes nothing but the lines that report: without them, the text of a module is the one
that it has when execution is not traced, and the program after the translation is the same. This
needs names in one line, or else part of a name could pass for a report.

- `Record.Fits.leaves`: the texts of one definition.
- `moduleText_withoutTrace`: the texts of a module.
-/

namespace CompilerBackend

open Text Target

variable {w : Wording} {t : Tree} {options : Options} {root : NodeId} {moduleName : String}
  {p : Program} {r : Record} {records : List Record}

/-! ## Definitions -/

theorem piece_implementationName {f : FunctionBody} (hlax : w.Lax) (hname : Named w f.codeName) :
    Piece w (implementationName f) := by
  refine ⟨hlax.worded _, fun ht => absurd ht hlax.tight, ?_⟩
  rw [implementationName]
  refine ((inline_of_isLead (by rfl)).spared.append hname.spared).append ?_
  split <;> exact (inline_of_isLead (by rfl)).spared

/-- The texts of a definition differ in lines that report. -/
theorem Record.Fits.leaves (h : r.Fits t w) (hlax : w.Lax) (hu : w.unbroken)
    (hnames : ∀ name ∈ (t.kind r.node).names, Named w name)
    (htitles : ∀ name ∈ (t.kind r.node).titles, Unbroken name)
    (hfile : Unbroken (t.location r.node).file) : DefinitionLeaves r.traced r.plain := by
  cases h with
  | @function id f hkind defaults body' body hbody =>
      rw [hkind] at hnames htitles
      have hv : ∀ v ∈ f.parameters.all ++ f.userVariables ++ f.temporaries ++ f.closureVariables,
          Named w v.name := fun v hmem =>
        hnames v.name (List.mem_cons_of_mem _ (List.mem_map_of_mem hmem))
      have hname : Named w f.codeName := hnames _ List.mem_cons_self
      have himpl := piece_implementationName hlax hname
      have hsignature : Piece w (functionSignature f) := piece_functionSignature himpl fun v hmem =>
        hv v (by simp [hmem])
      exact ⟨.line (line_functionDeclaration hname defaults fun v hmem => hv v (by simp [hmem])) hu,
        leaves_functionText (htitles _ List.mem_cons_self) hfile (hsignature.unbroken hu) hbody⟩
  | @classBody id c hkind body' body hbody =>
      rw [hkind] at hnames htitles
      have hv : ∀ v ∈ c.closureVariables, Named w v.name := fun v hmem =>
        hnames v.name (List.mem_cons_of_mem _ (List.mem_map_of_mem (by simp [hmem])))
      have hname : Named w c.codeName := hnames _ List.mem_cons_self
      exact ⟨.line (line_classDeclaration hname hv) hu,
        leaves_classText (htitles _ List.mem_cons_self) hfile (term_classSignature hname hv) hu
          hbody⟩

/-- What holds of the two texts of each definition holds place by place of what a module lists. -/
theorem rel_listed {R : Definition → Definition → Prop} (h : ∀ r ∈ records, R r.traced r.plain) :
    List.Forall₂ R (Log.listed t (records.map fun r => (r.node, r.traced)))
      (Log.listed t (records.map fun r => (r.node, r.plain))) := by
  have hsort : ∀ name? : NodeId → Option String, List.Forall₂ R
      (Log.onto name? (records.map fun r => (r.node, r.traced)) .empty).values
      (Log.onto name? (records.map fun r => (r.node, r.plain)) .empty).values := by
    intro name?
    refine OrderedMap.rel_ofEntries ?_
    rw [List.filterMap_map, List.filterMap_map]
    induction records with
    | nil => exact .nil
    | cons r records ih =>
        have hrest := ih fun r hr => h r (List.mem_cons_of_mem _ hr)
        rw [List.filterMap_cons, List.filterMap_cons, Function.comp_apply, Function.comp_apply]
        cases name? r.node with
        | none => exact hrest
        | some name => exact .cons ⟨rfl, h r List.mem_cons_self⟩ hrest
  exact List.rel_append (hsort t.className?) (hsort t.functionName?)

/-! ## Modules -/

/-- The texts of a module differ in lines that report. -/
theorem Assembly.leaves {m : Module} (a : Assembly t w m) (hlax : w.Lax) (hu : w.unbroken)
    (hm : t.kind root = .module m)
    (hnames : ∀ n, t.Connected root n → ∀ name ∈ (t.kind n).names, Named w name)
    (hlines : t.InOneLine root) (hname : Unbroken moduleName) :
    Leaves (a.tracedText moduleName) (a.plainText moduleName) := by
  have hbody : ∀ id ∈ m.body.toList, t.Connected root id := fun id hid =>
    (Tree.Connected.refl t root).child (by rwa [Tree.children, hm])
  have hrecords : ∀ r ∈ a.records, DefinitionLeaves r.traced r.plain := by
    intro r hr
    have hnode := a.defines.connected hbody r.node (List.mem_map_of_mem hr)
    obtain ⟨hfile, htexts⟩ := hlines r.node hnode
    exact (a.fits r hr).leaves hlax hu (hnames _ hnode)
      (fun name hmem => htexts name (List.mem_append_right _ hmem)) hfile
  exact leaves_moduleLayout hname a.globalLines hu (rel_listed hrecords)
    (a.openingTwins.append a.bodyTwins)

/-- Names in one line: with a trace, a module fails as it does without one; or else its text is the
one without a trace once the lines that report are left out. The program is the same. -/
theorem moduleText_withoutTrace (hlines : t.InOneLine root) (hname : Unbroken moduleName)
    (hp : p.Reached) :
    let traced := t.moduleText { options with traceExecution := true } root moduleName p
    let plain := t.moduleText { options with traceExecution := false } root moduleName p
    traced.1.map withoutTrace = plain.1 ∧ traced.2 = plain.2 := by
  intro traced plain
  cases hm : t.module? root with
  | none =>
      obtain ⟨stop, hstop⟩ : ∃ stop, ∀ b, t.moduleText { options with traceExecution := b } root
          moduleName p = (.error stop, p) := by
        refine ⟨.failed ⟨.notAModule (t.kind root).kindName, t.location root,
          some (t.dump root)⟩ [], fun b => ?_⟩
        unfold Tree.moduleText Lowering.moduleAt
        dsimp only
        rw [hm]
        rfl
      rw [show traced = _ from hstop true, show plain = _ from hstop false]
      exact ⟨rfl, rfl⟩
  | some m =>
      have hgrounded : Grounded (Wording.lax False True) ⟨t, { options with traceExecution := false },
          moduleName, moduleIdentifier moduleName⟩ False root :=
        hlines.grounded (isIdentifier_moduleIdentifier moduleName)
      have hlax := lax_lax False True
      obtain ⟨hprogram, ⟨stop, htraced, hplain⟩ | ⟨a, htraced, hplain⟩⟩ :=
        moduleText_assembled hgrounded hlax id trivial hm hp.wellFormed true
      · refine ⟨?_, hprogram⟩
        rw [show traced.1 = _ from htraced, show plain.1 = _ from hplain]
        rfl
      · have hleaves := a.leaves hlax trivial (Tree.module?_eq_some_iff.mp hm)
          (fun n hn => (hgrounded.suits n hn).names) hlines hname
        refine ⟨?_, hprogram⟩
        rw [show traced.1 = _ from htraced, show plain.1 = _ from hplain, Except.map,
          hleaves.withoutTrace_eq]

/-! ## A loop -/

/-- The module `while True: global x`, in which the body of the loop has no code. -/
def idling : Tree where
  nodes :=
    let entry (kind : NodeKind) (parent : Option NodeId) : Node :=
      ⟨kind, parent, { file := "spam.py", line := 1 }⟩
    #[entry (.module { name := "spam", filename := "spam.py", body := some ⟨1⟩ }) none,
      entry (.sequence [⟨2⟩]) (some ⟨0⟩),
      entry (.stmt (.loop (some ⟨3⟩) false)) (some ⟨1⟩),
      entry (.sequence [⟨4⟩]) (some ⟨2⟩),
      entry (.stmt (.declareGlobal ["x"])) (some ⟨3⟩)]
  root := some ⟨0⟩

/-- The text with a trace is another one, and the loop has a body in it, until the reports are left
out. -/
theorem moduleText_withoutTrace_idling :
    idling.InOneLine ⟨0⟩ ∧ Unbroken "spam" ∧ Program.Reached {} ∧
    ∃ traced plain,
      (idling.moduleText { traceExecution := true } ⟨0⟩ "spam" {}).1 = .ok traced ∧
      (idling.moduleText {} ⟨0⟩ "spam" {}).1 = .ok plain ∧
      traced ≠ plain ∧ withoutTrace traced = plain := by
  have hlines : idling.InOneLine ⟨0⟩ := Tree.inOneLine_of_nodes (by decide +kernel)
  have hname : Unbroken "spam" := by
    unfold Unbroken
    decide +kernel
  have hcheck : (idling.moduleText { traceExecution := true } ⟨0⟩ "spam" {}).1.toOption.any
      (fun traced => (idling.moduleText {} ⟨0⟩ "spam" {}).1.toOption != some traced) = true := by
    decide +kernel
  obtain ⟨hmap, -⟩ := @moduleText_withoutTrace idling {} _ _ _ hlines hname Program.Reached.empty
  cases hresult : (idling.moduleText { traceExecution := true } ⟨0⟩ "spam" {}).1 with
  | error stop =>
      rw [hresult] at hcheck
      exact Bool.noConfusion hcheck
  | ok traced =>
      rw [hresult] at hcheck hmap
      have hplain : (idling.moduleText {} ⟨0⟩ "spam" {}).1 = .ok (withoutTrace traced) := hmap.symm
      refine ⟨hlines, hname, Program.Reached.empty, traced, _, rfl, hplain, fun heq => ?_, rfl⟩
      rw [hplain, ← heq] at hcheck
      simp [Except.toOption] at hcheck

end CompilerBackend
