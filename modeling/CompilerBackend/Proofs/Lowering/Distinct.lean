import CompilerBackend.Proofs.Lowering.Acceptance
import CompilerBackend.Proofs.Lowering.Tallied
import CompilerBackend.Proofs.Lowering.Registered
import CompilerBackend.Proofs.Lowering.Untraced
import CompilerBackend.Proofs.Scopes.Numbers
import CompilerBackend.Proofs.Target.Bodies
/-!
# Temporaries of one body

The code of a function, of a class or of a module stands in one block of the text of its module, and
the temporaries that are declared there are numbered by the scope of that body. So none of them is
declared twice, wherever in the block the declarations stand; and outside of these blocks there are
no declarations at all.

- `Progress.Defining`: what is registered by a lowering has texts of this kind.
- `defining_functionObject`, `defining_classObject`: the two places where something is registered.
- `defining_ofDepth`: the lowering of nodes, however many levels deep.
- `moduleText_temporaries`: the text of a module, and the numbers behind the names.
-/

namespace CompilerBackend

open Program Text Target Lowering

/-! ## What is registered -/

def Progress.Defining (D : Definition → Prop) (g g' : Progress) : Prop :=
  g.program.WellFormed → g'.program.WellFormed ∧ (g.scopes.Registers D → g'.scopes.Registers D)

variable {α β : Type} {D : Definition → Prop} {step : Lower α} {Q : α → Prop}

instance Progress.Defining.closed : Progress.Closed (Progress.Defining D) where
  refl _ hwf := ⟨hwf, id⟩
  trans h h' hwf := by
    obtain ⟨hwf', hscopes⟩ := h hwf
    obtain ⟨hwf'', hscopes'⟩ := h' hwf'
    exact ⟨hwf'', hscopes' ∘ hscopes⟩
  grow h hwf := ⟨h.wellFormed hwf, id⟩
  takeTryNumber _ hwf := ⟨hwf, .takeTryNumber⟩
  takeLoopNumber _ hwf := ⟨hwf, .takeLoopNumber⟩
  inScope h hwf := by
    obtain ⟨hwf', hscopes⟩ := h hwf
    exact ⟨hwf', fun hs => (hscopes (hs.push _)).pop⟩

/-- What comes next counts on what a step gives from well-formed programs. -/
theorem Lower.Keeps.bind_known {next : α → Lower β} (hs : step.Keeps (Progress.Defining D))
    (hQ : ∀ g a g', g.program.WellFormed → RunsTo step g a g' → Q a)
    (hn : ∀ a, Q a → (next a).Keeps (Progress.Defining D)) :
    (step >>= next).Keeps (Progress.Defining D) := by
  refine hs.bind_at fun g a hrun hwf => ?_
  exact Progress.Closed.trans (hs g) (hn a (hQ g a _ hwf (Prod.ext hrun rfl)) _) hwf

theorem Lower.Keeps.intern_known {first : Interning α} {next : α → Lower β} (hs : Adds first)
    (hQ : ∀ p : Program, p.WellFormed → Q (first p).1)
    (hn : ∀ a, Q a → (next a).Keeps (Progress.Defining D)) :
    (Lower.intern first >>= next).Keeps (Progress.Defining D) := by
  refine (Lower.Keeps.intern hs).bind_known (fun g a g' hwf hrun => ?_) hn
  obtain rfl : (first g.program).1 = a := Except.ok.inj (Prod.mk.inj hrun).1
  exact hQ g.program hwf

/-- A change of the scopes that registers something. -/
theorem defining_onScopes {change : ScopeStack → ScopeStack}
    (h : ∀ scopes : ScopeStack, scopes.Registers D → (change scopes).Registers D) :
    (Lower.onScopes fun scopes => ((), change scopes)).Keeps (Progress.Defining D) :=
  fun g hwf => ⟨hwf, h g.scopes⟩

namespace Lowering

variable {w : Wording} {s : Setting} {b : Bool} {self' self : Lowerer} {top id : NodeId}
  {ids : List NodeId} {H : Prop}

/-- No line in front of the code of a module declares a temporary. -/
theorem quiet_moduleOpening (m : Module) (moduleName : String) :
    Interned w H (moduleOpening m moduleName) fun r => ∀ l ∈ r.2, Quiet l := by
  have hplace : ∀ name, Quiet (globalStorage (moduleIdentifier moduleName) name) := fun name =>
    ((quiet_append (by rfl) _).append _).append _
  refine (interned_constantFromTable _).bind fun doc => (interned_constantFromTable _).bind
    fun filename => (interned_pathOperand m.path).bind fun path =>
      (interned_handleOfText moduleName).bind fun handle => (Interned.mapM (Q := fun _ => True)
        fun v _ => (interned_handleOfText v.name).bind fun _ => Interned.pure fun _ => trivial).bind
          fun globals => Interned.pure fun _ => ?_
  simp only [List.mem_append, List.mem_cons, List.not_mem_nil, or_false]
  rintro l (((rfl | rfl | rfl | rfl) | hl) | hl)
  · exact ((quiet_append (by rfl) _).append _).append _
  · exact quiet_frameLine _ _
  · exact quiet_store (hplace _) _
  · exact quiet_store (hplace _) _
  · obtain ⟨o, -, rfl⟩ := Option.map_eq_some_iff.mp (Option.mem_toList.mp hl)
    exact quiet_store (hplace _) _
  · obtain ⟨v, -, rfl⟩ := List.mem_map.mp hl
    exact quiet_temporaryLine v

/-- Quiet lines in front of the codes of a body declare nothing. -/
theorem nodup_behind {opening codes : List String} (hopening : ∀ l ∈ opening, temporaries l = [])
    (hcodes : (codes.flatMap temporaries).Nodup) :
    ((opening ++ codes).flatMap temporaries).Nodup := by
  rwa [List.flatMap_append, List.flatMap_eq_nil_iff.mpr hopening, List.nil_append]

section

variable (hg : Grounded w s False top) (hlax : w.Lax) (hu : w.unbroken)
  (hlines : s.tree.InOneLine top)

include hg hlax hu hlines in
/-- The texts of a function around the codes of its body. -/
theorem defining_functionTexts (hid : s.tree.Connected top id) {f : FunctionBody}
    (hkind : s.tree.kind id = .expr (.function f)) {accesses values : List Operand}
    (haccesses : ∀ o ∈ accesses, o.Fine w) {codes : List String}
    (hcodes : (codes.flatMap temporaries).Nodup) :
    Lower.Keeps (Progress.Defining ApartTexts) (do
      let code ← Lower.intern (functionCode s.codeName f (s.tree.location id) accesses codes)
      let declaration := functionDeclaration f.codeName values.length f.closureVariables
      Lower.onScopes fun scopes => ((), scopes.addFunction f.codeName ⟨declaration, code⟩)
      return functionCreation f.codeName values f.closureVariables) := by
  obtain ⟨hfile, htexts⟩ := hlines id hid
  rw [hkind] at htexts
  have hv : ∀ v ∈ f.parameters.all ++ f.userVariables ++ f.temporaries ++ f.closureVariables,
      Named w v.name := fun v hmem =>
    named_of_mem_names hg hid hkind (List.mem_cons_of_mem _ (List.mem_map_of_mem hmem))
  have hname : Named w f.codeName := named_of_mem_names hg hid hkind List.mem_cons_self
  have hdeclaration : Apart (functionDeclaration f.codeName values.length f.closureVariables) := by
    have hu := (line_functionDeclaration hname values.length fun v hmem =>
      hv v (List.mem_append_right _ hmem)).firm.term.unbroken (.inr hu)
    rw [functionDeclaration, terminated, String.append_assoc] at hu ⊢
    exact apart_start (by rfl) (by decide) hu
  have hsignature : Unbroken (functionSignature f) :=
    (piece_functionSignature (piece_implementationName hlax hname) fun v hmem =>
      hv v (by simp [hmem])).unbroken hu
  have hcode : ∀ p : Program, p.WellFormed →
      Apart (functionCode s.codeName f (s.tree.location id) accesses codes p).1 := by
    intro p hp
    obtain ⟨-, hopening⟩ := Interned.given (w := w) (fun _ => (interned_functionOpening
      (hlax.codeNamed hg.codeName) (fun v hmem => hlax.named (hv v (List.mem_append_left _ hmem)))
      fun _ o ho => hlax.lift (haccesses o ho)).imp fun _ _ hls l hl => hlax.line (hls l hl)) hp
    obtain ⟨-, hquiet⟩ := Interned.given (w := w) (fun _ => quiet_functionOpening f accesses) hp
    refine apart_functionText (htexts _ (List.mem_append_right _ List.mem_cons_self)) hfile
      hsignature
      (?_ : ((_ ++ codes ++ [functionClosing f]).flatMap temporaries).Nodup)
    rw [List.flatMap_append, List.flatMap_singleton, temporaries_line (.inr hu)
      (line_functionClosing f) (quiet_functionClosing f), List.append_nil]
    exact nodup_behind (fun l hl => temporaries_line (.inr hu) (hopening l hl) (hquiet l hl)) hcodes
  exact .intern_known (.functionCode _ _ _ _ _) hcode fun code happart =>
    (defining_onScopes fun scopes hscopes =>
      hscopes.addFunction f.codeName ⟨hdeclaration, happart⟩).map _

include hg hlax hu hlines in
/-- The texts of a class around the codes of its body. -/
theorem defining_classTexts (hid : s.tree.Connected top id) {c : ClassBody}
    (hkind : s.tree.kind id = .expr (.classBody c)) (bases : Operand) {codes : List String}
    (hcodes : (codes.flatMap temporaries).Nodup) :
    Lower.Keeps (Progress.Defining ApartTexts) (do
      let body := codes ++ [returnStatement liveLocals]
      let creation ← Lower.intern
        (classCreation c.name bases (classDictCreation c.codeName c.closureVariables))
      let code ← Lower.intern (classCode s.moduleName c (s.tree.location id) body)
      let declaration := classDeclaration c.codeName c.closureVariables
      Lower.onScopes fun scopes => ((), scopes.addClass c.codeName ⟨declaration, code⟩)
      return creation) := by
  obtain ⟨hfile, htexts⟩ := hlines id hid
  rw [hkind] at htexts
  have hv : ∀ v ∈ c.closureVariables ++ c.classVariables ++ c.temporaries, Named w v.name :=
    fun v hmem =>
      named_of_mem_names hg hid hkind (List.mem_cons_of_mem _ (List.mem_map_of_mem hmem))
  have hname : Named w c.codeName := named_of_mem_names hg hid hkind List.mem_cons_self
  have hsignature : Term w (classSignature c.codeName c.closureVariables) :=
    term_classSignature hname fun v hmem =>
      hv v (List.mem_append_left _ (List.mem_append_left _ hmem))
  have hdeclaration : Apart (classDeclaration c.codeName c.closureVariables) := by
    have hu := (line_classDeclaration hname fun v hmem =>
      hv v (List.mem_append_left _ (List.mem_append_left _ hmem))).firm.term.unbroken (.inr hu)
    have hstart : classDeclaration c.codeName c.closureVariables = "static PyObject *" ++
        terminated (appliedIfAny (classDictMaker c.codeName)
          (closureParameters c.closureVariables)) := String.append_assoc ..
    rw [hstart] at hu ⊢
    exact apart_start (by rfl) (by decide) hu
  have hcode : ∀ p : Program, p.WellFormed → Apart (classCode s.moduleName c (s.tree.location id)
      (codes ++ [returnStatement liveLocals]) p).1 := by
    intro p hp
    obtain ⟨-, hopening⟩ := Interned.given (w := w) (fun _ => (interned_classOpening (H := True)
      s.moduleName fun v hmem => hlax.named (hv v (by
        rw [List.append_assoc]
        exact List.mem_append_right _ hmem))).imp fun _ _ hls l hl => hlax.line (hls l hl)) hp
    obtain ⟨-, hquiet⟩ := Interned.given (w := w) (fun _ => quiet_classOpening s.moduleName c) hp
    refine apart_classText (htexts _ (List.mem_append_right _ List.mem_cons_self)) hfile
      (hsignature.piece.unbroken hu)
      (nodup_behind (fun l hl => temporaries_line (.inr hu) (hopening l hl) (hquiet l hl)) ?_)
    rw [List.flatMap_append, List.flatMap_singleton, temporaries_line (.inr hu)
      (line_returnStatement fine_liveLocals) (quiet_returnStatement _), List.append_nil]
    exact hcodes
  refine (Lower.Keeps.intern (Adds.handleOfText c.name).map).bind fun creation => ?_
  exact .intern_known (.classCode _ _ _ _) hcode fun code happart =>
    (defining_onScopes fun scopes hscopes =>
      hscopes.addClass c.codeName ⟨hdeclaration, happart⟩).map _

variable (hkeeps : self'.Keeps (Progress.Defining ApartTexts) (s.tree.Connected top))
  (h : self'.Tallying s w top self)

include hkeeps h in
/-- A body has a scope of its own, whose numbers nothing else has. -/
theorem defining_body {o : Option NodeId} (ho : ∀ c ∈ o, s.tree.Connected top c) (kind : ScopeKind)
    {next : Option (List String) → Lower Operand}
    (hn : ∀ codes, ((codes.getD []).flatMap temporaries).Nodup →
      (next codes).Keeps (Progress.Defining ApartTexts)) :
    Lower.Keeps (Progress.Defining ApartTexts)
      (Lower.inScope kind (self'.optionalSequence o) >>= next) := by
  refine ((hkeeps.optionalSequence ho).inScope kind).bind_known (fun g codes g' hwf hrun => ?_) hn
  exact nodup_body h ho (g := { g with scopes := g.scopes.push kind }) hwf
    (Prod.ext (Prod.mk.inj hrun).1 rfl)

include hg hlax hu hlines hkeeps h in
theorem defining_functionObject (hid : s.tree.Connected top id)
    (hc : ∀ c ∈ ids, s.tree.Connected top c) :
    (functionObject (s.tracing b) self' id ids).Keeps (Progress.Defining ApartTexts) := by
  unfold functionObject
  split
  next f hf =>
    have hkind : s.tree.kind id = .expr (.function f) := Tree.expr?_eq_some_iff.mp hf
    have hdefaults : ∀ d ∈ ids.zip f.parameters.defaulted, s.tree.Connected top d.1 := fun d hd =>
      hc d.1 (List.of_mem_zip hd).1
    have hnamed : ∀ d ∈ ids.zip f.parameters.defaulted, Named w d.2.name := fun d hd =>
      named_of_mem_names hg hid hkind (List.mem_cons_of_mem _ (List.mem_map_of_mem (by
        have hdefaulted := List.mem_of_mem_drop (List.of_mem_zip hd).2
        simp only [Parameters.all, List.mem_append] at hdefaulted ⊢
        tauto)))
    refine Lower.Keeps.ite (.fail_bind _ _ _ _) ?_
    refine (keeps_defaultValues hkeeps hdefaults).bind_known
      (Q := fun values => ∀ o ∈ values.1, o.Fine w) (fun g values g' hwf hrun => ?_)
        fun values haccesses => ?_
    · obtain ⟨-, _, rfl, haccesses⟩ :=
        (paired_defaultValues h.pairs hlax hdefaults hnamed).runs hwf hrun
      exact haccesses
    refine defining_body hkeeps h (fun c hmem => hid.child ?_) _ fun codes hcodes => ?_
    · rw [Tree.children, hkind]
      exact Option.mem_toList.mpr hmem
    · exact defining_functionTexts hg hlax hu hlines hid hkind haccesses hcodes
  next => exact .fail _ _ _

include hg hlax hu hlines hkeeps h in
theorem defining_classObject (hid : s.tree.Connected top id)
    (hc : ∀ c ∈ ids, s.tree.Connected top c) :
    (classObject (s.tracing b) self' id ids).Keeps (Progress.Defining ApartTexts) := by
  unfold classObject
  split
  next c hclass =>
    have hkind : s.tree.kind id = .expr (.classBody c) := Tree.expr?_eq_some_iff.mp hclass
    refine (keeps_tuple hkeeps hc).bind fun bases => ?_
    refine defining_body hkeeps h (fun n hmem => hid.child ?_) _ fun codes hcodes => ?_
    · rw [Tree.children, hkind]
      exact Option.mem_toList.mpr hmem
    · exact defining_classTexts hg hlax hu hlines hid hkind bases hcodes
  next => exact .fail _ _ _

end

/-- The texts of all definitions that a lowering comes to have no clashes in their blocks. -/
theorem defining_ofDepth (hg : Grounded w s False top) (hlax : w.Lax) (hu : w.unbroken)
    (hlines : s.tree.InOneLine top) (hplain : s.options.traceExecution = false) (levels : Nat) :
    (Lowerer.ofDepth (s.tracing b) levels).Keeps (Progress.Defining ApartTexts)
      (s.tree.Connected top) := by
  refine keeps_ofDepth (fun hid hc => hid.child hc) (fun levels hkeeps => ?_) levels
  have h := tallying_ofDepth (b := b) hg hlax (.inr hu) (fun _ => hu) hplain levels
  exact ⟨fun hid hc => defining_functionObject hg hlax hu hlines hkeeps h hid hc,
    fun hid hc => defining_classObject hg hlax hu hlines hkeeps h hid hc⟩

end Lowering

/-! ## Modules -/

variable {t : Tree} {options : Options} {root : NodeId} {moduleName text : String} {p : Program}

theorem exists_module_of_moduleText
    (htext : (t.moduleText options root moduleName p).1 = .ok text) :
    ∃ m, t.module? root = some m := by
  cases hm : t.module? root with
  | some m => exact ⟨m, rfl⟩
  | none =>
      unfold Tree.moduleText moduleAt at htext
      dsimp only at htext
      rw [hm] at htext
      exact nomatch htext

/-- The text of a module, if the lowering of its body is as stated. -/
theorem apart_moduleEnd {w : Wording} {m : Module} (hlax : w.Lax) (hplain : ¬ w.plain)
    (hu : w.unbroken) (hname : Unbroken moduleName)
    (hv : ∀ v ∈ m.globals ++ m.temporaries, Named w v.name)
    {e : Except Stop (Option (List String)) × Progress} (hwf : e.2.program.WellFormed)
    (hscopes : e.2.scopes.Registers ApartTexts)
    (hcodes : ∀ codes, e.1 = .ok codes → ((codes.getD []).flatMap temporaries).Nodup)
    (htext : (moduleEnd m moduleName e).1 = .ok text) : Apart text := by
  rcases e with ⟨stop | codes, g⟩
  · exact nomatch htext
  · have hopening : ∀ p, Interned (w.onto p) True (moduleOpening m moduleName) fun r =>
        (∀ l ∈ r.1, GlobalLine w l) ∧ Twins w r.2 r.2 := fun p =>
      interned_moduleOpening hlax hplain hu hv p
    obtain ⟨-, hglobals, hlines⟩ := Interned.given hopening hwf
    obtain ⟨-, hquiet⟩ := Interned.given (w := w) (fun _ => quiet_moduleOpening m moduleName) hwf
    rw [← Except.ok.inj htext]
    refine apart_moduleLayout (.inr hu) hname hglobals
      (hscopes g.scopes.bottom (List.mem_append_right _ List.mem_cons_self))
      (nodup_behind (fun l hl => ?_) (hcodes codes rfl))
    exact (hquiet l hl).temporaries_eq_nil (hlines.lines l hl).flat

/-- What is in a module: the definitions that its lowering registers, and its own body. -/
theorem apart_moduleText (hlines : t.InOneLine root) (hname : Unbroken moduleName)
    (hp : p.WellFormed) (htext : (t.moduleText options root moduleName p).1 = .ok text) :
    Apart text := by
  obtain ⟨m, hm⟩ := exists_module_of_moduleText htext
  have hkind := Tree.module?_eq_some_iff.mp hm
  let s : Setting := ⟨t, { options with traceExecution := false }, moduleName,
    moduleIdentifier moduleName⟩
  have hlax := lax_lax False True
  have hg : Grounded (.lax False True) s False root :=
    hlines.grounded (isIdentifier_moduleIdentifier moduleName)
  have hv : ∀ v ∈ m.globals ++ m.temporaries, Named (.lax False True) v.name := fun v hmem =>
    (hg.suits root (Tree.Connected.refl t root)).names v.name (by
      rw [show s.tree.kind root = _ from hkind]
      exact List.mem_map_of_mem hmem)
  have hbody : ∀ c ∈ m.body, t.Connected root c := fun c hc =>
    (Tree.Connected.refl t root).child (by
      rw [Tree.children, hkind]
      exact Option.mem_toList.mpr hc)
  have htallying := tallying_ofDepth (b := options.traceExecution) hg hlax (.inr trivial)
    (fun _ => trivial) rfl s.depthBound
  obtain ⟨hwf, hscopes⟩ := (defining_ofDepth (b := options.traceExecution) hg hlax trivial hlines
    rfl s.depthBound).optionalSequence hbody ⟨p, {}⟩ hp
  rw [moduleText_eq_end hm] at htext
  exact apart_moduleEnd hlax not_false trivial hname hv hwf (hscopes .empty)
    (fun codes hcodes => nodup_body htallying hbody hp (Prod.ext hcodes rfl)) htext

/-- The names that a lowering can come to are in one line, and the module becomes a text: what the
text declares is declared in the blocks of bodies, and in none of them twice. The numbers behind the
names are those of the scopes, however calls open and close them: a counter hands out 1, 2, 3 and so
on for each of them. -/
theorem moduleText_temporaries :
    (∀ (t : Tree) (options : Options) (root : NodeId) (moduleName text : String) (p : Program),
      t.InOneLine root → Unbroken moduleName → p.Reached →
      (t.moduleText options root moduleName p).1 = .ok text →
      (declaredInBlocks (cutLines text)).flatten = temporaries text ∧
        ∀ names ∈ declaredInBlocks (cutLines text), names.Nodup) ∧
    ∀ (steps : List ScopeStep) (counter : Counter) (label : Nat),
      let watch := Watch.ofSteps steps
      watch.stack = ScopeStack.run {} steps ∧
        watch.numbers counter label = List.range' 1 (watch.numbers counter label).length :=
  ⟨fun _ _ _ _ _ _ hlines hname hp htext =>
      (apart_moduleText hlines hname hp.wellFormed htext).nodup,
    fun steps counter label =>
      ⟨Watch.stack_ofSteps steps, Watch.numbers_ofSteps steps counter label⟩⟩

/-- A try statement with an `else` in inline code, in a try statement with a final block. There a
function is made, which fetches items until there are no more, in a try statement of its own. -/
def counted : Tree where
  nodes :=
    let entry (kind : NodeKind) (parent : Option NodeId) : Node :=
      ⟨kind, parent, { file := "spam.py", line := 1 }⟩
    #[entry (.module { name := "spam", filename := "spam.py", body := some ⟨1⟩ }) none,
      entry (.sequence [⟨2⟩]) (some ⟨0⟩),
      entry (.stmt (.tryFinally ⟨3⟩ ⟨9⟩)) (some ⟨1⟩),
      entry (.sequence [⟨4⟩]) (some ⟨2⟩),
      entry (.stmt (.execInline ⟨5⟩)) (some ⟨3⟩),
      entry (.sequence [⟨6⟩]) (some ⟨4⟩),
      entry (.stmt (.tryExcept ⟨7⟩ [] (some ⟨8⟩))) (some ⟨5⟩),
      entry (.sequence []) (some ⟨6⟩),
      entry (.sequence []) (some ⟨6⟩),
      entry (.sequence [⟨10⟩]) (some ⟨2⟩),
      entry (.stmt (.expression ⟨11⟩)) (some ⟨9⟩),
      entry (.expr (.function { name := "f", codeName := "f", body := some ⟨12⟩ })) (some ⟨10⟩),
      entry (.sequence [⟨13⟩]) (some ⟨11⟩),
      entry (.stmt (.tryFinally ⟨14⟩ ⟨15⟩)) (some ⟨12⟩),
      entry (.sequence [⟨16⟩]) (some ⟨13⟩),
      entry (.sequence []) (some ⟨13⟩),
      entry (.stmt (.loop (some ⟨17⟩) false)) (some ⟨14⟩),
      entry (.sequence [⟨18⟩]) (some ⟨16⟩),
      entry (.stmt (.tryExcept ⟨19⟩ [⟨20⟩] none)) (some ⟨17⟩),
      entry (.sequence [⟨21⟩]) (some ⟨18⟩),
      entry (.handler { exceptionTypes := [⟨22⟩], branch := some ⟨23⟩ }) (some ⟨18⟩),
      entry (.stmt (.assign ⟨24⟩ ⟨25⟩)) (some ⟨19⟩),
      entry (.expr (.exception "StopIteration")) (some ⟨20⟩),
      entry (.sequence [⟨26⟩]) (some ⟨20⟩),
      entry (.expr (.variableRef "x" (some ⟨"x", .functionLocal⟩))) (some ⟨21⟩),
      entry (.expr (.unaryBuiltin .next ⟨27⟩)) (some ⟨21⟩),
      entry (.stmt (.breakLoop false)) (some ⟨23⟩),
      entry (.expr (.temporaryRef ⟨"items", .temporary⟩)) (some ⟨25⟩)]
  root := some ⟨0⟩

def countedPositions : List Position :=
  [(.sequence, ⟨1⟩), (.statement, ⟨2⟩), (.sequence, ⟨3⟩), (.statement, ⟨4⟩), (.sequence, ⟨5⟩),
    (.statement, ⟨6⟩), (.sequence, ⟨7⟩), (.sequence, ⟨8⟩), (.sequence, ⟨9⟩), (.statement, ⟨10⟩),
    (.expression, ⟨11⟩), (.sequence, ⟨12⟩), (.statement, ⟨13⟩),
    (.sequence, ⟨14⟩), (.sequence, ⟨15⟩), (.statement, ⟨16⟩), (.sequence, ⟨17⟩),
    (.statement, ⟨18⟩), (.sequence, ⟨19⟩), (.handler, ⟨20⟩), (.statement, ⟨21⟩),
    (.expression, ⟨22⟩), (.sequence, ⟨23⟩), (.target, ⟨24⟩), (.expression, ⟨25⟩),
    (.statement, ⟨26⟩), (.expression, ⟨27⟩)]

/-- The try statements around and in the inline code are numbered together, that of the function
for itself. -/
theorem moduleText_temporaries_counted :
    counted.InOneLine ⟨0⟩ ∧ Unbroken "spam" ∧ Program.Reached {} ∧
    ∃ text, (counted.moduleText {} ⟨0⟩ "spam" {}).1 = .ok text ∧
      (declaredInBlocks (cutLines text)).flatten = temporaries text ∧
      ∀ names ∈ declaredInBlocks (cutLines text), names.Nodup := by
  have hlines : counted.InOneLine ⟨0⟩ := Tree.inOneLine_of_nodes (by decide +kernel)
  have hname : Unbroken "spam" := by
    unfold Unbroken
    decide +kernel
  have hwf : counted.WellFormed := Tree.WellFormed.of_arena rfl rfl (by decide) (by decide +kernel)
  obtain ⟨hparent, htree⟩ := hwf ⟨0⟩ rfl
  have hclosed : ∀ q ∈ countedPositions, (counted.kind q.2).fits false q.1 = true ∧
      ∀ r ∈ counted.positions q.2, r ∈ countedPositions := by decide +kernel
  obtain ⟨text, htext⟩ : ∃ text, (counted.moduleText {} ⟨0⟩ "spam" {}).1 = .ok text := by
    refine (isOk_moduleText_iff htree hparent ⟨_, rfl⟩ (Tree.unspaced_of_nodes (by decide +kernel))
      Program.Reached.empty.wellFormed).mpr fun q hq => Tree.resolved_of_closed hclosed q ?_
    rw [List.mem_singleton.mp hq]
    exact List.mem_cons_self
  exact ⟨hlines, hname, .empty, text, htext,
    moduleText_temporaries.1 counted {} ⟨0⟩ "spam" text {} hlines hname .empty htext⟩

end CompilerBackend
