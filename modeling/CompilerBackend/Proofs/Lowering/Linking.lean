import CompilerBackend.Proofs.Program.Declarations
import CompilerBackend.Proofs.Program.Reached
/-!
# Names of constants in module texts

A token of a module's text that begins like a handle is the handle of an entry in the program
after the translation, so the texts of the table declare, store and initialise it. The one
exception that no name in the tree accounts for is the empty tuple of a call with named arguments
only: the call names it without asking for its handle.
-/

namespace CompilerBackend

open Program Target Lowering Text

variable {t : Tree} {options : Options} {root : NodeId} {moduleName word : String} {p : Program}

def Unhandled (s : String) : Prop := ∀ word, IsToken word s → ¬ handleStart.toList <+: word.toList

/-- No file name and no name that goes into target text has a token that begins like a handle. -/
def Tree.Unhandled (t : Tree) (root : NodeId) : Prop :=
  ∀ n, t.Connected root n → CompilerBackend.Unhandled (t.location n).file ∧
    ∀ name ∈ (t.kind n).names ++ (t.kind n).titles, CompilerBackend.Unhandled name

/-- Tokens that begin like a handle and come from elsewhere. Names are free of such tokens, but
fixed text around a name, or the characters that stand for others in the name of a module, can
make one. -/
inductive Stray (t : Tree) (root : NodeId) (moduleName : String) : String → Prop
  | emptyTuple (n : NodeId) (hn : t.Connected root n) (hcall : (t.kind n).isNamedCall = true) :
      Stray t root moduleName emptyTupleName
  | glued (n : NodeId) (hn : t.Connected root n) (s : String) (hs : s ∈ (t.kind n).gluedTexts)
      (word : String) (hword : IsToken word s) : Stray t root moduleName word
  | entry (word : String) (hword : IsToken word (moduleIdentifier moduleName)) :
      Stray t root moduleName word

def Wording.linked (t : Tree) (root : NodeId) (moduleName : String) (p : Program) : Wording where
  program := p
  stray := Stray t root moduleName
  converts _ := True
  tight := False
  absent _ := False
  plain := False
  apart := False
  pairs _ _ := True

theorem allows_linked (h : handleStart.toList <+: word.toList → Stray t root moduleName word) :
    (Wording.linked t root moduleName p).Allows word :=
  ⟨fun hstart => Or.inr (h hstart), fun _ => trivial⟩

theorem Unhandled.calm {s : String} (h : Unhandled s) :
    Calm (Wording.linked t root moduleName p) s := fun word hword =>
  ⟨allows_linked fun hstart => absurd hstart (h word hword), fun h => h.1.elim⟩

theorem grounded_linked (hnames : t.Unhandled root) :
    Grounded (Wording.linked t root moduleName p)
      ⟨t, options, moduleName, moduleIdentifier moduleName⟩ False root where
  pairs _ _ _ _ := trivial
  tight := False.elim
  codeName := (isIdentifier_moduleIdentifier moduleName).codeNamed
  suits n hn := by
    obtain ⟨hfile, hkind⟩ := hnames n hn
    refine ⟨⟨hfile.calm, False.elim, fun _ _ _ => False.elim⟩, fun name hmem =>
      ⟨⟨?_, False.elim, fun _ _ _ => False.elim⟩, False.elim⟩,
      fun name hmem => ?_, fun s hs word behind hword =>
        ⟨allows_linked fun _ => ?_, fun h => h.1.elim⟩,
      fun hcall => allows_linked fun _ => .emptyTuple n hn hcall⟩
    · exact (hkind name (List.mem_append_left _ hmem)).calm
    · exact (hkind name (List.mem_append_right _ hmem)).calm
    · exact .glued n hn s hs word hword.isToken

theorem allows_moduleText (hnames : t.Unhandled root) (hmodule : Unhandled moduleName)
    (hp : p.WellFormed) {text : String}
    (htext : (t.moduleText options root moduleName p).1 = .ok text) :
    ∀ word, IsToken word text → handleStart.toList <+: word.toList →
      (∃ e ∈ (t.moduleText options root moduleName p).2.table, e.handle = word) ∨
        Stray t root moduleName word := by
  have hentry : Worded (Wording.linked t root moduleName (t.moduleText options root moduleName p).2)
      (moduleIdentifier moduleName) := fun word _ hword =>
    ⟨allows_linked fun _ => .entry word hword.isToken, fun h => h.1.elim⟩
  exact fun word hword => (((moduleText_of_meets (meets_moduleAt (grounded_linked hnames)
    hmodule.calm hentry) hp rfl).1 text htext).allows hword).1

/-- The name is the handle of an entry, and the texts of the table declare it, store it and give
it an object. -/
structure Program.Defines (p : Program) (name : String) : Prop where
  entry : ∃ e ∈ p.table, e.handle = name
  declared : name ∈ announcedNames (constantDeclarations p)
  stored : name ∈ storedNames (constantDefinitions p)
  initialised : name ∈ initialisedNames (constantDefinitions p)

theorem Program.WellFormed.defines (hp : p.WellFormed) {e : TableEntry} (he : e ∈ p.table) :
    p.Defines e.handle := by
  have hmem : e.handle ∈ p.table.map (·.handle) := List.mem_map_of_mem he
  refine ⟨⟨e, he, rfl⟩, ?_, ?_, ?_⟩
  · rwa [announcedNames_constantDeclarations hp]
  · rwa [storedNames_constantDefinitions hp]
  · rwa [initialisedNames_constantDefinitions hp]

/-- Names without tokens that begin like a handle: the program after a translation defines each
token of the text that does, unless the token is a stray one. -/
theorem moduleText_linked (hnames : t.Unhandled root) (hmodule : Unhandled moduleName)
    (hp : p.Reached) {text : String}
    (htext : (t.moduleText options root moduleName p).1 = .ok text) :
    ∀ word, IsToken word text → handleStart.toList <+: word.toList →
      (t.moduleText options root moduleName p).2.Defines word ∨ Stray t root moduleName word := by
  intro word hword hstart
  refine (allows_moduleText hnames hmodule hp.wellFormed htext word hword hstart).imp_left ?_
  rintro ⟨e, he, rfl⟩
  exact hp.wellFormed.moduleText.1.defines he

/-! ## A call that names the empty tuple -/

theorem Unhandled.of_not_mem {s : String} (h : 'c' ∉ s.toList) : Unhandled s := by
  rintro word ⟨before, behind, hsplit, -⟩ hstart
  refine h ?_
  rw [hsplit]
  exact List.mem_append_right _ (List.mem_append_left _ (hstart.subset (by simp [handleStart])))

theorem Tree.unhandled_of_nodes (h : ∀ n ∈ Node.absent :: t.nodes.toList,
    (n.location.file :: n.kind.names ++ n.kind.titles).all (!·.toList.contains 'c') = true) :
    t.Unhandled root := by
  intro n _
  have hall := h _ (t.node_mem n)
  simp only [List.all_eq_true, Bool.not_eq_true', List.contains_eq_mem, decide_eq_false_iff_not,
    List.cons_append, List.forall_mem_cons] at hall
  exact ⟨.of_not_mem hall.1, fun name hname => .of_not_mem (hall.2 name hname)⟩

/-- A module that calls `f( a = 1 )`. -/
def namedCall : Tree where
  nodes :=
    let entry (kind : NodeKind) (parent : Option NodeId) : Node :=
      ⟨kind, parent, { file := "named.py", line := 1 }⟩
    #[entry (.module { name := "named", filename := "named.py", body := some ⟨1⟩ }) none,
      entry (.sequence [⟨2⟩]) (some ⟨0⟩),
      entry (.stmt (.expression ⟨3⟩)) (some ⟨1⟩),
      entry (.expr (.call ⟨4⟩ [] [(⟨5⟩, ⟨6⟩)] none none)) (some ⟨2⟩),
      entry (.expr (.variableRef "f" (some ⟨"f", .moduleGlobal⟩))) (some ⟨3⟩),
      entry (.expr (.constant (.str "a"))) (some ⟨3⟩),
      entry (.expr (.constant (.int 1))) (some ⟨3⟩)]
  root := some ⟨0⟩

/-- The table lacks the empty tuple that the call names. -/
theorem moduleText_linked_namedCall :
    namedCall.Unhandled ⟨0⟩ ∧ Unhandled "named" ∧ Program.Reached {} ∧
    (∀ e ∈ (namedCall.moduleText {} ⟨0⟩ "named" {}).2.table, e.handle ≠ emptyTupleName) ∧
    ∃ text, (namedCall.moduleText {} ⟨0⟩ "named" {}).1 = .ok text ∧
      ∀ word, IsToken word text → handleStart.toList <+: word.toList →
        (namedCall.moduleText {} ⟨0⟩ "named" {}).2.Defines word ∨
          Stray namedCall ⟨0⟩ "named" word := by
  have hnames : namedCall.Unhandled ⟨0⟩ := Tree.unhandled_of_nodes (by decide +kernel)
  have hmodule : Unhandled "named" := .of_not_mem (by decide +kernel)
  have hok : (namedCall.moduleText {} ⟨0⟩ "named" {}).1.toOption.isSome = true := by decide +kernel
  obtain ⟨text, htext⟩ : ∃ text, (namedCall.moduleText {} ⟨0⟩ "named" {}).1 = .ok text := by
    cases h : (namedCall.moduleText {} ⟨0⟩ "named" {}).1 with
    | ok text => exact ⟨text, rfl⟩
    | error stop =>
        rw [h] at hok
        exact Bool.noConfusion hok
  exact ⟨hnames, hmodule, Program.Reached.empty, by decide +kernel, text, htext,
    moduleText_linked hnames hmodule Program.Reached.empty htext⟩

end CompilerBackend
