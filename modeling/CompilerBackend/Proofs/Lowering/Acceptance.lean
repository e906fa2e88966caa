import CompilerBackend.Proofs.Program.Reached
/-!
# Which modules are lowered

A module whose names hold no blanks is lowered exactly if every position that its lowering comes
to holds a node that fits. In particular the checks that no code is empty, blank or padded never
stop a lowering: they can only fail where a name holds a blank.
-/

namespace CompilerBackend

open Program Target Lowering Text

variable {t : Tree} {options : Options} {root : NodeId} {moduleName : String} {p : Program}

def Unspaced (s : String) : Prop := ∀ c ∈ s.toList, isBlank c = false

/-- No name that goes into target text holds a blank. -/
def Tree.Unspaced (t : Tree) (root : NodeId) : Prop :=
  ∀ n, t.Reaches root n → CompilerBackend.Unspaced (t.location n).file ∧
    ∀ name ∈ (t.kind n).names, CompilerBackend.Unspaced name

/-- The wording that allows every token, for names without blanks. -/
def Wording.unspaced (p : Program) : Wording where
  program := p
  stray _ := True
  converts _ := True
  tight := True
  absent _ := False
  plain := False
  apart := False
  pairs _ _ := True

theorem allows_unspaced (word : String) : (Wording.unspaced p).Allows word :=
  ⟨fun _ => Or.inr trivial, fun _ => trivial⟩

theorem calm_unspaced (s : String) : Calm (Wording.unspaced p) s :=
  fun word _ => ⟨allows_unspaced word, fun h => h.1.elim⟩

theorem grounded_unspaced (htree : t.IsTree root) (hparent : t.parent root = none)
    (hnames : t.Unspaced root) : Grounded (Wording.unspaced p)
      ⟨t, options, moduleName, moduleIdentifier moduleName⟩ True root where
  pairs _ _ _ _ := trivial
  tight := id
  codeName := (isIdentifier_moduleIdentifier moduleName).codeNamed
  suits n hn := by
    obtain ⟨hfile, hkind⟩ := hnames n (htree.reaches_of_connected hparent hn)
    exact ⟨⟨calm_unspaced _, fun _ => hfile, fun _ _ _ => False.elim⟩, fun name hmem =>
      ⟨⟨calm_unspaced _, fun _ => hkind name hmem, fun _ _ _ => False.elim⟩, False.elim⟩,
      fun _ _ => calm_unspaced _, fun _ _ => (calm_unspaced _).worded, fun _ => allows_unspaced _⟩

/-- Whether a module is lowered does not depend on the options, but for the version of the
language, nor on the name of the module or the program. -/
theorem isOk_moduleText_iff (htree : t.IsTree root) (hparent : t.parent root = none)
    (hmodule : ∃ m, t.kind root = .module m) (hnames : t.Unspaced root) (hp : p.WellFormed) :
    (∃ text, (t.moduleText options root moduleName p).1 = .ok text) ↔
      ∀ q ∈ t.positions root, t.Resolved options.isThird q :=
  (moduleText_of_meets (w := Wording.unspaced (t.moduleText options root moduleName p).2)
    (meets_moduleAt (grounded_unspaced htree hparent hnames) (calm_unspaced _)
      (calm_unspaced _).worded) hp rfl).2 ⟨trivial, htree, hmodule⟩

/-- In the tree of a module whose names hold no blanks: the module has a text, whatever the
options, its name and the program it is translated in, exactly if each node fits each role that
the lowering comes to it in. -/
theorem moduleText_accepts_iff (htree : t.IsTree root) (hparent : t.parent root = none)
    (hmodule : ∃ m, t.kind root = .module m) (hnames : t.Unspaced root) (hp : p.Reached)
    (options : Options) (moduleName : String) :
    (∃ text, (t.moduleText options root moduleName p).1 = .ok text) ↔
      ∀ q, t.Generated root q → (t.kind q.2).fits options.isThird q.1 = true := by
  rw [isOk_moduleText_iff htree hparent hmodule hnames hp.wellFormed]
  exact Tree.forall_generated_iff.symm

/-! ## Running the test -/

/-- Positions that fit, among which the slots of each are, are resolved. -/
theorem Tree.resolved_of_closed {third : Bool} {ps : List Position}
    (h : ∀ p ∈ ps, (t.kind p.2).fits third p.1 = true ∧ ∀ q ∈ t.positions p.2, q ∈ ps) :
    ∀ p ∈ ps, t.Resolved third p := by
  intro p hp q hq
  have hmem : q ∈ ps := by
    induction hq with
    | refl => exact hp
    | tail _ hstep ih => exact (h _ ih).2 _ hstep
  exact (h q hmem).1

theorem Tree.unspaced_of_nodes (h : ∀ n ∈ Node.absent :: t.nodes.toList,
    (n.location.file :: n.kind.names).all (·.toList.all (!isBlank ·)) = true) :
    t.Unspaced root := by
  intro n _
  have hall := h _ (t.node_mem n)
  simp only [List.all_eq_true, List.forall_mem_cons, Bool.not_eq_true'] at hall
  exact hall

/-- A generator with one parameter, which has a default value. -/
def delayed : FunctionBody where
  name := "f"
  codeName := "function_f"
  parameters := { positional := [⟨"a", .parameter⟩], defaultCount := 2 }
  body := some ⟨8⟩
  isGenerator := true

/-- Two references that are never bound: one is the value of a raise without a type, the other is
what a generator does not return. The last statement makes a long integer. -/
def unboundAside : Tree where
  nodes :=
    let entry (kind : NodeKind) (parent : Option NodeId) : Node :=
      ⟨kind, parent, { file := "aside.py", line := 1 }⟩
    #[entry (.module { name := "aside", filename := "aside.py", body := some ⟨1⟩ }) none,
      entry (.sequence [⟨2⟩, ⟨4⟩, ⟨11⟩]) (some ⟨0⟩),
      entry (.stmt (.raise none (some ⟨3⟩) none)) (some ⟨1⟩),
      entry (.expr (.variableRef "x" none)) (some ⟨2⟩),
      entry (.stmt (.expression ⟨5⟩)) (some ⟨1⟩),
      entry (.expr (.functionDefaulted ⟨6⟩ [⟨7⟩])) (some ⟨4⟩),
      entry (.expr (.function delayed)) (some ⟨5⟩),
      entry (.expr (.constant (.int 1))) (some ⟨5⟩),
      entry (.sequence [⟨9⟩]) (some ⟨6⟩),
      entry (.stmt (.returnValue ⟨10⟩)) (some ⟨8⟩),
      entry (.expr (.variableRef "y" none)) (some ⟨9⟩),
      entry (.stmt (.expression ⟨12⟩)) (some ⟨1⟩),
      entry (.expr (.integer .long none none)) (some ⟨11⟩)]
  root := some ⟨0⟩

def unboundAsidePositions : List Position :=
  [(.sequence, ⟨1⟩), (.statement, ⟨2⟩), (.statement, ⟨4⟩), (.expression, ⟨5⟩), (.expression, ⟨7⟩),
    (.function 1, ⟨6⟩), (.sequence, ⟨8⟩), (.statement, ⟨9⟩), (.statement, ⟨11⟩), (.expression, ⟨12⟩)]

/-- The references do not matter, the long integer does in the newer version. -/
theorem moduleText_accepts_unboundAside :
    unboundAside.IsTree ⟨0⟩ ∧ unboundAside.parent ⟨0⟩ = none ∧
    (∃ m, unboundAside.kind ⟨0⟩ = .module m) ∧ unboundAside.Unspaced ⟨0⟩ ∧ Program.Reached {} ∧
    (∃ text, (unboundAside.moduleText {} ⟨0⟩ "aside" {}).1 = .ok text) ∧
    ¬ ∃ text, (unboundAside.moduleText { version := ⟨3, 2⟩ } ⟨0⟩ "aside" {}).1 = .ok text := by
  have hwf : unboundAside.WellFormed :=
    Tree.WellFormed.of_arena rfl rfl (by decide) (by decide +kernel)
  obtain ⟨hparent, htree⟩ := hwf ⟨0⟩ rfl
  have hmodule : ∃ m, unboundAside.kind ⟨0⟩ = .module m := ⟨_, rfl⟩
  have hnames : unboundAside.Unspaced ⟨0⟩ := Tree.unspaced_of_nodes (by decide +kernel)
  have haccepts := moduleText_accepts_iff htree hparent hmodule hnames Program.Reached.empty
  refine ⟨htree, hparent, hmodule, hnames, Program.Reached.empty, ?_, fun hthird => ?_⟩
  · refine (haccepts {} "aside").mpr (Tree.forall_generated_iff.mpr fun q hq => ?_)
    have hclosed : ∀ q ∈ unboundAsidePositions,
        (unboundAside.kind q.2).fits false q.1 = true ∧
          ∀ r ∈ unboundAside.positions q.2, r ∈ unboundAsidePositions := by decide +kernel
    refine Tree.resolved_of_closed hclosed q ?_
    rw [List.mem_singleton.mp hq]
    exact List.mem_cons_self
  · have hgenerated : unboundAside.Generated ⟨0⟩ (.expression, ⟨12⟩) := by
      refine ⟨(.sequence, ⟨1⟩), List.mem_cons_self, ?_⟩
      refine Relation.ReflTransGen.head (b := (.statement, ⟨11⟩)) (by decide +kernel) ?_
      exact Relation.ReflTransGen.single (by decide +kernel)
    exact nomatch (haccepts { version := ⟨3, 2⟩ } "aside").mp hthird _ hgenerated

end CompilerBackend
