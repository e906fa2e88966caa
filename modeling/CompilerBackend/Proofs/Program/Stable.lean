import CompilerBackend.Proofs.Lowering.AskedStatements
import CompilerBackend.Proofs.Lowering.Acceptance
/-!
# Translations that are repeated

A program grows by requests, by recorded sizes and by the translation of modules. A module that has
been translated once asks for nothing new any more: however the program has grown since, the module
gets the text that it got before, and the program stays as it is.

- `Program.Step`, `Program.Later`: how a program grows.
- `Program.Reached.sound`: the sizes of a program are in order at any time.
- `moduleText_repeats`: the translation of a module in a later program.
-/

namespace CompilerBackend

open Program Lowering Target

variable {t : Tree} {options : Options} {id : NodeId} {moduleName : String} {p q : Program}

/-- One use of a program. A translation counts whether it succeeds or not. -/
inductive Program.Step : Program → Program → Prop
  | request (p : Program) (c : Constant) : Program.Step p (handleOf c p).2
  | tuples (p : Program) (n : Nat) : Program.Step p (recordTuple n p).2
  | lists (p : Program) (n : Nat) : Program.Step p (recordList n p).2
  | dicts (p : Program) (n : Nat) : Program.Step p (recordDict n p).2
  | translation (p : Program) (t : Tree) (options : Options) (id : NodeId) (moduleName : String) :
      Program.Step p (t.moduleText options id moduleName p).2

def Program.Later : Program → Program → Prop := Relation.ReflTransGen Program.Step

/-! ## Growth -/

/-- Every translation has its account, also one of a node that is no module. -/
theorem accounts_translation (t : Tree) (options : Options) (id : NodeId) (moduleName : String) :
    ∃ R, Accounts (moduleAt ⟨t, options, moduleName, moduleIdentifier moduleName⟩ id) R
      fun _ => True := by
  cases hm : t.module? id with
  | none =>
      refine ⟨∅, ?_⟩
      unfold moduleAt
      rw [hm]
      exact Accounts.fail _ _ _
  | some m => exact ⟨_, accounts_moduleAt hm⟩

theorem Program.Sound.moduleText (hp : p.Sound) :
    (t.moduleText options id moduleName p).2.Sound ∧
      p.Extends (t.moduleText options id moduleName p).2 := by
  obtain ⟨R, haccounts⟩ := accounts_translation t options id moduleName
  obtain ⟨hsound, hext, -⟩ := haccounts ⟨p, {}⟩ hp
  exact ⟨hsound, hext⟩

/-- No use of a program takes anything away from it. -/
theorem Program.Sound.step (hp : p.Sound) (h : p.Step q) : q.Sound ∧ p.Extends q := by
  cases h with
  | request c => exact ⟨hp.grant (.constant c), hp.extends_grant (.constant c)⟩
  | tuples n => exact ⟨hp.grant (.tuple n), hp.extends_grant (.tuple n)⟩
  | lists n => exact ⟨hp.grant (.list n), hp.extends_grant (.list n)⟩
  | dicts n => exact ⟨hp.grant (.dict n), hp.extends_grant (.dict n)⟩
  | translation t options id moduleName => exact hp.moduleText

theorem Program.Sound.later (hp : p.Sound) (h : p.Later q) : q.Sound ∧ p.Extends q := by
  induction h with
  | refl => exact ⟨hp, Extends.refl p⟩
  | tail _ hstep ih =>
      obtain ⟨hsound, hext⟩ := ih.1.step hstep
      exact ⟨hsound, ih.2.trans hext⟩

theorem Program.Reached.sound (h : p.Reached) : p.Sound := by
  induction h with
  | empty => exact sound_empty
  | request p c _ ih => exact (ih.step (.request p c)).1
  | tuples p n _ ih => exact (ih.step (.tuples p n)).1
  | lists p n _ ih => exact (ih.step (.lists p n)).1
  | dicts p n _ ih => exact (ih.step (.dicts p n)).1
  | translation p t options id moduleName _ ih => exact ih.moduleText.1

/-! ## Repetition -/

/-- A module that has been translated gets the same text in every later program, which it leaves
as it is. -/
theorem moduleText_repeats (hp : p.Reached) {text : String}
    (htext : (t.moduleText options id moduleName p).1 = .ok text)
    (hq : (t.moduleText options id moduleName p).2.Later q) :
    t.moduleText options id moduleName q = (.ok text, q) := by
  obtain ⟨R, haccounts⟩ := accounts_translation t options id moduleName
  obtain ⟨hsound, -, hok⟩ := haccounts ⟨p, {}⟩ hp.sound
  obtain ⟨hqsound, hext⟩ := hsound.later hq
  have hrun := (hok text htext).repeats q hqsound hext
  rw [Tree.moduleText, hrun]

/-- The module `print (x, "spam"), 1`. -/
def printedPair : Tree where
  nodes :=
    let entry (kind : NodeKind) (parent : Option NodeId) : Node :=
      ⟨kind, parent, { file := "pair.py", line := 1 }⟩
    #[entry (.module { name := "pair", filename := "pair.py", body := some ⟨1⟩ }) none,
      entry (.sequence [⟨2⟩]) (some ⟨0⟩),
      entry (.stmt (.print none [⟨3⟩, ⟨6⟩] true)) (some ⟨1⟩),
      entry (.expr (.makeTuple [⟨4⟩, ⟨5⟩])) (some ⟨2⟩),
      entry (.expr (.variableRef "x" (some ⟨"x", .moduleGlobal⟩))) (some ⟨3⟩),
      entry (.expr (.constant (.str "spam"))) (some ⟨3⟩),
      entry (.expr (.constant (.int 1))) (some ⟨2⟩)]
  root := some ⟨0⟩

/-- The program after `printedPair`, another tuple and `printedPair` under a second name. -/
def afterPairs : Program :=
  (printedPair.moduleText {} ⟨0⟩ "eggs"
    (recordTuple 3 (printedPair.moduleText {} ⟨0⟩ "pair" {}).2).2).2

def printedPairPositions : List Position :=
  [(.sequence, ⟨1⟩), (.statement, ⟨2⟩), (.expression, ⟨3⟩), (.expression, ⟨6⟩), (.expression, ⟨4⟩),
    (.expression, ⟨5⟩)]

theorem moduleText_repeats_printedPair :
    Program.Reached {} ∧ ∃ text, (printedPair.moduleText {} ⟨0⟩ "pair" {}).1 = .ok text ∧
      (printedPair.moduleText {} ⟨0⟩ "pair" {}).2.Later afterPairs ∧
      printedPair.moduleText {} ⟨0⟩ "pair" afterPairs = (.ok text, afterPairs) := by
  have hwf : printedPair.WellFormed :=
    Tree.WellFormed.of_arena rfl rfl (by decide) (by decide +kernel)
  obtain ⟨hparent, htree⟩ := hwf ⟨0⟩ rfl
  have hclosed : ∀ q ∈ printedPairPositions, (printedPair.kind q.2).fits false q.1 = true ∧
      ∀ r ∈ printedPair.positions q.2, r ∈ printedPairPositions := by decide +kernel
  obtain ⟨text, htext⟩ : ∃ text, (printedPair.moduleText {} ⟨0⟩ "pair" {}).1 = .ok text :=
    (isOk_moduleText_iff htree hparent ⟨_, rfl⟩ (Tree.unspaced_of_nodes (by decide +kernel))
      wellFormed_empty).mpr fun q hq => Tree.resolved_of_closed hclosed q (by
        rw [List.mem_singleton.mp hq]
        exact List.mem_cons_self)
  have hlater : (printedPair.moduleText {} ⟨0⟩ "pair" {}).2.Later afterPairs := by
    rw [afterPairs]
    exact (Relation.ReflTransGen.single (Step.tuples _ 3)).tail (Step.translation _ _ _ _ _)
  exact ⟨Program.Reached.empty, text, htext, hlater,
    moduleText_repeats Program.Reached.empty htext hlater⟩

end CompilerBackend
