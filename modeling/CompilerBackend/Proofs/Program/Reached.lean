import CompilerBackend.Proofs.Lowering.Modules
/-!
# Programs that translations reach

A program starts empty and is added to by requests for handles, by recorded sizes and by the
translation of modules, whether these succeed or not. Its table stays well-formed all along, and
no step changes or removes an entry.
-/

namespace CompilerBackend

open Program Target Lowering

variable {t : Tree} {options : Options} {id : NodeId} {moduleName : String} {p : Program}

/-! ## Modules that come to an end -/

/-- What a module's lowering meets, for its text and the program after it. -/
theorem moduleText_of_meets {w : Wording} {T Φ : Prop} {Q : String → Prop}
    (h : Meets w T True (moduleAt ⟨t, options, moduleName, moduleIdentifier moduleName⟩ id) Φ Q)
    (hp : p.WellFormed) (hw : w.program = (t.moduleText options id moduleName p).2) :
    (∀ text, (t.moduleText options id moduleName p).1 = .ok text → Q text) ∧
      (T → ((∃ text, (t.moduleText options id moduleName p).1 = .ok text) ↔ Φ)) := by
  obtain ⟨-, -, h⟩ := h ⟨p, {}⟩ hp
  obtain ⟨-, hresult, haccepts⟩ := h trivial (by rw [hw]; exact Extends.refl _) ScopeStack.Registers.empty
  exact ⟨hresult, haccepts⟩

/-! ## Any module at all -/

def Wording.free : Wording where
  program := {}
  stray _ := True
  converts _ := True
  tight := False
  absent _ := False
  plain := False
  apart := False
  pairs _ _ := True

theorem allows_free (word : String) : Wording.free.Allows word :=
  ⟨fun _ => Or.inr trivial, fun _ => trivial⟩

theorem calm_free (s : String) : Calm Wording.free s :=
  fun word _ => ⟨allows_free word, fun h => h.1.elim⟩

theorem named_free (s : String) : Named Wording.free s :=
  ⟨⟨calm_free s, False.elim, fun _ _ _ => False.elim⟩, False.elim⟩

theorem grounded_free {s : Setting} (hc : IsIdentifier s.codeName) :
    Grounded Wording.free s False id where
  pairs _ _ _ _ := trivial
  tight := False.elim
  codeName := hc.codeNamed
  suits _ _ := ⟨(named_free _).toShown, fun _ _ => named_free _, fun _ _ => calm_free _,
    fun _ _ => (calm_free _).worded, fun _ => allows_free _⟩

/-- A translation keeps the program well-formed and only adds to it, whatever it is given. -/
theorem Program.WellFormed.moduleText (hp : p.WellFormed) :
    (t.moduleText options id moduleName p).2.WellFormed ∧
      p.Extends (t.moduleText options id moduleName p).2 := by
  have hmeets : Meets Wording.free _ True
      (moduleAt ⟨t, options, moduleName, moduleIdentifier moduleName⟩ id) _ _ :=
    meets_moduleAt (grounded_free (isIdentifier_moduleIdentifier moduleName))
      (calm_free _) (calm_free _).worded
  obtain ⟨hwf, hext, -⟩ := hmeets ⟨p, {}⟩ hp
  exact ⟨hwf, hext⟩

/-! ## Programs -/

/-- The programs that earlier requests and translations leave, those that failed included. -/
inductive Program.Reached : Program → Prop
  | empty : Program.Reached {}
  | request (p : Program) (c : Constant) (h : p.Reached) : Program.Reached (handleOf c p).2
  | tuples (p : Program) (n : Nat) (h : p.Reached) : Program.Reached (recordTuple n p).2
  | lists (p : Program) (n : Nat) (h : p.Reached) : Program.Reached (recordList n p).2
  | dicts (p : Program) (n : Nat) (h : p.Reached) : Program.Reached (recordDict n p).2
  | translation (p : Program) (t : Tree) (options : Options) (id : NodeId) (moduleName : String)
      (h : p.Reached) : Program.Reached (t.moduleText options id moduleName p).2

theorem Program.Reached.wellFormed (h : p.Reached) : p.WellFormed := by
  induction h with
  | empty => exact wellFormed_empty
  | request p c _ ih => exact (ih.intern c).1
  | tuples p n _ ih => exact wellFormed_of_constants ih rfl
  | lists p n _ ih => exact wellFormed_of_constants ih rfl
  | dicts p n _ ih => exact wellFormed_of_constants ih rfl
  | translation p t options id moduleName _ ih => exact ih.moduleText.1

end CompilerBackend
