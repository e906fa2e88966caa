import CompilerBackend.Raise.Step
import Mathlib.Data.Finset.Image
import Mathlib.Data.Fintype.EquivFin
import Mathlib.Data.Set.Basic
/-!
# What a clause catches in every run

A run decides what the tree leaves open: which exceptions a caught expression matches that names no
builtin exception, and which exception is raised where no builtin one is named. The verdict on a
clause and a raise is exact for all of these runs together.

- `Tree.Catches`: the clause catches what is raised in a run.
- `Tree.decision_catches`: how a verdict comes about.
- `Verdict.Fits`, `Tree.fits_catches`: the verdict is the one that the runs allow.
- `Tree.catches_exact`: each verdict is answered for the runs it is meant for, and for no others.
-/

namespace CompilerBackend

/-! ## Verdicts and runs -/

/-- A verdict that says of all runs what is so in them. -/
inductive Verdict.Fits {α : Type*} (P : α → Prop) : Verdict → Prop
  | always (holds : ∀ v, P v) : Fits P .always
  | never (fails : ∀ v, ¬ P v) : Fits P .never
  | undecided {v w : α} (holds : P v) (fails : ¬ P w) : Fits P .undecided

namespace Verdict.Fits

variable {α : Type*} [Nonempty α] {P : α → Prop} {verdict : Verdict}

theorem always_iff (h : Fits P verdict) : verdict = .always ↔ ∀ v, P v := by
  cases h with
  | always holds => exact iff_of_true rfl holds
  | never fails =>
      exact iff_of_false nofun fun hall => fails (Classical.arbitrary α) (hall _)
  | undecided _ fails => exact iff_of_false nofun fun hall => fails (hall _)

theorem never_iff (h : Fits P verdict) : verdict = .never ↔ ∀ v, ¬ P v := by
  cases h with
  | always holds =>
      exact iff_of_false nofun fun hall => hall (Classical.arbitrary α) (holds _)
  | never fails => exact iff_of_true rfl fails
  | undecided holds _ => exact iff_of_false nofun fun hall => hall _ holds

omit [Nonempty α] in
theorem undecided_iff (h : Fits P verdict) :
    verdict = .undecided ↔ (∃ v, P v) ∧ ∃ v, ¬ P v := by
  cases h with
  | always holds => exact iff_of_false nofun fun ⟨_, v, hv⟩ => hv (holds v)
  | never fails => exact iff_of_false nofun fun ⟨⟨v, hv⟩, _⟩ => fails v hv
  | undecided holds fails => exact iff_of_true rfl ⟨⟨_, holds⟩, _, fails⟩

end Verdict.Fits

namespace Tree

/-! ## Runs -/

/-- What a run decides about caught and raised expressions. -/
structure Valuation (E : Type*) where
  /-- What a caught expression matches that names no builtin exception. -/
  matched : NodeId → Set E
  /-- What is raised where no builtin exception is named. -/
  thrown : E

variable {E : Type*}

def matchedBy (t : Tree) (builtin : String ↪ E) (v : Valuation E) (id : NodeId) : Set E :=
  match t.expr? id with
  | some (.exception name) => {builtin name}
  | _ => v.matched id

def thrownBy (t : Tree) (builtin : String ↪ E) (v : Valuation E) : Option NodeId → E
  | none => v.thrown
  | some id =>
    match t.expr? id with
    | some (.exception name) | some (.makeException name _) => builtin name
    | _ => v.thrown

/-- The clause catches what is raised. Builtin exceptions of different names are different, so there
are infinitely many exceptions. -/
def Catches (t : Tree) (builtin : String ↪ E) (v : Valuation E) (caught : List NodeId)
    (raised : Option NodeId) : Prop :=
  caught = [] ∨ ∃ id ∈ caught, t.thrownBy builtin v raised ∈ t.matchedBy builtin v id

variable {t : Tree} {builtin : String ↪ E} {v : Valuation E} {caught : List NodeId}
  {raised : Option NodeId} {id : NodeId}

theorem matchedBy_eq : t.matchedBy builtin v id =
    (t.caughtName? id).elim (v.matched id) fun name => {builtin name} := by
  rw [matchedBy, caughtName?]
  cases t.expr? id with
  | none => rfl
  | some e => cases e <;> rfl

theorem thrownBy_eq : t.thrownBy builtin v raised =
    (raised.bind t.raisedName?).elim v.thrown builtin := by
  cases raised with
  | none => rfl
  | some id =>
      rw [thrownBy, Option.bind_some, raisedName?]
      cases t.expr? id with
      | none => rfl
      | some e => cases e <;> rfl

/-! ## Decisions -/

/-- How a verdict on a clause and a raise comes about. -/
inductive Decision (t : Tree) (caught : List NodeId) (raised : Option NodeId) : Verdict → Prop
  /-- A clause without types. -/
  | bare (empty : caught = []) : Decision t caught raised .always
  /-- What is raised is named by the clause. -/
  | named {id : NodeId} {name : String} (thrown : raised.bind t.raisedName? = some name)
      (mem : id ∈ caught) (names : t.caughtName? id = some name) : Decision t caught raised .always
  /-- The clause names other exceptions only. -/
  | others {name : String} (nonempty : caught ≠ []) (thrown : raised.bind t.raisedName? = some name)
      (names : ∀ id ∈ caught, ∃ other, t.caughtName? id = some other ∧ other ≠ name) :
      Decision t caught raised .never
  /-- It is not known what is raised. -/
  | unknownRaise (nonempty : caught ≠ []) (thrown : raised.bind t.raisedName? = none) :
      Decision t caught raised .undecided
  /-- It is not known what the clause catches besides others. -/
  | unknownType {id : NodeId} {name : String} (thrown : raised.bind t.raisedName? = some name)
      (mem : id ∈ caught) (unnamed : t.caughtName? id = none)
      (absent : ∀ id ∈ caught, t.caughtName? id ≠ some name) : Decision t caught raised .undecided

theorem decision_catches (t : Tree) (caught : List NodeId) (raised : Option NodeId) :
    Decision t caught raised (t.catches caught raised) := by
  unfold catches
  split
  next hempty => exact .bare (List.isEmpty_iff.mp hempty)
  next hempty =>
      have hne : caught ≠ [] := fun hnil => hempty (List.isEmpty_iff.mpr hnil)
      split
      next hthrown => exact .unknownRaise hne hthrown
      next name hthrown =>
          simp only [List.contains_iff_mem, List.mem_map, List.all_map, List.all_eq_true]
          split_ifs with hnamed hall
          · obtain ⟨id, hid, hname⟩ := hnamed
            exact .named hthrown hid hname
          · refine .others hne hthrown fun id hid => ?_
            obtain ⟨other, hother⟩ := Option.isSome_iff_exists.mp (hall id hid)
            exact ⟨other, hother, fun heq => hnamed ⟨id, hid, heq ▸ hother⟩⟩
          · push Not at hall
            obtain ⟨id, hid, hunnamed⟩ := hall
            refine .unknownType hthrown hid ?_ fun i hi hname => hnamed ⟨i, hi, hname⟩
            simpa using hunnamed

/-! ## Runs for a verdict -/

/-- In a run in which unknown types match nothing, only named exceptions are caught. -/
theorem not_catches_of_absent {e : E} (hne : caught ≠ [])
    (hthrown : t.thrownBy builtin ⟨fun _ => ∅, e⟩ raised = e)
    (habsent : ∀ id ∈ caught, ∀ name, t.caughtName? id = some name → builtin name ≠ e) :
    ¬ t.Catches builtin ⟨fun _ => ∅, e⟩ caught raised := by
  rintro (hnil | ⟨id, hid, hmem⟩)
  · exact hne hnil
  · rw [hthrown, matchedBy_eq] at hmem
    cases hname : t.caughtName? id with
    | none =>
        rw [hname] at hmem
        exact hmem
    | some name =>
        rw [hname] at hmem
        exact habsent id hid name hname hmem.symm

/-- There is an exception that no expression of the list names. -/
theorem exists_unnamed (t : Tree) (builtin : String ↪ E) (caught : List NodeId) :
    ∃ e : E, ∀ id ∈ caught, ∀ name, t.caughtName? id = some name → builtin name ≠ e := by
  classical
  obtain ⟨fresh, hfresh⟩ := Infinite.exists_notMem_finset (caught.filterMap t.caughtName?).toFinset
  refine ⟨builtin fresh, fun id hid name hname heq => hfresh ?_⟩
  rw [List.mem_toFinset, List.mem_filterMap, ← builtin.injective heq]
  exact ⟨id, hid, hname⟩

theorem Decision.fits {verdict : Verdict} (h : Decision t caught raised verdict)
    (builtin : String ↪ E) :
    Verdict.Fits (fun v => t.Catches builtin v caught raised) verdict := by
  cases h with
  | bare hempty => exact .always fun v => Or.inl hempty
  | @named id name hthrown hid hname =>
      refine .always fun v => Or.inr ⟨id, hid, ?_⟩
      rw [thrownBy_eq, hthrown, matchedBy_eq, hname]
      rfl
  | @others name hne hthrown hnames =>
      refine .never fun v => ?_
      rintro (hnil | ⟨id, hid, hmem⟩)
      · exact hne hnil
      · obtain ⟨other, hother, hdiffers⟩ := hnames id hid
        rw [thrownBy_eq, hthrown, matchedBy_eq, hother] at hmem
        exact hdiffers (builtin.injective hmem).symm
  | unknownRaise hne hthrown =>
      -- the first expression matches what is raised in one run, none does in another
      obtain ⟨id, rest, rfl⟩ := List.exists_cons_of_ne_nil hne
      obtain ⟨e, he⟩ := exists_unnamed t builtin (id :: rest)
      have hany : ∀ v : Valuation E, t.thrownBy builtin v raised = v.thrown := fun v => by
        rw [thrownBy_eq, hthrown]
        rfl
      refine .undecided (v := ⟨fun _ => Set.univ, ((t.caughtName? id).map builtin).getD e⟩)
        (w := ⟨fun _ => ∅, e⟩) (Or.inr ⟨id, List.mem_cons_self, ?_⟩)
        (not_catches_of_absent hne (hany _) he)
      rw [hany, matchedBy_eq]
      cases t.caughtName? id with
      | none => exact Set.mem_univ _
      | some name => exact Set.mem_singleton _
  | @unknownType id name hthrown hid hunnamed habsent =>
      have hknown : ∀ v : Valuation E, t.thrownBy builtin v raised = builtin name := fun v => by
        rw [thrownBy_eq, hthrown]
        rfl
      refine .undecided (v := ⟨fun _ => Set.univ, builtin name⟩)
        (w := ⟨fun _ => ∅, builtin name⟩) (Or.inr ⟨id, hid, ?_⟩)
        (not_catches_of_absent (List.ne_nil_of_mem hid) (hknown _) ?_)
      · rw [matchedBy_eq, hunnamed]
        exact Set.mem_univ _
      · intro i hi other hother heq
        exact habsent i hi (hother.trans (congrArg some (builtin.injective heq)))

/-- The verdict is the one that the runs allow. -/
theorem fits_catches (t : Tree) (builtin : String ↪ E) (caught : List NodeId)
    (raised : Option NodeId) :
    Verdict.Fits (fun v => t.Catches builtin v caught raised) (t.catches caught raised) :=
  (decision_catches t caught raised).fits builtin

/-- Only what the expressions of a clause name counts, not their order or number. -/
theorem catches_congr {caught' : List NodeId}
    (h : ∀ name, name ∈ caught.map t.caughtName? ↔ name ∈ caught'.map t.caughtName?) :
    t.catches caught raised = t.catches caught' raised := by
  have hempty : caught.isEmpty = caught'.isEmpty := by
    rw [Bool.eq_iff_iff, List.isEmpty_iff, List.isEmpty_iff, ← List.map_eq_nil_iff,
      ← List.map_eq_nil_iff (l := caught'), List.eq_nil_iff_forall_not_mem,
      List.eq_nil_iff_forall_not_mem]
    exact forall_congr' fun name => not_congr (h name)
  have hcontains : ∀ name, (caught.map t.caughtName?).contains name =
      (caught'.map t.caughtName?).contains name := by
    intro name
    rw [Bool.eq_iff_iff, List.contains_iff_mem, List.contains_iff_mem]
    exact h name
  have hall : (caught.map t.caughtName?).all Option.isSome =
      (caught'.map t.caughtName?).all Option.isSome := by
    rw [Bool.eq_iff_iff, List.all_eq_true, List.all_eq_true]
    exact forall_congr' fun name => imp_congr_left (h name)
  simp only [catches, hempty, hcontains, hall]

/-- A clause catches a raise always if it does so in every run, never if in none, and is undecided
if there are runs of both kinds. So the verdict does not depend on the order of what is caught, or
on how often it is named. -/
theorem catches_exact (t : Tree) (builtin : String ↪ E) (caught : List NodeId)
    (raised : Option NodeId) :
    (t.catches caught raised = .always ↔ ∀ v, t.Catches builtin v caught raised) ∧
      (t.catches caught raised = .never ↔ ∀ v, ¬ t.Catches builtin v caught raised) ∧
      (t.catches caught raised = .undecided ↔
        (∃ v, t.Catches builtin v caught raised) ∧ ∃ v, ¬ t.Catches builtin v caught raised) ∧
      ∀ caught', (∀ name, name ∈ caught.map t.caughtName? ↔ name ∈ caught'.map t.caughtName?) →
        t.catches caught raised = t.catches caught' raised := by
  have hfits := fits_catches t builtin caught raised
  have : Nonempty (Valuation E) := ⟨⟨fun _ => ∅, builtin ""⟩⟩
  exact ⟨hfits.always_iff, hfits.never_iff, hfits.undecided_iff, fun _ h => catches_congr h⟩

/-- Expressions of clauses and raises: two builtin exceptions, a name, and one that is made. -/
def caughtTypes : Tree where
  nodes :=
    let entry (e : Expr) : Node := ⟨.expr e, none, { file := "spam.py", line := 1 }⟩
    #[entry (.exception "ValueError"),
      entry (.exception "KeyError"),
      entry (.variableRef "MyError" (some ⟨"MyError", .moduleGlobal⟩)),
      entry (.exception "ValueError"),
      entry (.makeException "ValueError" [])]
  root := none

/-- A name behind another exception leaves open what is caught, in whatever order and however often
they are given. -/
theorem catches_exact_caughtTypes :
    caughtTypes.catches [⟨1⟩, ⟨2⟩] (some ⟨4⟩) = .undecided ∧
      caughtTypes.catches [⟨2⟩, ⟨1⟩, ⟨2⟩] (some ⟨4⟩) = .undecided ∧
      (∃ v, caughtTypes.Catches (.refl String) v [⟨1⟩, ⟨2⟩] (some ⟨4⟩)) ∧
      ∃ v, ¬ caughtTypes.Catches (.refl String) v [⟨1⟩, ⟨2⟩] (some ⟨4⟩) := by
  have hundecided : caughtTypes.catches [⟨1⟩, ⟨2⟩] (some ⟨4⟩) = .undecided := by decide
  obtain ⟨-, -, hboth, hcongr⟩ := catches_exact caughtTypes (.refl String) [⟨1⟩, ⟨2⟩] (some ⟨4⟩)
  have hnames : ∀ name, name ∈ [⟨1⟩, ⟨2⟩].map caughtTypes.caughtName? ↔
      name ∈ [⟨2⟩, ⟨1⟩, ⟨2⟩].map caughtTypes.caughtName? := by
    intro name
    simp only [List.map_cons, List.map_nil, List.mem_cons, List.not_mem_nil, or_false]
    tauto
  exact ⟨hundecided, (hcongr _ hnames).symm.trans hundecided, hboth.mp hundecided⟩

end Tree
end CompilerBackend
