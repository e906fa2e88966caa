import CompilerBackend.Proofs.Lowering.Runs
import CompilerBackend.Proofs.Program.Reached
/-!
# Slices

A slice takes native bounds exactly where the version slices natively and each bound is absent or
a small integer or boolean constant. A native bound is the decimal text of the constant and asks
the program for nothing. What would convert another object to a native bound is never written, so
its name is a token of a text only if a name in the tree brings it in.

- `NativeBound`: native bounds and their texts; `runsTo_bound_iff`: a bound is lowered to its text.
- `Bounded`: how the bounds of a slice are given; `runsTo_sliceLookup_iff` and the like.
- `Supplied`: tokens that names bring in; `supplied_of_generated`: there are no others like that.
- `slices_bounded`: all of this for each of the three operations.
-/

namespace CompilerBackend

open Lowering Target Text Program

variable {s : Setting} {self : Lowerer} {g g' : Progress} {id source top : NodeId}
  {lower upper o : Option NodeId} {text absent : String} {p : Program}

/-! ## Native bounds -/

/-- A bound that can be native, and its text. -/
inductive NativeBound (t : Tree) (absent : String) : Option NodeId → String → Prop
  | unbounded : NativeBound t absent none absent
  | int (id : NodeId) (v : Int) (hkind : t.kind id = .expr (.constant (.int v)))
      (hsmall : |v| < 2 ^ 63 - 1) : NativeBound t absent (some id) (toString v)
  | bool (id : NodeId) (b : Bool) (hkind : t.kind id = .expr (.constant (.bool b))) :
      NativeBound t absent (some id) (if b then "1" else "0")

theorem Constant.smallIndex?_eq_some_iff {c : Constant} {v : Int} :
    c.smallIndex? = some v ↔ c.integer? = some v ∧ |v| < 2 ^ 63 - 1 := by
  rw [Constant.smallIndex?, Option.filter_eq_some_iff, decide_eq_true_eq, Constant.indexLimit]
  refine and_congr_right fun _ => ?_
  rw [Int.abs_eq_natAbs]
  omega

/-- The bounds with a native text are the constants that are small enough. -/
theorem nativeBound_some_iff {t : Tree} : NativeBound t absent (some id) text ↔
    ∃ v, (t.constant? id).bind Constant.smallIndex? = some v ∧ text = toString v := by
  simp only [Option.bind_eq_some_iff, Constant.smallIndex?_eq_some_iff]
  constructor
  · rintro (_ | ⟨_, v, hkind, hsmall⟩ | ⟨_, b, hkind⟩)
    · exact ⟨v, ⟨_, Tree.constant?_eq_some_iff.mpr hkind, rfl, hsmall⟩, rfl⟩
    · refine ⟨if b then 1 else 0, ⟨_, Tree.constant?_eq_some_iff.mpr hkind, rfl, ?_⟩, ?_⟩
      · cases b <;> decide
      · cases b <;> rfl
  · rintro ⟨v, ⟨c, hc, hinteger, hsmall⟩, rfl⟩
    have hkind := Tree.constant?_eq_some_iff.mp hc
    cases c with
    | int value =>
        obtain rfl : value = v := Option.some.inj hinteger
        exact .int id value hkind hsmall
    | bool b =>
        obtain rfl : (if b then 1 else 0) = v := Option.some.inj hinteger
        cases b with
        | false => exact .bool id false hkind
        | true => exact .bool id true hkind
    | _ => exact nomatch hinteger

theorem isNativeBound_iff {t : Tree} :
    isNativeBound t o = true ↔ ∃ text, NativeBound t absent o text := by
  cases o with
  | none => exact iff_of_true rfl ⟨absent, .unbounded⟩
  | some id =>
      simp only [isNativeBound, Option.all_some, Tree.isIndexable, Option.isSome_iff_exists,
        nativeBound_some_iff]
      exact ⟨fun ⟨v, hv⟩ => ⟨_, v, hv, rfl⟩, fun ⟨_, v, hv, _⟩ => ⟨v, hv⟩⟩

/-- A native bound is lowered to its text, and nothing else happens. -/
theorem runsTo_bound_iff (ho : isNativeBound s.tree o = true) :
    RunsTo (bound s.tree self o absent) g text g' ↔ NativeBound s.tree absent o text ∧ g' = g := by
  cases o with
  | none =>
      rw [bound, runsTo_pure_iff]
      refine and_congr_left fun _ => ⟨fun h => h ▸ .unbounded, ?_⟩
      rintro ⟨⟩
      rfl
  | some id =>
      obtain ⟨v, hv⟩ := Option.isSome_iff_exists.mp ho
      rw [bound, hv]
      dsimp only
      rw [runsTo_pure_iff, nativeBound_some_iff, hv]
      simp [constantBound]

theorem hasNativeBounds_iff : hasNativeBounds s lower upper = true ↔
    s.options.version.major < 3 ∧ (∃ l, NativeBound s.tree openLowerBound lower l) ∧
      ∃ u, NativeBound s.tree openUpperBound upper u := by
  rw [hasNativeBounds, Bool.and_eq_true, Bool.and_eq_true, and_assoc, Options.hasSlicing,
    decide_eq_true_eq, isNativeBound_iff, isNativeBound_iff]

/-! ## Bounds of a slice -/

/-- The bounds of a slice in target text: native ones, or objects. -/
inductive Bounds where
  | native (lower upper : String)
  | objects (lower upper : Option Operand)

def lookupForm (options : Options) (src : Operand) : Bounds → Operand
  | .native l u => indexedSliceLookup src l u
  | .objects l u =>
    if options.version.major < 3 then sliceLookup src l u
    else subscriptLookup src (sliceObject l u none)

def assignmentForm (options : Options) (src value : Operand) : Bounds → String
  | .native l u => indexedSliceAssignment src l u value
  | .objects l u =>
    if options.version.major < 3 then sliceAssignment src l u value
    else subscriptAssignment src (sliceObject l u none) value

def deletionForm (src : Operand) : Bounds → String
  | .native l u => indexedSliceDeletion src l u
  | .objects l u => subscriptDeletion src (sliceObject l u none)

/-- From a state, the bounds of a slice are given in this way and leave another state. Native bounds
leave the same one. -/
inductive Bounded (s : Setting) (self : Lowerer) (lower upper : Option NodeId) (g : Progress) :
    Bounds → Progress → Prop
  | native (l u : String) (hmajor : s.options.version.major < 3)
      (hl : NativeBound s.tree "0" lower l) (hu : NativeBound s.tree "PY_SSIZE_T_MAX" upper u) :
      Bounded s self lower upper g (.native l u) g
  | objects (l u : Option Operand) (g₁ g' : Progress)
      (hnone : ¬ (s.options.version.major < 3 ∧ (∃ l, NativeBound s.tree "0" lower l) ∧
        ∃ u, NativeBound s.tree "PY_SSIZE_T_MAX" upper u))
      (hl : RunsTo (self.optional lower) g l g₁) (hu : RunsTo (self.optional upper) g₁ u g') :
      Bounded s self lower upper g (.objects l u) g'

theorem bounded_native_iff {l u : String} : Bounded s self lower upper g (.native l u) g' ↔
    hasNativeBounds s lower upper = true ∧ RunsTo (bounds s.tree self lower upper) g (l, u) g' := by
  constructor
  · rintro ⟨_, _, hmajor, hl, hu⟩
    have hnative := hasNativeBounds_iff.mpr ⟨hmajor, ⟨l, hl⟩, u, hu⟩
    have hbounds := hnative
    rw [hasNativeBounds, Bool.and_eq_true, Bool.and_eq_true] at hbounds
    refine ⟨hnative, runsTo_bind_iff.mpr ⟨l, g, (runsTo_bound_iff hbounds.1.2).mpr ⟨hl, rfl⟩,
      runsTo_bind_iff.mpr ⟨u, g, (runsTo_bound_iff hbounds.2).mpr ⟨hu, rfl⟩, ?_⟩⟩⟩
    exact runsTo_pure_iff.mpr ⟨rfl, rfl⟩
  · rintro ⟨hnative, hrun⟩
    have hbounds := hnative
    rw [hasNativeBounds, Bool.and_eq_true, Bool.and_eq_true] at hbounds
    obtain ⟨_, _, hlower, hrun⟩ := runsTo_bind_iff.mp hrun
    obtain ⟨_, _, hupper, hend⟩ := runsTo_bind_iff.mp hrun
    obtain ⟨hpair, rfl⟩ := runsTo_pure_iff.mp hend
    obtain ⟨rfl, rfl⟩ := Prod.mk.inj hpair
    obtain ⟨hl, rfl⟩ := (runsTo_bound_iff hbounds.1.2).mp hlower
    obtain ⟨hu, rfl⟩ := (runsTo_bound_iff hbounds.2).mp hupper
    exact .native _ _ (hasNativeBounds_iff.mp hnative).1 hl hu

theorem bounded_objects_iff {l u : Option Operand} :
    Bounded s self lower upper g (.objects l u) g' ↔ hasNativeBounds s lower upper = false ∧
      RunsTo (boundObjects self lower upper) g (l, u) g' := by
  rw [← Bool.not_eq_true, hasNativeBounds_iff]
  constructor
  · rintro (_ | ⟨_, _, g₁, _, hnone, hl, hu⟩)
    exact ⟨hnone, runsTo_bind_iff.mpr ⟨l, g₁, hl, runsTo_bind_iff.mpr ⟨u, g', hu,
      runsTo_pure_iff.mpr ⟨rfl, rfl⟩⟩⟩⟩
  · rintro ⟨hnone, hrun⟩
    obtain ⟨_, g₁, hl, hrun⟩ := runsTo_bind_iff.mp hrun
    obtain ⟨_, _, hu, hend⟩ := runsTo_bind_iff.mp hrun
    obtain ⟨hpair, rfl⟩ := runsTo_pure_iff.mp hend
    obtain ⟨rfl, rfl⟩ := Prod.mk.inj hpair
    exact .objects _ _ g₁ _ hnone hl hu

def sliceBounds (s : Setting) (self : Lowerer) (lower upper : Option NodeId) : Lower Bounds :=
  if hasNativeBounds s lower upper then do
    let (l, u) ← bounds s.tree self lower upper
    return .native l u
  else do
    let (l, u) ← boundObjects self lower upper
    return .objects l u

theorem runsTo_sliceBounds_iff {b : Bounds} :
    RunsTo (sliceBounds s self lower upper) g b g' ↔ Bounded s self lower upper g b g' := by
  have hreturn : ∀ {α : Type} {step : Lower (α × α)} {form : α → α → Bounds},
      RunsTo (do let (l, u) ← step; return form l u) g b g' ↔
        ∃ l u, RunsTo step g (l, u) g' ∧ b = form l u := by
    intro α step form
    rw [runsTo_bind_iff]
    constructor
    · rintro ⟨⟨l, u⟩, _, hstep, hend⟩
      obtain ⟨rfl, rfl⟩ := runsTo_pure_iff.mp hend
      exact ⟨l, u, hstep, rfl⟩
    · rintro ⟨l, u, hstep, rfl⟩
      exact ⟨(l, u), g', hstep, runsTo_pure_iff.mpr ⟨rfl, rfl⟩⟩
  unfold sliceBounds
  by_cases hnative : hasNativeBounds s lower upper = true
  · rw [if_pos hnative, hreturn]
    cases b with
    | native l u => simp [bounded_native_iff, hnative]
    | objects l u => simp [bounded_objects_iff, hnative]
  · rw [if_neg hnative, hreturn]
    cases b with
    | native l u => simp [bounded_native_iff, hnative]
    | objects l u => simp [bounded_objects_iff, hnative]

/-! ## The three operations -/

theorem defect?_owned_applied {f : String} (hf : isHead f = true) (arguments : List String) :
    (Operand.owned (applied f arguments)).defect? = none := by
  have hstarts := (starts_of_isHead hf).applied arguments
  exact Operand.defect?_of_hasNoMargin hstarts.isBlankText_eq_false
    (hasNoMargin_of_solid hstarts (stops_applied f arguments))

theorem hasNoMargin_terminated_applied {f : String} (hf : isHead f = true)
    (arguments : List String) : hasNoMargin (terminated (applied f arguments)) = true :=
  hasNoMargin_of_solid (((starts_of_isHead hf).applied arguments).append _)
    ((stops_of_code (a := ";") (by rfl) (by rfl)).append _)

/-- A slice's bounds are native ones or objects, in what is made of them too. -/
theorem sliceBounds_form {α : Type} (form : Bounds → α) :
    (do let b ← sliceBounds s self lower upper; return form b) =
      if hasNativeBounds s lower upper then do
        let (l, u) ← bounds s.tree self lower upper
        return form (.native l u)
      else do
        let (l, u) ← boundObjects self lower upper
        return form (.objects l u) := by
  unfold sliceBounds
  split
  · rw [bind_assoc]
    simp only [pure_bind]
  · rw [bind_assoc]
    simp only [pure_bind]

theorem sliceLookup_eq : Lowering.sliceLookup s self source lower upper = (do
    let src ← self.expression source
    let b ← sliceBounds s self lower upper
    return lookupForm s.options src b) := by
  simp only [sliceBounds_form]
  unfold Lowering.sliceLookup Lowering.sliceObject Options.hasSlicing
  refine congrArg _ (funext fun src => ?_)
  by_cases hmajor : s.options.version.major < 3
  · simp [hmajor, lookupForm]
  · simp [hmajor, lookupForm]

theorem sliceAssignment_eq {value : Operand} :
    Lowering.sliceAssignment s self source lower upper value = (do
      let src ← self.expression source
      let b ← sliceBounds s self lower upper
      return assignmentForm s.options src value b) := by
  simp only [sliceBounds_form]
  unfold Lowering.sliceAssignment Lowering.sliceObject Options.hasSlicing
  refine congrArg _ (funext fun src => ?_)
  by_cases hmajor : s.options.version.major < 3
  · simp [hmajor, assignmentForm]
  · simp [hmajor, assignmentForm]

theorem sliceDeletion_eq : Lowering.sliceDeletion s self source lower upper = (do
    let src ← self.expression source
    let b ← sliceBounds s self lower upper
    return deletionForm src b) := by
  simp only [sliceBounds_form]
  unfold Lowering.sliceDeletion Lowering.sliceObject
  simp [deletionForm]

/-- A step that goes on with the bounds of a slice. -/
theorem runsTo_bounded_iff {α : Type} {r : α} {form : Operand → Bounds → α} :
    RunsTo (do
        let src ← self.expression source
        let b ← sliceBounds s self lower upper
        return form src b) g r g' ↔
      ∃ src g₁ b, RunsTo (self.expression source) g src g₁ ∧ Bounded s self lower upper g₁ b g' ∧
        r = form src b := by
  rw [runsTo_bind_iff]
  refine exists_congr fun src => exists_congr fun g₁ => ?_
  rw [runsTo_bind_iff]
  constructor
  · rintro ⟨hsrc, b, _, hb, hend⟩
    obtain ⟨rfl, rfl⟩ := runsTo_pure_iff.mp hend
    exact ⟨b, hsrc, runsTo_sliceBounds_iff.mp hb, rfl⟩
  · rintro ⟨b, hsrc, hb, rfl⟩
    exact ⟨hsrc, b, g', runsTo_sliceBounds_iff.mpr hb, runsTo_pure_iff.mpr ⟨rfl, rfl⟩⟩

theorem defect?_lookupForm (src : Operand) (b : Bounds) :
    (lookupForm s.options src b).defect? = none := by
  cases b with
  | native l u => exact defect?_owned_applied (by rfl) _
  | objects l u =>
      rw [lookupForm]
      split
      · exact defect?_owned_applied (by rfl) _
      · exact defect?_owned_applied (by rfl) _

theorem hasNoMargin_assignmentForm (src value : Operand) (b : Bounds) :
    hasNoMargin (assignmentForm s.options src value b) = true := by
  cases b with
  | native l u => exact hasNoMargin_terminated_applied (by rfl) _
  | objects l u =>
      rw [assignmentForm]
      split
      · exact hasNoMargin_terminated_applied (by rfl) _
      · exact hasNoMargin_terminated_applied (by rfl) _

theorem hasNoMargin_deletionForm (src : Operand) (b : Bounds) :
    hasNoMargin (deletionForm src b) = true := by
  cases b with
  | native l u => exact hasNoMargin_terminated_applied (by rfl) _
  | objects l u => exact hasNoMargin_terminated_applied (by rfl) _

/-- The expression for a slice, in any run. -/
theorem runsTo_slice_iff {r : Operand} (hkind : s.tree.kind id = .expr (.slice source lower upper)) :
    RunsTo (Lowering.expression s self id) g r g' ↔ ∃ src g₁ b,
      RunsTo (self.expression source) g src g₁ ∧ Bounded s self lower upper g₁ b g' ∧
        r = lookupForm s.options src b := by
  rw [runsTo_expression_iff (Tree.expr?_eq_some_iff.mpr hkind)]
  change RunsTo (Lowering.sliceLookup s self source lower upper) g r g' ∧ _ ↔ _
  rw [sliceLookup_eq, runsTo_bounded_iff]
  refine and_iff_left_of_imp ?_
  rintro ⟨src, _, b, -, -, rfl⟩
  exact defect?_lookupForm src b

/-- The statement that replaces a slice, in any run; the value comes first. -/
theorem runsTo_assignSlice_iff {value : NodeId} {code : String}
    (hkind : s.tree.kind id = .stmt (.assignSlice source lower upper value)) :
    RunsTo (Lowering.statement s self id) g code g' ↔ ∃ v g₀ src g₁ b,
      RunsTo (self.expression value) g v g₀ ∧ RunsTo (self.expression source) g₀ src g₁ ∧
        Bounded s self lower upper g₁ b g' ∧ code = assignmentForm s.options src v b := by
  rw [runsTo_statement_iff (Tree.stmt?_eq_some_iff.mpr hkind)]
  change RunsTo (self.expression value >>= fun v =>
    Lowering.sliceAssignment s self source lower upper v) g code g' ∧ _ ↔ _
  rw [runsTo_bind_iff]
  simp only [sliceAssignment_eq, runsTo_bounded_iff]
  constructor
  · rintro ⟨⟨v, g₀, hv, src, g₁, b, hsrc, hb, rfl⟩, -⟩
    exact ⟨v, g₀, src, g₁, b, hv, hsrc, hb, rfl⟩
  · rintro ⟨v, g₀, src, g₁, b, hv, hsrc, hb, rfl⟩
    exact ⟨⟨v, g₀, hv, src, g₁, b, hsrc, hb, rfl⟩, hasNoMargin_assignmentForm src v b⟩

/-- The statement that deletes a slice, in any run. -/
theorem runsTo_deleteSlice_iff {code : String}
    (hkind : s.tree.kind id = .stmt (.deleteSlice source lower upper)) :
    RunsTo (Lowering.statement s self id) g code g' ↔ ∃ src g₁ b,
      RunsTo (self.expression source) g src g₁ ∧ Bounded s self lower upper g₁ b g' ∧
        code = deletionForm src b := by
  rw [runsTo_statement_iff (Tree.stmt?_eq_some_iff.mpr hkind)]
  change RunsTo (Lowering.sliceDeletion s self source lower upper) g code g' ∧ _ ↔ _
  rw [sliceDeletion_eq, runsTo_bounded_iff]
  refine and_iff_left_of_imp ?_
  rintro ⟨src, _, b, -, -, rfl⟩
  exact hasNoMargin_deletionForm src b

/-! ## The conversion to an index -/

/-- Tokens that names bring in: those of a file, of a name or title of a node, also with the fixed
text that is glued to it, and those of the module's name. -/
inductive Supplied (t : Tree) (top : NodeId) (moduleName : String) : String → Prop
  | file (n : NodeId) (hn : t.Connected top n) (word : String)
      (hword : IsToken word (t.location n).file) : Supplied t top moduleName word
  | name (n : NodeId) (hn : t.Connected top n) (name : String)
      (hname : name ∈ (t.kind n).names ++ (t.kind n).titles ++ (t.kind n).gluedTexts)
      (word : String) (hword : IsToken word name) : Supplied t top moduleName word
  | module (name : String) (hname : name = moduleName ∨ name = moduleIdentifier moduleName)
      (word : String) (hword : IsToken word name) : Supplied t top moduleName word

def Wording.unconverted (t : Tree) (top : NodeId) (moduleName : String) (p : Program) : Wording where
  program := p
  stray _ := True
  converts := Supplied t top moduleName
  tight := False
  absent _ := False
  plain := False
  apart := False
  pairs _ _ := True

section

variable {t : Tree} {moduleName : String}

theorem calm_unconverted {name : String}
    (h : ∀ word, IsToken word name → Supplied t top moduleName word) :
    Calm (Wording.unconverted t top moduleName p) name := fun word hword =>
  ⟨⟨fun _ => Or.inr trivial, fun _ => h word hword⟩, fun h => h.1.elim⟩

theorem grounded_unconverted (hcode : IsIdentifier s.codeName) (p : Program) :
    Grounded (Wording.unconverted s.tree top s.moduleName p) s False top where
  pairs _ _ _ _ := trivial
  tight := False.elim
  codeName := hcode.codeNamed
  suits n hn := by
    have hname : ∀ name ∈ (s.tree.kind n).names ++ (s.tree.kind n).titles ++
        (s.tree.kind n).gluedTexts, Calm (Wording.unconverted s.tree top s.moduleName p) name :=
      fun name hmem => calm_unconverted fun word hword => .name n hn name hmem word hword
    simp only [List.forall_mem_append] at hname
    obtain ⟨⟨hnames, htitles⟩, hglued⟩ := hname
    exact ⟨⟨calm_unconverted fun word hword => .file n hn word hword, False.elim,
      fun _ _ _ => False.elim⟩, fun name hmem => ⟨⟨hnames name hmem, False.elim,
        fun _ _ _ => False.elim⟩, False.elim⟩, htitles, fun s hs => (hglued s hs).worded,
      fun _ => ⟨fun _ => Or.inr trivial, fun h => absurd h (by decide)⟩⟩

end

/-- Texts that a node is translated to, in scopes of its own. -/
inductive Generated (s : Setting) (top : NodeId) (p : Program) : String → Prop
  | operand (r : Operand) (g' : Progress) (h : RunsTo (s.lowerer.expression top) ⟨p, {}⟩ r g') :
      Generated s top p r.code
  | condition (inverted : Bool) (code : String) (g' : Progress)
      (h : RunsTo (s.lowerer.condition top inverted) ⟨p, {}⟩ code g') : Generated s top p code
  | statement (code : String) (g' : Progress) (h : RunsTo (s.statement top) ⟨p, {}⟩ code g') :
      Generated s top p code
  | line (ls : List String) (g' : Progress) (h : RunsTo (s.lowerer.sequence top) ⟨p, {}⟩ ls g')
      (l : String) (hl : l ∈ ls) : Generated s top p l
  | module (text : String)
      (h : (s.tree.moduleText s.options top s.moduleName p).1 = .ok text) : Generated s top p text

/-- What a lowering in scopes of its own results in. -/
theorem RunsTo.meets {w : Wording} {T Φ : Prop} {α : Type} {step : Lower α} {a : α} {Q : α → Prop}
    (h : RunsTo step ⟨p, {}⟩ a g') (hs : Meets w T True step Φ Q) (hp : p.WellFormed)
    (hw : w.program = g'.program) : Q a := by
  obtain ⟨-, -, hs⟩ := hs ⟨p, {}⟩ hp
  rw [h] at hs
  exact (hs trivial (by rw [hw]; exact Extends.refl _) ScopeStack.Registers.empty).result a rfl

/-- The tokens of translated texts that begin like the conversion to an index come from names. -/
theorem supplied_of_generated (hcode : IsIdentifier s.codeName) (hp : p.WellFormed)
    (h : Generated s top p text) {word : String} (hword : IsToken word text)
    (hstart : indexStart.toList <+: word.toList) : Supplied s.tree top s.moduleName word := by
  have hself := Tree.Connected.refl s.tree top
  have hg : ∀ q, Grounded (Wording.unconverted s.tree top s.moduleName q) s False top :=
    grounded_unconverted hcode
  -- the judgements are about one program, here the one that each lowering ends with
  suffices hworded : ∃ q, Worded (Wording.unconverted s.tree top s.moduleName q) text by
    obtain ⟨q, hworded⟩ := hworded
    exact (hworded.allows hword).2 hstart
  cases h with
  | operand r g' h =>
      exact ⟨g'.program, (h.meets ((meets_ofDepth (hg _) _).expression hself) hp
        rfl).solid.piece.worded⟩
  | condition inverted _ g' h =>
      exact ⟨g'.program, (h.meets ((meets_ofDepth (hg _) _).condition inverted hself) hp
        rfl).solid.piece.worded⟩
  | statement _ g' h =>
      refine ⟨g'.program, ?_⟩
      have hresult := h.meets (meets_statement ((hg g'.program).weaken And.left)
        (handles_lowerer (hg _)) hself fun _ => Tree.Below.of_child) hp rfl
      rcases hresult with rfl | hblock
      · exact worded_empty
      · exact hblock.code.worded
  | line ls g' h l hl =>
      exact ⟨g'.program, (h.meets ((meets_ofDepth (hg _) _).sequence hself) hp rfl text hl).worded⟩
  | module _ h =>
      let own : Setting := ⟨s.tree, s.options, s.moduleName, moduleIdentifier s.moduleName⟩
      have hmodule : Grounded (Wording.unconverted own.tree top own.moduleName
          (s.tree.moduleText s.options top s.moduleName p).2) own False top :=
        grounded_unconverted (s := own) (isIdentifier_moduleIdentifier s.moduleName) _
      have hmeets := meets_moduleAt (H := True) hmodule
        (calm_unconverted fun word hword => .module _ (Or.inl rfl) word hword)
        (calm_unconverted fun word hword => .module _ (Or.inr rfl) word hword).worded
      exact ⟨_, (moduleText_of_meets hmeets hp rfl).1 text h⟩

/-! ## Slices -/

/-- Where the version slices natively, a slice takes native bounds exactly if each bound is absent
or a small integer or boolean constant, and these are lowered to the decimal texts of the constants
without any change of state; otherwise it takes objects, or an object for the slice. A token that
begins like the conversion of an object to an index comes from a name, in any text. -/
theorem slices_bounded (s : Setting) (levels : Nat) :
    (∀ id source lower upper g r g', s.tree.kind id = .expr (.slice source lower upper) →
      (RunsTo (Lowering.expression s (Lowerer.ofDepth s levels) id) g r g' ↔ ∃ src g₁ b,
        RunsTo ((Lowerer.ofDepth s levels).expression source) g src g₁ ∧
          Bounded s (Lowerer.ofDepth s levels) lower upper g₁ b g' ∧
            r = lookupForm s.options src b)) ∧
    (∀ id source lower upper value g code g',
      s.tree.kind id = .stmt (.assignSlice source lower upper value) →
      (RunsTo (Lowering.statement s (Lowerer.ofDepth s levels) id) g code g' ↔ ∃ v g₀ src g₁ b,
        RunsTo ((Lowerer.ofDepth s levels).expression value) g v g₀ ∧
          RunsTo ((Lowerer.ofDepth s levels).expression source) g₀ src g₁ ∧
            Bounded s (Lowerer.ofDepth s levels) lower upper g₁ b g' ∧
              code = assignmentForm s.options src v b)) ∧
    (∀ id source lower upper g code g',
      s.tree.kind id = .stmt (.deleteSlice source lower upper) →
      (RunsTo (Lowering.statement s (Lowerer.ofDepth s levels) id) g code g' ↔ ∃ src g₁ b,
        RunsTo ((Lowerer.ofDepth s levels).expression source) g src g₁ ∧
          Bounded s (Lowerer.ofDepth s levels) lower upper g₁ b g' ∧
            code = deletionForm src b)) ∧
    (IsIdentifier s.codeName → ∀ top p text, p.WellFormed → Generated s top p text →
      ∀ word, IsToken word text → indexStart.toList <+: word.toList →
        Supplied s.tree top s.moduleName word) :=
  ⟨fun _ _ _ _ _ _ _ hkind => runsTo_slice_iff hkind,
    fun _ _ _ _ _ _ _ _ hkind => runsTo_assignSlice_iff hkind,
    fun _ _ _ _ _ _ _ hkind => runsTo_deleteSlice_iff hkind,
    fun hcode _ _ _ hp htext _ hword hstart => supplied_of_generated hcode hp htext hword hstart⟩

/-- The slices `x[-5:True]`, `x[9223372036854775807:]` and `x["CONVERT_TO_INDEX":]`, and the
statements `x[-5:True] = x` and `del x[:9223372036854775807]`. -/
def slicing : Tree where
  nodes :=
    let entry (kind : NodeKind) (parent : Option NodeId) : Node :=
      ⟨kind, parent, { file := "spam.py", line := 1 }⟩
    #[entry (.expr (.variableRef "x" (some ⟨"x", .moduleGlobal⟩))) (some ⟨9⟩),
      entry (.expr (.constant (.int (-5)))) (some ⟨8⟩),
      entry (.expr (.constant (.bool true))) (some ⟨8⟩),
      entry (.expr (.slice ⟨0⟩ (some ⟨1⟩) (some ⟨2⟩))) none,
      entry (.expr (.constant (.int 9223372036854775807))) (some ⟨9⟩),
      entry (.expr (.slice ⟨0⟩ (some ⟨4⟩) none)) none,
      entry (.expr (.constant (.str indexStart))) (some ⟨7⟩),
      entry (.expr (.slice ⟨0⟩ (some ⟨6⟩) none)) none,
      entry (.stmt (.assignSlice ⟨0⟩ (some ⟨1⟩) (some ⟨2⟩) ⟨0⟩)) none,
      entry (.stmt (.deleteSlice ⟨0⟩ none (some ⟨4⟩))) none]

def slicingSetting : Setting :=
  { tree := slicing, moduleName := "spam", codeName := moduleIdentifier "spam" }

def slicingOperands : Lowerer := Lowerer.ofDepth slicingSetting 21

def slicingCode : String := "LOOKUP_INDEX_SLICE( _mvar_spam_x.asObject(), -5, 1 )"

def slicingObjectCode : String := "LOOKUP_SLICE( _mvar_spam_x.asObject(), const_int_0, Py_None )"

def slicingAssignmentCode : String :=
  "SET_INDEX_SLICE( _mvar_spam_x.asObject(), -5, 1, _mvar_spam_x.asObject() );"

def slicingDeletionCode : String :=
  "DEL_SUBSCRIPT( _mvar_spam_x.asObject(), PyObjectTemporary( MAKE_SLICEOBJ( Py_None, " ++
    "const_int_0, Py_None ) ).asObject() );"

/-- Small bounds are native; the first number that is too large is an object. -/
theorem slices_bounded_slicing :
    slicingSetting.tree.kind ⟨3⟩ = .expr (.slice ⟨0⟩ (some ⟨1⟩) (some ⟨2⟩)) ∧
    slicingSetting.tree.kind ⟨5⟩ = .expr (.slice ⟨0⟩ (some ⟨4⟩) none) ∧
    slicingSetting.tree.kind ⟨8⟩ = .stmt (.assignSlice ⟨0⟩ (some ⟨1⟩) (some ⟨2⟩) ⟨0⟩) ∧
    slicingSetting.tree.kind ⟨9⟩ = .stmt (.deleteSlice ⟨0⟩ none (some ⟨4⟩)) ∧
    IsIdentifier slicingSetting.codeName ∧ Program.WellFormed {} ∧
    (∃ src g b g', Bounded slicingSetting slicingOperands (some ⟨1⟩) (some ⟨2⟩) g b g' ∧
      .owned slicingCode = lookupForm slicingSetting.options src b) ∧
    (∃ src g b g', Bounded slicingSetting slicingOperands (some ⟨4⟩) none g b g' ∧
      .owned slicingObjectCode = lookupForm slicingSetting.options src b) ∧
    (∃ v src g b g', Bounded slicingSetting slicingOperands (some ⟨1⟩) (some ⟨2⟩) g b g' ∧
      slicingAssignmentCode = assignmentForm slicingSetting.options src v b) ∧
    (∃ src g b g', Bounded slicingSetting slicingOperands none (some ⟨4⟩) g b g' ∧
      slicingDeletionCode = deletionForm src b) ∧
    Generated slicingSetting ⟨3⟩ {} slicingCode ∧
    ∀ word, IsToken word slicingCode → indexStart.toList <+: word.toList →
      Supplied slicing ⟨3⟩ "spam" word := by
  obtain ⟨hlookup, hassignment, hdeletion, htokens⟩ := slices_bounded slicingSetting 21
  obtain ⟨g₃, hnative⟩ : ∃ g', RunsTo (slicingSetting.lowerer.expression ⟨3⟩) {}
      (.owned slicingCode) g' := exists_runsTo_of_value (by decide +kernel)
  obtain ⟨g₅, hobject⟩ : ∃ g', RunsTo (slicingSetting.lowerer.expression ⟨5⟩) {}
      (.owned slicingObjectCode) g' := exists_runsTo_of_value (by decide +kernel)
  obtain ⟨g₈, hreplaced⟩ : ∃ g', RunsTo (Lowering.statement slicingSetting slicingOperands ⟨8⟩) {}
      slicingAssignmentCode g' := exists_runsTo_of_value (by decide +kernel)
  obtain ⟨g₉, hdeleted⟩ : ∃ g', RunsTo (Lowering.statement slicingSetting slicingOperands ⟨9⟩) {}
      slicingDeletionCode g' := exists_runsTo_of_value (by decide +kernel)
  obtain ⟨src₃, h₃, b₃, -, hb₃, hform₃⟩ := (hlookup ⟨3⟩ _ _ _ _ _ _ (by rfl)).mp hnative
  obtain ⟨src₅, h₅, b₅, -, hb₅, hform₅⟩ := (hlookup ⟨5⟩ _ _ _ _ _ _ (by rfl)).mp hobject
  obtain ⟨v, -, src₈, h₈, b₈, -, -, hb₈, hform₈⟩ :=
    (hassignment ⟨8⟩ _ _ _ _ _ _ _ (by rfl)).mp hreplaced
  obtain ⟨src₉, h₉, b₉, -, hb₉, hform₉⟩ := (hdeletion ⟨9⟩ _ _ _ _ _ _ (by rfl)).mp hdeleted
  have hcode : IsIdentifier slicingSetting.codeName := isIdentifier_moduleIdentifier "spam"
  have hgenerated : Generated slicingSetting ⟨3⟩ {} slicingCode := .operand _ g₃ hnative
  exact ⟨rfl, rfl, rfl, rfl, hcode, wellFormed_empty, ⟨src₃, h₃, b₃, g₃, hb₃, hform₃⟩,
    ⟨src₅, h₅, b₅, g₅, hb₅, hform₅⟩, ⟨v, src₈, h₈, b₈, g₈, hb₈, hform₈⟩,
    ⟨src₉, h₉, b₉, g₉, hb₉, hform₉⟩, hgenerated,
    htokens hcode ⟨3⟩ {} _ wellFormed_empty hgenerated⟩

def slicingHandleCode : String :=
  "LOOKUP_SLICE( _mvar_spam_x.asObject(), const_str_plain_CONVERT_TO_INDEX, Py_None )"

/-- The handle of a string can have the name of the conversion in it. -/
theorem generated_with_indexStart : Generated slicingSetting ⟨7⟩ {} slicingHandleCode ∧
    indexStart.toList <:+: slicingHandleCode.toList := by
  obtain ⟨g', hrun⟩ : ∃ g', RunsTo (slicingSetting.lowerer.expression ⟨7⟩) {}
      (.owned slicingHandleCode) g' := exists_runsTo_of_value (by decide +kernel)
  exact ⟨.operand _ g' hrun, by decide +kernel⟩

end CompilerBackend
