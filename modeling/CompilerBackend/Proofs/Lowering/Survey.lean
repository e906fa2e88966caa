import CompilerBackend.Proofs.Lowering.Kept
import CompilerBackend.Proofs.Lowering.Runs
import CompilerBackend.Proofs.Tree.Enclosing
import CompilerBackend.Proofs.Tree.PreOrder
/-!
# Scopes from the root down

What encloses a node is found by following parent links. A descent from the root that carries what
it has entered comes to every node with the same answers: the scope, the handler whose exception is
at hand and the class whose private names are in use.

- `Surroundings`: what a descent carries; `Surroundings.enter` is what a node does to it.
- `Tree.survey`: the descent; `survey_eq` is its list in terms of the links upward.
- `IsTree.enclosingClass?_eq`: the class is told by the scope, so that all uses of an attribute in
  one scope agree on its name.
- `Setting.namesAs`: the code for an attribute has the handle of that name.
-/

namespace CompilerBackend

open Lowering Target

structure Surroundings where
  /-- The innermost module, function or class. -/
  scope : Option NodeId := none
  /-- Whether a handler was entered in that scope. -/
  handling : Bool := false
  /-- The innermost function or class, if it is a class. -/
  classBody : Option ClassBody := none
  deriving DecidableEq

namespace Surroundings

def enter (s : Surroundings) (id : NodeId) : NodeKind → Surroundings
  | .module _ => { s with scope := some id, handling := false }
  | .expr (.function _) => { scope := some id }
  | .expr (.classBody c) => { scope := some id, classBody := some c }
  | .handler _ => { s with handling := true }
  | _ => s

def function? (s : Surroundings) (t : Tree) : Option FunctionBody :=
  s.scope.bind fun p => match t.kind p with
    | .expr (.function f) => some f
    | _ => none

/-- The name in use for an attribute: that of the class comes before a private name. -/
def attributeName (s : Surroundings) (name : String) : String :=
  match s.classBody with
  | some c => if Tree.isPrivateName name then "_" ++ c.name ++ name else name
  | none => name

end Surroundings

namespace Tree

variable {t : Tree} {top n m c p : NodeId}

/-- The nodes of `k` levels with what encloses them, parents before their children. -/
def surveyFrom (t : Tree) : Nat → Surroundings → NodeId → List (NodeId × Surroundings)
  | 0, _, _ => []
  | k + 1, s, id => (id, s) :: (t.children id).flatMap (t.surveyFrom k (s.enter id (t.kind id)))

def survey (t : Tree) (top : NodeId) : List (NodeId × Surroundings) :=
  t.surveyFrom t.depthBound {} top

/-- What the links upward tell about what encloses a node. -/
def surroundings (t : Tree) (id : NodeId) : Surroundings where
  scope := t.enclosingProvider? id
  handling := t.isHandlerLocal id
  classBody := t.enclosingClass? id

/-! ## One step down -/

theorem surroundings_of_parent_none (hp : t.parent n = none) : t.surroundings n = {} := by
  have hnone : t.ancestors n = [] := by
    rw [ancestors, hp]
    rfl
  rw [surroundings, enclosingProvider?, isHandlerLocal, enclosingClass?, hnone]
  rfl

theorem surroundings_of_ancestors (h : t.ancestors c = n :: t.ancestors n) :
    t.surroundings c = (t.surroundings n).enter n (t.kind n) := by
  rw [surroundings, enclosingProvider?, isHandlerLocal, enclosingClass?, h, List.find?_cons,
    List.findSome?_cons, List.findSome?_cons, provider?]
  cases hkind : t.kind n with
  | expr e => cases e <;> rfl
  | _ => rfl

theorem IsTree.surroundings_child (h : t.IsTree top) (hp : t.parent top = none)
    (hn : t.Reaches top n) (hc : c ∈ t.children n) :
    t.surroundings c = (t.surroundings n).enter n (t.kind n) :=
  surroundings_of_ancestors (h.ancestors_child hp hn hc)

/-! ## The whole descent -/

theorem IsTree.surveyFrom_eq (h : t.IsTree top) (hp : t.parent top = none) {k : Nat}
    (hk : t.FitsIn k n) (hn : t.Reaches top n) :
    t.surveyFrom k (t.surroundings n) n = (t.descend k n).map fun m => (m, t.surroundings m) := by
  induction k generalizing n with
  | zero => exact hk.elim
  | succ k ih =>
      rw [surveyFrom, descend, List.map_cons, List.map_flatMap]
      refine congrArg (_ :: ·) (List.flatMap_congr fun c hc => ?_)
      rw [← h.surroundings_child hp hn hc, ih (hk c hc) (hn.child hc)]

/-- The descent meets the nodes in their order, each with what the links upward tell. -/
theorem IsTree.survey_eq (h : t.IsTree top) (hp : t.parent top = none) :
    t.survey top = (t.preOrder top).map fun n => (n, t.surroundings n) := by
  have hfits := h.fitsIn (Reaches.refl t top)
  rw [survey, ← surroundings_of_parent_none hp, h.surveyFrom_eq hp hfits (Reaches.refl t top),
    preOrder_eq_descend hfits]

/-! ## The answers -/

theorem enclosingFunction?_eq (t : Tree) (n : NodeId) :
    t.enclosingFunction? n = (t.surroundings n).function? t := by
  unfold enclosingFunction? scope? Surroundings.function? surroundings
  cases t.enclosingProvider? n with
  | none => rfl
  | some p =>
      dsimp only [Option.bind_eq_bind, Option.bind_some, provider?]
      cases t.kind p with
      | expr e => cases e <;> rfl
      | _ => rfl

theorem attributeName_surroundings (t : Tree) (name : String) (n : NodeId) :
    t.attributeName name n = (t.surroundings n).attributeName name := by
  rw [attributeName, Surroundings.attributeName, surroundings]
  cases t.enclosingClass? n with
  | none => exact ite_self _
  | some c => rfl

/-- The scope tells the class: its own, none, or the one around the module. -/
theorem IsTree.enclosingClass?_eq (h : t.IsTree top) (hp : t.parent top = none)
    (hn : t.Reaches top n) :
    t.enclosingClass? n =
      (t.enclosingProvider? n).bind fun p => ((t.surroundings p).enter p (t.kind p)).classBody := by
  refine hn.induct (P := fun n => t.enclosingClass? n = (t.enclosingProvider? n).bind fun p =>
    ((t.surroundings p).enter p (t.kind p)).classBody) ?_ fun m c hm ih hc => ?_
  · have htop := surroundings_of_parent_none hp
    rw [show t.enclosingClass? top = none from congrArg Surroundings.classBody htop,
      show t.enclosingProvider? top = none from congrArg Surroundings.scope htop]
    rfl
  · have hchild := h.surroundings_child hp hm hc
    rw [show t.enclosingClass? c = _ from congrArg Surroundings.classBody hchild,
      show t.enclosingProvider? c = _ from congrArg Surroundings.scope hchild]
    -- a provider is the scope of its children; any other node hands on what encloses it
    cases hkind : t.kind m with
    | module _ =>
        rw [show (Surroundings.enter (t.surroundings m) m (.module _)).scope = some m from rfl,
          Option.bind_some, hkind]
    | expr e =>
        cases e with
        | function _ | classBody _ =>
            rw [show (Surroundings.enter (t.surroundings m) m (.expr _)).scope = some m from rfl,
              Option.bind_some, hkind]
        | _ => exact ih
    | _ => exact ih

theorem IsTree.enclosingClass?_congr (h : t.IsTree top) (hp : t.parent top = none)
    (hn : t.Reaches top n) (hm : t.Reaches top m)
    (hscope : t.enclosingProvider? n = t.enclosingProvider? m) :
    t.enclosingClass? n = t.enclosingClass? m := by
  rw [h.enclosingClass?_eq hp hn, h.enclosingClass?_eq hp hm, hscope]

end Tree

/-! ## Attributes, default values and base classes -/

/-- The attribute that a node looks up, assigns or deletes. -/
def NodeKind.attribute? : NodeKind → Option String
  | .expr (.attributeOf _ name) | .stmt (.assignAttribute _ name _) | .stmt (.deleteAttribute _ name) =>
    some name
  | _ => none

/-- Code that looks up, assigns or deletes the attribute of which a handle has the name. -/
inductive Target.NamesAttribute (handle : String) : String → Prop
  | lookup (source : String) :
      NamesAttribute handle ("LOOKUP_ATTRIBUTE( " ++ source ++ ", " ++ handle ++ " )")
  | assignment (value source : String) :
      NamesAttribute handle ("SET_ATTRIBUTE( " ++ value ++ ", " ++ source ++ ", " ++ handle ++ " );")
  | deletion (source : String) :
      NamesAttribute handle ("DEL_ATTRIBUTE( " ++ source ++ ", " ++ handle ++ " );")

theorem Target.code_attributeLookup (handle : String) (source : Operand) :
    (attributeLookup (.constant handle) source).code =
      "LOOKUP_ATTRIBUTE( " ++ source.asArgument ++ ", " ++ handle ++ " )" :=
  applied_pair_of (by decide) _ _

theorem Target.attributeAssignment_eq (source value : Operand) (handle : String) :
    attributeAssignment source (.constant handle) value =
      "SET_ATTRIBUTE( " ++ value.asArgument ++ ", " ++ source.asArgument ++ ", " ++ handle ++ " );" := by
  have hcall : "SET_ATTRIBUTE( " = "SET_ATTRIBUTE" ++ "( " := by decide
  have hend : " );" = " )" ++ ";" := by decide
  unfold attributeAssignment terminated applied Text.commaSeparated
  rw [hcall, hend]
  simp only [String.intercalate_cons_cons, String.intercalate_singleton, String.append_assoc]
  rfl

theorem Target.attributeDeletion_eq (source : Operand) (handle : String) :
    attributeDeletion source (.constant handle) =
      "DEL_ATTRIBUTE( " ++ source.asArgument ++ ", " ++ handle ++ " );" := by
  have hcall : "DEL_ATTRIBUTE" ++ "( " = "DEL_ATTRIBUTE( " := by decide
  have hend : " );" = " )" ++ ";" := by decide
  unfold attributeDeletion terminated
  rw [applied_pair_of hcall, hend]
  simp only [String.append_assoc]
  rfl

namespace Setting

variable {s : Setting} {n : NodeId} {levels : Nat} {name text : String} {g g' : Progress}

def nodeCode (s : Setting) (self : Lowerer) (id : NodeId) : Lower String :=
  match s.tree.kind id with
  | .expr _ => do return (← Lowering.expression s self id).code
  | _ => Lowering.statement s self id

/-- In whatever well-formed program a node is lowered, its code names an attribute by the handle
that stands for a text in the program behind it. -/
def NamesAs (s : Setting) (n : NodeId) (text : String) : Prop :=
  ∀ ⦃levels g code g'⦄, g.program.WellFormed →
    RunsTo (s.nodeCode (Lowerer.ofDepth s levels) n) g code g' →
    ∃ handle, Target.NamesAttribute handle code ∧ ⟨.str text, handle⟩ ∈ g'.program.table

theorem wellFormed_of_runsTo {id : NodeId} {o : Operand} (hwf : g.program.WellFormed)
    (h : RunsTo ((Lowerer.ofDepth s levels).expression id) g o g') : g'.program.WellFormed := by
  have hkeeps : Progress.StaysWellFormed g (((Lowerer.ofDepth s levels).expression id).run g).2 :=
    (staysWellFormed_ofDepth s levels).expression trivial g
  rw [h] at hkeeps
  exact hkeeps hwf

theorem extends_of_runsTo {id : NodeId} {o : Operand}
    (h : RunsTo ((Lowerer.ofDepth s levels).expression id) g o g') :
    g.program.Extends g'.program := by
  have hadvances : g.AdvancesTo (((Lowerer.ofDepth s levels).expression id).run g).2 :=
    (advances_ofDepth s levels).expression trivial g
  rw [h] at hadvances
  exact hadvances.program

theorem handle_of_runsTo {o : Operand} (hwf : g.program.WellFormed)
    (h : RunsTo (Lower.intern (constantFromTable (.str text))) g o g') :
    ∃ handle, o = .constant handle ∧ ⟨.str text, handle⟩ ∈ g'.program.table := by
  obtain ⟨ho, rfl⟩ := Prod.mk.inj h
  rw [← Except.ok.inj ho]
  exact ⟨_, rfl, (hwf.intern (.str text)).2.2⟩

/-- A node that deals with an attribute names it by the name that is in use there. -/
theorem namesAs (h : (s.tree.kind n).attribute? = some name) :
    s.NamesAs n (s.tree.attributeName name n) := by
  intro levels g code g' hwf hrun
  unfold NodeKind.attribute? at h
  rw [nodeCode] at hrun
  split at h
  next source name' hkind =>
      obtain rfl := Option.some.inj h
      rw [hkind] at hrun
      obtain ⟨o, g₁, hrun, hcode⟩ := runsTo_bind_iff.mp hrun
      obtain ⟨rfl, rfl⟩ := runsTo_pure_iff.mp hcode
      obtain ⟨hform, -⟩ := (runsTo_expression_iff (Tree.expr?_eq_some_iff.mpr hkind)).mp hrun
      obtain ⟨name, g₂, hname, hform⟩ := runsTo_bind_iff.mp hform
      obtain ⟨source, g₃, hsource, hform⟩ := runsTo_bind_iff.mp hform
      obtain ⟨rfl, rfl⟩ := runsTo_pure_iff.mp hform
      obtain ⟨handle, rfl, hmem⟩ := handle_of_runsTo hwf hname
      rw [code_attributeLookup]
      exact ⟨handle, .lookup _, (extends_of_runsTo hsource).mem hmem⟩
  next source name' value hkind =>
      obtain rfl := Option.some.inj h
      rw [hkind] at hrun
      obtain ⟨hform, -⟩ := (runsTo_statement_iff (Tree.stmt?_eq_some_iff.mpr hkind)).mp hrun
      obtain ⟨value, g₁, hvalue, hform⟩ := runsTo_bind_iff.mp hform
      obtain ⟨source, g₂, hsource, hform⟩ := runsTo_bind_iff.mp hform
      obtain ⟨name, g₃, hname, hform⟩ := runsTo_bind_iff.mp hform
      obtain ⟨rfl, rfl⟩ := runsTo_pure_iff.mp hform
      have hwf₁ := wellFormed_of_runsTo hwf hvalue
      obtain ⟨handle, rfl, hmem⟩ := handle_of_runsTo (wellFormed_of_runsTo hwf₁ hsource) hname
      rw [attributeAssignment_eq]
      exact ⟨handle, .assignment _ _, hmem⟩
  next source name' hkind =>
      obtain rfl := Option.some.inj h
      rw [hkind] at hrun
      obtain ⟨hform, -⟩ := (runsTo_statement_iff (Tree.stmt?_eq_some_iff.mpr hkind)).mp hrun
      obtain ⟨source, g₁, hsource, hform⟩ := runsTo_bind_iff.mp hform
      obtain ⟨name, g₂, hname, hform⟩ := runsTo_bind_iff.mp hform
      obtain ⟨rfl, rfl⟩ := runsTo_pure_iff.mp hform
      obtain ⟨handle, rfl, hmem⟩ := handle_of_runsTo (wellFormed_of_runsTo hwf hsource) hname
      rw [attributeDeletion_eq]
      exact ⟨handle, .deletion _, hmem⟩
  next => exact absurd h (by simp)

end Setting

/-- The default values of a function or the base classes of a class. -/
def NodeKind.outside : NodeKind → List NodeId
  | .expr (.functionDefaulted _ defaults) => defaults
  | .expr (.classBased _ bases) => bases
  | _ => []

/-- What holds default values and base classes is no scope and no handler. -/
theorem Surroundings.enter_of_outside {d : NodeId} {k : NodeKind} (hd : d ∈ k.outside)
    (a : Surroundings) (id : NodeId) : d ∈ k.children ∧ a.enter id k = a := by
  unfold NodeKind.outside at hd
  split at hd
  next definition defaults => exact ⟨List.mem_append_left _ hd, rfl⟩
  next classNode bases => exact ⟨List.mem_append_left _ hd, rfl⟩
  next => exact absurd hd List.not_mem_nil

/-- The descent from a root without a parent comes to every node once, and what it carries there is
what the links upward tell: the scope, the function, the handler and the names of attributes.
Default values and base classes are enclosed by what encloses their definition, and all that is done
to an attribute in one scope is done by one name. -/
theorem Tree.survey_answers {s : Setting} {top : NodeId} (h : s.tree.IsTree top)
    (hp : s.tree.parent top = none) :
    ((s.tree.survey top).map Prod.fst = s.tree.preOrder top ∧ (s.tree.preOrder top).Nodup) ∧
    (∀ n, s.tree.Reaches top n → ∃ a, (n, a) ∈ s.tree.survey top) ∧
    (∀ n a, (n, a) ∈ s.tree.survey top →
      s.tree.enclosingProvider? n = a.scope ∧ s.tree.enclosingFunction? n = a.function? s.tree ∧
      s.tree.isHandlerLocal n = a.handling ∧
      ∀ name, s.tree.attributeName name n = a.attributeName name) ∧
    (∀ n a, (n, a) ∈ s.tree.survey top → ∀ d ∈ (s.tree.kind n).outside,
      (d, a) ∈ s.tree.survey top) ∧
    ∀ n m, s.tree.Reaches top n → s.tree.Reaches top m →
      s.tree.enclosingProvider? n = s.tree.enclosingProvider? m →
      ∀ name, (s.tree.kind n).attribute? = some name → (s.tree.kind m).attribute? = some name →
        ∃ mangled, (∀ a, (n, a) ∈ s.tree.survey top → mangled = a.attributeName name) ∧
          s.NamesAs n mangled ∧ s.NamesAs m mangled := by
  have hmem : ∀ n a, (n, a) ∈ s.tree.survey top ↔
      s.tree.Reaches top n ∧ s.tree.surroundings n = a := by
    intro n a
    rw [h.survey_eq hp, List.mem_map]
    constructor
    · rintro ⟨m, hm, heq⟩
      obtain ⟨rfl, rfl⟩ := Prod.mk.inj heq
      exact ⟨h.mem_preOrder.mp hm, rfl⟩
    · rintro ⟨hn, rfl⟩
      exact ⟨n, h.mem_preOrder.mpr hn, rfl⟩
  refine ⟨⟨?_, h.nodup_preOrder⟩, fun n hn => ⟨_, (hmem n _).mpr ⟨hn, rfl⟩⟩, ?_, ?_, ?_⟩
  · rw [h.survey_eq hp, List.map_map]
    exact List.map_id _
  · intro n a hn
    obtain ⟨-, rfl⟩ := (hmem n a).mp hn
    exact ⟨rfl, enclosingFunction?_eq _ n, rfl, fun name => attributeName_surroundings _ name n⟩
  · intro n a hn d hd
    obtain ⟨hreach, rfl⟩ := (hmem n a).mp hn
    obtain ⟨hchild, henter⟩ := Surroundings.enter_of_outside hd (s.tree.surroundings n) n
    exact (hmem d _).mpr
      ⟨hreach.child hchild, (h.surroundings_child hp hreach hchild).trans henter⟩
  · intro n m hn hm hscope name hname hname'
    refine ⟨_, fun a ha => ?_, Setting.namesAs hname, ?_⟩
    · obtain ⟨-, rfl⟩ := (hmem n a).mp ha
      exact attributeName_surroundings _ name n
    · have hsame : s.tree.attributeName name n = s.tree.attributeName name m := by
        rw [attributeName, attributeName, h.enclosingClass?_congr hp hn hm hscope]
      rw [hsame]
      exact Setting.namesAs hname'

def privateClass : ClassBody := { name := "C", codeName := "class_C", body := some ⟨8⟩ }

/-- A class with a private attribute: its base class looks it up, the body looks it up too and a
handler in the body deletes it. -/
def privateUses : Tree where
  nodes :=
    let entry (kind : NodeKind) (parent : Option NodeId) : Node :=
      ⟨kind, parent, { file := "private.py", line := 1 }⟩
    #[entry (.expr (.builtin "None")) (some ⟨1⟩),
      entry (.expr (.attributeOf ⟨0⟩ "__a")) (some ⟨2⟩),
      entry (.stmt (.expression ⟨1⟩)) (some ⟨8⟩),
      entry (.expr (.builtin "None")) (some ⟨4⟩),
      entry (.stmt (.deleteAttribute ⟨3⟩ "__a")) (some ⟨5⟩),
      entry (.sequence [⟨4⟩]) (some ⟨6⟩),
      entry (.handler { branch := some ⟨5⟩ }) (some ⟨7⟩),
      entry (.stmt (.tryExcept ⟨9⟩ [⟨6⟩] none)) (some ⟨8⟩),
      entry (.sequence [⟨2⟩, ⟨7⟩]) (some ⟨10⟩),
      entry (.sequence []) (some ⟨7⟩),
      entry (.expr (.classBody privateClass)) (some ⟨13⟩),
      entry (.expr (.builtin "None")) (some ⟨12⟩),
      entry (.expr (.attributeOf ⟨11⟩ "__a")) (some ⟨13⟩),
      entry (.expr (.classBased ⟨10⟩ [⟨12⟩])) (some ⟨14⟩),
      entry (.stmt (.expression ⟨13⟩)) (some ⟨15⟩),
      entry (.sequence [⟨14⟩]) (some ⟨16⟩),
      entry (.module { name := "private", filename := "private.py", body := some ⟨15⟩ }) none]
  root := some ⟨16⟩

def privateUsesSetting : Setting where
  tree := privateUses
  moduleName := "private"
  codeName := "private"

theorem Tree.survey_answers_privateUses :
    privateUses.IsTree ⟨16⟩ ∧ privateUses.parent ⟨16⟩ = none ∧
    privateUses.isHandlerLocal ⟨4⟩ = true ∧ privateUses.isHandlerLocal ⟨1⟩ = false ∧
    privateUses.attributeName "__a" ⟨4⟩ = "_C__a" ∧
    (∃ a, (⟨13⟩, a) ∈ privateUses.survey ⟨16⟩ ∧ (⟨12⟩, a) ∈ privateUses.survey ⟨16⟩ ∧
      a.scope = some ⟨16⟩) ∧
    privateUsesSetting.NamesAs ⟨1⟩ "_C__a" ∧ privateUsesSetting.NamesAs ⟨4⟩ "_C__a" ∧
    ∃ g', RunsTo (privateUsesSetting.nodeCode privateUsesSetting.lowerer ⟨4⟩) {}
      "DEL_ATTRIBUTE( LOOKUP_BUILTIN( const_str_plain_None ), const_str_plain__C__a );" g' := by
  have htree : privateUses.IsTree ⟨16⟩ :=
    (WellFormed.of_arena rfl rfl (by decide) (by decide +kernel) ⟨16⟩ rfl).2
  obtain ⟨-, -, answers, outside, names⟩ := survey_answers (s := privateUsesSetting) htree rfl
  have hdeletion := answers ⟨4⟩ ⟨some ⟨10⟩, true, some privateClass⟩ (by decide +kernel)
  have hlookup := answers ⟨1⟩ ⟨some ⟨10⟩, false, some privateClass⟩ (by decide +kernel)
  have hbased : (⟨13⟩, { scope := some ⟨16⟩ }) ∈ privateUses.survey ⟨16⟩ := by decide +kernel
  have hbase := outside ⟨13⟩ _ hbased ⟨12⟩ (List.mem_singleton_self _)
  obtain ⟨mangled, hmangled, hone, htwo⟩ := names ⟨1⟩ ⟨4⟩ ⟨[0, 0, 0, 1, 0, 0, 0], rfl⟩
    ⟨[0, 0, 0, 1, 0, 1, 1, 0, 0], rfl⟩ (hlookup.1.trans hdeletion.1.symm) "__a" rfl rfl
  obtain rfl : mangled = "_C__a" :=
    (hmangled ⟨some ⟨10⟩, false, some privateClass⟩ (by decide +kernel)).trans (by decide)
  exact ⟨htree, rfl, hdeletion.2.2.1, hlookup.2.2.1, (hdeletion.2.2.2 "__a").trans (by decide),
    ⟨_, hbased, hbase, rfl⟩, hone, htwo, exists_runsTo_of_value (by decide +kernel)⟩

end CompilerBackend
