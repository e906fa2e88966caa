import CompilerBackend.Proofs.Lowering.Brackets
import CompilerBackend.Proofs.Lowering.Charged
import CompilerBackend.Proofs.Tree.Repeated
/-!
# What expressions charge

Each node has a fee, and the fee covers what its code reads together with what is charged for it.
A node reads a variable itself if it refers to one; beyond that it reads what its children read,
each of them once. The exception is an import in a module that is given globals and no locals: the
globals serve as locals too, so their code stands in the text twice.

- `LocalAccess.due`: what a node needs, with the fees of its children and of an operand that it
  repeats; `LocalAccess.Covers`: every fee covers it.
- `Lowerer.Within`: what is assumed of the lowerings of children.
- `charges_functionObject`, `charges_classObject`: the bodies of definitions are charged.
- `charges_expressionForm`: one case for each kind of expression.
-/

namespace CompilerBackend

open Target Lowering

/-! ## Fees -/

def NodeKind.refersTo (name : String) : NodeKind → Bool
  | .expr e => e.boundVariable?.any (·.name == name)
  | _ => false

def fees (fee : NodeId → Nat) (ids : List NodeId) : Nat := (ids.map fee).sum

section

variable {fee : NodeId → Nat} {ids others : List NodeId} {id : NodeId}

@[simp] theorem fees_nil : fees fee [] = 0 := rfl

@[simp] theorem fees_cons : fees fee (id :: ids) = fee id + fees fee ids := rfl

@[simp] theorem fees_append : fees fee (ids ++ others) = fees fee ids + fees fee others := by
  rw [fees, fees, fees, List.map_append, List.sum_append]

theorem fees_pairSlots (pairs : List (NodeId × NodeId)) : fees fee (pairSlots pairs) =
    fees fee (pairs.map (·.1)) + fees fee (pairs.map (·.2)) := by
  rw [← fees_append]
  exact ((perm_pairSlots pairs).map fee).sum_eq

end

namespace LocalAccess

/-- What a node needs for the variable: one for a reference, the fees of its children, and those of
an operand that it uses twice. -/
def due (a : LocalAccess) (t : Tree) (fee : NodeId → Nat) (id : NodeId) : Nat :=
  (if (t.kind id).refersTo a.name then 1 else 0) + fees fee (t.children id) +
    fees fee (t.sharedGlobals? id).toList

/-- The names of a tree are plain, no title and no name of a file reads the variable, and every node
has a fee that covers what it needs. -/
structure Covers (a : LocalAccess) (s : Setting) (top : NodeId) (fee : NodeId → Nat) : Prop where
  codeName : IsIdentifier s.codeName
  names : s.tree.Plain top
  files : ∀ {n}, s.tree.Connected top n → a.count (s.tree.location n).file = 0
  titles : ∀ {n}, s.tree.Connected top n → ∀ title ∈ (s.tree.kind n).titles, a.count title = 0
  dues : ∀ {n}, s.tree.Connected top n → a.due s.tree fee n ≤ fee n

end LocalAccess

/-- What the nodes connected to `top` give and charge is within their fees. -/
structure Lowerer.Within (a : LocalAccess) (s : Setting) (top : NodeId) (fee : NodeId → Nat)
    (lowerer : Lowerer) : Prop where
  expression : ∀ {id}, s.tree.Connected top id →
    a.Charges (lowerer.expression id) fun o n => a.uses o + n ≤ fee id
  condition : ∀ {id} (inverted : Bool), s.tree.Connected top id →
    a.Charges (lowerer.condition id inverted) fun c n => a.count c + n ≤ fee id
  sequence : ∀ {id}, s.tree.Connected top id →
    a.Charges (lowerer.sequence id) fun ls n => a.total ls + n ≤ fee id

namespace LocalAccess

variable {a : LocalAccess} {s : Setting} {self : Lowerer} {top id : NodeId} {fee : NodeId → Nat}
  {ids : List NodeId} {o : Option NodeId}

theorem Covers.children_le (hg : a.Covers s top fee) (hid : s.tree.Connected top id) :
    fees fee (s.tree.children id) ≤ fee id := by
  have hdue := hg.dues hid
  rw [due] at hdue
  omega

theorem Covers.isIdentifier (hg : a.Covers s top fee) (hid : s.tree.Connected top id) {e : Expr}
    (hkind : s.tree.kind id = .expr e) {name : String} (hname : name ∈ e.names) :
    IsIdentifier name := by
  refine hg.names id hid name ?_
  rw [hkind]
  exact hname

/-! ## Children -/

section

variable (h : self.Within a s top fee)
include h

theorem charges_optional (hc : ∀ c ∈ o, s.tree.Connected top c) :
    a.Charges (self.optional o) fun r n => a.usesAll r.toList + n ≤ fees fee o.toList := by
  cases o with
  | none => exact .pure (Nat.le_refl 0)
  | some id =>
      refine (h.expression (hc id rfl)).bind fun o n ho => .pure ?_
      simpa using ho

theorem charges_expressions (hc : ∀ c ∈ ids, s.tree.Connected top c) :
    a.Charges (self.expressions ids) fun os n => a.usesAll os + n ≤ fees fee ids := by
  induction ids with
  | nil => exact .pure (Nat.le_refl 0)
  | cons id ids ih =>
      refine (h.expression (hc id List.mem_cons_self)).bind fun o n ho =>
        (ih fun c hmem => hc c (List.mem_cons_of_mem id hmem)).bind fun os m hos => .pure ?_
      rw [usesAll_cons, fees_cons]
      omega

theorem charges_optionalSequence (hc : ∀ c ∈ o, s.tree.Connected top c) :
    a.Charges (self.optionalSequence o) fun codes n =>
      a.total (codes.getD []) + n ≤ fees fee o.toList := by
  cases o with
  | none => exact .pure (Nat.le_refl 0)
  | some id =>
      refine (h.sequence (hc id rfl)).bind fun codes n hcodes => .pure ?_
      simpa using hcodes

theorem charges_conditions (hc : ∀ c ∈ ids, s.tree.Connected top c) :
    a.Charges (conditions self ids) fun cs n => a.total cs + n ≤ fees fee ids := by
  induction ids with
  | nil => exact .pure (Nat.le_refl 0)
  | cons id ids ih =>
      refine (h.condition false (hc id List.mem_cons_self)).bind fun c n hcondition =>
        (ih fun c hmem => hc c (List.mem_cons_of_mem id hmem)).bind fun cs m hcs => .pure ?_
      rw [total_cons, fees_cons]
      omega

end

/-! ## References and constants -/

theorem charges_boundVariable (hg : a.Covers s top fee) (hid : s.tree.Connected top id) :
    a.Charges (boundVariable s.tree id) (Free fun v => IsIdentifier v.name ∧
      (v.name = a.name → (s.tree.kind id).refersTo a.name = true)) := by
  rcases boundVariable_cases s.tree id with ⟨e, v, hkind, hv, heq⟩ | ⟨-, cause, heq⟩
  · rw [heq]
    refine .pure ⟨rfl, hg.isIdentifier hid hkind (Expr.mem_names_of_bound hv), fun hname => ?_⟩
    rw [hkind, NodeKind.refersTo, hv, Option.any_some, hname, beq_self_eq_true]
  · rw [heq]
    exact .fail _ _ _

theorem charges_reference (hg : a.Covers s top fee) (hid : s.tree.Connected top id) :
    a.Charges (do return variableAccess s.codeName (← boundVariable s.tree id)) fun o n =>
      a.uses o + n ≤ if (s.tree.kind id).refersTo a.name then 1 else 0 := by
  refine (charges_boundVariable hg hid).bind_free fun v hv => .pure ?_
  refine (uses_variableAccess_le hg.codeName hv.1).trans ?_
  split
  next hname => rw [if_pos (hv.2 hname)]
  next => exact Nat.zero_le _

theorem charges_scopeOf :
    a.Charges (scopeOf s.tree id) (Free fun p => s.tree.scope? id = some p) := by
  unfold scopeOf
  cases hp : s.tree.scope? id with
  | none => exact .fail _ _ _
  | some p => exact .pure ⟨rfl, rfl⟩

theorem Covers.localNames (hg : a.Covers s top fee) (hid : s.tree.Connected top id) {p : Provider}
    (hp : s.tree.scope? id = some p) : ∀ name ∈ localNames p, IsIdentifier name := by
  obtain ⟨n, hn, hprovider⟩ := hid.scope hp
  exact fun name hname => hg.names n hn name (NodeKind.mem_names_of_provider hprovider hname)

theorem charges_localsAt (hg : a.Covers s top fee) (hid : s.tree.Connected top id) :
    a.Charges (localsAt s id) (Free fun o => a.uses o = 0) :=
  charges_scopeOf.bind_free fun _ hp =>
    .intern fun _ => interned_uses_localsDict hg.codeName _ (hg.localNames hid hp)

/-- The locals of an import read nothing, or they are the globals. -/
theorem charges_importLocals (hg : a.Covers s top fee) (hid : s.tree.Connected top id)
    (globals : Operand) : a.Charges (importLocals s id globals) (Free fun o =>
      a.uses o = 0 ∨ (o = globals ∧ (s.tree.scope? id).any Provider.isModule = true)) := by
  refine charges_scopeOf.bind_free fun p hp => .ite (fun hmodule => .pure ⟨rfl, .inr ⟨rfl, ?_⟩⟩)
    fun _ => (charges_localsAt hg hid).imp fun o n ho => ⟨ho.1, .inl ho.2⟩
  rw [hp, Option.any_some, hmodule]

theorem charges_constant (c : Constant) :
    a.Charges (Lower.intern (constantFromTable c)) (Free fun o => a.uses o = 0) :=
  .intern fun _ => interned_uses_constantFromTable c

/-! ## Containers -/

section

variable (h : self.Within a s top fee)
include h

theorem charges_container {fold : List Constant → Constant}
    {build : List Operand → Interning Operand} (hc : ∀ c ∈ ids, s.tree.Connected top c)
    (hbuild : ∀ os w, Interned w True (build os) fun o => a.uses o = a.usesAll os) :
    a.Charges (container s.tree self fold build ids) fun o n => a.uses o + n ≤ fees fee ids := by
  unfold container
  split
  next => exact .of_free (charges_constant _)
  next =>
    refine (charges_expressions h hc).bind fun os n hos =>
      (Charges.intern (hbuild os)).imp fun o m ho => ?_
    rw [ho.1, ho.2]
    exact hos

theorem charges_tuple (hc : ∀ c ∈ ids, s.tree.Connected top c) :
    a.Charges (tuple s.tree self ids) fun o n => a.uses o + n ≤ fees fee ids :=
  charges_container h hc fun os _ => interned_uses_tupleCreation os

theorem charges_list (hc : ∀ c ∈ ids, s.tree.Connected top c) :
    a.Charges (list s.tree self ids) fun o n => a.uses o + n ≤ fees fee ids :=
  charges_container h hc fun os _ => interned_uses_listCreation os

theorem charges_set (hc : ∀ c ∈ ids, s.tree.Connected top c) :
    a.Charges (set s.tree self ids) fun o n => a.uses o + n ≤ fees fee ids :=
  charges_container h hc fun _ _ => Interned.pure fun _ => uses_setCreation

theorem charges_dict {pairs : List (NodeId × NodeId)}
    (hc : ∀ c ∈ pairSlots pairs, s.tree.Connected top c) :
    a.Charges (dict s.tree self pairs) fun o n => a.uses o + n ≤ fees fee (pairSlots pairs) := by
  have hperm := perm_pairSlots pairs
  have hkeys : ∀ c ∈ pairs.map (·.1), s.tree.Connected top c := fun c hmem =>
    hc c (hperm.mem_iff.mpr (List.mem_append_left _ hmem))
  have hvalues : ∀ c ∈ pairs.map (·.2), s.tree.Connected top c := fun c hmem =>
    hc c (hperm.mem_iff.mpr (List.mem_append_right _ hmem))
  rw [fees_pairSlots]
  unfold Lowering.dict
  dsimp only
  split
  next => exact .of_free (charges_constant _)
  next =>
    refine (charges_expressions h hkeys).bind fun ks n hks => (charges_expressions h hvalues).bind
      fun vs m hvs => (Charges.intern fun _ => interned_uses_dictCreation (a := a) ks vs).imp
        fun o k ho => ?_
    obtain ⟨rfl, ho⟩ := ho
    omega

theorem charges_namedArguments {pairs : List (NodeId × NodeId)}
    (hc : ∀ c ∈ pairSlots pairs, s.tree.Connected top c) :
    a.Charges (namedArguments s.tree self pairs) fun o n =>
      a.usesAll o.toList + n ≤ fees fee (pairSlots pairs) := by
  unfold namedArguments
  refine .ite (fun _ => .pure (Nat.zero_le _)) fun _ => (charges_dict h hc).bind fun o n ho =>
    .pure ?_
  simpa using ho

theorem charges_positionalTuple (hc : ∀ c ∈ ids, s.tree.Connected top c) :
    a.Charges (positionalTuple s.tree self ids) fun o n =>
      a.usesAll o.toList + n ≤ fees fee ids := by
  unfold positionalTuple
  refine .ite (fun _ => .pure (Nat.zero_le _)) fun _ => ?_
  rw [map_eq_pure_bind]
  refine (charges_tuple h hc).bind fun o n ho => .pure ?_
  simpa using ho

/-- An optional expression, with something in its place that reads nothing. -/
theorem charges_orLowered (hc : ∀ c ∈ o, s.tree.Connected top c) {absent : Lower Operand}
    (habsent : a.Charges absent (Free fun o => a.uses o = 0)) :
    a.Charges (orLowered self o absent) fun r n => a.uses r + n ≤ fees fee o.toList := by
  cases o with
  | none => exact .of_free habsent
  | some id =>
      refine (h.expression (hc id rfl)).imp fun o n ho => ?_
      simpa using ho

theorem charges_orConstant (hc : ∀ c ∈ o, s.tree.Connected top c) (c : Constant) :
    a.Charges (orConstant self o c) fun r n => a.uses r + n ≤ fees fee o.toList := by
  have horLowered : orConstant self o c =
      orLowered self o (Lower.intern (constantFromTable c)) := by cases o <;> rfl
  rw [horLowered]
  exact charges_orLowered h hc (charges_constant c)

/-! ## Slices -/

variable {lower upper : Option NodeId}

theorem charges_bound (hc : ∀ c ∈ o, s.tree.Connected top c) {absent : String}
    (habsent : a.count absent = 0) :
    a.Charges (bound s.tree self o absent) fun c n => a.count c + n ≤ fees fee o.toList := by
  cases o with
  | none => exact .pure habsent.le
  | some id =>
      unfold bound
      dsimp only
      split
      next => exact .silent (count_constantBound _)
      next =>
        refine (h.expression (hc id rfl)).bind fun o n ho => .pure ?_
        simpa using ho

theorem charges_bounds (hl : ∀ c ∈ lower, s.tree.Connected top c)
    (hu : ∀ c ∈ upper, s.tree.Connected top c) :
    a.Charges (bounds s.tree self lower upper) fun b n =>
      a.count b.1 + a.count b.2 + n ≤ fees fee (lower.toList ++ upper.toList) := by
  refine (charges_bound h hl (count_of_isMute (by decide))).bind fun l n hl =>
    (charges_bound h hu (count_of_isMute (by decide))).bind fun u m hu => .pure ?_
  rw [fees_append]
  dsimp only
  omega

theorem charges_boundObjects (hl : ∀ c ∈ lower, s.tree.Connected top c)
    (hu : ∀ c ∈ upper, s.tree.Connected top c) :
    a.Charges (boundObjects self lower upper) fun b n =>
      a.usesAll b.1.toList + a.usesAll b.2.toList + n ≤
        fees fee (lower.toList ++ upper.toList) := by
  refine (charges_optional h hl).bind fun l n hl => (charges_optional h hu).bind fun u m hu =>
    .pure ?_
  rw [fees_append]
  dsimp only
  omega

theorem charges_sliceObject (hl : ∀ c ∈ lower, s.tree.Connected top c)
    (hu : ∀ c ∈ upper, s.tree.Connected top c) :
    a.Charges (sliceObject self lower upper) fun o n =>
      a.uses o + n ≤ fees fee (lower.toList ++ upper.toList) := by
  refine (charges_boundObjects h hl hu).bind fun b n hb => .pure ?_
  rw [uses_sliceObject, Option.toList_none, usesAll_nil]
  omega

theorem charges_sliceLookup (hid : s.tree.Connected top id)
    (hl : ∀ c ∈ lower, s.tree.Connected top c) (hu : ∀ c ∈ upper, s.tree.Connected top c) :
    a.Charges (sliceLookup s self id lower upper) fun o n =>
      a.uses o + n ≤ fees fee (id :: (lower.toList ++ upper.toList)) := by
  rw [fees_cons]
  refine (h.expression hid).bind fun o n ho => .ite (fun _ => (charges_bounds h hl hu).bind
    fun b m hb => .pure ?_) fun _ => .ite (fun _ => (charges_boundObjects h hl hu).bind
      fun b m hb => .pure ?_) fun _ => (charges_sliceObject h hl hu).bind fun i m hi => .pure ?_
  · rw [uses_indexedSliceLookup]
    omega
  · rw [uses_sliceLookup]
    omega
  · rw [uses_subscriptLookup]
    omega

theorem charges_sliceAssignment (hid : s.tree.Connected top id)
    (hl : ∀ c ∈ lower, s.tree.Connected top c) (hu : ∀ c ∈ upper, s.tree.Connected top c)
    (value : Operand) :
    a.Charges (sliceAssignment s self id lower upper value) fun code n =>
      a.count code + n ≤ a.uses value + fees fee (id :: (lower.toList ++ upper.toList)) := by
  rw [fees_cons]
  refine (h.expression hid).bind fun o n ho => .ite (fun _ => (charges_bounds h hl hu).bind
    fun b m hb => .pure ?_) fun _ => .ite (fun _ => (charges_boundObjects h hl hu).bind
      fun b m hb => .pure ?_) fun _ => (charges_sliceObject h hl hu).bind fun i m hi => .pure ?_
  · rw [count_indexedSliceAssignment]
    omega
  · rw [count_sliceAssignment]
    omega
  · rw [count_subscriptAssignment]
    omega

theorem charges_sliceDeletion (hid : s.tree.Connected top id)
    (hl : ∀ c ∈ lower, s.tree.Connected top c) (hu : ∀ c ∈ upper, s.tree.Connected top c) :
    a.Charges (sliceDeletion s self id lower upper) fun code n =>
      a.count code + n ≤ fees fee (id :: (lower.toList ++ upper.toList)) := by
  rw [fees_cons]
  refine (h.expression hid).bind fun o n ho => .ite (fun _ => (charges_bounds h hl hu).bind
    fun b m hb => .pure ?_) fun _ => (charges_sliceObject h hl hu).bind fun i m hi => .pure ?_
  · rw [count_indexedSliceDeletion]
    omega
  · rw [count_subscriptDeletion]
    omega

/-! ## Definitions -/

theorem charges_defaultValues {defaults : List (NodeId × Variable)}
    (hc : ∀ d ∈ defaults, s.tree.Connected top d.1) (hv : ∀ d ∈ defaults, IsIdentifier d.2.name) :
    a.Charges (defaultValues s.tree self defaults) fun r n =>
      (∀ o ∈ r.1, a.uses o = 0) ∧ a.usesAll r.2 + n ≤ fees fee (defaults.map (·.1)) := by
  induction defaults with
  | nil => exact .pure ⟨fun _ ho => (nomatch ho), Nat.le_refl 0⟩
  | cons d rest ih =>
      obtain ⟨id, v⟩ := d
      have hrest := ih (fun d hd => hc d (List.mem_cons_of_mem _ hd))
        fun d hd => hv d (List.mem_cons_of_mem _ hd)
      rw [defaultValues]
      split
      next c _ =>
        refine (Charges.intern fun _ => interned_uses_constantAccess (a := a) c).bind_free
          fun o ho => hrest.bind fun r n hr => .pure ⟨List.forall_mem_cons.mpr ⟨ho, hr.1⟩, ?_⟩
        have hvalues := hr.2
        rw [List.map_cons, fees_cons]
        dsimp only
        omega
      next =>
        refine (h.expression (hc _ List.mem_cons_self)).bind fun o n ho => hrest.bind
          fun r m hr => .pure ⟨List.forall_mem_cons.mpr ⟨?_, hr.1⟩, ?_⟩
        · exact uses_defaultAccess (hv _ List.mem_cons_self)
        · have hvalues := hr.2
          rw [List.map_cons, fees_cons, usesAll_cons]
          omega

/-- The text of a function reads what its body reads, and the operand what the default values do. -/
theorem charges_functionObject (hg : a.Covers s top fee) (hid : s.tree.Connected top id)
    (hc : ∀ c ∈ ids, s.tree.Connected top c) :
    a.Charges (functionObject s self id ids) fun o n =>
      a.uses o + n ≤ fees fee (ids ++ s.tree.children id) := by
  unfold functionObject
  split
  next f hfunction =>
    have hkind := Tree.expr?_eq_some_iff.mp hfunction
    have hslots : s.tree.children id = f.body.toList := by
      rw [Tree.children, hkind]
      rfl
    have hnames : ∀ v ∈ f.parameters.all ++ f.userVariables ++ f.temporaries ++ f.closureVariables,
        IsIdentifier v.name := fun v hv =>
      hg.isIdentifier hid hkind (List.mem_cons_of_mem _ (List.mem_map_of_mem hv))
    have hvariables : ∀ v ∈ f.parameters.all ++ f.userVariables ++ f.temporaries,
        IsIdentifier v.name := fun v hv => hnames v (List.mem_append_left _ hv)
    have hclosure : ∀ v ∈ f.closureVariables, IsIdentifier v.name := fun v hv =>
      hnames v (List.mem_append_right _ hv)
    have hcode : IsIdentifier f.codeName := hg.isIdentifier hid hkind List.mem_cons_self
    have htitle : a.count f.name = 0 := hg.titles hid f.name (by
      rw [hkind]
      exact List.mem_cons_self)
    have hdefaulted : ∀ d ∈ ids.zip f.parameters.defaulted, IsIdentifier d.2.name := fun d hd =>
      hvariables d.2 (List.mem_append_left _ (List.mem_append_left _ (List.mem_append_left _
        (List.mem_append_left _ (List.mem_of_mem_drop (List.of_mem_zip hd).2)))))
    refine .ite (fun _ => .fail_bind _ _ _) fun hlength => ?_
    have hfst : (ids.zip f.parameters.defaulted).map (·.1) = ids :=
      List.map_fst_zip (by simpa using Nat.le_of_eq (by simpa using hlength : _ = _).symm)
    have hvalues := charges_defaultValues h (fun d hd => hc d.1 (List.of_mem_zip hd).1) hdefaulted
    rw [hfst] at hvalues
    have hbody : ∀ b ∈ f.body, s.tree.Connected top b := fun b hb => hid.child (by
      rw [hslots]
      exact Option.mem_toList.mpr hb)
    refine hvalues.bind fun r n hr => ((charges_optionalSequence h hbody).inScope _).bind
      fun codes m hcodes => (Charges.intern fun _ => interned_count_functionCode hg.codeName htitle
        hcode (hg.files hid) hvariables hr.1 (codes.getD [])).bind_free fun code htext =>
          (Charges.registersFunction _ _).bind fun _ k hk => .pure ?_
    have huses := uses_functionCreation (a := a) hcode hclosure r.2
    have hdeclared := count_functionDeclaration (a := a) hcode hclosure r.2.length
    have hread := hr.2
    rw [huses, hk, spent, hdeclared, htext, hslots, fees_append]
    omega
  next => exact .fail _ _ _

/-- The text of a class reads what its body reads, and the operand what the base classes do. -/
theorem charges_classObject (hg : a.Covers s top fee) (hid : s.tree.Connected top id)
    (hc : ∀ c ∈ ids, s.tree.Connected top c) :
    a.Charges (classObject s self id ids) fun o n =>
      a.uses o + n ≤ fees fee (ids ++ s.tree.children id) := by
  unfold classObject
  split
  next c hclass =>
    have hkind := Tree.expr?_eq_some_iff.mp hclass
    have hslots : s.tree.children id = c.body.toList := by
      rw [Tree.children, hkind]
      rfl
    have hvariables : ∀ v ∈ c.closureVariables ++ c.classVariables ++ c.temporaries,
        IsIdentifier v.name := fun v hv =>
      hg.isIdentifier hid hkind (List.mem_cons_of_mem _ (List.mem_map_of_mem hv))
    have hclosure : ∀ v ∈ c.closureVariables, IsIdentifier v.name := fun v hv =>
      hvariables v (List.mem_append_left _ (List.mem_append_left _ hv))
    have hcode : IsIdentifier c.codeName := hg.isIdentifier hid hkind List.mem_cons_self
    have htitle : a.count c.name = 0 := hg.titles hid c.name (by
      rw [hkind]
      exact List.mem_cons_self)
    have hbody : ∀ b ∈ c.body, s.tree.Connected top b := fun b hb => hid.child (by
      rw [hslots]
      exact Option.mem_toList.mpr hb)
    refine (charges_tuple h hc).bind fun bases n hbases =>
      ((charges_optionalSequence h hbody).inScope _).bind fun codes m hcodes =>
        (Charges.intern fun _ => interned_uses_classCreation (a := a) c.name).bind_free
          fun creation hcreation => (Charges.intern fun _ => interned_count_classCode s.moduleName
            htitle hcode (hg.files hid) hvariables _).bind_free fun code htext =>
              (Charges.registersClass _ _).bind fun _ k hk => .pure ?_
    have hdict := uses_classDictCreation (a := a) hcode hclosure
    have hdeclared := count_classDeclaration (a := a) hcode hclosure
    rw [hcreation, hdict, hk, spent, hdeclared, htext, hslots, fees_append, total_append,
      total_cons, total_nil, count_returnStatement, uses_liveLocals]
    omega
  next => exact .fail _ _ _

/-! ## Forms -/

/-- A form that puts the operand of its only child into something. -/
theorem charges_unary {c : NodeId} (hc : ∀ n ∈ [c], s.tree.Connected top n)
    {form : Operand → Operand} (hform : ∀ o, a.uses (form o) = a.uses o) :
    a.Charges (do return form (← self.expression c)) fun o n => a.uses o + n ≤ fees fee [c] := by
  refine (h.expression (hc c List.mem_cons_self)).bind fun o n ho => .pure ?_
  rw [hform, fees_cons]
  omega

/-- A form that puts the operands of its two children together. -/
theorem charges_binary {c d : NodeId} (hc : ∀ n ∈ [c, d], s.tree.Connected top n)
    {form : Operand → Operand → Operand} (hform : ∀ o p, a.uses (form o p) = a.uses o + a.uses p) :
    a.Charges
      (do
        let o ← self.expression c
        let p ← self.expression d
        return form o p) fun o n => a.uses o + n ≤ fees fee [c, d] := by
  simp only [List.forall_mem_cons] at hc
  obtain ⟨hfirst, hsecond, -⟩ := hc
  exact .binary (h.expression hfirst) (h.expression hsecond)
    (fun o p => .pure ⟨rfl, hform o p⟩) rfl

/-- A form that puts the operands of its three children together. -/
theorem charges_ternary {c d e : NodeId} (hc : ∀ n ∈ [c, d, e], s.tree.Connected top n)
    {form : Operand → Operand → Operand → Lower Operand}
    (hform : ∀ o p q, a.Charges (form o p q)
      (Free fun r => a.uses r = a.uses o + (a.uses p + a.uses q))) :
    a.Charges
      (do
        let o ← self.expression c
        let p ← self.expression d
        let q ← self.expression e
        form o p q) fun o n => a.uses o + n ≤ fees fee [c, d, e] := by
  simp only [List.forall_mem_cons] at hc
  obtain ⟨hfirst, hsecond, hthird, -⟩ := hc
  exact .ternary (h.expression hfirst) (h.expression hsecond) (h.expression hthird) hform rfl

/-- A form that puts the operands of three optional children together. -/
theorem charges_optionals {o p q : Option NodeId}
    (hc : ∀ n ∈ o.toList ++ p.toList ++ q.toList, s.tree.Connected top n)
    {form : Option Operand → Option Operand → Option Operand → Operand}
    (hform : ∀ x y z, a.uses (form x y z) =
      a.usesAll x.toList + (a.usesAll y.toList + a.usesAll z.toList)) :
    a.Charges
      (do
        let x ← self.optional o
        let y ← self.optional p
        let z ← self.optional q
        return form x y z) fun r n =>
          a.uses r + n ≤ fees fee (o.toList ++ p.toList ++ q.toList) := by
  simp only [List.forall_mem_append, Option.mem_toList] at hc
  obtain ⟨⟨hfirst, hsecond⟩, hthird⟩ := hc
  exact .ternary (charges_optional h hfirst) (charges_optional h hsecond)
    (charges_optional h hthird) (fun x y z => .pure ⟨rfl, hform x y z⟩) (by simp)

/-- A form that puts the operands of its children together. -/
theorem charges_operands (hc : ∀ c ∈ ids, s.tree.Connected top c) {form : List Operand → Operand}
    (hform : ∀ os, a.uses (form os) = a.usesAll os) :
    a.Charges (do return form (← self.expressions ids)) fun o n =>
      a.uses o + n ≤ fees fee ids := by
  refine (charges_expressions h hc).bind fun os n hos => .pure ?_
  rw [hform]
  exact hos

/-- A form that puts a constant and the operand of its only child together. -/
theorem charges_named {c : NodeId} (hc : ∀ n ∈ [c], s.tree.Connected top n) (k : Constant)
    {form : Operand → Operand → Operand} (hform : ∀ n o, a.uses (form n o) = a.uses o + a.uses n) :
    a.Charges
      (do
        let n ← Lower.intern (constantFromTable k)
        let o ← self.expression c
        return form n o) fun o n => a.uses o + n ≤ fees fee [c] := by
  refine (charges_constant k).bind_free fun n hn =>
    (h.expression (hc c List.mem_cons_self)).bind fun o m ho => .pure ?_
  rw [hform, hn, fees_cons]
  omega

theorem charges_evalParts (mode : EvalMode) {source : NodeId} {inGlobals inLocals : Option NodeId}
    (hc : ∀ c ∈ source :: inGlobals.toList ++ inLocals.toList, s.tree.Connected top c) :
    a.Charges (evalParts s.tree self id mode source inGlobals inLocals) fun e n =>
      a.uses (evaluation e) + n ≤ fees fee (source :: inGlobals.toList ++ inLocals.toList) := by
  simp only [List.forall_mem_append, List.forall_mem_cons, Option.mem_toList] at hc
  obtain ⟨⟨hsource, hglobals⟩, hlocals⟩ := hc
  refine (charges_orConstant h hglobals _).bind fun g n hg =>
    (charges_orConstant h hlocals _).bind fun l m hl => (charges_constant _).bind_free
      fun filename hfilename => (charges_constant _).bind_free fun mode hmode =>
        (h.expression hsource).bind fun o k ho => .pure ?_
  rw [uses_evaluation, fees_append, fees_cons]
  dsimp only
  rw [hfilename, hmode, count_futureFlags]
  omega

/-- Globals that serve as locals too are used twice. -/
theorem charges_builtinImport (hg : a.Covers s top fee) (hid : s.tree.Connected top id)
    {name : NodeId} {fromList inGlobals inLocals level : Option NodeId}
    (hkind : s.tree.kind id = .expr (.builtinImport name fromList inGlobals inLocals level)) :
    a.Charges
      (expressionForm s self id (.builtinImport name fromList inGlobals inLocals level)) fun o n =>
        a.uses o + n ≤
          fees fee (s.tree.children id) + fees fee (s.tree.sharedGlobals? id).toList := by
  have hslots : s.tree.children id =
      name :: fromList.toList ++ inGlobals.toList ++ inLocals.toList ++ level.toList := by
    rw [Tree.children, hkind]
    rfl
  have hc : ∀ c ∈ s.tree.children id, s.tree.Connected top c := fun c hmem => hid.child hmem
  rw [hslots] at hc ⊢
  simp only [List.forall_mem_append, List.forall_mem_cons, Option.mem_toList] at hc
  obtain ⟨⟨⟨⟨hname, hfrom⟩, hglobals⟩, hlocals⟩, hlevel⟩ := hc
  have hlocal : ∀ {g : Operand} {n : Nat}, a.uses g + n ≤ fees fee inGlobals.toList →
      a.Charges (orLowered self inLocals (importLocals s id g)) fun l m =>
        a.uses l + m ≤ fees fee inLocals.toList + fees fee (s.tree.sharedGlobals? id).toList := by
    intro g n hg'
    cases inLocals with
    | some l => exact (h.expression (hlocals l rfl)).imp fun o n ho => by simp; omega
    | none =>
        refine (charges_importLocals hg hid g).imp fun o m ho => ?_
        obtain ⟨rfl, ho | ⟨rfl, hmodule⟩⟩ := ho
        · rw [ho]
          exact Nat.zero_le _
        · -- the code of the globals a second time, which the shared operand pays for
          rw [Tree.sharedGlobals?, hkind]
          dsimp only
          rw [if_pos hmodule]
          omega
  rw [expressionForm_builtinImport]
  refine (charges_orLowered h hglobals (.pure ⟨rfl, uses_globalsDict hg.codeName⟩)).bind
    fun g n hg' => (hlocal hg').bind fun l m hl => (h.expression hname).bind fun o k ho =>
      (charges_orConstant h hfrom _).bind fun ns i hns => (charges_orConstant h hlevel _).bind
        fun lv j hlv => .pure ?_
  simp only [uses_importModule, fees_append, fees_cons]
  omega

theorem charges_call {callee : NodeId} {positional : List NodeId} {named : List (NodeId × NodeId)}
    {starList starDict : Option NodeId}
    (hc : ∀ c ∈ (Expr.call callee positional named starList starDict).children,
      s.tree.Connected top c) :
    a.Charges (expressionForm s self id (.call callee positional named starList starDict))
      fun o n => a.uses o + n ≤
        fees fee (Expr.call callee positional named starList starDict).children := by
  simp only [Expr.children, List.forall_mem_append, List.forall_mem_cons, Option.mem_toList] at hc
  obtain ⟨⟨⟨⟨hcallee, hpositional⟩, hnamed⟩, hlist⟩, hdict⟩ := hc
  rw [expressionForm_call]
  refine (h.expression hcallee).bind fun f n hf => (charges_positionalTuple h hpositional).bind
    fun t m ht => (charges_namedArguments h hnamed).bind fun d k hd =>
      (charges_optional h hlist).bind fun sl i hsl => (charges_optional h hdict).bind
        fun sd j hsd => .pure ?_
  simp only [uses_functionCall, Expr.children, fees_append, fees_cons]
  omega

omit h in
theorem charges_importModule (hg : a.Covers s top fee) (hid : s.tree.Connected top id)
    {name : String} {names : Option (List String)} {level : Int} :
    a.Charges (expressionForm s self id (.importModule name names level))
      (Free fun o => a.uses o = 0) := by
  refine (charges_importLocals hg hid _).bind_free fun l hl => (charges_constant _).bind_free
    fun n hn => (charges_constant _).bind_free fun ns hns => (charges_constant _).bind_free
      fun lv hlv => ?_
  have hglobals := uses_globalsDict (a := a) hg.codeName
  have hlocals : a.uses l = 0 := by
    obtain hl | ⟨rfl, -⟩ := hl
    · exact hl
    · exact hglobals
  have huses : a.uses (Target.importModule n (globalsDict s.codeName) l ns lv) = 0 := by
    rw [uses_importModule, hn, hglobals, hlocals, hns, hlv]
  exact .pure ⟨rfl, huses⟩

/-- An expression that refers to no variable and is no import with slots of its own, before its code
is checked: it reads what its children read. -/
theorem charges_form (hg : a.Covers s top fee) (hid : s.tree.Connected top id) {e : Expr}
    (hkind : s.tree.kind id = .expr e) (hbound : e.boundVariable? = none)
    (himport : ∀ name fromList inGlobals inLocals level,
      e ≠ .builtinImport name fromList inGlobals inLocals level) :
    a.Charges (expressionForm s self id e) fun o n => a.uses o + n ≤ fees fee e.children := by
  have hc : ∀ c ∈ e.children, s.tree.Connected top c := fun c hmem =>
    hid.child (by rwa [Tree.children, hkind])
  cases e with
  | variableRef name binding =>
      refine (charges_reference hg hid).imp fun o n ho => ?_
      rw [hkind, NodeKind.refersTo, hbound] at ho
      exact ho
  | temporaryRef binding => cases hbound
  | constant value => exact .of_free (.intern fun _ => interned_uses_constantAccess value)
  | operation operator operands => exact charges_operands h hc fun _ => uses_operation operator
  | disjunction operands => exact charges_operands h hc fun _ => uses_disjunction
  | conjunction operands => exact charges_operands h hc fun _ => uses_conjunction
  | comparison comparator left right =>
      exact charges_binary h hc fun _ _ => uses_comparison comparator
  | conditional condition yes no =>
      simp only [Expr.children, List.forall_mem_cons] at hc
      obtain ⟨hcondition, hyes, hno, -⟩ := hc
      exact .ternary (h.condition false hcondition) (h.expression hyes) (h.expression hno)
        (fun _ _ _ => .pure ⟨rfl, uses_choice.trans (Nat.add_assoc _ _ _)⟩) rfl
  | makeTuple elements => exact charges_tuple h hc
  | makeList elements => exact charges_list h hc
  | makeSet elements => exact charges_set h hc
  | makeDict pairs => exact charges_dict h hc
  | call callee positional named starList starDict => exact charges_call h hc
  | attributeOf source name => exact charges_named h hc _ fun _ _ => uses_attributeLookup
  | specialAttributeOf source name =>
      exact charges_named h hc _ fun _ _ => uses_specialAttributeLookup
  | subscript source index => exact charges_binary h hc fun _ _ => uses_subscriptLookup
  | slice source lower upper =>
      simp only [Expr.children, List.cons_append, List.forall_mem_cons, List.forall_mem_append,
        Option.mem_toList] at hc
      obtain ⟨hsource, hlower, hupper⟩ := hc
      exact charges_sliceLookup h hsource hlower hupper
  | sliceObject lower upper step =>
      exact charges_optionals h hc fun _ _ _ => uses_sliceObject
  | function f =>
      have hslots : s.tree.children id = f.body.toList := by
        rw [Tree.children, hkind]
        rfl
      have hobject := charges_functionObject h hg hid (List.forall_mem_nil _)
      rwa [List.nil_append, hslots] at hobject
  | functionDefaulted definition defaults =>
      have hdefinition := hc definition (by simp [Expr.children])
      have hbody := hg.children_le hdefinition
      refine (charges_functionObject h hg hdefinition fun c hmem =>
        hc c (List.mem_append_left _ hmem)).imp fun o n ho => ?_
      simp only [Expr.children, fees_append, fees_cons, fees_nil] at ho ⊢
      omega
  | classBody c =>
      have hslots : s.tree.children id = c.body.toList := by
        rw [Tree.children, hkind]
        rfl
      have hobject := charges_classObject h hg hid (List.forall_mem_nil _)
      rwa [List.nil_append, hslots] at hobject
  | classBased classNode bases =>
      have hdefinition := hc classNode (by simp [Expr.children])
      have hbody := hg.children_le hdefinition
      refine (charges_classObject h hg hdefinition fun c hmem =>
        hc c (List.mem_append_left _ hmem)).imp fun o n ho => ?_
      simp only [Expr.children, fees_append, fees_cons, fees_nil] at ho ⊢
      omega
  | yield value forReturn => exact charges_unary h hc fun _ => uses_yielded forReturn
  | importModule name names level => exact .of_free (charges_importModule hg hid)
  | builtinImport name fromList inGlobals inLocals level => exact absurd rfl (himport _ _ _ _ _)
  | importName source name => exact charges_named h hc _ fun _ _ => uses_importName
  | range low high step =>
      simp only [Expr.children, List.forall_mem_append, List.forall_mem_cons,
        Option.mem_toList] at hc
      obtain ⟨⟨hlow, hhigh⟩, hstep⟩ := hc
      exact .ternary (h.expression hlow) (charges_optional h hhigh) (charges_optional h hstep)
        (fun _ _ _ => .pure ⟨rfl, uses_range⟩) (by simp [Expr.children])
  | globals => exact .silent (uses_globalsDict hg.codeName)
  | locals => exact .of_free (charges_localsAt hg hid)
  | dir => exact .of_free (charges_scopeOf.bind_free fun _ hp => .intern fun _ =>
      interned_uses_dirList hg.codeName (hg.localNames hid hp))
  | unaryBuiltin fn value => exact charges_unary h hc fun _ => uses_unaryBuiltin fn
  | iterWithSentinel callable sentinel => exact charges_binary h hc fun _ _ => uses_iterWithSentinel
  | nextWithDefault iterator default => exact charges_binary h hc fun _ _ => uses_nextWithDefault
  | typeOfThree name bases namespaceDict =>
      exact charges_ternary h hc fun _ _ _ =>
        .intern fun _ => interned_uses_typeOfThree s.moduleName
  | integer kind value base =>
      simp only [Expr.children, List.forall_mem_append, Option.mem_toList] at hc
      obtain ⟨hvalue, hbase⟩ := hc
      refine .ite (fun _ => .fail_bind _ _ _) fun _ => ?_
      exact .binary (charges_optional h hvalue) (charges_optional h hbase)
        (fun _ _ => .pure ⟨rfl, uses_integer kind⟩) fees_append.symm
  | dict positional named =>
      simp only [Expr.children, List.forall_mem_append, Option.mem_toList] at hc
      obtain ⟨hpositional, hnamed⟩ := hc
      exact .binary (charges_optional h hpositional) (charges_namedArguments h hnamed)
        (fun _ _ => .pure ⟨rfl, uses_dict⟩) fees_append.symm
  | openFile filename mode buffering =>
      exact charges_optionals h hc fun _ _ _ => uses_openFile
  | eval mode source inGlobals inLocals =>
      exact (charges_evalParts h mode hc).bind fun e n he => .pure he
  | raise exceptionType value sideEffects =>
      simp only [Expr.children, List.forall_mem_append, List.forall_mem_cons,
        Option.mem_toList] at hc
      obtain ⟨heffects, htype, hvalue⟩ := hc
      exact .ternary (charges_expressions h heffects) (h.expression htype)
        (charges_optional h hvalue) (fun _ _ _ => .pure ⟨rfl, by simp [count_tracebackMaker]⟩)
        (by simp [Expr.children])
  | makeException name arguments =>
      have hname : IsIdentifier name := hg.isIdentifier hid hkind List.mem_cons_self
      refine (charges_expressions h hc).bind fun os n hos => (Charges.intern fun _ =>
        interned_uses_exceptionCreation (a := a) hname os).imp fun o m ho => ?_
      rw [ho.1, ho.2]
      exact hos
  | builtin name => exact .of_free (.intern fun _ => interned_uses_builtinReference name)
  | anonymousBuiltin name =>
      have hname : IsIdentifier name := hg.isIdentifier hid hkind List.mem_cons_self
      exact .silent (uses_anonymousBuiltin hname)
  | exception name =>
      have hname : IsIdentifier name := hg.isIdentifier hid hkind List.mem_cons_self
      exact .silent (uses_exceptionReference hname)
  | assignment target source =>
      refine (h.expression (hc source (by simp [Expr.children]))).bind fun o n ho =>
        (charges_boundVariable hg (hc target (by simp [Expr.children]))).bind_free fun v hv =>
          .pure ?_
      rw [uses_assignmentExpression hg.codeName hv.1]
      simp only [Expr.children, fees_cons]
      omega
  | caught part => exact .silent (uses_caughtPart part)
  | listAppend list value => exact charges_binary h hc fun _ _ => uses_listAppend
  | setAdd set value => exact charges_binary h hc fun _ _ => uses_setAdd
  | dictSet target key value =>
      -- the value is evaluated before the key, and its operand stands behind that of the key
      exact charges_ternary h hc fun _ _ _ =>
        .pure ⟨rfl, uses_dictSet.trans (congrArg _ (Nat.add_comm _ _))⟩
  | unpackNext iterator count => exact charges_unary h hc fun _ => uses_unpackNext count

/-- The lowering of an expression, before its code is checked. -/
theorem charges_expressionForm (hg : a.Covers s top fee) (hid : s.tree.Connected top id) {e : Expr}
    (hkind : s.tree.kind id = .expr e) :
    a.Charges (expressionForm s self id e) fun o n => a.uses o + n ≤ a.due s.tree fee id := by
  have hslots : s.tree.children id = e.children := by
    rw [Tree.children, hkind]
    rfl
  have hreference : a.Charges (do return variableAccess s.codeName (← boundVariable s.tree id))
      fun o n => a.uses o + n ≤ a.due s.tree fee id := by
    refine (charges_reference hg hid).imp fun o n ho => ?_
    rw [due]
    omega
  cases he : e with
  | variableRef name binding => exact hreference
  | temporaryRef binding => exact hreference
  | builtinImport name fromList inGlobals inLocals level =>
      subst he
      refine (charges_builtinImport h hg hid hkind).imp fun o n ho => ?_
      rw [due]
      omega
  | _ =>
      rw [← he]
      refine (charges_form h hg hid hkind (by simp [he, Expr.boundVariable?]) (by simp [he])).imp
        fun o n ho => ?_
      rw [due, hslots]
      omega

theorem charges_expression (hg : a.Covers s top fee) (hid : s.tree.Connected top id) :
    a.Charges (expression s self id) fun o n => a.uses o + n ≤ fee id := by
  unfold expression
  split
  next => exact .fail _ _ _
  next e he =>
    refine (charges_expressionForm h hg hid (Tree.expr?_eq_some_iff.mp he)).bind fun o n ho => ?_
    split
    next => exact .fail _ _ _
    next => exact .pure (ho.trans (hg.dues hid))

end

/-! ## Conditions -/

theorem count_inverting (inverted : Bool) (c : String) :
    a.count (inverting inverted c) = a.count c := by
  cases inverted
  · rfl
  · exact count_negation

/-- A condition that falls back to its expression comes to the same node again. -/
theorem charges_condition (h : self.Within a s top fee) (hg : a.Covers s top fee)
    (hid : s.tree.Connected top id) (inverted : Bool) :
    a.Charges (condition s.tree self id inverted) fun c n => a.count c + n ≤ fee id := by
  have hc : ∀ c ∈ s.tree.children id, s.tree.Connected top c := fun c hmem => hid.child hmem
  have hpaid := hg.children_le hid
  rw [Tree.children] at hc hpaid
  unfold condition
  split
  next value _ => exact .silent (count_truthCondition _)
  next comparator left right hkind =>
    rw [hkind] at hc hpaid
    simp only [NodeKind.children, Expr.children, fees_cons, fees_nil] at hpaid
    refine (h.expression (hc left (by simp [NodeKind.children, Expr.children]))).bind fun l n hl =>
      (h.expression (hc right (by simp [NodeKind.children, Expr.children]))).bind fun r m hr =>
        .pure ?_
    rw [count_inverting, count_comparisonCondition]
    omega
  next operands hkind =>
    rw [hkind] at hc hpaid
    refine (charges_conditions h hc).bind fun cs n hcs => .pure ?_
    rw [count_inverting, count_anyOf]
    exact hcs.trans hpaid
  next operands hkind =>
    rw [hkind] at hc hpaid
    refine (charges_conditions h hc).bind fun cs n hcs => .pure ?_
    rw [count_inverting, count_allOf]
    exact hcs.trans hpaid
  next operand hkind =>
    rw [hkind] at hc hpaid
    simp only [NodeKind.children, Expr.children, fees_cons, fees_nil] at hpaid
    exact (h.condition (!inverted) (hc operand (by simp [NodeKind.children, Expr.children]))).imp
      fun c n hcondition => hcondition.trans hpaid
  next =>
    refine (h.expression hid).bind fun o n ho => .pure ?_
    rw [count_truthTest]
    exact ho

end LocalAccess
end CompilerBackend
