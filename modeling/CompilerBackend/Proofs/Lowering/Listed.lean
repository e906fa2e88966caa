import CompilerBackend.Proofs.Lowering.Brackets
import CompilerBackend.Proofs.Lowering.Untraced
import CompilerBackend.Proofs.Target.Headings
/-!
# The definitions in a module

Functions and class bodies are lowered wherever they stand, and what they become is handed from
scope to scope up to the module. In the end the text of a module has one declaration and one
definition for each of them, those of nested ones first, and none for anything else.

- `Tree.heading?`: the name in the heading of a sort for a node.
- `Tree.Listing`: the names of the generated nodes of a sort, each once, nested ones first.
- `Record.Fits.headed`: the headings of the texts of a definition.
- `listed_eq`: the definitions of a module, one sort behind the other.
- `Assembly.names_tracedText`: the headings of a module, in the order of its records.
- `moduleText_listing`: the headings of the text that a tree becomes.
-/

namespace CompilerBackend

open Text Target

variable {w : Wording} {t : Tree} {options : Options} {root : NodeId} {moduleName : String}
  {p : Program} {r : Record} {log : List NodeId} {name? : NodeId → Option String} {h : Heading}

namespace Tree

def heading? (t : Tree) : Heading → NodeId → Option String
  | .functionDeclared, id => (t.functionName? id).map functionMaker
  | .functionDefined, id =>
    match t.kind id with
    | .expr (.function f) => some (implementationName f)
    | _ => none
  | .classDeclared, id | .classDefined, id => (t.className? id).map classDictMaker

theorem heading?_functionDefined {n : NodeId} {name : String}
    (hname : t.heading? .functionDefined n = some name) :
    ∃ f : FunctionBody, t.functionName? n = some f.codeName ∧ name = implementationName f := by
  rw [heading?] at hname
  split at hname
  next f hkind =>
      refine ⟨f, ?_, (Option.some.inj hname).symm⟩
      rw [functionName?, hkind]
  next => cases hname

theorem isDefinition_of_heading? {n : NodeId} (hname : (t.heading? h n).isSome = true) :
    t.isDefinition n = true := by
  rw [isDefinition, Bool.or_eq_true]
  cases h with
  | functionDeclared => exact Or.inl (Option.isSome_map.symm.trans hname)
  | functionDefined =>
      obtain ⟨name, hname⟩ := Option.isSome_iff_exists.mp hname
      obtain ⟨f, hf, -⟩ := heading?_functionDefined hname
      exact Or.inl (by rw [hf]; rfl)
  | classDeclared => exact Or.inr (Option.isSome_map.symm.trans hname)
  | classDefined => exact Or.inr (Option.isSome_map.symm.trans hname)

/-! ## Distinct names -/

/-- Below the root, no two nodes have the same name. -/
def TellsApart (t : Tree) (root : NodeId) (name? : NodeId → Option String) : Prop :=
  ∀ n m name, t.Reaches root n → t.Reaches root m → name? n = some name → name? m = some name →
    n = m

/-- Functions have distinct code names, and so do classes. No code name of a function is that of
another with the ending for generators. -/
structure DistinctNames (t : Tree) (root : NodeId) : Prop where
  functions : t.TellsApart root t.functionName?
  classes : t.TellsApart root t.className?
  generators : ∀ n m name, t.Reaches root n → t.Reaches root m → t.functionName? n = some name →
    t.functionName? m ≠ some (name ++ "_generator")

/-- Names behind a common beginning. -/
theorem TellsApart.map (hapart : t.TellsApart root name?) (start : String) :
    t.TellsApart root fun n => (name? n).map (start ++ ·) := by
  intro n m name hn hm hname hname'
  obtain ⟨code, hcode, rfl⟩ := Option.map_eq_some_iff.mp hname
  obtain ⟨code', hcode', heq⟩ := Option.map_eq_some_iff.mp hname'
  rw [(String.append_right_inj start).mp heq] at hcode'
  exact hapart n m code hn hm hcode hcode'

/-- Distinct code names make distinct names of headings. -/
theorem DistinctNames.heading? (hd : t.DistinctNames root) (h : Heading) :
    t.TellsApart root (t.heading? h) := by
  cases h with
  | functionDeclared => exact hd.functions.map _
  | classDeclared => exact hd.classes.map _
  | classDefined => exact hd.classes.map _
  | functionDefined =>
      intro n m name hn hm hname hname'
      obtain ⟨f, hf, rfl⟩ := heading?_functionDefined hname
      obtain ⟨g, hg, heq⟩ := heading?_functionDefined hname'
      simp only [implementationName, String.append_assoc, String.append_right_inj] at heq
      -- both are generators, or neither is, or else one code name ends like a generator
      cases hgenerator : f.isGenerator <;> cases hgenerator' : g.isGenerator <;>
        simp only [hgenerator, hgenerator', Bool.false_eq_true, if_true, if_false,
          String.append_empty, String.append_left_inj] at heq
      · exact hd.functions n m _ hn hm hf (heq ▸ hg)
      · exact absurd (heq ▸ hf) (hd.generators m n _ hm hn hg)
      · exact absurd (heq ▸ hg) (hd.generators n m _ hn hm hf)
      · exact hd.functions n m _ hn hm hf (heq ▸ hg)

/-! ## Listings -/

/-- The names are those of the generated nodes that have one, each once. The name of a node comes
before that of a node around it. -/
structure Listing (t : Tree) (root : NodeId) (name? : NodeId → Option String)
    (names : List String) : Prop where
  only : ∀ name ∈ names, ∃ n, t.Reaches root n ∧ name? n = some name
  mem_iff : ∀ n name, t.Reaches root n → name? n = some name →
    (name ∈ names ↔ ∃ role, t.Generated root (role, n))
  once : names.Nodup
  nested : ∀ n m inner outer, n ≠ m → t.Reaches m n → t.Reaches root m →
    name? n = some inner → name? m = some outer → inner ∈ names → outer ∈ names →
    [inner, outer].Sublist names

/-- Nodes none of which is at or below an earlier one, with names that tell them apart. -/
theorem nodup_filterMap (hlog : log.Pairwise fun n m => ¬ t.Reaches n m)
    (hreached : ∀ n ∈ log, t.Reaches root n) (hapart : t.TellsApart root name?) :
    (log.filterMap name?).Nodup := by
  rw [List.Nodup, List.pairwise_filterMap]
  refine hlog.imp_of_mem fun hn hm hnot name hname name' hname' heq => ?_
  subst heq
  rw [hapart _ _ _ (hreached _ hn) (hreached _ hm) hname hname'] at hnot
  exact hnot (Reaches.refl t _)

/-- Of two members the one that is not below the other is the later one. -/
theorem sublist_of_pairwise {n m : NodeId} (hlog : log.Pairwise fun n m => ¬ t.Reaches n m)
    (hn : n ∈ log) (hm : m ∈ log) (hne : n ≠ m) (hmn : t.Reaches m n) : [n, m].Sublist log := by
  obtain ⟨before, behind, rfl⟩ := List.append_of_mem hn
  rcases List.mem_append.mp hm with hm | hm
  · exact absurd hmn ((List.pairwise_append.mp hlog).2.2 m hm n List.mem_cons_self)
  · have hbehind : m ∈ behind := (List.mem_cons.mp hm).resolve_left (Ne.symm hne)
    exact ((List.singleton_sublist.mpr hbehind).cons_cons n).trans (List.sublist_append_right _ _)

/-- The names along the log of a module are a listing. -/
theorem Defines.listing (hlog : t.Defines (t.lowered root) log) (htree : t.IsTree root)
    (hapart : t.TellsApart root name?)
    (hname : ∀ n, (name? n).isSome = true → t.isDefinition n = true) :
    t.Listing root name? (log.filterMap name?) := by
  have hroot := Reaches.refl t root
  have hslots : ∀ c ∈ t.lowered root, t.Reaches root c := fun c hc =>
    hroot.child ((t.lowered_sublist root).subset hc)
  have hreached : ∀ n ∈ log, t.Reaches root n := by
    intro n hn
    obtain ⟨c, hc, hn⟩ := hlog.reaches hn
    exact (hslots c hc).trans hn
  have hordered := hlog.pairwise htree hslots (apart_lowered htree hroot)
  have hmem : ∀ {n name}, t.Reaches root n → name? n = some name →
      name ∈ log.filterMap name? → n ∈ log := by
    intro n name hn hsome hnames
    obtain ⟨m, hm, hm'⟩ := List.mem_filterMap.mp hnames
    exact hapart n m name hn (hreached m hm) hsome hm' ▸ hm
  refine ⟨fun name hnames => ?_, fun n name hn hsome => ?_,
    nodup_filterMap hordered hreached hapart, ?_⟩
  · obtain ⟨n, hn, hsome⟩ := List.mem_filterMap.mp hnames
    exact ⟨n, hreached n hn, hsome⟩
  · rw [generated_iff_lowers]
    have hdefinition := hname n (by rw [hsome]; rfl)
    constructor
    · intro hnames
      exact (hlog.mem_iff.mp (hmem hn hsome hnames)).2
    · intro hlowers
      exact List.mem_filterMap.mpr ⟨n, hlog.mem_iff.mpr ⟨hdefinition, hlowers⟩, hsome⟩
  · intro n m inner outer hne hmn hm hinner houter hinnerMem houterMem
    have hsub := (sublist_of_pairwise hordered (hmem (hm.trans hmn) hinner hinnerMem)
      (hmem hm houter houterMem) hne hmn).filterMap name?
    rwa [List.filterMap_cons_some hinner, List.filterMap_cons_some houter] at hsub

/-! ## Headings of definitions -/

theorem heading?_function {f : FunctionBody} {id : NodeId} (hkind : t.kind id = .expr (.function f)) :
    t.heading? h id = match h with
      | .functionDeclared => some (functionMaker f.codeName)
      | .functionDefined => some (implementationName f)
      | .classDeclared | .classDefined => none := by
  cases h <;> simp only [heading?, functionName?, className?, hkind, Option.map_some, Option.map_none]

theorem heading?_classBody {c : ClassBody} {id : NodeId} (hkind : t.kind id = .expr (.classBody c)) :
    t.heading? h id = match h with
      | .functionDeclared | .functionDefined => none
      | .classDeclared | .classDefined => some (classDictMaker c.codeName) := by
  cases h <;> simp only [heading?, functionName?, className?, hkind, Option.map_some, Option.map_none]

end Tree

/-- The declaration of a definition and its code have the headings that declare and define it. -/
structure Record.Headed (t : Tree) (r : Record) : Prop where
  declaration (h : Heading) : h.names r.traced.declaration =
    if h.declares = true then (t.heading? h r.node).toList else []
  code (h : Heading) : h.names r.traced.code =
    if h.declares = true then [] else (t.heading? h r.node).toList

theorem Record.Fits.headed (hfits : r.Fits t w) (hlax : w.Lax) (hu : w.unbroken)
    (hnames : ∀ name ∈ (t.kind r.node).names, Named w name ∧ IsIdentifier name)
    (htitles : ∀ name ∈ (t.kind r.node).titles, Unbroken name)
    (hfile : Unbroken (t.location r.node).file) : r.Headed t := by
  cases hfits with
  | @function id f hkind defaults body' body hbody =>
      rw [hkind] at hnames htitles
      obtain ⟨hname, hcode⟩ := hnames f.codeName List.mem_cons_self
      have hv : ∀ v ∈ f.parameters.all ++ f.userVariables ++ f.temporaries ++ f.closureVariables,
          Named w v.name := by
        intro v hmem
        exact (hnames v.name (List.mem_cons_of_mem _ (List.mem_map_of_mem hmem))).1
      have hdeclaration : Line w (functionDeclaration f.codeName defaults f.closureVariables) :=
        line_functionDeclaration hname defaults fun v hmem => hv v (by simp [hmem])
      have hsignature : Piece w (functionSignature f) :=
        piece_functionSignature (piece_implementationName hlax hname) fun v hmem =>
          hv v (by simp [hmem])
      constructor
      · intro h
        rw [Heading.names_functionDeclaration hcode (hdeclaration.firm.term.piece.unbroken hu),
          Tree.heading?_function hkind]
        cases h <;> rfl
      · intro h
        rw [Heading.names_functionText hcode (htitles _ List.mem_cons_self) hfile
          (hsignature.unbroken hu) hbody.lines, Tree.heading?_function hkind]
        cases h <;> rfl
  | @classBody id c hkind body' body hbody =>
      rw [hkind] at hnames htitles
      obtain ⟨hname, hcode⟩ := hnames c.codeName List.mem_cons_self
      have hv : ∀ v ∈ c.closureVariables, Named w v.name := by
        intro v hmem
        exact (hnames v.name (List.mem_cons_of_mem _ (List.mem_map_of_mem (by simp [hmem])))).1
      have hdeclaration := line_classDeclaration hname hv
      have hsignature := term_classSignature hname hv
      constructor
      · intro h
        rw [Heading.names_classDeclaration hcode (hdeclaration.firm.term.piece.unbroken hu),
          Tree.heading?_classBody hkind]
        cases h <;> rfl
      · intro h
        rw [Heading.names_classText hcode (htitles _ List.mem_cons_self) hfile
          (hsignature.piece.unbroken hu) hbody.lines, Tree.heading?_classBody hkind]
        cases h <;> rfl

/-! ## Definitions of a module -/

/-- With distinct names a module lists its definitions in the order of their registration. -/
theorem Log.values_onto (log : Log) (hnodup : ((log.map (·.1)).filterMap name?).Nodup) :
    (log.onto name? .empty).values = log.filterMap fun e => (name? e.1).map fun _ => e.2 := by
  have hkeys : (log.filterMap fun e => (name? e.1).map (·, e.2)).map (·.1) =
      (log.map (·.1)).filterMap name? := by
    rw [List.map_filterMap, List.filterMap_map]
    refine List.filterMap_congr fun e _ => ?_
    rw [Option.map_map]
    exact congrFun Option.map_id _
  rw [OrderedMap.values, Log.onto, ← OrderedMap.ofEntries,
    OrderedMap.entries_ofEntries (by rwa [hkeys]), List.map_filterMap]
  simp only [Option.map_map]
  rfl

def Record.sorted (name? : NodeId → Option String) (records : List Record) : List Definition :=
  records.filterMap fun r => (name? r.node).map fun _ => r.traced

/-- With distinct names a module has its classes in the order of their records, then its functions
in theirs. -/
theorem listed_eq {records : List Record}
    (hclasses : ((records.map (·.node)).filterMap t.className?).Nodup)
    (hfunctions : ((records.map (·.node)).filterMap t.functionName?).Nodup) :
    Log.listed t (records.map fun r => (r.node, r.traced)) =
      Record.sorted t.className? records ++ Record.sorted t.functionName? records := by
  have hnodes : (records.map fun r => (r.node, r.traced)).map (·.1) = records.map (·.node) := by
    rw [List.map_map]
    rfl
  rw [Log.listed, Log.values_onto _ (by rwa [hnodes]), Log.values_onto _ (by rwa [hnodes]),
    List.filterMap_map, List.filterMap_map]
  rfl

/-! ## Headings of a module -/

namespace Record

variable {records : List Record} {read : Definition → List String} (reads : NodeId → List String)

/-- What is read off the definitions of one sort, if it is told by their nodes. -/
theorem flatMap_sorted (hread : ∀ r ∈ records, read r.traced = reads r.node) :
    (sorted name? records).flatMap read =
      (records.map (·.node)).flatMap fun n => if (name? n).isSome = true then reads n else [] := by
  induction records with
  | nil => rfl
  | cons r records ih =>
      have hrest := ih fun r hr => hread r (List.mem_cons_of_mem _ hr)
      rw [sorted, List.filterMap_cons, List.map_cons, List.flatMap_cons, ← hrest]
      cases hname : name? r.node with
      | none => rfl
      | some name =>
          rw [Option.map_some, List.flatMap_cons, hread r List.mem_cons_self]
          rfl

/-- A sort that is not read. -/
theorem flatMap_sorted_eq_nil (hread : ∀ r ∈ records, read r.traced = reads r.node)
    (hnone : ∀ n, (name? n).isSome = true → reads n = []) :
    (sorted name? records).flatMap read = [] := by
  rw [flatMap_sorted reads hread, List.flatMap_eq_nil_iff]
  intro n _
  split
  next hsome => exact hnone n hsome
  next => rfl

/-- The only sort that is read. -/
theorem flatMap_sorted_eq (hread : ∀ r ∈ records, read r.traced = reads r.node)
    (hnone : ∀ n, name? n = none → reads n = []) :
    (sorted name? records).flatMap read = (records.map (·.node)).flatMap reads := by
  rw [flatMap_sorted reads hread]
  refine List.flatMap_congr fun n _ => ?_
  split
  next => rfl
  next hnot => exact (hnone n (Option.not_isSome_iff_eq_none.mp hnot)).symm

end Record

namespace Tree

theorem className?_eq_none {n : NodeId} (hname : (t.functionName? n).isSome = true) :
    t.className? n = none := by
  rw [functionName?] at hname
  split at hname
  next f hkind => rw [className?, hkind]
  next => exact Bool.noConfusion hname

theorem functionName?_eq_none {n : NodeId} (hname : (t.className? n).isSome = true) :
    t.functionName? n = none := by
  cases hfunction : t.functionName? n with
  | none => rfl
  | some name =>
      rw [className?_eq_none (by rw [hfunction]; rfl)] at hname
      exact nomatch hname

/-- A sort of headings is one of functions, or else one of classes. -/
theorem heading?_eq_none (h : Heading) :
    (∀ n, t.functionName? n = none → t.heading? h n = none) ∨
      ∀ n, t.className? n = none → t.heading? h n = none := by
  cases h with
  | functionDeclared =>
      refine Or.inl fun n hname => ?_
      rw [heading?, hname]
      rfl
  | functionDefined =>
      refine Or.inl fun n hname => ?_
      cases hheading : t.heading? .functionDefined n with
      | none => rfl
      | some name =>
          obtain ⟨f, hf, -⟩ := heading?_functionDefined hheading
          exact nomatch hname.symm.trans hf
  | classDeclared =>
      refine Or.inr fun n hname => ?_
      rw [heading?, hname]
      rfl
  | classDefined =>
      refine Or.inr fun n hname => ?_
      rw [heading?, hname]
      rfl

end Tree

/-- What is read off the definitions of a module, if it is the headings of a sort. -/
theorem flatMap_listed {records : List Record} {read : Definition → List String}
    (hread : ∀ r ∈ records, read r.traced = (t.heading? h r.node).toList)
    (hclasses : ((records.map (·.node)).filterMap t.className?).Nodup)
    (hfunctions : ((records.map (·.node)).filterMap t.functionName?).Nodup) :
    (Log.listed t (records.map fun r => (r.node, r.traced))).flatMap read =
      (records.map (·.node)).filterMap (t.heading? h) := by
  have hall : (records.map (·.node)).filterMap (t.heading? h) =
      (records.map (·.node)).flatMap fun n => (t.heading? h n).toList :=
    List.filterMap_eq_flatMap_toList ..
  let reads := fun n => (t.heading? h n).toList
  rw [listed_eq hclasses hfunctions, List.flatMap_append, hall]
  rcases t.heading?_eq_none h with hsort | hsort
  · rw [Record.flatMap_sorted_eq_nil reads hread, Record.flatMap_sorted_eq reads hread,
      List.nil_append]
    · intro n hname
      exact congrArg Option.toList (hsort n hname)
    · intro n hname
      exact congrArg Option.toList (hsort n (Tree.functionName?_eq_none hname))
  · rw [Record.flatMap_sorted_eq reads hread, Record.flatMap_sorted_eq_nil reads hread,
      List.append_nil]
    · intro n hname
      exact congrArg Option.toList (hsort n (Tree.className?_eq_none hname))
    · intro n hname
      exact congrArg Option.toList (hsort n hname)

/-- The headings of a sort in a module are those of its records, in their order. -/
theorem Assembly.names_tracedText {m : Module} (a : Assembly t w m) (hu : w.unbroken)
    (hname : Unbroken moduleName) (hheaded : ∀ r ∈ a.records, r.Headed t)
    (hclasses : ((a.records.map (·.node)).filterMap t.className?).Nodup)
    (hfunctions : ((a.records.map (·.node)).filterMap t.functionName?).Nodup) (h : Heading) :
    h.names (a.tracedText moduleName) = (a.records.map (·.node)).filterMap (t.heading? h) := by
  have hbody := (a.openingTwins.append a.bodyTwins).lines
  have hnone : ∀ {read : Definition → List String}, (∀ r ∈ a.records, read r.traced = []) →
      (Log.listed t (a.records.map fun r => (r.node, r.traced))).flatMap read = [] := by
    intro read hread
    rw [listed_eq hclasses hfunctions, List.flatMap_append,
      Record.flatMap_sorted_eq_nil (fun _ => []) hread fun _ _ => rfl,
      Record.flatMap_sorted_eq_nil (fun _ => []) hread fun _ _ => rfl]
    rfl
  rw [tracedText, Heading.names_moduleLayout hname a.globalLines hu hbody]
  cases hdeclares : h.declares with
  | true =>
      have hread : ∀ r ∈ a.records, h.names r.traced.declaration = (t.heading? h r.node).toList := by
        intro r hr
        rw [(hheaded r hr).declaration, if_pos hdeclares]
      have hrest : ∀ r ∈ a.records, h.names r.traced.code = [] := by
        intro r hr
        rw [(hheaded r hr).code, if_pos hdeclares]
      rw [flatMap_listed hread hclasses hfunctions, hnone hrest, List.append_nil]
  | false =>
      have hnot : h.declares ≠ true := ne_true_of_eq_false hdeclares
      have hread : ∀ r ∈ a.records, h.names r.traced.code = (t.heading? h r.node).toList := by
        intro r hr
        rw [(hheaded r hr).code, if_neg hnot]
      have hrest : ∀ r ∈ a.records, h.names r.traced.declaration = [] := by
        intro r hr
        rw [(hheaded r hr).declaration, if_neg hnot]
      rw [hnone hrest, flatMap_listed hread hclasses hfunctions, List.nil_append]

/-- The names that a lowering can come to are plain and distinct: a module declares and defines
each function and class in a generated position once, nested ones first, and nothing else. -/
theorem moduleText_listing {text : String} (htree : t.IsTree root) (hplain : t.Plain root)
    (hlines : t.InOneLine root) (hname : Unbroken moduleName)
    (hdistinct : t.DistinctNames root) (hp : p.Reached)
    (htext : (t.moduleText options root moduleName p).1 = .ok text) (h : Heading) :
    t.Listing root (t.heading? h) (h.names text) := by
  obtain ⟨m, hm⟩ : ∃ m, t.module? root = some m := by
    cases hm : t.module? root with
    | some m => exact ⟨m, rfl⟩
    | none =>
        unfold Tree.moduleText Lowering.moduleAt at htext
        dsimp only at htext
        rw [hm] at htext
        exact nomatch htext
  have hkind := Tree.module?_eq_some_iff.mp hm
  have hgrounded : Grounded (Wording.lax False True) ⟨t, { options with traceExecution := false },
      moduleName, moduleIdentifier moduleName⟩ False root :=
    hlines.grounded (isIdentifier_moduleIdentifier moduleName)
  have hlax := lax_lax False True
  obtain ⟨-, ⟨stop, hstop, -⟩ | ⟨a, ha, -⟩⟩ :=
    moduleText_assembled hgrounded hlax id trivial hm hp.wellFormed options.traceExecution
  · exact nomatch hstop.symm.trans htext
  obtain rfl : a.tracedText moduleName = text := Except.ok.inj (ha.symm.trans htext)
  have hslots : m.body.toList = t.lowered root := by
    rw [Tree.lowered, Tree.positions, hkind, List.map_map]
    exact (List.map_id _).symm
  have hdefines : t.Defines (t.lowered root) (a.records.map (·.node)) := hslots ▸ a.defines
  have hbody : ∀ c ∈ t.lowered root, t.Connected root c := fun c hc =>
    (Tree.Connected.refl t root).child ((t.lowered_sublist root).subset hc)
  have hheaded : ∀ r ∈ a.records, r.Headed t := by
    intro r hr
    have hnode := hdefines.connected hbody r.node (List.mem_map_of_mem hr)
    obtain ⟨hfile, htexts⟩ := hlines r.node hnode
    refine (a.fits r hr).headed hlax trivial ?_ ?_ hfile
    · intro name hmem
      exact ⟨(hgrounded.suits r.node hnode).names name hmem, hplain r.node hnode name hmem⟩
    · intro name hmem
      exact htexts name (List.mem_append_right _ hmem)
  have hclasses := hdefines.listing htree hdistinct.classes fun n hsome =>
    Bool.or_eq_true _ _ ▸ Or.inr hsome
  have hfunctions := hdefines.listing htree hdistinct.functions fun n hsome =>
    Bool.or_eq_true _ _ ▸ Or.inl hsome
  rw [a.names_tracedText trivial hname hheaded hclasses.once hfunctions.once]
  exact hdefines.listing htree (hdistinct.heading? h) fun n => Tree.isDefinition_of_heading?

/-! ## A generator -/

theorem Tree.tellsApart_of_arena {top : NodeId} (hsome : ∀ n, (name? n).isSome = true → t.Has n)
    (h : ∀ i < t.size, ∀ j < t.size, (name? ⟨i⟩).isSome = true → name? ⟨i⟩ = name? ⟨j⟩ → i = j) :
    t.TellsApart top name? := by
  intro n m name _ _ hn hm
  have hlow : t.Has n := hsome n (by rw [hn]; rfl)
  have hhigh : t.Has m := hsome m (by rw [hm]; rfl)
  have hindex : n.index = m.index := h n.index hlow m.index hhigh (by rw [hn]; rfl) (hn.trans hm.symm)
  cases n
  cases m
  exact congrArg NodeId.mk hindex

theorem Tree.has_of_isDefinition {n : NodeId} (h : t.isDefinition n = true) : t.Has n := by
  by_contra hnot
  rw [isDefinition, functionName?, className?, kind, node_of_not_has hnot] at h
  exact Bool.noConfusion h

/-- A generator `outer` with a function `inner` in it. It returns a function `hidden`, whose value
nobody gets. -/
def generating : Tree where
  nodes :=
    let entry (kind : NodeKind) (parent : Option NodeId) : Node :=
      ⟨kind, parent, { file := "spam.py", line := 1 }⟩
    let function (name : String) (body : Option NodeId) (isGenerator : Bool) : NodeKind :=
      .expr (.function { name, codeName := name, body, isGenerator })
    #[entry (.module { name := "spam", filename := "spam.py", body := some ⟨1⟩ }) none,
      entry (.sequence [⟨2⟩]) (some ⟨0⟩),
      entry (.stmt (.expression ⟨3⟩)) (some ⟨1⟩),
      entry (function "outer" (some ⟨4⟩) true) (some ⟨2⟩),
      entry (.sequence [⟨5⟩, ⟨7⟩]) (some ⟨3⟩),
      entry (.stmt (.expression ⟨6⟩)) (some ⟨4⟩),
      entry (function "inner" none false) (some ⟨5⟩),
      entry (.stmt (.returnValue ⟨8⟩)) (some ⟨4⟩),
      entry (function "hidden" none false) (some ⟨7⟩)]
  root := some ⟨0⟩

theorem distinctNames_generating : generating.DistinctNames ⟨0⟩ := by
  constructor
  · refine Tree.tellsApart_of_arena (fun n hn => ?_) (by decide +kernel)
    exact Tree.has_of_isDefinition (Bool.or_eq_true _ _ ▸ Or.inl hn)
  · refine Tree.tellsApart_of_arena (fun n hn => ?_) (by decide +kernel)
    exact Tree.has_of_isDefinition (Bool.or_eq_true _ _ ▸ Or.inr hn)
  · have hcheck : ∀ i < 9, ∀ j < 9, ∀ name ∈ generating.functionName? ⟨i⟩,
        generating.functionName? ⟨j⟩ ≠ some (name ++ "_generator") := by decide +kernel
    have hlow : ∀ {n name}, generating.functionName? n = some name → n.index < 9 := fun hn =>
      Tree.has_of_isDefinition (t := generating) (Bool.or_eq_true _ _ ▸ Or.inl (by rw [hn]; rfl))
    intro n m name _ _ hn hm
    exact hcheck n.index (hlow hn) m.index (hlow hm) name hn hm

theorem not_generated_hidden (role : Role) : ¬ generating.Generated ⟨0⟩ (role, ⟨8⟩) := by
  have hclosed : ∀ i < 8, ∀ c ∈ generating.lowered ⟨i⟩, c.index < 8 := by decide +kernel
  intro hgenerated
  obtain ⟨c, hc, hlowers⟩ := Tree.generated_iff_lowers.mp ⟨role, hgenerated⟩
  have hlow : ∀ n, generating.Lowers c n → n.index < 8 := by
    intro n hn
    induction hn with
    | refl => exact hclosed 0 (by decide) c hc
    | @tail n m _ hm ih => exact hclosed n.index ih m hm
  exact absurd (hlow ⟨8⟩ hlowers) (by decide)

/-- The function inside stands in front, and the one that is never lowered is left out. -/
theorem moduleText_listing_generating :
    generating.IsTree ⟨0⟩ ∧ generating.Plain ⟨0⟩ ∧ generating.InOneLine ⟨0⟩ ∧ Unbroken "spam" ∧
    generating.DistinctNames ⟨0⟩ ∧ Program.Reached {} ∧
    ∃ text, (generating.moduleText {} ⟨0⟩ "spam" {}).1 = .ok text ∧
      ["impl_inner", "impl_outer_generator"].Sublist (Heading.functionDefined.names text) ∧
      "impl_hidden" ∉ Heading.functionDefined.names text := by
  have hwf : generating.WellFormed := Tree.WellFormed.of_arena rfl rfl (by decide) (by decide +kernel)
  have htree : generating.IsTree ⟨0⟩ := (hwf ⟨0⟩ rfl).2
  have hplain : generating.Plain ⟨0⟩ := Tree.plain_of_nodes (by decide +kernel)
  have hlines : generating.InOneLine ⟨0⟩ := Tree.inOneLine_of_nodes (by decide +kernel)
  have hname : Unbroken "spam" := by
    unfold Unbroken
    decide +kernel
  have hcheck : (generating.moduleText {} ⟨0⟩ "spam" {}).1.toOption.isSome = true := by
    decide +kernel
  cases htext : (generating.moduleText {} ⟨0⟩ "spam" {}).1 with
  | error stop =>
      rw [htext] at hcheck
      exact Bool.noConfusion hcheck
  | ok text =>
      have hlisting := moduleText_listing htree hplain hlines hname distinctNames_generating
        Program.Reached.empty htext .functionDefined
      have hinner : generating.Reaches ⟨0⟩ ⟨6⟩ := ⟨[0, 0, 0, 0, 0, 0], by decide +kernel⟩
      have houter : generating.Reaches ⟨0⟩ ⟨3⟩ := ⟨[0, 0, 0], by decide +kernel⟩
      have hhidden : generating.Reaches ⟨0⟩ ⟨8⟩ := ⟨[0, 0, 0, 0, 1, 0], by decide +kernel⟩
      have hbelow : generating.Reaches ⟨3⟩ ⟨6⟩ := ⟨[0, 0, 0], by decide +kernel⟩
      have hstep : ∀ i < 6, (⟨i + 1⟩ : NodeId) ∈ generating.lowered ⟨i⟩ := by decide +kernel
      have hlowers : ∀ k < 6, generating.Lowers ⟨1⟩ ⟨k + 1⟩ := by
        intro k hk
        induction k with
        | zero => exact Relation.ReflTransGen.refl
        | succ k ih => exact (ih (by omega)).tail (hstep (k + 1) hk)
      have hgenerated : ∀ k < 6, ∃ role, generating.Generated ⟨0⟩ (role, ⟨k + 1⟩) := fun k hk =>
        Tree.generated_iff_lowers.mpr ⟨⟨1⟩, hstep 0 (by decide), hlowers k hk⟩
      refine ⟨htree, hplain, hlines, hname, distinctNames_generating, Program.Reached.empty, text, rfl,
        ?_, ?_⟩
      · refine hlisting.nested ⟨6⟩ ⟨3⟩ _ _ (by decide) hbelow houter rfl rfl ?_ ?_
        · exact (hlisting.mem_iff ⟨6⟩ _ hinner rfl).mpr (hgenerated 5 (by decide))
        · exact (hlisting.mem_iff ⟨3⟩ _ houter rfl).mpr (hgenerated 2 (by decide))
      · intro hmem
        obtain ⟨role, hgenerated⟩ := (hlisting.mem_iff ⟨8⟩ _ hhidden rfl).mp hmem
        exact not_generated_hidden role hgenerated

end CompilerBackend
