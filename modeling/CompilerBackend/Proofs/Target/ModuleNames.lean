import CompilerBackend.Proofs.Program.Table
import CompilerBackend.Proofs.Target.Definitions
/-!
# Names of modules in the target

A dot in the name of a module becomes two underscores, and the storage of a global is named after
the module and the variable with one underscore between. Names may hold underscores themselves, so
neither can always be read back: every module of a package has the identifier of a module that is
in no package, and the global `b_c` of `a` has the storage of `c` of `a_b`.

- `IsPath`: the name of a module, part by part.
- `Legible`: parts that do not run into the underscores of a dot.
- `Extends`: how the names of two modules and two variables make one storage.
- `moduleSymbols_apart`: which modules share an identifier, and which globals a storage.
-/

namespace CompilerBackend.Target

open Program

variable {moduleName moduleName' : String} {parts parts' : List String}

/-! ## Paths -/

/-- The name of a module is made of plain names with dots between: its packages and its own. -/
structure IsPath (moduleName : String) (parts : List String) : Prop where
  ne_nil : parts ≠ []
  plain : ∀ part ∈ parts, isPlainName part = true
  eq_intercalate : moduleName = ".".intercalate parts

/-- What stands in an identifier for a dot and the part behind it. -/
def dotted (part : String) : List Char := '_' :: '_' :: part.toList

theorem flatMap_identifierChars {cs : List Char} (h : ∀ c ∈ cs, isNameChar c = true) :
    cs.flatMap identifierChars = cs := by
  induction cs with
  | nil => rfl
  | cons c cs ih =>
      have hc := h c List.mem_cons_self
      have hdot : c ≠ '.' := by
        rintro rfl
        exact absurd hc (by decide)
      rw [List.flatMap_cons, identifierChars, if_neg hdot, if_pos hc,
        ih fun d hd => h d (List.mem_cons_of_mem _ hd), List.singleton_append]

theorem toList_moduleIdentifier (moduleName : String) :
    (moduleIdentifier moduleName).toList = moduleName.toList.flatMap identifierChars :=
  String.toList_ofList

/-- An identifier is that of the module it is the name of. -/
theorem moduleIdentifier_moduleIdentifier (moduleName : String) :
    moduleIdentifier (moduleIdentifier moduleName) = moduleIdentifier moduleName := by
  apply String.toList_inj.mp
  rw [toList_moduleIdentifier, flatMap_identifierChars (isIdentifier_moduleIdentifier moduleName)]

theorem toList_moduleIdentifier_intercalate {part : String}
    (h : ∀ p ∈ part :: parts, isPlainName p = true) :
    (moduleIdentifier (".".intercalate (part :: parts))).toList =
      part.toList ++ parts.flatMap dotted := by
  have hpart := flatMap_identifierChars (isNameChar_of_mem_plain (h part List.mem_cons_self))
  rw [toList_moduleIdentifier]
  induction parts generalizing part with
  | nil => rw [String.intercalate_singleton, hpart, List.flatMap_nil, List.append_nil]
  | cons next parts ih =>
      have hnext := fun p hp => h p (List.mem_cons_of_mem part hp)
      rw [String.intercalate_cons_cons, String.toList_append, String.toList_append,
        List.flatMap_append, List.flatMap_append, hpart,
        ih hnext (flatMap_identifierChars (isNameChar_of_mem_plain (hnext _ List.mem_cons_self))),
        List.flatMap_cons, List.append_assoc]
      rfl

namespace IsPath

/-- An identifier is the parts of the path with two underscores for each dot. -/
theorem exists_toList_eq (h : IsPath moduleName parts) :
    ∃ part rest, parts = part :: rest ∧
      (moduleIdentifier moduleName).toList = part.toList ++ rest.flatMap dotted := by
  obtain ⟨hne, hplain, rfl⟩ := h
  obtain ⟨part, rest, rfl⟩ := List.exists_cons_of_ne_nil hne
  exact ⟨part, rest, rfl, toList_moduleIdentifier_intercalate hplain⟩

/-- The identifier of a module of a package is the name of another module. -/
theorem identifier (h : IsPath moduleName parts) :
    IsPath (moduleIdentifier moduleName) [moduleIdentifier moduleName] := by
  obtain ⟨part, rest, rfl, htext⟩ := h.exists_toList_eq
  refine ⟨List.cons_ne_nil _ _, fun p hp => ?_, String.intercalate_singleton.symm⟩
  have hsplit : moduleIdentifier moduleName = part ++ String.ofList (rest.flatMap dotted) := by
    apply String.toList_inj.mp
    rw [htext, String.toList_append, String.toList_ofList]
  rw [List.mem_singleton.mp hp, hsplit]
  refine isPlainName_append (h.plain part List.mem_cons_self) fun c hc => ?_
  rw [String.toList_ofList] at hc
  refine isIdentifier_moduleIdentifier moduleName c ?_
  rw [htext]
  exact List.mem_append_right _ hc

theorem identifier_ne (h : IsPath moduleName parts) (hlength : 1 < parts.length) :
    moduleIdentifier moduleName ≠ moduleName := by
  intro heq
  have hdot : '.' ∈ moduleName.toList := by
    rw [h.eq_intercalate]
    match parts, hlength with
    | part :: next :: rest, _ =>
        rw [String.intercalate_cons_cons, String.toList_append, String.toList_append]
        exact List.mem_append_left _ (List.mem_append_right _ (by decide))
  rw [← heq] at hdot
  exact absurd (isIdentifier_moduleIdentifier moduleName '.' hdot) (by decide)

end IsPath

/-! ## Reading an identifier back -/

/-- Such a part does not hold the underscores of a dot, and those of a dot behind it begin where
the part ends. -/
structure Legible (part : String) : Prop where
  within : ¬ ['_', '_'] <:+: part.toList
  last : ¬ ['_'] <:+ part.toList

theorem underscores_prefix_dotted {c : Char} {cs : List Char}
    (h : c :: cs = parts.flatMap dotted) : ['_', '_'] <+: c :: cs := by
  cases parts with
  | nil => exact absurd h (List.cons_ne_nil _ _)
  | cons part parts =>
      rw [h, List.flatMap_cons]
      exact List.prefix_append ['_', '_'] (part.toList ++ parts.flatMap dotted)

/-- Of two ways to begin an identifier, the one does not begin with a longer part. -/
theorem Legible.eq_nil {part : String} {cs more rest : List Char} (h : Legible part)
    (hpart : part.toList = cs ++ more) (hmore : more ++ rest = parts.flatMap dotted) :
    more = [] := by
  cases more with
  | nil => rfl
  | cons c more =>
      obtain ⟨rfl, hnext⟩ := List.cons_prefix_cons.mp (underscores_prefix_dotted hmore)
      cases more with
      | nil => exact absurd ⟨cs, hpart.symm⟩ h.last
      | cons d more =>
          obtain ⟨rfl, -⟩ := List.cons_prefix_cons.mp hnext
          exact absurd ⟨cs, more, by rw [hpart, List.append_assoc]; rfl⟩ h.within

theorem Legible.eq_of_append_eq {part part' : String} (h : Legible part) (h' : Legible part')
    (heq : part.toList ++ parts.flatMap dotted = part'.toList ++ parts'.flatMap dotted) :
    part = part' ∧ parts.flatMap dotted = parts'.flatMap dotted := by
  rcases List.append_eq_append_iff.mp heq with ⟨more, hmore, hrest⟩ | ⟨more, hmore, hrest⟩
  · obtain rfl := h'.eq_nil hmore hrest.symm
    rw [List.append_nil] at hmore
    exact ⟨(String.toList_inj.mp hmore).symm, hrest⟩
  · obtain rfl := h.eq_nil hmore hrest.symm
    rw [List.append_nil] at hmore
    exact ⟨String.toList_inj.mp hmore, hrest.symm⟩

theorem eq_of_flatMap_dotted (h : ∀ part ∈ parts, Legible part)
    (h' : ∀ part ∈ parts', Legible part)
    (heq : parts.flatMap dotted = parts'.flatMap dotted) : parts = parts' := by
  induction parts generalizing parts' with
  | nil =>
      cases parts' with
      | nil => rfl
      | cons part' rest' => exact absurd heq.symm (List.cons_ne_nil _ _)
  | cons part rest ih =>
      cases parts' with
      | nil => exact absurd heq (List.cons_ne_nil _ _)
      | cons part' rest' =>
          rw [List.flatMap_cons, List.flatMap_cons] at heq
          obtain ⟨rfl, hrest⟩ := (h part List.mem_cons_self).eq_of_append_eq
            (h' part' List.mem_cons_self) (List.cons.inj (List.cons.inj heq).2).2
          rw [ih (fun p hp => h p (List.mem_cons_of_mem _ hp))
            (fun p hp => h' p (List.mem_cons_of_mem _ hp)) hrest]

/-- Modules whose names have legible parts are told apart by their identifiers. -/
theorem IsPath.eq_of_legible (h : IsPath moduleName parts) (h' : IsPath moduleName' parts')
    (hlegible : ∀ part ∈ parts ++ parts', Legible part)
    (heq : moduleIdentifier moduleName = moduleIdentifier moduleName') :
    moduleName = moduleName' := by
  obtain ⟨part, rest, rfl, htext⟩ := h.exists_toList_eq
  obtain ⟨part', rest', rfl, htext'⟩ := h'.exists_toList_eq
  have hfirst := fun p hp => hlegible p (List.mem_append_left _ hp)
  have hsecond := fun p hp => hlegible p (List.mem_append_right _ hp)
  obtain ⟨rfl, hrest⟩ := (hfirst part List.mem_cons_self).eq_of_append_eq
    (hsecond part' List.mem_cons_self) (by rw [← htext, ← htext', heq])
  rw [h.eq_intercalate, h'.eq_intercalate,
    eq_of_flatMap_dotted (fun p hp => hfirst p (List.mem_cons_of_mem _ hp))
      (fun p hp => hsecond p (List.mem_cons_of_mem _ hp)) hrest]

/-! ## Storage of globals -/

/-- The name of the second module begins with that of the first, and what it has behind that
stands in front of the second variable in the first one's name. -/
def Extends (codeName name codeName' name' : String) : Prop :=
  ∃ between, codeName' = codeName ++ "_" ++ between ∧ name = between ++ "_" ++ name'

def SameStorage (codeName name codeName' name' : String) : Prop :=
  (codeName = codeName' ∧ name = name') ∨ Extends codeName name codeName' name' ∨
    Extends codeName' name' codeName name

theorem toList_globalStorage (codeName name : String) :
    (globalStorage codeName name).toList =
      "_mvar_".toList ++ (codeName.toList ++ '_' :: name.toList) := by
  rw [globalStorage, String.toList_append, String.toList_append, String.toList_append,
    List.append_assoc, List.append_assoc]
  rfl

/-- Of two ways to cut a text at an underscore, one goes on before its cut with what the other has
behind. -/
theorem append_underscore_eq_iff {a b c d : List Char} :
    a ++ '_' :: c = b ++ '_' :: d ↔ (a = b ∧ c = d) ∨
      (∃ between, b = a ++ '_' :: between ∧ c = between ++ '_' :: d) ∨
      ∃ between, a = b ++ '_' :: between ∧ d = between ++ '_' :: c := by
  constructor
  · intro heq
    rcases List.append_eq_append_iff.mp heq with ⟨more, hb, hc⟩ | ⟨more, ha, hd⟩
    · cases more with
      | nil => exact Or.inl ⟨by rw [hb, List.append_nil], (List.cons.inj hc).2⟩
      | cons e between =>
          obtain ⟨rfl, hrest⟩ := List.cons.inj hc
          exact Or.inr (Or.inl ⟨between, hb, hrest⟩)
    · cases more with
      | nil => exact Or.inl ⟨by rw [ha, List.append_nil], (List.cons.inj hd).2.symm⟩
      | cons e between =>
          obtain ⟨rfl, hrest⟩ := List.cons.inj hd
          exact Or.inr (Or.inr ⟨between, ha, hrest⟩)
  · rintro (⟨rfl, rfl⟩ | ⟨between, rfl, rfl⟩ | ⟨between, rfl, rfl⟩)
    · rfl
    · rw [List.append_assoc, List.cons_append]
    · rw [List.append_assoc, List.cons_append]

theorem extends_iff {codeName name codeName' name' : String} :
    Extends codeName name codeName' name' ↔
      ∃ between, codeName'.toList = codeName.toList ++ '_' :: between ∧
        name.toList = between ++ '_' :: name'.toList := by
  have hjoin : ∀ a b : String, (a ++ "_" ++ b).toList = a.toList ++ '_' :: b.toList := by
    intro a b
    rw [String.toList_append, String.toList_append, List.append_assoc]
    rfl
  constructor
  · rintro ⟨between, rfl, rfl⟩
    exact ⟨between.toList, hjoin _ _, hjoin _ _⟩
  · rintro ⟨between, hcode, hname⟩
    have hbetween : between = (String.ofList between).toList := String.toList_ofList.symm
    rw [hbetween, ← hjoin] at hcode hname
    exact ⟨String.ofList between, String.toList_inj.mp hcode, String.toList_inj.mp hname⟩

theorem globalStorage_eq_iff {codeName name codeName' name' : String} :
    globalStorage codeName name = globalStorage codeName' name' ↔
      SameStorage codeName name codeName' name' := by
  rw [← String.toList_inj, toList_globalStorage, toList_globalStorage, List.append_right_inj,
    append_underscore_eq_iff, SameStorage, extends_iff, extends_iff, String.toList_inj,
    String.toList_inj]

/-- A variable is stored like a global only if it is one. -/
theorem storage_eq_globalStorage_iff {codeName codeName' name' : String} {v : Variable} :
    storage codeName v = globalStorage codeName' name' ↔
      v.kind = .moduleGlobal ∧ SameStorage codeName v.name codeName' name' := by
  have hother : ∀ {start : String} {rest : List Char}, start.toList = '_' :: 'p' :: rest →
      start ++ v.name ≠ globalStorage codeName' name' := by
    intro start rest hstart heq
    rw [← String.toList_inj, toList_globalStorage, String.toList_append, hstart] at heq
    exact absurd (List.cons.inj (List.cons.inj heq).2).1 (by decide)
  unfold storage
  cases v.kind with
  | moduleGlobal => exact globalStorage_eq_iff.trans ⟨fun h => ⟨rfl, h⟩, And.right⟩
  | functionLocal => exact iff_of_false (hother rfl) nofun
  | parameter => exact iff_of_false (hother rfl) nofun
  | classLocal => exact iff_of_false (hother rfl) nofun
  | closure => exact iff_of_false (hother rfl) nofun
  | temporary => exact iff_of_false (hother rfl) nofun

/-! ## Names without underscores -/

/-- What stands in an identifier behind its first part begins with an underscore. -/
theorem eq_of_append_dotted {part part' : String} {more : List Char}
    (h : '_' ∉ part.toList) (h' : '_' ∉ part'.toList)
    (heq : part.toList ++ '_' :: more = part'.toList ++ parts.flatMap dotted) :
    part = part' ∧ '_' :: more = parts.flatMap dotted := by
  cases parts with
  | nil =>
      rw [List.flatMap_nil, List.append_nil] at heq
      rw [← heq] at h'
      exact absurd (List.mem_append_right _ List.mem_cons_self) h'
  | cons next parts =>
      rw [List.flatMap_cons, dotted, List.cons_append] at heq ⊢
      rcases append_underscore_eq_iff.mp heq with
        ⟨hpart, hmore⟩ | ⟨between, hpart, -⟩ | ⟨between, hpart, -⟩
      · exact ⟨String.toList_inj.mp hpart, congrArg ('_' :: ·) hmore⟩
      · rw [hpart] at h'
        exact absurd (List.mem_append_right _ List.mem_cons_self) h'
      · rw [hpart] at h
        exact absurd (List.mem_append_right _ List.mem_cons_self) h

/-- Behind an underscore that extends an identifier the second underscore of a dot follows. -/
theorem head?_of_extended {part part' : String} {more : List Char}
    (h : ∀ p ∈ part :: parts, '_' ∉ p.toList) (h' : ∀ p ∈ part' :: parts', '_' ∉ p.toList)
    (heq : (part.toList ++ parts.flatMap dotted) ++ '_' :: more =
      part'.toList ++ parts'.flatMap dotted) : more.head? = some '_' := by
  induction parts generalizing part part' parts' with
  | nil =>
      rw [List.flatMap_nil, List.append_nil] at heq
      obtain ⟨-, hmore⟩ := eq_of_append_dotted (h part List.mem_cons_self)
        (h' part' List.mem_cons_self) heq
      obtain ⟨rest, hrest⟩ := (List.cons_prefix_cons.mp (underscores_prefix_dotted hmore)).2
      rw [← hrest]
      rfl
  | cons next parts ih =>
      rw [List.flatMap_cons, dotted, List.append_assoc, List.cons_append, List.cons_append] at heq
      obtain ⟨-, hmore⟩ := eq_of_append_dotted (h part List.mem_cons_self)
        (h' part' List.mem_cons_self) heq
      cases parts' with
      | nil => exact absurd hmore (List.cons_ne_nil _ _)
      | cons next' parts' =>
          refine ih (fun p hp => h p (List.mem_cons_of_mem _ hp))
            (fun p hp => h' p (List.mem_cons_of_mem _ hp)) ?_
          exact (List.cons.inj (List.cons.inj hmore).2).2

theorem IsPath.not_extends {name name' : String} (h : IsPath moduleName parts)
    (h' : IsPath moduleName' parts') (hparts : ∀ part ∈ parts ++ parts', '_' ∉ part.toList)
    (hname : name.toList.head? ≠ some '_') :
    ¬ Extends (moduleIdentifier moduleName) name (moduleIdentifier moduleName') name' := by
  rintro ⟨between, hcode, hvariable⟩
  obtain ⟨part, rest, rfl, htext⟩ := h.exists_toList_eq
  obtain ⟨part', rest', rfl, htext'⟩ := h'.exists_toList_eq
  have hhead : between.toList.head? = some '_' := by
    refine head?_of_extended (fun p hp => hparts p (List.mem_append_left _ hp))
      (fun p hp => hparts p (List.mem_append_right _ hp)) ?_
    rw [← htext, ← htext', hcode, String.toList_append, String.toList_append, List.append_assoc]
    rfl
  refine hname ?_
  rw [hvariable, String.toList_append, String.toList_append, List.append_assoc, List.head?_append,
    hhead, Option.some_or]

theorem legible_of_notMem {part : String} (h : '_' ∉ part.toList) : Legible part where
  within := fun hin => h (hin.subset List.mem_cons_self)
  last := fun hin => h (hin.subset List.mem_cons_self)

/-! ## Symbols -/

/-- Every module of a package has the identifier of a module that is in no package; if the parts
of both names are legible, then modules with one identifier are the same. An access to a variable
reaches a global of a module if it is that one, or if the name of one module extends the other's
and the variable makes up for it; without underscores in the names of the modules and in front
of the variables, only if it is that one. -/
theorem moduleSymbols_apart (h : IsPath moduleName parts) (h' : IsPath moduleName' parts') :
    (1 < parts.length → IsPath (moduleIdentifier moduleName) [moduleIdentifier moduleName] ∧
      moduleIdentifier moduleName ≠ moduleName ∧
      moduleIdentifier (moduleIdentifier moduleName) = moduleIdentifier moduleName) ∧
    ((∀ part ∈ parts ++ parts', Legible part) →
      moduleIdentifier moduleName = moduleIdentifier moduleName' → moduleName = moduleName') ∧
    ∀ (v : Variable) (name' : String),
      (storage (moduleIdentifier moduleName) v =
          globalStorage (moduleIdentifier moduleName') name' ↔
        v.kind = .moduleGlobal ∧ SameStorage (moduleIdentifier moduleName) v.name
          (moduleIdentifier moduleName') name') ∧
      ((∀ part ∈ parts ++ parts', '_' ∉ part.toList) → v.name.toList.head? ≠ some '_' →
        name'.toList.head? ≠ some '_' → storage (moduleIdentifier moduleName) v =
          globalStorage (moduleIdentifier moduleName') name' →
        moduleName = moduleName' ∧ v.name = name') := by
  refine ⟨fun hlength => ⟨h.identifier, h.identifier_ne hlength,
      moduleIdentifier_moduleIdentifier moduleName⟩,
    h.eq_of_legible h', fun v name' => ⟨storage_eq_globalStorage_iff, ?_⟩⟩
  intro hparts hname hname' heq
  rcases (storage_eq_globalStorage_iff.mp heq).2 with ⟨hcode, hvariable⟩ | hextends | hextends
  · exact ⟨h.eq_of_legible h' (fun part hpart => legible_of_notMem (hparts part hpart)) hcode,
      hvariable⟩
  · exact absurd hextends (h.not_extends h' hparts hname)
  · refine absurd hextends (h'.not_extends h (fun part hpart => ?_) hname')
    exact hparts part (List.mem_append.mpr (List.mem_append.mp hpart).symm)

/-- A package and a module of it: the module's `x` is stored apart from the package's, but like
`_eggs_x` of the package. -/
theorem moduleSymbols_apart_spam :
    IsPath "spam.eggs" ["spam", "eggs"] ∧ IsPath "spam" ["spam"] ∧
      moduleIdentifier "spam.eggs" ≠ "spam.eggs" ∧
      moduleIdentifier (moduleIdentifier "spam.eggs") = moduleIdentifier "spam.eggs" ∧
      moduleIdentifier "spam.eggs" ≠ moduleIdentifier "spam" ∧
      storage (moduleIdentifier "spam.eggs") ⟨"x", .moduleGlobal⟩ ≠
        globalStorage (moduleIdentifier "spam") "x" ∧
      storage (moduleIdentifier "spam.eggs") ⟨"x", .moduleGlobal⟩ =
        globalStorage (moduleIdentifier "spam") "_eggs_x" := by
  have hmodule : IsPath "spam.eggs" ["spam", "eggs"] :=
    ⟨List.cons_ne_nil _ _, by decide, by decide⟩
  have hpackage : IsPath "spam" ["spam"] :=
    ⟨List.cons_ne_nil _ _, by decide, by decide⟩
  obtain ⟨shared, apart, stored⟩ := moduleSymbols_apart hmodule hpackage
  have hbare : ∀ part ∈ ["spam", "eggs"] ++ ["spam"], '_' ∉ part.toList := by decide
  have hnames : "spam.eggs" ≠ "spam" := by decide
  obtain ⟨-, hne, hagain⟩ := shared (by decide)
  refine ⟨hmodule, hpackage, hne, hagain, fun heq => hnames (apart ?_ heq), fun heq => hnames ?_,
    (stored _ _).1.mpr ⟨rfl, Or.inr (Or.inr ⟨"_eggs", ?_, ?_⟩)⟩⟩
  · exact fun part hpart => legible_of_notMem (hbare part hpart)
  · exact ((stored _ _).2 hbare (by decide) (by decide) heq).1
  · decide
  · decide

example : moduleIdentifier "a.b" = moduleIdentifier "a__b" := by decide

example :
    globalStorage (moduleIdentifier "a") "b_c" = globalStorage (moduleIdentifier "a_b") "c" := by
  decide

end CompilerBackend.Target
