import CompilerBackend.Target.Storage
import CompilerBackend.Proofs.Constant.Key
import CompilerBackend.Proofs.Program.Reached
import CompilerBackend.Proofs.Text.Arguments
/-!
# What a copy of a constant shares

A constant that can be changed in place is copied out of the table on every use, so that the literal
is found as it was the next time. How deep the copy goes is decided by the outermost constructor
alone: a tuple is copied at every level, a list, set or dict only at the top, where what it holds
is still that of the table.

- `Constant.at?`: what stands at a position of a constant; `Constant.Changeable`: the positions of
  lists, sets and dicts.
- `Runtime.Denotes`: the objects that the code of an operand can stand for.
- `denotes_tableAccess`: how deep a constant is copied.
- `constant_shares_iff`: which constants share something with the table that can be changed.
-/

namespace CompilerBackend

open Text Target Program

/-! ## Positions in a constant -/

namespace Constant

/-- Lists, sets and dicts, which can be changed in place. -/
def isChangeable : Constant → Bool
  | .list _ | .set _ | .dict _ => true
  | _ => false

def at? (c : Constant) : List Nat → Option Constant
  | [] => some c
  | i :: path => c.parts[i]?.bind fun d => d.at? path

def Changeable (c : Constant) (path : List Nat) : Prop :=
  ∃ d, c.at? path = some d ∧ d.isChangeable = true

/-- A list, set or dict that holds something mutable. -/
def nestsMutable (c : Constant) : Bool := c.isChangeable && c.parts.any isMutable

theorem changeable_nil {c : Constant} : c.Changeable [] ↔ c.isChangeable = true := by
  constructor
  · rintro ⟨d, hd, hchange⟩
    exact Option.some.inj hd ▸ hchange
  · intro h
    exact ⟨c, rfl, h⟩

theorem changeable_cons {c : Constant} {i : Nat} {path : List Nat} :
    c.Changeable (i :: path) ↔ ∃ d, c.parts[i]? = some d ∧ d.Changeable path := by
  constructor
  · rintro ⟨e, he, hchange⟩
    obtain ⟨d, hd, he⟩ := Option.bind_eq_some_iff.mp he
    exact ⟨d, hd, e, he, hchange⟩
  · rintro ⟨d, hd, e, he, hchange⟩
    exact ⟨e, Option.bind_eq_some_iff.mpr ⟨d, hd, he⟩, hchange⟩

theorem anyMutable_eq_any (l : List Constant) : anyMutable l = l.any isMutable := by
  induction l with
  | nil => rfl
  | cons c l ih => rw [anyMutable, ih, List.any_cons]

/-- A constant is mutable if it can be changed in place, or is a tuple of which a part is mutable. -/
theorem isMutable_eq (c : Constant) : c.isMutable = (c.isChangeable || c.parts.any isMutable) := by
  cases c with
  | tuple l =>
      rw [isMutable, anyMutable_eq_any]
      rfl
  | _ => rfl

/-- The mutable constants are those that have a list, set or dict somewhere. -/
theorem isMutable_iff (c : Constant) : c.isMutable = true ↔ ∃ path, c.Changeable path := by
  induction c using bottomUp with
  | step c ih =>
      rw [isMutable_eq, Bool.or_eq_true, List.any_eq_true]
      constructor
      · rintro (htop | ⟨d, hd, hmutable⟩)
        · exact ⟨[], changeable_nil.mpr htop⟩
        · obtain ⟨path, hpath⟩ := (ih d hd).mp hmutable
          obtain ⟨i, hi⟩ := List.mem_iff_getElem?.mp hd
          exact ⟨i :: path, changeable_cons.mpr ⟨d, hi, hpath⟩⟩
      · rintro ⟨path, hpath⟩
        cases path with
        | nil => exact Or.inl (changeable_nil.mp hpath)
        | cons i path =>
            obtain ⟨d, hi, hpath⟩ := changeable_cons.mp hpath
            have hd := List.mem_of_getElem? hi
            exact Or.inr ⟨d, hd, (ih d hd).mpr ⟨path, hpath⟩⟩

/-- Below the top of a constant. -/
theorem exists_changeable_cons_iff (c : Constant) :
    (∃ i path, c.Changeable (i :: path)) ↔ c.parts.any isMutable = true := by
  rw [List.any_eq_true]
  constructor
  · rintro ⟨i, path, hpath⟩
    obtain ⟨d, hi, hpath⟩ := changeable_cons.mp hpath
    exact ⟨d, List.mem_of_getElem? hi, (isMutable_iff d).mpr ⟨path, hpath⟩⟩
  · rintro ⟨d, hd, hmutable⟩
    obtain ⟨path, hpath⟩ := (isMutable_iff d).mp hmutable
    obtain ⟨i, hi⟩ := List.mem_iff_getElem?.mp hd
    exact ⟨i, path, changeable_cons.mpr ⟨d, hi, hpath⟩⟩

end Constant

/-! ## Objects -/

/-- An object of a running program: its value, and the address of what stands at each position. -/
structure Object where
  value : Constant
  address : List Nat → Nat

inductive Depth where
  /-- The outermost object only. -/
  | top
  /-- Everything in it. -/
  | whole
  deriving DecidableEq

def Depth.covers : Depth → List Nat → Bool
  | .top, path => path.isEmpty
  | .whole, _ => true

/-- The objects that names stand for while a program runs. From some address on nothing is in use. -/
structure Runtime where
  object? : String → Option Object
  free : Nat
  below_free : ∀ {name o path}, object? name = some o → (o.value.at? path).isSome = true →
    o.address path < free

/-- A copy has the same value. Where it was copied its addresses are new, elsewhere they are the
same. -/
structure Object.IsCopy (r : Runtime) (depth : Depth) (o x : Object) : Prop where
  value : x.value = o.value
  fresh : ∀ path, depth.covers path = true → r.free ≤ x.address path
  kept : ∀ path, depth.covers path = false → x.address path = o.address path

def copyDepth? (helper : String) : Option Depth :=
  if helper = "DEEP_COPY" then some .whole
  else if helper ∈ ["LIST_COPY", "PyDict_Copy", "PySet_New"] then some .top
  else none

namespace Runtime

/-- What code stands for: the call of a helper that copies for any copy of its argument, anything
else for what goes by that name. -/
def Denotes (r : Runtime) (code : String) (x : Object) : Prop :=
  match callArguments? (code.toList.dropWhile isNameChar) with
  | some [name] => ∃ depth o,
      copyDepth? (String.ofList (code.toList.takeWhile isNameChar)) = some depth ∧
        r.object? name = some o ∧ o.IsCopy r depth x
  | _ => r.object? code = some x

def singletons : List (String × Constant) :=
  [("Py_None", .none), ("Py_True", .bool true), ("Py_False", .bool false),
    ("Py_Ellipsis", .ellipsis)]

/-- The handles of a program stand for objects of its constants, the names of the runtime for its
own. -/
structure Holds (r : Runtime) (p : Program) : Prop where
  interned : ∀ e ∈ p.table, ∃ o, r.object? e.handle = some o ∧ o.value = e.constant
  singleton : ∀ e ∈ singletons, ∃ o, r.object? e.1 = some o ∧ o.value = e.2

/-- A list, set or dict in the object is one of an interned object. -/
def Shares (r : Runtime) (p : Program) (x : Object) : Prop :=
  ∃ e ∈ p.table, ∃ o, r.object? e.handle = some o ∧ ∃ path path',
    x.value.Changeable path ∧ o.value.Changeable path' ∧ x.address path = o.address path'

end Runtime

/-! ## Reading operands -/

section

variable {r : Runtime} {name helper : String} {x o : Object} {depth : Depth} {c : Constant}
  {p : Program}

theorem denotes_name (hname : ∀ d ∈ name.toList, isNameChar d = true) :
    r.Denotes name x ↔ r.object? name = some x := by
  have hnil : name.toList.dropWhile isNameChar = [] := List.dropWhile_eq_nil_iff.mpr hname
  rw [Runtime.Denotes, hnil]
  rfl

theorem ne_empty_of_isPlainName (hplain : isPlainName name = true) : name ≠ "" := by
  rintro rfl
  exact Bool.noConfusion hplain

/-- The call of a helper splits into its name and its argument. -/
theorem denotes_applied (hhelper : ∀ d ∈ helper.toList, isNameChar d = true)
    (hname : isPlainName name = true) :
    r.Denotes (applied helper [name]) x ↔
      ∃ depth o, copyDepth? helper = some depth ∧ r.object? name = some o ∧ o.IsCopy r depth x := by
  have hargument : IsArgument name :=
    .of_name (isNameChar_of_mem_plain hname) (ne_empty_of_isPlainName hname)
  have harguments : ∀ s ∈ [name], IsArgument s := by simpa using hargument
  obtain ⟨hhead, hread⟩ := cut_applied hhelper harguments ""
  rw [String.append_empty] at hhead hread
  rw [Runtime.Denotes, hread, hhead]

end

/-! ## Copies -/

section

variable {r : Runtime} {p : Program} {e : TableEntry} {o x : Object} {depth : Depth} {path : List Nat}

theorem Depth.covers_top : Depth.covers .top path = false ↔ ∃ i rest, path = i :: rest := by
  cases path with
  | nil => exact ⟨fun h => Bool.noConfusion h, nofun⟩
  | cons i rest => exact ⟨fun _ => ⟨i, rest, rfl⟩, fun _ => rfl⟩

/-- Every object has copies, since there are addresses that are not in use. -/
theorem exists_isCopy (r : Runtime) (depth : Depth) (o : Object) : ∃ x, o.IsCopy r depth x := by
  refine ⟨⟨o.value, fun path => if depth.covers path = true then r.free else o.address path⟩, rfl,
    fun path hcovered => ?_, fun path hcovered => ?_⟩
  · show r.free ≤ if _ then _ else _
    rw [if_pos hcovered]
  · show (if _ then _ else _) = _
    rw [if_neg (by rw [hcovered]; exact Bool.false_ne_true)]

/-- What a copy of an interned object has in common with the table: what can be changed where it was
not copied. -/
theorem shares_copy (he : e ∈ p.table) (ho : r.object? e.handle = some o)
    (hx : o.IsCopy r depth x) :
    r.Shares p x ↔ ∃ path, o.value.Changeable path ∧ depth.covers path = false := by
  constructor
  · rintro ⟨e', he', o', ho', path, path', hpath, ⟨d, hd, hchange⟩, haddress⟩
    refine ⟨path, hx.value ▸ hpath, ?_⟩
    by_contra hcovered
    have hfresh := hx.fresh path (Bool.not_eq_false _ ▸ hcovered)
    have hused := r.below_free ho' (by rw [hd]; rfl)
    omega
  · rintro ⟨path, hpath, hcovered⟩
    exact ⟨e, he, o, ho, path, path, hx.value ▸ hpath, hpath, hx.kept path hcovered⟩

/-- Where nothing can be changed nothing is shared. -/
theorem not_shares_of_immutable (hx : x.value.isMutable = false) : ¬ r.Shares p x := by
  rintro ⟨-, -, -, -, path, -, hpath, -⟩
  have hmutable := (x.value.isMutable_iff).mpr ⟨path, hpath⟩
  rw [hx] at hmutable
  exact Bool.noConfusion hmutable

end

/-! ## Operands for constants -/

section

variable {r : Runtime} {p : Program} {c : Constant} {handle : String} {x : Object}

/-- What can be changed in place is copied at its top, a tuple with something mutable in it at every
level, and no other constant is copied. -/
theorem tableAccess_cases (c : Constant) (handle : String) :
    (c.isChangeable = true ∧ ∃ helper, copyDepth? helper = some .top ∧
      (∀ d ∈ helper.toList, isNameChar d = true) ∧
      tableAccess c handle = .owned (applied helper [handle])) ∨
    (c.isChangeable = false ∧ c.isMutable = true ∧
      tableAccess c handle = .owned (applied "DEEP_COPY" [handle])) ∨
    (c.isMutable = false ∧ tableAccess c handle = .constant handle) := by
  have htop : ∀ helper ∈ ["LIST_COPY", "PyDict_Copy", "PySet_New"],
      copyDepth? helper = some .top ∧ ∀ d ∈ helper.toList, isNameChar d = true := by
    simp [copyDepth?, isNameChar, isNameStart]
  cases c with
  | list l =>
      obtain ⟨hdepth, hname⟩ := htop "LIST_COPY" (by simp)
      exact Or.inl ⟨rfl, _, hdepth, hname, rfl⟩
  | dict l =>
      obtain ⟨hdepth, hname⟩ := htop "PyDict_Copy" (by simp)
      exact Or.inl ⟨rfl, _, hdepth, hname, rfl⟩
  | set l =>
      obtain ⟨hdepth, hname⟩ := htop "PySet_New" (by simp)
      exact Or.inl ⟨rfl, _, hdepth, hname, rfl⟩
  | tuple l =>
      cases hany : Constant.anyMutable l with
      | true => exact Or.inr (Or.inl ⟨rfl, hany, if_pos hany⟩)
      | false =>
          refine Or.inr (Or.inr ⟨hany, if_neg ?_⟩)
          rw [hany]
          exact Bool.false_ne_true
  | _ => exact Or.inr (Or.inr ⟨rfl, rfl⟩)

/-- The constants that the runtime has a name for need no entry. -/
theorem constantAccess_cases (c : Constant) :
    (∃ name, (name, c) ∈ Runtime.singletons ∧ constantAccess c = pure (.constant name)) ∨
      constantAccess c = constantFromTable c := by
  cases c with
  | none => exact Or.inl ⟨"Py_None", by simp [Runtime.singletons], rfl⟩
  | ellipsis => exact Or.inl ⟨"Py_Ellipsis", by simp [Runtime.singletons], rfl⟩
  | bool value =>
      cases value with
      | true => exact Or.inl ⟨"Py_True", by simp [Runtime.singletons], rfl⟩
      | false => exact Or.inl ⟨"Py_False", by simp [Runtime.singletons], rfl⟩
  | _ => exact Or.inr rfl

/-- The code of an operand for a constant that may be shared freely. -/
theorem denotes_immutable {name : String} {o : Object} (himmutable : c.isMutable = false)
    (hname : ∀ d ∈ name.toList, isNameChar d = true) (ho : r.object? name = some o)
    (hvalue : o.value = c) :
    (Operand.constant name).isOwned = c.isMutable ∧
    (∃ x, r.Denotes (Operand.constant name).code x) ∧
    ∀ x, r.Denotes (Operand.constant name).code x →
      x.value = c ∧ (r.Shares p x ↔ c.nestsMutable = true) := by
  have hcode : ∀ x, r.Denotes name x ↔ o = x := fun x =>
    (denotes_name hname).trans (by rw [ho, Option.some_inj])
  have hnone : c.nestsMutable = false := by
    rw [Constant.isMutable_eq, Bool.or_eq_false_iff] at himmutable
    rw [Constant.nestsMutable, himmutable.1, Bool.false_and]
  refine ⟨himmutable.symm, ⟨o, (hcode o).mpr rfl⟩, ?_⟩
  intro x hx
  obtain rfl := (hcode x).mp hx
  refine ⟨hvalue, ?_⟩
  rw [hnone]
  exact iff_of_false (not_shares_of_immutable (hvalue ▸ himmutable)) Bool.false_ne_true

/-- The operand for an interned constant stands for an object with the value of the constant. What
it shares with the table is what lies below the top of a list, set or dict. -/
theorem denotes_tableAccess (hr : r.Holds p) (hp : p.WellFormed) (he : ⟨c, handle⟩ ∈ p.table) :
    (tableAccess c handle).isOwned = c.isMutable ∧
    (∃ x, r.Denotes (tableAccess c handle).code x) ∧
    ∀ x, r.Denotes (tableAccess c handle).code x →
      x.value = c ∧ (r.Shares p x ↔ c.nestsMutable = true) := by
  obtain ⟨o, ho, hvalue⟩ := hr.interned _ he
  have hplain : isPlainName handle = true := hp.isPlainName_handle he
  rcases tableAccess_cases c handle with ⟨hchange, helper, hdepth, hname, heq⟩ |
    ⟨hchange, hmutable, heq⟩ | ⟨himmutable, heq⟩
  · -- a copy of the top: what lies below is that of the table
    have hcode : ∀ x, r.Denotes (tableAccess c handle).code x ↔ o.IsCopy r .top x := by
      intro x
      rw [heq]
      refine (denotes_applied hname hplain).trans ?_
      simp [hdepth, ho]
    obtain ⟨y, hy⟩ := exists_isCopy r .top o
    refine ⟨by rw [heq, Constant.isMutable_eq, hchange]; rfl, ⟨y, (hcode y).mpr hy⟩, ?_⟩
    intro x hx
    have hcopy := (hcode x).mp hx
    refine ⟨hcopy.value.trans hvalue, (shares_copy he ho hcopy).trans ?_⟩
    rw [Constant.nestsMutable, hchange, Bool.true_and, ← Constant.exists_changeable_cons_iff,
      hvalue]
    constructor
    · rintro ⟨path, hpath, hcovered⟩
      obtain ⟨i, rest, rfl⟩ := Depth.covers_top.mp hcovered
      exact ⟨i, rest, hpath⟩
    · rintro ⟨i, rest, hpath⟩
      exact ⟨i :: rest, hpath, rfl⟩
  · have hcode : ∀ x, r.Denotes (tableAccess c handle).code x ↔ o.IsCopy r .whole x := by
      intro x
      rw [heq]
      refine (denotes_applied (by simp [isNameChar, isNameStart]) hplain).trans ?_
      simp [copyDepth?, ho]
    obtain ⟨y, hy⟩ := exists_isCopy r .whole o
    refine ⟨by rw [heq, hmutable]; rfl, ⟨y, (hcode y).mpr hy⟩, ?_⟩
    intro x hx
    have hcopy := (hcode x).mp hx
    refine ⟨hcopy.value.trans hvalue, (shares_copy he ho hcopy).trans ?_⟩
    rw [Constant.nestsMutable, hchange, Bool.false_and]
    constructor
    · rintro ⟨path, -, hcovered⟩
      exact Bool.noConfusion hcovered
    · intro h
      exact Bool.noConfusion h
  · rw [heq]
    exact denotes_immutable himmutable (isNameChar_of_mem_plain hplain) ho hvalue

/-- A constant is owned where it is used exactly if it is mutable. Its code stands for an object of
its value, and that object shares a list, set or dict with the table exactly if the constant is
itself a list, set or dict and holds something mutable. -/
theorem constant_shares_iff (hp : p.Reached) (c : Constant) {step : Interning Operand}
    (hstep : step ∈ [constantFromTable c, constantAccess c]) (hr : r.Holds (step p).2) :
    (step p).1.isOwned = c.isMutable ∧
    (∃ x, r.Denotes (step p).1.code x) ∧
    ∀ x, r.Denotes (step p).1.code x →
      x.value = c ∧ (r.Shares (step p).2 x ↔ c.nestsMutable = true) := by
  obtain ⟨hwf, -, hentry⟩ := hp.wellFormed.intern c
  obtain heq | ⟨name, hname, heq⟩ : step = constantFromTable c ∨
      ∃ name, (name, c) ∈ Runtime.singletons ∧ step = pure (.constant name) := by
    rcases List.mem_cons.mp hstep with heq | hstep
    · exact Or.inl heq
    · rw [List.mem_singleton.mp hstep]
      exact (constantAccess_cases c).symm
  · subst heq
    exact denotes_tableAccess hr hwf hentry
  · subst heq
    obtain ⟨o, ho, hvalue⟩ := hr.singleton _ hname
    have hplain : ∀ e ∈ Runtime.singletons,
        e.2.isMutable = false ∧ ∀ d ∈ e.1.toList, isNameChar d = true := by
      simp [Runtime.singletons, Constant.isMutable, isNameChar, isNameStart]
    exact denotes_immutable (hplain _ hname).1 (hplain _ hname).2 ho hvalue

end

/-! ## A list of a list -/

def nestedList : Constant := .list [.list [.int 1]]

/-- A runtime with one object for each constant that it has a name for, and one for `nestedList`
under the first handle. The parts of an object stand behind it. -/
def nestedRuntime : Runtime where
  object? name :=
    (((("const_list_0", nestedList) :: Runtime.singletons).zipIdx).find? (·.1.1 == name)).map
      fun e => ⟨e.1.2, fun path => 3 * e.2 + min path.length 2⟩
  free := 15
  below_free := by
    intro name o path ho _
    obtain ⟨e, he, rfl⟩ := Option.map_eq_some_iff.mp ho
    have hplace := List.snd_lt_add_of_mem_zipIdx (List.mem_of_find?_eq_some he)
    simp only [List.length_cons, Runtime.singletons, List.length_nil] at hplace
    show 3 * e.2 + min path.length 2 < 15
    omega

/-- The inner list is that of the table. -/
theorem constant_shares_nestedList :
    Program.Reached {} ∧
    constantAccess nestedList ∈ [constantFromTable nestedList, constantAccess nestedList] ∧
    nestedRuntime.Holds (constantAccess nestedList {}).2 ∧
    ∃ x, nestedRuntime.Denotes (constantAccess nestedList {}).1.code x ∧ x.value = nestedList ∧
      nestedRuntime.Shares (constantAccess nestedList {}).2 x := by
  have hstep : constantAccess nestedList ∈
      [constantFromTable nestedList, constantAccess nestedList] := by simp
  have htable : (constantAccess nestedList {}).2.table = [⟨nestedList, "const_list_0"⟩] := rfl
  have hholds : nestedRuntime.Holds (constantAccess nestedList {}).2 := by
    constructor
    · intro e he
      rw [htable, List.mem_singleton] at he
      subst he
      exact ⟨_, rfl, rfl⟩
    · simp [Runtime.singletons, nestedRuntime]
  obtain ⟨-, ⟨x, hx⟩, hvalues⟩ :=
    constant_shares_iff Program.Reached.empty nestedList hstep hholds
  obtain ⟨hvalue, hshares⟩ := hvalues x hx
  exact ⟨Program.Reached.empty, hstep, hholds, x, hx, hvalue, hshares.mpr rfl⟩

end CompilerBackend
