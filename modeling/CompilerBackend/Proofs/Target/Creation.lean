import CompilerBackend.Target.Assembly
import CompilerBackend.Proofs.Constant.Literal
import Mathlib
/-!
# What a creation text says about its constant

The helper in front of a creation text tells the kind of object that is made, and for integers
whether they are small; the arguments can be read back. Numbers and texts are passed as themselves.
A container is passed as its literal, so what is inside counts as what the literal is read as.

- `created`: the constant that a creation text makes.
- `constantCreation_eq_iff`: two constants have the same creation text exactly if it makes the
  same constant.
- `constantCreation_eq_iff_key_eq`: away from the doubles whose literal is not their own, that is
  exactly if they have the same key.
-/

namespace CompilerBackend

open Text Target

namespace Constant

/-- The constant that a creation text makes: a double by itself keeps its text, containers are
read from their literals. -/
def created : Constant → Constant
  | .float bits => .float (shownBits bits)
  | c => c.reread

def integerCreator (value : Int) : String :=
  if (smallIndex? (.int value)).isSome = true then "PyInt_FromLong" else "PyLong_FromString"

def integerArguments (value : Int) : List String :=
  if (smallIndex? (.int value)).isSome = true then [toString value]
  else ["(char *)" ++ targetString (utf8 (toString value)), "NULL", "10"]

def creator : Constant → String
  | .none | .ellipsis | .bool _ => "INCREASE_REFCOUNT"
  | .int value => integerCreator value
  | .float _ => "PyFloat_FromDouble"
  | .str _ => "PyString_FromStringAndSize"
  | .unicode _ => "PyUnicode_DecodeUTF8"
  | .bytes _ => "PyBytes_FromStringAndSize"
  | _ => "UNSTREAM_CONSTANT"

def creationArguments : Constant → List String
  | .none => ["Py_None"]
  | .ellipsis => ["Py_Ellipsis"]
  | .bool true => ["Py_True"]
  | .bool false => ["Py_False"]
  | .int value => integerArguments value
  | .float bits => [(Decimal.Double.ofBits bits).targetLiteral]
  | .str value => [targetString (utf8 value), toString (utf8 value).length]
  | .unicode value => [targetString (utf8 value), toString (utf8 value).length, "NULL"]
  | .bytes value => [targetString value, toString value.length]
  | c => [targetString (utf8 c.literal)]

theorem constantCreation_eq (c : Constant) :
    constantCreation c = applied c.creator c.creationArguments := by
  cases c with
  | bool value => cases value <;> rfl
  | int value =>
      show _ = applied (integerCreator value) (integerArguments value)
      unfold constantCreation integerCreator integerArguments
      dsimp only
      cases h : smallIndex? (.int value) with
      | none => rfl
      | some small =>
          have hsame : value = small := (Option.filter_eq_some_iff.mp h).1 |> Option.some.inj
          rw [hsame]
          rfl
  | _ => rfl

/-! ## The helper and its arguments -/

/-- Two texts that are cut at the first place where a character stands. -/
theorem cut_inj {c : Char} {x y r r' : List Char} (hx : c ∉ x) (hy : c ∉ y)
    (h : x ++ c :: r = y ++ c :: r') : x = y ∧ r = r' := by
  induction x generalizing y with
  | nil =>
      cases y with
      | nil => exact ⟨rfl, (List.cons.inj h).2⟩
      | cons d y =>
          rw [(List.cons.inj h).1] at hy
          exact absurd List.mem_cons_self hy
  | cons d x ih =>
      cases y with
      | nil =>
          rw [← (List.cons.inj h).1] at hx
          exact absurd List.mem_cons_self hx
      | cons e y =>
          obtain ⟨hde, hrest⟩ := List.cons.inj h
          obtain ⟨hxy, hr⟩ := ih (fun hm => hx (List.mem_cons_of_mem d hm))
            (fun hm => hy (List.mem_cons_of_mem e hm)) hrest
          exact ⟨by rw [hde, hxy], hr⟩

theorem applied_inj {f g : String} {l m : List String} (hf : '(' ∉ f.toList)
    (hg : '(' ∉ g.toList) (h : applied f l = applied g m) :
    f = g ∧ commaSeparated l = commaSeparated m := by
  have hlist : ∀ (f : String) (l : List String), (applied f l).toList =
      f.toList ++ '(' :: ' ' :: ((commaSeparated l).toList ++ [' ', ')']) := by
    intro f l
    simp [applied]
  have h' := congrArg String.toList h
  rw [hlist, hlist] at h'
  obtain ⟨hname, hrest⟩ := cut_inj hf hg h'
  exact ⟨String.toList_inj.mp hname,
    String.toList_inj.mp (List.append_cancel_right (List.cons.inj hrest).2)⟩

theorem paren_notMem_creator (c : Constant) : '(' ∉ c.creator.toList := by
  cases c with
  | int value =>
      show '(' ∉ (integerCreator value).toList
      unfold integerCreator
      split_ifs <;> decide
  | _ => simp [creator]

/-- A text of quoted bytes and more arguments determines the bytes. -/
theorem quoted_inj {l l' : List UInt8} {ts ts' : List String}
    (h : commaSeparated (targetString l :: ts) = commaSeparated (targetString l' :: ts')) :
    l = l' := by
  have h' := congrArg String.toList h
  rw [toList_commaSeparated_cons, toList_commaSeparated_cons] at h'
  exact (targetString_append_inj h').1

/-- Small integers are made by another helper than large ones. -/
theorem integer_inj {x y : Int} (hname : integerCreator x = integerCreator y)
    (h : commaSeparated (integerArguments x) = commaSeparated (integerArguments y)) : x = y := by
  unfold integerCreator at hname
  unfold integerArguments at h
  split_ifs at hname h with hx hy hy
  · exact Int.repr_inj.mp h
  · exact absurd hname (by decide)
  · exact absurd hname (by decide)
  · have h' := congrArg String.toList h
    rw [toList_commaSeparated_cons, toList_commaSeparated_cons, String.toList_append,
      String.toList_append, List.append_assoc, List.append_assoc] at h'
    exact Int.repr_inj.mp (utf8_inj (targetString_append_inj (List.append_cancel_left h')).1)

theorem integerCreator_ne {s : String} (value : Int) (h : s ≠ "PyInt_FromLong")
    (h' : s ≠ "PyLong_FromString") : integerCreator value ≠ s := by
  unfold integerCreator
  split_ifs
  · exact h.symm
  · exact h'.symm

/-- Names are told by what the helper is given. -/
theorem name_cases {c : Constant} (h : c.creator = "INCREASE_REFCOUNT") :
    c = .none ∨ c = .ellipsis ∨ c = .bool true ∨ c = .bool false := by
  cases c with
  | none => exact Or.inl rfl
  | ellipsis => exact Or.inr (Or.inl rfl)
  | bool value => cases value <;> simp
  | int value => exact absurd h (integerCreator_ne value (by decide) (by decide))
  | _ => simp [creator] at h

/-- Containers are made from their literals. -/
theorem container_cases {c : Constant} (h : c.creator = "UNSTREAM_CONSTANT") :
    c.created = c.reread ∧ c.creationArguments = [targetString (utf8 c.literal)] := by
  cases c with
  | int value => exact absurd h (integerCreator_ne value (by decide) (by decide))
  | tuple | list | set | dict => exact ⟨rfl, rfl⟩
  | _ => simp [creator] at h

/-! ## Reading a creation text -/

theorem created_eq_of_name {a b : Constant} (ha : a.creator = "INCREASE_REFCOUNT")
    (hb : b.creator = "INCREASE_REFCOUNT")
    (h : commaSeparated a.creationArguments = commaSeparated b.creationArguments) : a = b := by
  rcases name_cases ha with rfl | rfl | rfl | rfl <;>
    rcases name_cases hb with rfl | rfl | rfl | rfl <;>
    first
      | rfl
      | exact absurd h (by decide)

theorem created_eq_of_container {a b : Constant} (ha : a.creator = "UNSTREAM_CONSTANT")
    (hb : b.creator = "UNSTREAM_CONSTANT")
    (h : commaSeparated a.creationArguments = commaSeparated b.creationArguments) :
    a.created = b.created := by
  obtain ⟨hcreated, hargs⟩ := container_cases ha
  obtain ⟨hcreated', hargs'⟩ := container_cases hb
  rw [hargs, hargs'] at h
  rw [hcreated, hcreated', ← literal_eq_iff]
  exact utf8_inj (quoted_inj h)

/-- A creation text can be read: it makes one constant only. -/
theorem created_eq_of_constantCreation {a b : Constant}
    (h : constantCreation a = constantCreation b) : a.created = b.created := by
  rw [constantCreation_eq, constantCreation_eq] at h
  obtain ⟨hname, hargs⟩ := applied_inj (paren_notMem_creator a) (paren_notMem_creator b) h
  cases a with
  | none | ellipsis | bool _ => exact congrArg created (created_eq_of_name rfl hname.symm hargs)
  | int x =>
      cases b with
      | int y => rw [integer_inj hname hargs]
      | _ => exact absurd hname (integerCreator_ne x (by simp [creator]) (by simp [creator]))
  | float x =>
      cases b with
      | float y =>
          have hx := Decimal.spells_targetLiteral x
          have hsame : (Decimal.Double.ofBits x).targetLiteral =
              (Decimal.Double.ofBits y).targetLiteral := hargs
          rw [hsame] at hx
          exact congrArg float (shownBits_inj (hx.unique (Decimal.spells_targetLiteral y)))
      | int y => exact absurd hname.symm (integerCreator_ne y (by simp [creator]) (by simp [creator]))
      | _ => simp [creator] at hname
  | str x =>
      cases b with
      | str y => rw [utf8_inj (quoted_inj hargs)]
      | int y => exact absurd hname.symm (integerCreator_ne y (by simp [creator]) (by simp [creator]))
      | _ => simp [creator] at hname
  | unicode x =>
      cases b with
      | unicode y => rw [utf8_inj (quoted_inj hargs)]
      | int y => exact absurd hname.symm (integerCreator_ne y (by simp [creator]) (by simp [creator]))
      | _ => simp [creator] at hname
  | bytes x =>
      cases b with
      | bytes y => rw [quoted_inj hargs]
      | int y => exact absurd hname.symm (integerCreator_ne y (by simp [creator]) (by simp [creator]))
      | _ => simp [creator] at hname
  | tuple _ | list _ | set _ | dict _ => exact created_eq_of_container rfl hname.symm hargs

/-- What a creation text makes has the same creation text. -/
theorem constantCreation_created (c : Constant) :
    constantCreation c.created = constantCreation c := by
  have hcontainer : ∀ d : Constant, d.creator = "UNSTREAM_CONSTANT" →
      d.reread.creator = "UNSTREAM_CONSTANT" →
      constantCreation d.reread = constantCreation d := by
    intro d hd hd'
    rw [constantCreation_eq, constantCreation_eq, (container_cases hd).2, (container_cases hd').2,
      literal_reread, hd, hd']
  cases c with
  | float bits =>
      show applied _ [(Decimal.Double.ofBits (shownBits bits)).targetLiteral] = _
      rw [ofBits_shownBits]
      rfl
  | tuple l => exact hcontainer (.tuple l) rfl rfl
  | list l => exact hcontainer (.list l) rfl rfl
  | set l => exact hcontainer (.set l) rfl rfl
  | dict l => exact hcontainer (.dict l) rfl rfl
  | _ => rfl

/-- Every double is a number, and none that stands in a container has the literal of an integer. -/
structure Definite (c : Constant) : Prop where
  isNumber : ∀ bits, Inside (.float bits) c → Decimal.Double.ofBits bits ≠ .nan
  notInteger : ∀ d ∈ c.parts, ∀ bits, Inside (.float bits) d →
    (Decimal.Double.ofBits bits).asInteger? = Option.none

/-- A definite constant is what its creation text makes. -/
theorem Definite.created_eq {c : Constant} (hc : c.Definite) : c.created = c := by
  obtain ⟨hnum, hint⟩ := hc
  by_cases hfloat : ∃ bits, c = .float bits
  · obtain ⟨bits, rfl⟩ := hfloat
    exact congrArg float (shownBits_eq_self (hnum bits .itself))
  · have hcreated : c.created = c.reread := by
      cases c with
      | float bits => exact absurd ⟨bits, rfl⟩ hfloat
      | _ => rfl
    rw [hcreated]
    apply reread_eq_self hnum
    intro bits h
    cases h with
    | itself => exact absurd ⟨bits, rfl⟩ hfloat
    | part he h => exact hint _ he bits h

end Constant

/-- Two constants have the same creation text exactly if they are the same but for this: a
not-a-number has no bits of its own, and inside a container a whole double from `10 ^ 16` on counts
as the integer with its literal. -/
theorem Target.constantCreation_eq_iff (a b : Constant) :
    constantCreation a = constantCreation b ↔ a.created = b.created := by
  constructor
  · exact Constant.created_eq_of_constantCreation
  · intro h
    rw [← Constant.constantCreation_created a, h, Constant.constantCreation_created]

/-- **A creation text says which constant it makes.** Any two constants have the same creation text
exactly if it makes the same constant, and definite ones exactly if they have the same key. -/
theorem Target.constantCreation_eq_iff_key_eq {a b : Constant} (ha : a.Definite)
    (hb : b.Definite) : constantCreation a = constantCreation b ↔ a.key = b.key := by
  constructor
  · intro h
    have hsame : a.created = b.created := (constantCreation_eq_iff a b).mp h
    rw [ha.created_eq, hb.created_eq] at hsame
    rw [hsame]
  · intro h
    rw [Constant.key_injective h]

/-- A tuple of a double and a tuple of the integer with its value have two creation texts. -/
theorem Target.constantCreation_eq_iff_key_eq_wholeDouble :
    (Constant.tuple [.float 0x3ff0000000000000]).Definite ∧ (Constant.tuple [.int 1]).Definite ∧
      constantCreation (.tuple [.float 0x3ff0000000000000]) ≠ constantCreation (.tuple [.int 1]) := by
  have hfloat : ∀ {bits : UInt64}, Constant.Inside (.float bits) (.float 0x3ff0000000000000) →
      bits = 0x3ff0000000000000 := by
    intro bits h
    cases h with
    | itself => rfl
    | part he h => exact absurd he List.not_mem_nil
  have hdouble : (Constant.tuple [.float 0x3ff0000000000000]).Definite := by
    constructor
    · intro bits h
      cases h with
      | part he h =>
          rw [List.mem_singleton.mp he] at h
          rw [hfloat h]
          exact Decimal.Double.noConfusion
    · intro d hd bits h
      rw [List.mem_singleton.mp hd] at h
      rw [hfloat h]
      decide
  have hint : (Constant.tuple [.int 1]).Definite := by
    have hnone : ∀ {bits : UInt64}, ¬ Constant.Inside (.float bits) (.int 1) := by
      intro bits h
      cases h with
      | part he h => exact absurd he List.not_mem_nil
    constructor
    · intro bits h
      cases h with
      | part he h =>
          rw [List.mem_singleton.mp he] at h
          exact absurd h hnone
    · intro d hd bits h
      rw [List.mem_singleton.mp hd] at h
      exact absurd h hnone
  refine ⟨hdouble, hint, fun h => ?_⟩
  exact absurd ((constantCreation_eq_iff_key_eq hdouble hint).mp h) (by decide)

-- two keys, one text: `10 ^ 16` as a double and as an integer, each in a tuple of its own
example : constantCreation (.tuple [.float 0x4341c37937e08000]) =
    constantCreation (.tuple [.int 10000000000000000]) := by rfl

end CompilerBackend
