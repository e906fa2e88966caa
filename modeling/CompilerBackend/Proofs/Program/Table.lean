import CompilerBackend.Program
import CompilerBackend.Proofs.Constant.Key
import Mathlib
/-!
# The table of constants

A program's table is fixed by the list of its constants: the entry at place `i` has the key of the
constant there and the handle that the constant got when `i` entries stood before it. This is the
invariant (`Program.WellFormed`), and everything else follows from it.

- `newHandle_inj`: no two places and constants share a handle.
- `WellFormed.intern_cases`: a request finds its constant, or appends it.
- `Program.Extends`: what a program keeps while others use it.
-/

namespace CompilerBackend

/-! ## Ordered maps -/

namespace OrderedMap

variable {κ α : Type} [DecidableEq κ]

theorem insertEntries_of_not_mem {k : κ} {l : List (κ × α)} (h : k ∉ l.map (·.1)) (v : α) :
    insertEntries k v l = l ++ [(k, v)] := by
  induction l with
  | nil => rfl
  | cons e l ih =>
      rw [List.map_cons, List.mem_cons, not_or] at h
      rw [insertEntries, if_neg (Ne.symm h.1), ih h.2, List.cons_append]

theorem entries_insert {m : OrderedMap κ α} {k : κ} (h : k ∉ m.keys) (v : α) :
    (m.insert k v).entries = m.entries ++ [(k, v)] := insertEntries_of_not_mem h v

theorem get?_eq_none_iff {m : OrderedMap κ α} {k : κ} : m.get? k = none ↔ k ∉ m.keys := by
  rw [get?, List.lookup_eq_none_iff, keys, List.mem_map]
  constructor
  · rintro h ⟨e, he, rfl⟩
    exact absurd (h e he) (by simp)
  · intro h e he
    exact bne_iff_ne.mpr fun hk => h ⟨e, he, hk.symm⟩

theorem mem_of_get?_eq_some {m : OrderedMap κ α} {k : κ} {v : α} (h : m.get? k = some v) :
    (k, v) ∈ m.entries := by
  obtain ⟨l, r, hsplit, -⟩ := List.lookup_eq_some_iff.mp h
  rw [hsplit]
  exact List.mem_append_right l List.mem_cons_self

end OrderedMap

namespace Program

/-! ## Handles -/

/-- Handles are plain names that begin like this. -/
def handleStart : String := "const_"

/-- The label that some constants have behind their kind wherever they stand in a table. -/
def fixedLabel? : Constant → Option String
  | .str value =>
    if isPlainName value then some ("plain_" ++ value)
    else if value.isEmpty then some "empty"
    else none
  | .tuple [] => some "empty"
  | _ => none

/-- What stands in a handle behind the kind: a fixed label, else the place in the table. -/
def handleLabel (place : Nat) (c : Constant) : String := (fixedLabel? c).getD (toString place)

theorem newHandle_none (place : Nat) : newHandle place .none = handleStart ++ "none" := rfl

theorem newHandle_eq {c : Constant} (h : c ≠ .none) (place : Nat) :
    newHandle place c = handleStart ++ c.kindName ++ "_" ++ handleLabel place c := by
  apply String.toList_inj.mp
  cases c with
  | none => exact absurd rfl h
  | str value =>
      simp only [newHandle, handleLabel, fixedLabel?]
      split_ifs <;> simp [handleStart, Constant.kindName]
  | tuple l => cases l <;> simp [newHandle, handleLabel, fixedLabel?, handleStart, Constant.kindName]
  | _ => simp [newHandle, handleLabel, fixedLabel?, handleStart, Constant.kindName]

theorem isDigit_of_mem_natural {n : Nat} {c : Char} (h : c ∈ (toString n).toList) :
    c.isDigit = true := by
  rw [Nat.toString_eq_ofList_toDigits, String.toList_ofList] at h
  exact Nat.isDigit_of_mem_toDigits (by decide) (by decide) h

/-- A fixed label is no number. -/
theorem fixedLabel?_ne_natural {c : Constant} {label : String} (h : fixedLabel? c = some label)
    (n : Nat) : label ≠ toString n := by
  rintro rfl
  have hletter : ∃ l ∈ (toString n).toList, l.isDigit = false := by
    cases c with
    | str value =>
        simp only [fixedLabel?] at h
        split_ifs at h
        · exact ⟨'p', by rw [← Option.some.inj h]; simp, rfl⟩
        · exact ⟨'e', by rw [← Option.some.inj h]; simp, rfl⟩
    | tuple l =>
        cases l with
        | nil => exact ⟨'e', by rw [← Option.some.inj h]; simp, rfl⟩
        | cons a l => simp [fixedLabel?] at h
    | _ => simp [fixedLabel?] at h
  obtain ⟨l, hmem, hl⟩ := hletter
  rw [isDigit_of_mem_natural hmem] at hl
  exact Bool.noConfusion hl

/-- Within a kind a fixed label belongs to one constant. -/
theorem fixedLabel?_inj {c d : Constant} (hk : c.kindName = d.kindName) {label : String}
    (hc : fixedLabel? c = some label) (hd : fixedLabel? d = some label) : c = d := by
  cases c with
  | str x =>
      cases d with
      | str y =>
          simp only [fixedLabel?] at hc hd
          split_ifs at hc with h1 h2
          · split_ifs at hd with h3 h4
            · have hxy := congrArg String.toList (hc.trans hd.symm |> Option.some.inj)
              rw [String.toList_append, String.toList_append] at hxy
              rw [String.toList_inj.mp (List.append_cancel_left hxy)]
            · have hxy := congrArg String.toList (hc.trans hd.symm |> Option.some.inj)
              simp at hxy
          · split_ifs at hd with h3 h4
            · have hxy := congrArg String.toList (hc.trans hd.symm |> Option.some.inj)
              simp at hxy
            · rw [String.isEmpty_iff.mp h2, String.isEmpty_iff.mp h4]
      | _ => simp [Constant.kindName] at hk
  | tuple l =>
      cases d with
      | tuple l' =>
          cases l with
          | nil =>
              cases l' with
              | nil => rfl
              | cons a l' => simp [fixedLabel?] at hd
          | cons a l => simp [fixedLabel?] at hc
      | _ => simp [Constant.kindName] at hk
  | _ => simp [fixedLabel?] at hc

/-- Labels of constants of one kind agree only for one constant or one place. -/
theorem handleLabel_inj {i j : Nat} {c d : Constant} (hk : c.kindName = d.kindName)
    (h : handleLabel i c = handleLabel j d) : c = d ∨ i = j := by
  rw [handleLabel, handleLabel] at h
  cases hc : fixedLabel? c with
  | some label =>
      rw [hc, Option.getD_some] at h
      cases hd : fixedLabel? d with
      | some label' =>
          rw [hd, Option.getD_some] at h
          exact Or.inl (fixedLabel?_inj hk hc (h ▸ hd))
      | none =>
          rw [hd, Option.getD_none] at h
          exact absurd h (fixedLabel?_ne_natural hc j)
  | none =>
      rw [hc, Option.getD_none] at h
      cases hd : fixedLabel? d with
      | some label' =>
          rw [hd, Option.getD_some] at h
          exact absurd h.symm (fixedLabel?_ne_natural hd i)
      | none =>
          rw [hd, Option.getD_none] at h
          exact Or.inr (Nat.repr_inj.mp h)

/-- The names of kinds hold no underscore, so one ends where the first of them stands. -/
theorem takeWhile_kindName (c : Constant) (r : List Char) :
    (c.kindName.toList ++ '_' :: r).takeWhile (· != '_') = c.kindName.toList := by
  cases c <;> simp [Constant.kindName]

theorem kindName_eq_of_newHandle {i j : Nat} {c d : Constant} (hc : c ≠ .none) (hd : d ≠ .none)
    (h : newHandle i c = newHandle j d) :
    c.kindName = d.kindName ∧ handleLabel i c = handleLabel j d := by
  rw [newHandle_eq hc, newHandle_eq hd] at h
  have hchars := congrArg String.toList h
  simp only [String.toList_append, List.append_assoc] at hchars
  have hrest := List.append_cancel_left hchars
  have hk : c.kindName.toList = d.kindName.toList := by
    rw [← takeWhile_kindName c (handleLabel i c).toList,
      ← takeWhile_kindName d (handleLabel j d).toList]
    exact congrArg _ hrest
  rw [hk] at hrest
  exact ⟨String.toList_inj.mp hk,
    String.toList_inj.mp (List.append_cancel_left (List.append_cancel_left hrest))⟩

theorem newHandle_ne_none {c : Constant} (hc : c ≠ .none) (i j : Nat) :
    newHandle i c ≠ newHandle j .none := by
  rw [newHandle_eq hc, newHandle_none]
  intro h
  have hchars := congrArg String.toList h
  simp only [String.toList_append, List.append_assoc] at hchars
  have hmem : '_' ∈ "none".toList := by
    rw [← List.append_cancel_left hchars]
    simp
  simp at hmem

/-- Two constants that enter a table at two places get two handles. -/
theorem newHandle_inj {i j : Nat} {c d : Constant} (h : newHandle i c = newHandle j d) :
    c = d ∨ i = j := by
  by_cases hc : c = .none
  · by_cases hd : d = .none
    · exact Or.inl (hc.trans hd.symm)
    · subst hc
      exact absurd h.symm (newHandle_ne_none hd j i)
  · by_cases hd : d = .none
    · subst hd
      exact absurd h (newHandle_ne_none hc i j)
    · obtain ⟨hk, hl⟩ := kindName_eq_of_newHandle hc hd h
      exact handleLabel_inj hk hl

/-! ## Handles are plain names -/

theorem isNameChar_of_isDigit {c : Char} (h : c.isDigit = true) : isNameChar c = true := by
  simp only [Char.isDigit, Bool.and_eq_true, decide_eq_true_eq] at h
  simp only [isNameChar, Bool.or_eq_true, Bool.and_eq_true, decide_eq_true_eq]
  exact Or.inr h

theorem isNameChar_of_mem_plain {s : String} (h : isPlainName s = true) :
    ∀ c ∈ s.toList, isNameChar c = true := by
  unfold isPlainName at h
  split at h
  next => exact Bool.noConfusion h
  next c cs heq =>
      rw [Bool.and_eq_true, List.all_eq_true] at h
      intro d hd
      rw [heq] at hd
      rcases List.mem_cons.mp hd with rfl | hd
      · rw [isNameChar, h.1, Bool.true_or]
      · exact h.2 d hd

theorem isPlainName_append {a b : String} (ha : isPlainName a = true)
    (hb : ∀ c ∈ b.toList, isNameChar c = true) : isPlainName (a ++ b) = true := by
  unfold isPlainName at ha ⊢
  split at ha
  next => exact Bool.noConfusion ha
  next c cs heq =>
      rw [Bool.and_eq_true, List.all_eq_true] at ha
      rw [String.toList_append, heq, List.cons_append]
      simp only [List.all_append, Bool.and_eq_true, List.all_eq_true]
      exact ⟨ha.1, ha.2, hb⟩

theorem isNameChar_of_mem_kindName (k : Constant) : ∀ c ∈ k.kindName.toList, isNameChar c = true := by
  cases k <;> simp [Constant.kindName, isNameChar, isNameStart]

theorem isNameChar_of_mem_handleLabel (place : Nat) (c : Constant) :
    ∀ d ∈ (handleLabel place c).toList, isNameChar d = true := by
  have number : ∀ d ∈ (toString place).toList, isNameChar d = true := fun d hd =>
    isNameChar_of_isDigit (isDigit_of_mem_natural hd)
  have empty : ∀ d ∈ "empty".toList, isNameChar d = true := by
    simp [isNameChar, isNameStart]
  have plain : ∀ d ∈ "plain_".toList, isNameChar d = true := by
    simp [isNameChar, isNameStart]
  rw [handleLabel]
  cases c with
  | str value =>
      simp only [fixedLabel?]
      split_ifs with h1 h2
      · intro d hd
        rw [Option.getD_some, String.toList_append] at hd
        rcases List.mem_append.mp hd with hp | hv
        · exact plain d hp
        · exact isNameChar_of_mem_plain h1 d hv
      · exact empty
      · exact number
  | tuple l =>
      cases l with
      | nil => exact empty
      | cons a l => exact number
  | _ => exact number

theorem isPlainName_newHandle (place : Nat) (c : Constant) :
    isPlainName (newHandle place c) = true := by
  by_cases hc : c = .none
  · rw [hc, newHandle_none]
    decide +kernel
  · rw [newHandle_eq hc, String.append_assoc, String.append_assoc]
    refine isPlainName_append (by decide +kernel) fun d hd => ?_
    rw [String.toList_append, String.toList_append] at hd
    rcases List.mem_append.mp hd with hk | hd
    · exact isNameChar_of_mem_kindName c d hk
    · rcases List.mem_append.mp hd with hu | hl
      · rw [List.mem_singleton.mp hu]
        rfl
      · exact isNameChar_of_mem_handleLabel place c d hl

/-! ## The invariant of the table -/

variable {p p' : Program}

/-- Each entry stands under the key of its constant, with the handle of its place, and no
constant stands twice. -/
structure WellFormed (p : Program) : Prop where
  keyed : p.constants.entries = p.table.map fun e => (e.constant.key, e)
  numbered : ∀ {i e}, p.table[i]? = some e → e.handle = newHandle i e.constant
  distinct : (p.table.map (·.constant)).Nodup

theorem wellFormed_empty : WellFormed {} where
  keyed := rfl
  numbered h := by simp [table, OrderedMap.values, OrderedMap.empty] at h
  distinct := List.nodup_nil

/-- What a program keeps while others use it: its entries in their places, and the sizes that
were recorded. -/
structure Extends (p p' : Program) : Prop where
  table : p.table <+: p'.table
  tuples : ∀ n ∈ p.tuples.sizes, n ∈ p'.tuples.sizes
  lists : ∀ n ∈ p.lists.sizes, n ∈ p'.lists.sizes
  dicts : ∀ n ∈ p.dicts.sizes, n ∈ p'.dicts.sizes

theorem Extends.refl (p : Program) : Extends p p :=
  ⟨List.prefix_refl _, fun _ h => h, fun _ h => h, fun _ h => h⟩

theorem Extends.trans {p'' : Program} (h : Extends p p') (h' : Extends p' p'') :
    Extends p p'' where
  table := h.table.trans h'.table
  tuples n hn := h'.tuples n (h.tuples n hn)
  lists n hn := h'.lists n (h.lists n hn)
  dicts n hn := h'.dicts n (h.dicts n hn)

theorem Extends.mem (h : Extends p p') {e : TableEntry} (he : e ∈ p.table) : e ∈ p'.table :=
  h.table.subset he

namespace WellFormed

theorem mem_keys (h : p.WellFormed) {c : Constant} :
    c.key ∈ p.constants.keys ↔ ∃ e ∈ p.table, e.constant = c := by
  rw [OrderedMap.keys, h.keyed, List.map_map, List.mem_map]
  constructor
  · rintro ⟨e, he, hk⟩
    exact ⟨e, he, Constant.key_injective hk⟩
  · rintro ⟨e, he, rfl⟩
    exact ⟨e, he, rfl⟩

/-- A request finds the entry of its constant, or puts one at the end of the table. -/
theorem intern_cases (h : p.WellFormed) (c : Constant) :
    (∃ e ∈ p.table, e.constant = c ∧ p.intern c = (e.handle, p)) ∨
    ((∀ e ∈ p.table, e.constant ≠ c) ∧ ∃ constants,
      p.intern c = (newHandle p.table.length c, { p with constants }) ∧
      constants.entries = p.constants.entries ++
        [(c.key, ⟨c, newHandle p.table.length c⟩)]) := by
  have hsize : p.constants.size = p.table.length := by
    rw [OrderedMap.size, table, OrderedMap.values, List.length_map]
  rw [intern]
  cases hget : p.constants.get? c.key with
  | some e =>
      left
      have hmem := OrderedMap.mem_of_get?_eq_some hget
      rw [h.keyed] at hmem
      obtain ⟨e', he', heq⟩ := List.mem_map.mp hmem
      obtain ⟨hkey, rfl⟩ := Prod.mk.inj heq
      exact ⟨e', he', Constant.key_injective hkey, rfl⟩
  | none =>
      right
      have hkey := OrderedMap.get?_eq_none_iff.mp hget
      refine ⟨fun e he hec => hkey (h.mem_keys.mpr ⟨e, he, hec⟩), _, by rw [hsize], ?_⟩
      rw [OrderedMap.entries_insert hkey]

theorem table_append {constants : OrderedMap String TableEntry} {c : Constant} {e : TableEntry}
    (hadd : constants.entries = p.constants.entries ++ [(c.key, e)]) :
    table { p with constants } = p.table ++ [e] := by
  rw [table, OrderedMap.values, hadd, List.map_append]
  rfl

theorem append (h : p.WellFormed) {c : Constant} (hc : ∀ e ∈ p.table, e.constant ≠ c)
    {constants : OrderedMap String TableEntry}
    (hadd : constants.entries = p.constants.entries ++
      [(c.key, ⟨c, newHandle p.table.length c⟩)]) : WellFormed { p with constants } where
  keyed := by
    rw [table_append hadd, List.map_append, hadd, h.keyed]
    rfl
  numbered := by
    intro i e he
    rw [table_append hadd, List.getElem?_append] at he
    split_ifs at he with hi
    · exact h.numbered he
    · have hlt := (List.getElem?_eq_some_iff.mp he).1
      rw [List.length_singleton] at hlt
      have hii : i = p.table.length := by omega
      rw [hii, Nat.sub_self, List.getElem?_cons_zero] at he
      rw [← Option.some.inj he, hii]
  distinct := by
    rw [table_append hadd, List.map_append, List.nodup_append]
    refine ⟨h.distinct, List.nodup_singleton _, ?_⟩
    rintro a ha b hb rfl
    obtain ⟨e, he, rfl⟩ := List.mem_map.mp ha
    exact hc e he (List.mem_singleton.mp hb)

theorem extends_append {constants : OrderedMap String TableEntry} {c : Constant} {e : TableEntry}
    (hadd : constants.entries = p.constants.entries ++ [(c.key, e)]) :
    Extends p { p with constants } where
  table := by
    rw [table_append hadd]
    exact List.prefix_append _ _
  tuples _ hn := hn
  lists _ hn := hn
  dicts _ hn := hn

/-- A request keeps the invariant and everything in the program, and the handle it answers is
that of an entry for its constant. -/
theorem intern (h : p.WellFormed) (c : Constant) :
    (p.intern c).2.WellFormed ∧ p.Extends (p.intern c).2 ∧
      ⟨c, (p.intern c).1⟩ ∈ (p.intern c).2.table := by
  rcases h.intern_cases c with ⟨e, he, rfl, heq⟩ | ⟨hc, constants, heq, hadd⟩
  · rw [heq]
    exact ⟨h, Extends.refl p, he⟩
  · rw [heq]
    refine ⟨h.append hc hadd, extends_append hadd, ?_⟩
    rw [table_append hadd]
    exact List.mem_append_right _ List.mem_cons_self

/-- An entry is determined by its constant, and by its handle. -/
theorem entry_unique (h : p.WellFormed) {e e' : TableEntry} (he : e ∈ p.table)
    (he' : e' ∈ p.table) (heq : e.constant = e'.constant ∨ e.handle = e'.handle) : e = e' := by
  have hsame : e.constant = e'.constant → e = e' := fun hc =>
    List.inj_on_of_nodup_map h.distinct he he' hc
  rcases heq with hc | hh
  · exact hsame hc
  · obtain ⟨i, hi⟩ := List.mem_iff_getElem?.mp he
    obtain ⟨j, hj⟩ := List.mem_iff_getElem?.mp he'
    rw [h.numbered hi, h.numbered hj] at hh
    rcases newHandle_inj hh with hc | rfl
    · exact hsame hc
    · exact Option.some.inj (hi.symm.trans hj)

theorem isPlainName_handle (h : p.WellFormed) {e : TableEntry} (he : e ∈ p.table) :
    isPlainName e.handle = true := by
  obtain ⟨i, hi⟩ := List.mem_iff_getElem?.mp he
  rw [h.numbered hi]
  exact isPlainName_newHandle i e.constant

end WellFormed

end Program
end CompilerBackend
