import CompilerBackend.Proofs.Lowering.Recorded
/-!
# The scopes as one flat map

A stack of scopes is changed by six calls. Whatever they are and in whatever order they come, the
definitions of the open scopes, appended from the module's scope to the innermost one, are those of
a single map into which each definition was inserted when it was registered.

- `ScopeStep`: the calls; `ScopeStack.run` makes them one after the other.
- `ScopeStack.flat`: the definitions of all open scopes.
- `Flattens`: a stack and its flat map, with one rule for each thing a call can do.
- `flat_run`: what the map is after a run, and how deep the stack is.
-/

namespace CompilerBackend

/-! ## Maps that are appended -/

namespace OrderedMap

variable {κ α : Type} [DecidableEq κ] {m n : OrderedMap κ α}

theorem append_assoc (h : n.keys.Nodup) (m : OrderedMap κ α) (l : List (κ × α)) :
    (m.append n).append ⟨l⟩ = m.append (n.append ⟨l⟩) := by
  induction l generalizing n with
  | nil => rfl
  | cons e l ih =>
      change ((m.append n).insert e.1 e.2).append ⟨l⟩ = m.append ((n.insert e.1 e.2).append ⟨l⟩)
      rw [← append_insert h, ih (nodup_keys_insert h)]

theorem ofEntries_append (l l' : List (κ × α)) :
    ofEntries (l ++ l') = (ofEntries l).append ⟨l'⟩ := List.foldl_append

theorem nodup_keys_append (h : m.keys.Nodup) (l : List (κ × α)) : (m.append ⟨l⟩).keys.Nodup := by
  induction l generalizing m with
  | nil => exact h
  | cons e l ih => exact ih (nodup_keys_insert h)

theorem keys_insert_of_mem {k : κ} (h : k ∈ m.keys) (v : α) : (m.insert k v).keys = m.keys := by
  obtain ⟨l⟩ := m
  change (insertEntries k v l).map (·.1) = l.map (·.1)
  induction l with
  | nil => exact nomatch h
  | cons e l ih =>
      rw [insertEntries]
      split
      next heq => rw [List.map_cons, List.map_cons, heq]
      next hne =>
        rw [List.map_cons, List.map_cons, ih ((List.mem_cons.mp h).resolve_left (Ne.symm hne))]

theorem lookup_cons_eq_ite (e : κ × α) (l : List (κ × α)) (k : κ) :
    (e :: l).lookup k = if k = e.1 then some e.2 else l.lookup k := by
  rw [List.lookup_cons]
  by_cases hk : k = e.1
  · rw [if_pos hk, beq_iff_eq.mpr hk]
  · rw [if_neg hk, beq_eq_false_iff_ne.mpr hk]

theorem get?_insert (m : OrderedMap κ α) (k k' : κ) (v : α) :
    (m.insert k v).get? k' = if k' = k then some v else m.get? k' := by
  obtain ⟨l⟩ := m
  change (insertEntries k v l).lookup k' = if k' = k then some v else l.lookup k'
  induction l with
  | nil => exact lookup_cons_eq_ite (k, v) [] k'
  | cons e l ih =>
      rw [insertEntries, lookup_cons_eq_ite]
      split
      next heq => rw [lookup_cons_eq_ite, heq]; split <;> rfl
      next hne =>
        rw [lookup_cons_eq_ite, ih]
        grind

/-- A key stands where it was first inserted. -/
theorem keys_ofEntries (l : List (κ × α)) : (ofEntries l).keys = (l.map (·.1)).eraseDups := by
  induction l using List.reverseRecOn with
  | nil => rfl
  | append_singleton l e ih =>
      rw [ofEntries_concat, List.map_append, List.map_singleton, List.eraseDups_append, ← ih]
      by_cases hk : e.1 ∈ (ofEntries l).keys
      · have hnone : [e.1].removeAll (l.map (·.1)) = [] := by
          rw [ih, List.mem_eraseDups] at hk
          simpa [List.removeAll] using hk
        rw [hnone, List.eraseDups_nil, List.append_nil, keys_insert_of_mem hk]
      · have hone : [e.1].removeAll (l.map (·.1)) = [e.1] := by
          rw [ih, List.mem_eraseDups] at hk
          simpa [List.removeAll] using hk
        rw [hone, keys, entries_insert hk, List.map_append]
        rfl

/-- A key has the value that was inserted last. -/
theorem get?_ofEntries (l : List (κ × α)) (k : κ) :
    (ofEntries l).get? k = l.reverse.lookup k := by
  induction l using List.reverseRecOn with
  | nil => rfl
  | append_singleton l e ih =>
      rw [ofEntries_concat, get?_insert, ih, List.reverse_append, List.reverse_singleton,
        List.singleton_append, lookup_cons_eq_ite]

end OrderedMap

/-! ## The calls -/

inductive DefinitionSort where
  | function
  | classBody
  deriving DecidableEq

def Scope.definitions (c : Scope) : DefinitionSort → Definitions
  | .function => c.functions
  | .classBody => c.classes

inductive ScopeStep where
  | push (kind : ScopeKind)
  | pop
  | addFunction (codeName : String) (d : Definition)
  | addClass (codeName : String) (d : Definition)
  | takeTryNumber
  | takeLoopNumber
  deriving DecidableEq

namespace ScopeStep

def after (s : ScopeStack) : ScopeStep → ScopeStack
  | push kind => s.push kind
  | pop => s.pop
  | addFunction codeName d => s.addFunction codeName d
  | addClass codeName d => s.addClass codeName d
  | takeTryNumber => s.takeTryNumber.2
  | takeLoopNumber => s.takeLoopNumber.2

def registered? : DefinitionSort → ScopeStep → Option (String × Definition)
  | .function, addFunction codeName d => some (codeName, d)
  | .classBody, addClass codeName d => some (codeName, d)
  | _, _ => none

/-- The number of open scopes after a call: the module's is not closed. -/
def depthAfter (depth : Nat) : ScopeStep → Nat
  | push _ => depth + 1
  | pop => if depth = 1 then 1 else depth - 1
  | _ => depth

end ScopeStep

namespace ScopeStack

variable {s : ScopeStack} {sort : DefinitionSort} {m : Definitions}

def run (s : ScopeStack) (steps : List ScopeStep) : ScopeStack := steps.foldl ScopeStep.after s

def maps (s : ScopeStack) (sort : DefinitionSort) : List Definitions :=
  s.toList.map (·.definitions sort)

/-- The definitions of all open scopes, appended from the module's scope to the innermost one. -/
def flat (s : ScopeStack) (sort : DefinitionSort) : Definitions :=
  (s.maps sort).reverse.foldl OrderedMap.append .empty

theorem run_concat (s : ScopeStack) (steps : List ScopeStep) (step : ScopeStep) :
    s.run (steps ++ [step]) = step.after (s.run steps) := List.foldl_concat _ _ _ _

/-! ### The scope that counts -/

def countingIndex (s : ScopeStack) : Nat := s.inner.findIdx (·.kind != .inline)

theorem getElem?_countingIndex (s : ScopeStack) :
    s.toList[s.countingIndex]? = some s.counting := by
  obtain ⟨inner, bottom⟩ := s
  induction inner with
  | nil => rfl
  | cons c inner ih =>
      by_cases hinline : c.kind = .inline
      · rw [counting_cons_inline hinline, ← ih, countingIndex, List.findIdx_cons, hinline]
        rfl
      · rw [counting_cons_body hinline, countingIndex, List.findIdx_cons, bne_iff_ne.mpr hinline]
        rfl

theorem toList_modifyCounting (s : ScopeStack) (f : Scope → Scope) :
    (s.modifyCounting f).toList = s.toList.modify s.countingIndex f := by
  obtain ⟨inner, bottom⟩ := s
  induction inner with
  | nil => rfl
  | cons c inner ih =>
      by_cases hinline : c.kind = .inline
      · rw [toList_modifyCounting_inline hinline, ih, countingIndex, countingIndex,
          List.findIdx_cons, hinline]
        rfl
      · rw [toList_modifyCounting_body hinline, countingIndex, List.findIdx_cons,
          bne_iff_ne.mpr hinline]
        rfl

/-! A view of scopes that shows a change of one of them as a change of its own. -/

theorem map_modify {β : Type} {g : Scope → β} {f : Scope → Scope} {k : β → β}
    (h : ∀ c, g (f c) = k (g c)) (l : List Scope) (i : Nat) :
    (l.modify i f).map g = (l.map g).modify i k := by
  refine List.ext_getElem? fun j => ?_
  rw [List.getElem?_map, List.getElem?_modify, List.getElem?_modify, List.getElem?_map]
  cases l[j]? with
  | none => rfl
  | some c =>
      have hview : g (if i = j then f c else c) = if i = j then k (g c) else g c := by
        split
        · exact h c
        · rfl
      exact congrArg some hview

theorem map_modify_eq {β : Type} {g : Scope → β} {f : Scope → Scope} (h : ∀ c, g (f c) = g c)
    (l : List Scope) (i : Nat) : (l.modify i f).map g = l.map g := by
  rw [map_modify (k := id) h, List.modify_id]

theorem map_toList_modifyCounting {β : Type} {g : Scope → β} {f : Scope → Scope}
    (h : ∀ c, g (f c) = g c) (s : ScopeStack) :
    (s.modifyCounting f).toList.map g = s.toList.map g := by
  rw [toList_modifyCounting, map_modify_eq h]

theorem map_toList_modifyCurrent {β : Type} {g : Scope → β} {f : Scope → Scope}
    (h : ∀ c, g (f c) = g c) (s : ScopeStack) :
    (s.modifyCurrent f).toList.map g = s.toList.map g := by
  rw [toList_modifyCurrent, List.modifyHead_eq_modify_zero, map_modify_eq h]

/-! ### The depth -/

theorem length_toList (s : ScopeStack) : s.toList.length = s.depth := List.length_append

theorem depth_modifyCurrent (s : ScopeStack) (f : Scope → Scope) :
    (s.modifyCurrent f).depth = s.depth := by
  rw [← length_toList, toList_modifyCurrent, List.length_modifyHead, length_toList]

theorem depth_modifyCounting (s : ScopeStack) (f : Scope → Scope) :
    (s.modifyCounting f).depth = s.depth := by
  rw [← length_toList, toList_modifyCounting, List.length_modify, length_toList]

theorem depth_pop (s : ScopeStack) : s.pop.depth = if s.depth = 1 then 1 else s.depth - 1 := by
  obtain ⟨inner, bottom⟩ := s
  cases inner with
  | nil => rfl
  | cons c inner =>
      change (modifyCurrent ⟨inner, bottom⟩ (·.absorb c)).depth = _
      rw [depth_modifyCurrent]
      simp [depth]

theorem depth_after (s : ScopeStack) (step : ScopeStep) :
    (step.after s).depth = step.depthAfter s.depth := by
  cases step with
  | push kind => rfl
  | pop => exact depth_pop s
  | addFunction codeName d => exact depth_modifyCurrent s _
  | addClass codeName d => exact depth_modifyCurrent s _
  | takeTryNumber => exact depth_modifyCounting s _
  | takeLoopNumber => exact depth_modifyCounting s _

end ScopeStack

/-! ## The flat map -/

/-- Maps, the innermost first, and what they are when they are appended to one. -/
inductive Flattens : List Definitions → Definitions → Prop
  | nil : Flattens [] .empty
  | cons {inner m : Definitions} {rest : List Definitions} (hinner : inner.keys.Nodup)
      (hrest : Flattens rest m) : Flattens (inner :: rest) (m.append inner)

namespace Flattens

variable {inner below m : Definitions} {rest maps : List Definitions}

theorem eq_foldl (h : Flattens maps m) : maps.reverse.foldl OrderedMap.append .empty = m := by
  induction h with
  | nil => rfl
  | cons _ _ ih => rw [List.reverse_cons, List.foldl_concat, ih]

/-- A map that was just begun adds nothing. -/
theorem push (h : Flattens maps m) : Flattens (.empty :: maps) m := .cons List.nodup_nil h

/-- What goes one level down keeps its place in the whole. -/
theorem absorb (h : Flattens (inner :: below :: rest) m) :
    Flattens (below.append inner :: rest) m := by
  obtain - | ⟨-, - | ⟨hbelow, hrest⟩⟩ := h
  rw [OrderedMap.append_assoc hbelow]
  exact .cons (OrderedMap.nodup_keys_append hbelow _) hrest

/-- What is inserted innermost is inserted in the whole. -/
theorem insert (h : Flattens (inner :: rest) m) (l : List (String × Definition)) :
    Flattens (inner.append ⟨l⟩ :: rest) (m.append ⟨l⟩) := by
  obtain - | ⟨hinner, hrest⟩ := h
  rw [OrderedMap.append_assoc hinner]
  exact .cons (OrderedMap.nodup_keys_append hinner l) hrest

end Flattens

namespace ScopeStack

variable {s : ScopeStack} {sort : DefinitionSort} {m : Definitions}

theorem flattens_modifyCurrent {f : Scope → Scope} {l : List (String × Definition)}
    (h : Flattens (s.maps sort) m)
    (hf : ∀ c, (f c).definitions sort = (c.definitions sort).append ⟨l⟩) :
    Flattens ((s.modifyCurrent f).maps sort) (m.append ⟨l⟩) := by
  rw [maps, toList_modifyCurrent]
  obtain ⟨_ | ⟨c, inner⟩, bottom⟩ := s
  · change Flattens [(f bottom).definitions sort] _
    rw [hf]
    exact h.insert l
  · change Flattens ((f c).definitions sort :: _) _
    rw [hf]
    exact h.insert l

theorem flattens_modifyCounting {f : Scope → Scope} (h : Flattens (s.maps sort) m)
    (hf : ∀ c, (f c).definitions sort = c.definitions sort) :
    Flattens ((s.modifyCounting f).maps sort) m := by
  rwa [maps, map_toList_modifyCounting hf]

theorem flattens_pop (h : Flattens (s.maps sort) m) : Flattens (s.pop.maps sort) m := by
  obtain ⟨inner, bottom⟩ := s
  have hsort : ∀ below top : Scope, (below.absorb top).definitions sort =
      (below.definitions sort).append (top.definitions sort) := by
    cases sort <;> exact fun _ _ => rfl
  match inner with
  | [] => exact h
  | [top] =>
      change Flattens [(bottom.absorb top).definitions sort] m
      rw [hsort]
      exact h.absorb
  | top :: below :: rest =>
      change Flattens ((below.absorb top).definitions sort :: _) m
      rw [hsort]
      exact h.absorb

/-- One call: what it registers is inserted in the flat map, and nothing else changes there. -/
theorem flattens_after (h : Flattens (s.maps sort) m) (step : ScopeStep) :
    Flattens ((step.after s).maps sort) (m.append ⟨(step.registered? sort).toList⟩) := by
  cases step with
  | push kind => cases sort <;> exact h.push
  | pop => cases sort <;> exact flattens_pop h
  | addFunction codeName d =>
      refine flattens_modifyCurrent h ?_
      cases sort <;> exact fun _ => rfl
  | addClass codeName d =>
      refine flattens_modifyCurrent h ?_
      cases sort <;> exact fun _ => rfl
  | takeTryNumber => cases sort <;> exact flattens_modifyCounting h fun _ => rfl
  | takeLoopNumber => cases sort <;> exact flattens_modifyCounting h fun _ => rfl

/-- Calls on a new stack: the definitions are those that were registered, in their order. -/
theorem flattens_run (sort : DefinitionSort) (steps : List ScopeStep) :
    Flattens ((run {} steps).maps sort) (.ofEntries (steps.filterMap (·.registered? sort))) := by
  induction steps using List.reverseRecOn with
  | nil => cases sort <;> exact Flattens.nil.push
  | append_singleton steps step ih =>
      have hlast : [step].filterMap (·.registered? sort) = (step.registered? sort).toList := by
        cases h : step.registered? sort <;> simp [h]
      rw [run_concat, List.filterMap_append, hlast, OrderedMap.ofEntries_append]
      exact flattens_after ih step

/-- After any calls on a new stack, the definitions of the open scopes are those of one map into
which all that was registered is inserted in its order: a name stands where it came first, with the
texts that came last. Closing the module's scope changes nothing, and so the stack, whose depth goes
up and down with the calls, is never empty. -/
theorem flat_run (steps : List ScopeStep) :
    (∀ sort : DefinitionSort,
      (run {} steps).flat sort = (steps.filterMap (·.registered? sort)).foldl
        (fun m e => m.insert e.1 e.2) .empty ∧
      ((run {} steps).flat sort).keys =
        ((steps.filterMap (·.registered? sort)).map Prod.fst).eraseDups ∧
      ∀ codeName, ((run {} steps).flat sort).get? codeName =
        (steps.filterMap (·.registered? sort)).reverse.lookup codeName) ∧
    (run {} steps).depth = steps.foldl ScopeStep.depthAfter 1 ∧ 1 ≤ (run {} steps).depth ∧
    ∀ bottom : Scope, pop { bottom } = { bottom } := by
  refine ⟨fun sort => ?_, ?_, Nat.le_add_left 1 _, fun _ => rfl⟩
  · have hflat : (run {} steps).flat sort = .ofEntries (steps.filterMap (·.registered? sort)) :=
      (flattens_run sort steps).eq_foldl
    rw [hflat]
    exact ⟨rfl, OrderedMap.keys_ofEntries _, OrderedMap.get?_ofEntries _⟩
  · induction steps using List.reverseRecOn with
    | nil => rfl
    | append_singleton steps step ih => rw [run_concat, depth_after, ih, List.foldl_concat]

/-- Names that collide across scopes, and a call too many of `pop`. -/
example :
    let d (code : String) : Definition := { declaration := "", code }
    ((run {} [.pop, .addFunction "f" (d "1"), .push (.function "h" false), .addFunction "g" (d "2"),
      .push .inline, .addFunction "f" (d "3"), .pop, .pop, .pop]).flat .function).entries =
      [("f", d "3"), ("g", d "2")] := by decide

end ScopeStack
end CompilerBackend
