import CompilerBackend.Proofs.Scopes.Numbers
/-!
# Where the scopes are left

What is done between the opening and the closing of scopes does not show in the stack around them,
but for three things: definitions come to the innermost scope, and the two counters of the counting
scope go up. Stacks related in this way are related through any sequence of balanced steps.

- `ScopeStack.AdvancesTo`: the relation; `refl`, `trans`.
- `AdvancesTo.add`, `AdvancesTo.take`: the two sorts of steps that change a stack in place.
- `AdvancesTo.inScope`: a scope that was opened and closed again.
-/

namespace CompilerBackend
namespace ScopeStack

/-- The scopes are the same ones of the same kinds. Entries have come to the definitions of the
innermost one, and the counters of the counting one have gone up or stand as before. -/
structure AdvancesTo (s s' : ScopeStack) : Prop where
  kinds : s'.toList.map Scope.kind = s.toList.map Scope.kind
  definitions : ∀ sort, ∃ entries, s'.maps sort = (s.maps sort).modifyHead (·.append ⟨entries⟩)
  counts : ∀ counter, ∃ n, s'.toList.map (·.count counter) =
    (s.toList.map (·.count counter)).modify s.countingIndex (· + n)

variable {s s' : ScopeStack}

/-- Kinds tell which scope counts. -/
theorem countingIndex_eq (s : ScopeStack) :
    s.countingIndex = (s.toList.map Scope.kind).dropLast.findIdx (· != .inline) := by
  rw [toList, List.map_append, List.map_singleton, List.dropLast_concat, List.findIdx_map]
  rfl

theorem countingIndex_push_inline (s : ScopeStack) :
    (s.push .inline).countingIndex = s.countingIndex + 1 := by
  rw [countingIndex, push, List.findIdx_cons]
  rfl

theorem countingIndex_push {kind : ScopeKind} (h : kind ≠ .inline) (s : ScopeStack) :
    (s.push kind).countingIndex = 0 := by
  have hkind : ((Scope.ofKind kind).kind != .inline) = true := bne_iff_ne.mpr h
  rw [countingIndex, push, List.findIdx_cons, hkind]
  rfl

theorem maps_push (s : ScopeStack) (kind : ScopeKind) (sort : DefinitionSort) :
    (s.push kind).maps sort = .empty :: s.maps sort := by
  cases sort <;> rfl

theorem counts_push (s : ScopeStack) (kind : ScopeKind) (counter : Counter) :
    (s.push kind).toList.map (·.count counter) = 0 :: s.toList.map (·.count counter) := by
  cases counter <;> rfl

theorem counts_pop {top below : Scope} {rest : List Scope} (h : s.toList = top :: below :: rest)
    (counter : Counter) :
    s.pop.toList.map (·.count counter) = (s.toList.map (·.count counter)).tail := by
  rw [toList_pop h, h]
  cases counter <;> rfl

theorem getElem?_counts (s : ScopeStack) (counter : Counter) :
    (s.toList.map (·.count counter))[s.countingIndex]? = some (s.counting.count counter) := by
  rw [List.getElem?_map, s.getElem?_countingIndex]
  rfl

namespace AdvancesTo

theorem refl (s : ScopeStack) : s.AdvancesTo s where
  kinds := rfl
  definitions sort := ⟨[], (congrFun List.modifyHead_id (s.maps sort)).symm⟩
  counts _ := ⟨0, (List.modify_id ..).symm⟩

theorem countingIndex_eq (h : s.AdvancesTo s') : s'.countingIndex = s.countingIndex := by
  rw [ScopeStack.countingIndex_eq, h.kinds, ← ScopeStack.countingIndex_eq]

theorem trans {s'' : ScopeStack} (h : s.AdvancesTo s') (h' : s'.AdvancesTo s'') :
    s.AdvancesTo s'' where
  kinds := h'.kinds.trans h.kinds
  definitions sort := by
    obtain ⟨entries, hentries⟩ := h.definitions sort
    obtain ⟨more, hmore⟩ := h'.definitions sort
    refine ⟨entries ++ more, ?_⟩
    rw [hmore, hentries, List.modifyHead_modifyHead]
    congr 1
    funext m
    exact List.foldl_append.symm
  counts counter := by
    obtain ⟨n, hn⟩ := h.counts counter
    obtain ⟨k, hk⟩ := h'.counts counter
    refine ⟨n + k, ?_⟩
    rw [hk, hn, h.countingIndex_eq, List.modify_modify_eq]
    congr 1
    funext c
    exact Nat.add_assoc c n k

/-- Entries come to the innermost scope. -/
theorem modifyCurrent {f : Scope → Scope} (hkind : ∀ c, (f c).kind = c.kind)
    (hcount : ∀ counter c, (f c).count counter = c.count counter)
    (hadd : ∀ sort, ∃ entries, ∀ c,
      (f c).definitions sort = (c.definitions sort).append ⟨entries⟩) :
    s.AdvancesTo (s.modifyCurrent f) where
  kinds := map_toList_modifyCurrent hkind s
  definitions sort := by
    obtain ⟨entries, hentries⟩ := hadd sort
    refine ⟨entries, ?_⟩
    rw [maps, maps, toList_modifyCurrent, List.modifyHead_eq_modify_zero,
      map_modify (k := (·.append ⟨entries⟩)) hentries, List.modifyHead_eq_modify_zero]
  counts counter := by
    refine ⟨0, ?_⟩
    rw [map_toList_modifyCurrent (hcount counter)]
    exact (List.modify_id ..).symm

/-- Counters of the counting scope go up. -/
theorem modifyCounting {f : Scope → Scope} (hkind : ∀ c, (f c).kind = c.kind)
    (hdefinitions : ∀ sort c, (f c).definitions sort = c.definitions sort)
    (hcount : ∀ counter, ∃ n, (f s.counting).count counter = s.counting.count counter + n) :
    s.AdvancesTo (s.modifyCounting f) where
  kinds := map_toList_modifyCounting hkind s
  definitions sort := by
    refine ⟨[], ?_⟩
    rw [maps, map_toList_modifyCounting (hdefinitions sort)]
    exact (congrFun List.modifyHead_id (s.maps sort)).symm
  counts counter := by
    obtain ⟨n, hn⟩ := hcount counter
    refine ⟨n, List.ext_getElem? fun i => ?_⟩
    rw [toList_modifyCounting, List.getElem?_map, List.getElem?_modify, List.getElem?_modify,
      List.getElem?_map]
    by_cases hi : s.countingIndex = i
    · subst hi
      rw [s.getElem?_countingIndex]
      simpa using hn
    · simp [hi]

theorem addFunction (codeName : String) (d : Definition) :
    s.AdvancesTo (s.addFunction codeName d) := by
  refine modifyCurrent (fun _ => rfl) (fun counter _ => by cases counter <;> rfl) fun sort => ?_
  cases sort with
  | function => exact ⟨[(codeName, d)], fun _ => rfl⟩
  | classBody => exact ⟨[], fun _ => rfl⟩

theorem addClass (codeName : String) (d : Definition) :
    s.AdvancesTo (s.addClass codeName d) := by
  refine modifyCurrent (fun _ => rfl) (fun counter _ => by cases counter <;> rfl) fun sort => ?_
  cases sort with
  | function => exact ⟨[], fun _ => rfl⟩
  | classBody => exact ⟨[(codeName, d)], fun _ => rfl⟩

theorem takeTryNumber (s : ScopeStack) : s.AdvancesTo s.takeTryNumber.2 := by
  refine modifyCounting (fun _ => rfl) (fun sort _ => by cases sort <;> rfl) fun counter => ?_
  cases counter with
  | tries => exact ⟨1, rfl⟩
  | loops => exact ⟨0, rfl⟩

theorem takeLoopNumber (s : ScopeStack) : s.AdvancesTo s.takeLoopNumber.2 := by
  refine modifyCounting (fun _ => rfl) (fun sort _ => by cases sort <;> rfl) fun counter => ?_
  cases counter with
  | tries => exact ⟨0, rfl⟩
  | loops => exact ⟨1, rfl⟩

/-- The scopes around one that is still open. -/
theorem exists_below {kind : ScopeKind} (h : (s.push kind).AdvancesTo s') :
    ∃ top below rest, s'.toList = top :: below :: rest := by
  have hlength := congrArg List.length h.kinds
  rw [List.length_map, List.length_map, toList_push, List.length_cons, length_toList s] at hlength
  match hlist : s'.toList with
  | top :: below :: rest => exact ⟨top, below, rest, rfl⟩
  | [_] | [] => simp [hlist, depth] at hlength

/-- A scope that is opened and closed leaves what it holds to the one below, and numbers that were
counted for the body around it. -/
theorem inScope {kind : ScopeKind} (h : (s.push kind).AdvancesTo s') : s.AdvancesTo s'.pop := by
  obtain ⟨top, below, rest, hs'⟩ := h.exists_below
  have hpop := toList_pop hs'
  refine ⟨?_, fun sort => ?_, fun counter => ?_⟩
  · have hkinds := h.kinds
    rw [hs', toList_push] at hkinds
    rw [hpop]
    exact (List.cons.inj hkinds).2
  · obtain ⟨entries, hentries⟩ := h.definitions sort
    rw [maps_push, maps, hs'] at hentries
    obtain ⟨htop, hbelow⟩ := List.cons.inj hentries
    have htop : top.definitions sort = .ofEntries entries := htop
    have habsorb : (below.absorb top).definitions sort =
        (below.definitions sort).append (top.definitions sort) := by
      cases sort <;> rfl
    refine ⟨entries, ?_⟩
    rw [maps, hpop, ← hbelow, List.map_cons, habsorb, htop, OrderedMap.append_ofEntries]
    rfl
  · obtain ⟨n, hn⟩ := h.counts counter
    rw [counts_push] at hn
    rw [counts_pop hs', hn]
    by_cases hkind : kind = .inline
    · subst hkind
      rw [countingIndex_push_inline, List.modify_succ_cons]
      exact ⟨n, rfl⟩
    · rw [countingIndex_push hkind, List.modify_zero_cons]
      exact ⟨0, (List.modify_id ..).symm⟩

/-! ## Counters of the counting scope -/

/-- Counters never go down. -/
theorem count_le (h : s.AdvancesTo s') (counter : Counter) :
    s.counting.count counter ≤ s'.counting.count counter := by
  obtain ⟨n, hn⟩ := h.counts counter
  have hcount := s'.getElem?_counts counter
  rw [hn, h.countingIndex_eq, List.getElem?_modify, s.getElem?_counts counter] at hcount
  have hsum : s.counting.count counter + n = s'.counting.count counter := by simpa using hcount
  exact hsum ▸ Nat.le_add_right _ n

/-- What a change of the counting scope leaves to count. -/
theorem counting_modifyCounting {f : Scope → Scope} (h : s.AdvancesTo (s.modifyCounting f)) :
    (s.modifyCounting f).counting = f s.counting := by
  have hscope := (s.modifyCounting f).getElem?_countingIndex
  rw [h.countingIndex_eq, toList_modifyCounting, List.getElem?_modify,
    s.getElem?_countingIndex] at hscope
  simpa using hscope.symm

/-- Inline code is counted for the body around it. -/
theorem count_pop_inline (h : (s.push .inline).AdvancesTo s') (counter : Counter) :
    s'.pop.counting.count counter = s'.counting.count counter := by
  obtain ⟨top, below, rest, hs'⟩ := h.exists_below
  have hclosed := s'.pop.getElem?_counts counter
  rw [h.inScope.countingIndex_eq, counts_pop hs', List.getElem?_tail] at hclosed
  have hopen := s'.getElem?_counts counter
  rw [h.countingIndex_eq, countingIndex_push_inline] at hopen
  exact Option.some.inj (hclosed.symm.trans hopen)

end AdvancesTo
end ScopeStack
end CompilerBackend
