import CompilerBackend.Proofs.Scopes.Flat
/-!
# The numbers of a scope

Try statements and loops are numbered by the scope whose body the code goes into. Scopes are told
apart here by labels, which the stack itself does not have: the module's scope is 0, and another one
is the number of scopes that were opened up to it. However calls open and close scopes in between,
the numbers that a counter hands out for one scope are 1, 2, 3 and so on.

- `Watch`: a stack, the labels of its scopes and the numbers handed out so far.
- `Watch.Sound`: what each call preserves; a counter says how many numbers its scope has had.
- `numbers_ofSteps`: the numbers of every scope after any calls.
-/

namespace CompilerBackend

inductive Counter where
  | tries
  | loops
  deriving DecidableEq

def Scope.count (c : Scope) : Counter → Nat
  | .tries => c.tryCount
  | .loops => c.loopCount

/-- A number that was handed out, with the scope it was counted for. -/
structure Ticket where
  counter : Counter
  scope : Nat
  number : Nat
  deriving DecidableEq

/-- A stack whose scopes have labels, innermost first, and the numbers handed out. -/
structure Watch where
  stack : ScopeStack := {}
  labels : List Nat := [0]
  opened : Nat := 0
  tickets : List Ticket := []

namespace Watch

def countingLabel (w : Watch) : Nat := w.labels.getD w.stack.countingIndex 0

def after (w : Watch) : ScopeStep → Watch
  | .push kind =>
    { w with
      stack := w.stack.push kind
      labels := (w.opened + 1) :: w.labels
      opened := w.opened + 1 }
  | .pop =>
    { w with
      stack := w.stack.pop
      labels := if w.stack.depth = 1 then w.labels else w.labels.tail }
  | .addFunction codeName d => { w with stack := w.stack.addFunction codeName d }
  | .addClass codeName d => { w with stack := w.stack.addClass codeName d }
  | .takeTryNumber =>
    { w with
      stack := w.stack.takeTryNumber.2
      tickets := w.tickets ++ [⟨.tries, w.countingLabel, w.stack.takeTryNumber.1⟩] }
  | .takeLoopNumber =>
    { w with
      stack := w.stack.takeLoopNumber.2
      tickets := w.tickets ++ [⟨.loops, w.countingLabel, w.stack.takeLoopNumber.1⟩] }

/-- The numbers that a counter has handed out for a scope, in their order. -/
def numbers (w : Watch) (counter : Counter) (label : Nat) : List Nat :=
  (w.tickets.filter fun x => x.counter = counter ∧ x.scope = label).map (·.number)

def ofSteps (steps : List ScopeStep) : Watch := steps.foldl after {}

theorem stack_after (w : Watch) (step : ScopeStep) : (w.after step).stack = step.after w.stack := by
  cases step <;> rfl

/-- Watching changes nothing. -/
theorem stack_ofSteps (steps : List ScopeStep) :
    (ofSteps steps).stack = ScopeStack.run {} steps := by
  induction steps using List.reverseRecOn with
  | nil => rfl
  | append_singleton steps step ih =>
      rw [ofSteps, List.foldl_concat, stack_after, ScopeStack.run_concat, ← ih]
      rfl

/-- The labels tell the scopes apart, and the counters of an open scope have handed out all numbers
up to where they stand. -/
structure Sound (w : Watch) : Prop where
  length : w.labels.length = w.stack.depth
  distinct : w.labels.Nodup
  bound : ∀ label ∈ w.labels, label ≤ w.opened
  counted : ∀ {i label : Nat} {c : Scope}, w.labels[i]? = some label → w.stack.toList[i]? = some c →
    ∀ counter, w.numbers counter label = List.range' 1 (c.count counter)
  regular : ∀ counter label, ∃ n, w.numbers counter label = List.range' 1 n
  fresh : ∀ label, w.opened < label → ∀ counter, w.numbers counter label = []

namespace Sound

variable {w : Watch}

theorem start : Sound {} where
  length := rfl
  distinct := List.nodup_singleton 0
  bound := fun _ h => (List.mem_singleton.mp h).le
  counted := fun {i _ _} _ hc counter => by
    obtain _ | i := i
    · obtain rfl : Scope.ofKind .module = _ := Option.some.inj hc
      cases counter <;> rfl
    · exact nomatch hc
  regular := fun _ _ => ⟨0, rfl⟩
  fresh := fun _ _ _ => rfl

theorem getElem?_countingIndex (h : Sound w) :
    w.labels[w.stack.countingIndex]? = some w.countingLabel := by
  have hlt : w.stack.countingIndex < w.labels.length := by
    rw [h.length, ← ScopeStack.length_toList]
    exact (List.getElem?_eq_some_iff.mp w.stack.getElem?_countingIndex).1
  rw [countingLabel, List.getD_eq_getElem?_getD, List.getElem?_eq_getElem hlt]
  rfl

/-- A change that no counter shows. -/
theorem restack (h : Sound w) {s : ScopeStack}
    (hs : ∀ counter, s.toList.map (·.count counter) = w.stack.toList.map (·.count counter)) :
    Sound { w with stack := s } where
  length := by
    have hlength := congrArg List.length (hs .tries)
    rw [List.length_map, List.length_map, ScopeStack.length_toList,
      ScopeStack.length_toList] at hlength
    exact h.length.trans hlength.symm
  distinct := h.distinct
  bound := h.bound
  counted := fun {i label c} hlabel hc counter => by
    have hcount : (s.toList.map (·.count counter))[i]? =
        (w.stack.toList.map (·.count counter))[i]? := by rw [hs counter]
    rw [List.getElem?_map, List.getElem?_map, hc] at hcount
    obtain ⟨c', hc', heq⟩ := Option.map_eq_some_iff.mp hcount.symm
    exact (h.counted hlabel hc' counter).trans (congrArg (List.range' 1) heq)
  regular := h.regular
  fresh := h.fresh

/-- A new scope has a new label, and its counters have handed out nothing. -/
theorem push (h : Sound w) (kind : ScopeKind) : Sound (w.after (.push kind)) where
  length := congrArg (· + 1) h.length
  distinct := List.nodup_cons.mpr ⟨fun hmem => Nat.not_succ_le_self _ (h.bound _ hmem), h.distinct⟩
  bound := fun label hmem => by
    rcases List.mem_cons.mp hmem with rfl | hmem
    · exact le_rfl
    · exact (h.bound label hmem).trans (Nat.le_succ _)
  counted := fun {i label c} hlabel hc counter => by
    obtain _ | i := i
    · obtain rfl : w.opened + 1 = label := Option.some.inj hlabel
      obtain rfl : Scope.ofKind kind = c := Option.some.inj hc
      refine (h.fresh (w.opened + 1) (Nat.lt_succ_self _) counter).trans ?_
      cases counter <;> rfl
    · exact h.counted (i := i) hlabel hc counter
  regular := h.regular
  fresh := fun label hlt => h.fresh label ((Nat.lt_succ_self _).trans hlt)

/-- The scopes below a closed one keep their labels and counters. -/
theorem pop (h : Sound w) : Sound (w.after .pop) := by
  obtain ⟨⟨_ | ⟨top, inner⟩, bottom⟩, labels, opened, tickets⟩ := w
  · exact h
  · obtain _ | ⟨label, labels⟩ := labels
    · exact absurd h.length (Nat.succ_ne_zero _).symm
    have hbelow : Sound ⟨⟨inner, bottom⟩, labels, opened, tickets⟩ :=
      { length := Nat.succ.inj h.length
        distinct := (List.nodup_cons.mp h.distinct).2
        bound := fun label hmem => h.bound label (List.mem_cons_of_mem _ hmem)
        counted := fun {i _ _} hlabel hc => h.counted (i := i + 1) hlabel hc
        regular := h.regular
        fresh := h.fresh }
    refine hbelow.restack fun counter => ?_
    refine ScopeStack.map_toList_modifyCurrent (f := (·.absorb top)) (fun c => ?_) ⟨inner, bottom⟩
    cases counter <;> rfl

/-- The counting scope hands out its next number. -/
theorem numbers_take (h : Sound w) (s : ScopeStack) (counter counter' : Counter) (label : Nat) :
    ({ w with
      stack := s
      tickets := w.tickets ++ [⟨counter, w.countingLabel, w.stack.counting.count counter + 1⟩] } :
        Watch).numbers counter' label =
      if counter = counter' ∧ w.countingLabel = label then
        List.range' 1 (w.stack.counting.count counter + 1)
      else w.numbers counter' label := by
  rw [numbers, List.filter_append, List.map_append]
  split
  next heq =>
    obtain ⟨rfl, rfl⟩ := heq
    rw [List.range'_1_concat, Nat.add_comm 1,
      ← h.counted h.getElem?_countingIndex w.stack.getElem?_countingIndex counter]
    simp [numbers]
  next hne => simp [hne, numbers]

/-- One counter of the counting scope goes up; no other changes. -/
theorem take (h : Sound w) (counter : Counter) {f : Scope → Scope}
    (hf : ∀ counter', (f w.stack.counting).count counter' =
      if counter = counter' then w.stack.counting.count counter + 1
      else w.stack.counting.count counter') :
    Sound { w with
      stack := w.stack.modifyCounting f
      tickets := w.tickets ++
        [⟨counter, w.countingLabel, w.stack.counting.count counter + 1⟩] } where
  length := h.length.trans (ScopeStack.depth_modifyCounting _ f).symm
  distinct := h.distinct
  bound := h.bound
  counted := fun {i label c'} hlabel hc counter' => by
    change (w.stack.modifyCounting f).toList[i]? = some c' at hc
    rw [ScopeStack.toList_modifyCounting, List.getElem?_modify] at hc
    obtain ⟨c, hplace, rfl⟩ := Option.map_eq_some_iff.mp hc
    have hold : w.numbers counter' label = List.range' 1 (c.count counter') :=
      h.counted hlabel hplace counter'
    rw [h.numbers_take]
    by_cases hi : w.stack.countingIndex = i
    · subst hi
      obtain rfl : w.countingLabel = label :=
        Option.some.inj (h.getElem?_countingIndex.symm.trans hlabel)
      obtain rfl : w.stack.counting = c :=
        Option.some.inj (w.stack.getElem?_countingIndex.symm.trans hplace)
      rw [if_pos rfl, hf]
      by_cases hcounter : counter = counter'
      · rw [if_pos ⟨hcounter, rfl⟩, if_pos hcounter]
      · rw [if_neg fun hboth => hcounter hboth.1, if_neg hcounter, hold]
    · have hne : w.countingLabel ≠ label := fun heq => hi <|
        (List.getElem?_inj (List.getElem?_eq_some_iff.mp h.getElem?_countingIndex).1 h.distinct).mp
          (h.getElem?_countingIndex.trans (heq ▸ hlabel.symm))
      rw [if_neg fun hboth => hne hboth.2, if_neg hi, hold]
  regular := fun counter' label => by
    rw [h.numbers_take]
    split
    · exact ⟨_, rfl⟩
    · exact h.regular counter' label
  fresh := fun label hlt counter' => by
    have hne : w.countingLabel ≠ label := fun heq =>
      absurd (h.bound _ (List.mem_of_getElem? h.getElem?_countingIndex)) (heq ▸ hlt.not_ge)
    rw [h.numbers_take, if_neg fun hboth => hne hboth.2, h.fresh label hlt]

theorem after (h : Sound w) (step : ScopeStep) : Sound (w.after step) := by
  cases step with
  | push kind => exact h.push kind
  | pop => exact h.pop
  | addFunction codeName d =>
      refine h.restack fun counter => ScopeStack.map_toList_modifyCurrent (fun c => ?_) w.stack
      cases counter <;> rfl
  | addClass codeName d =>
      refine h.restack fun counter => ScopeStack.map_toList_modifyCurrent (fun c => ?_) w.stack
      cases counter <;> rfl
  | takeTryNumber => exact h.take .tries fun counter' => by cases counter' <;> rfl
  | takeLoopNumber => exact h.take .loops fun counter' => by cases counter' <;> rfl

end Sound

theorem sound_ofSteps (steps : List ScopeStep) : (ofSteps steps).Sound := by
  induction steps using List.reverseRecOn with
  | nil => exact Sound.start
  | append_singleton steps step ih =>
      rw [ofSteps, List.foldl_concat]
      exact ih.after step

/-- After any calls on a new stack, the numbers that a counter has handed out for a scope are
1, 2, 3 and so on. -/
theorem numbers_ofSteps (steps : List ScopeStep) (counter : Counter) (label : Nat) :
    (ofSteps steps).numbers counter label =
      List.range' 1 ((ofSteps steps).numbers counter label).length := by
  obtain ⟨n, hn⟩ := (sound_ofSteps steps).regular counter label
  rw [hn, List.length_range']

/-- A function inside a function, and inline code in both. -/
example :
    let w := ofSteps [.takeTryNumber, .push (.function "f" false), .takeTryNumber, .push .inline,
      .takeTryNumber, .push (.function "g" false), .takeTryNumber, .pop, .takeTryNumber, .pop, .pop,
      .takeTryNumber]
    w.numbers .tries 0 = [1, 2] ∧ w.numbers .tries 1 = [1, 2, 3] ∧ w.numbers .tries 3 = [1] := by
  decide

end Watch
end CompilerBackend
