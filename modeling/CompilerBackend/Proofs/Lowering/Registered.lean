import CompilerBackend.Target.Assembly
import CompilerBackend.Proofs.Target.Wording
/-!
# Registered definitions

What a stack of scopes holds at any time is what was registered with it: opening, closing and
counting move definitions, and none of them makes one.
-/

namespace CompilerBackend

open Target

/-! ## Values of ordered maps -/

namespace OrderedMap

variable {κ α : Type} [DecidableEq κ] {m n : OrderedMap κ α} {k : κ} {a b : α}

theorem mem_values_insert (h : b ∈ (m.insert k a).values) : b = a ∨ b ∈ m.values := by
  obtain ⟨l⟩ := m
  obtain ⟨e, he, rfl⟩ := List.mem_map.mp h
  suffices hentry : e = (k, a) ∨ e ∈ l by
    rcases hentry with rfl | hmem
    · exact Or.inl rfl
    · exact Or.inr (List.mem_map_of_mem hmem)
  clear h
  induction l with
  | nil => exact Or.inl (List.mem_singleton.mp he)
  | cons e' l ih =>
      change e ∈ insertEntries k a (e' :: l) at he
      rw [insertEntries] at he
      split at he
      · rcases List.mem_cons.mp he with rfl | he
        · exact Or.inl rfl
        · exact Or.inr (List.mem_cons_of_mem e' he)
      · rcases List.mem_cons.mp he with rfl | he
        · exact Or.inr List.mem_cons_self
        · exact (ih he).imp_right (List.mem_cons_of_mem e')

theorem mem_values_append (h : b ∈ (m.append n).values) : b ∈ m.values ∨ b ∈ n.values := by
  obtain ⟨l⟩ := n
  induction l generalizing m with
  | nil => exact Or.inl h
  | cons e l ih =>
      rcases ih (m := m.insert e.1 e.2) h with h | h
      · rcases mem_values_insert h with rfl | h
        · exact Or.inr List.mem_cons_self
        · exact Or.inl h
      · exact Or.inr (List.mem_cons_of_mem _ h)

end OrderedMap

/-! ## Scopes -/

/-- All definitions in the open scopes are as stated. -/
def ScopeStack.Registers (D : Definition → Prop) (s : ScopeStack) : Prop :=
  ∀ c ∈ s.toList, ∀ d ∈ definitionsOf c, D d

abbrev Registered (w : Wording) (s : ScopeStack) : Prop :=
  s.Registers fun d => Worded w d.declaration ∧ Worded w d.code

theorem mem_definitionsOf {c : Scope} {d : Definition} :
    d ∈ definitionsOf c ↔ d ∈ c.classes.values ∨ d ∈ c.functions.values := List.mem_append

namespace ScopeStack.Registers

variable {D : Definition → Prop} {s : ScopeStack} {d : Definition} {kind : ScopeKind}

theorem empty : Registers D {} := by
  intro c hc d hd
  rw [List.mem_singleton.mp hc] at hd
  exact nomatch hd

theorem push (h : Registers D s) (kind : ScopeKind) : Registers D (s.push kind) := by
  intro c hc d hd
  rcases List.mem_cons.mp hc with rfl | hc
  · exact nomatch hd
  · exact h c hc d hd

theorem modifyCurrent (h : Registers D s) {f : Scope → Scope}
    (hf : ∀ d ∈ definitionsOf (f s.current), D d) :
    Registers D (s.modifyCurrent f) := by
  obtain ⟨inner, bottom⟩ := s
  cases inner with
  | nil =>
      intro c hc
      rw [List.mem_singleton.mp hc]
      exact hf
  | cons top rest =>
      intro c hc
      rcases List.mem_cons.mp hc with rfl | hc
      · exact hf
      · exact h c (List.mem_cons_of_mem top hc)

theorem current (h : Registers D s) :
    ∀ d ∈ definitionsOf s.current, D d := by
  obtain ⟨inner, bottom⟩ := s
  cases inner with
  | nil => exact h bottom List.mem_cons_self
  | cons top rest => exact h top List.mem_cons_self

theorem addFunction (h : Registers D s) (codeName : String) (hd : D d) :
    Registers D (s.addFunction codeName d) := by
  refine h.modifyCurrent fun e he => ?_
  rcases mem_definitionsOf.mp he with he | he
  · exact h.current e (mem_definitionsOf.mpr (Or.inl he))
  · rcases OrderedMap.mem_values_insert he with rfl | he
    · exact hd
    · exact h.current e (mem_definitionsOf.mpr (Or.inr he))

theorem addClass (h : Registers D s) (codeName : String) (hd : D d) :
    Registers D (s.addClass codeName d) := by
  refine h.modifyCurrent fun e he => ?_
  rcases mem_definitionsOf.mp he with he | he
  · rcases OrderedMap.mem_values_insert he with rfl | he
    · exact hd
    · exact h.current e (mem_definitionsOf.mpr (Or.inl he))
  · exact h.current e (mem_definitionsOf.mpr (Or.inr he))

/-- The scope below takes over what a closed one holds. -/
theorem pop (h : Registers D s) : Registers D s.pop := by
  obtain ⟨inner, bottom⟩ := s
  cases inner with
  | nil => exact h
  | cons top rest =>
      have hrest : Registers D ⟨rest, bottom⟩ := fun c hc => h c (List.mem_cons_of_mem top hc)
      have htop := h top List.mem_cons_self
      change Registers D (ScopeStack.modifyCurrent ⟨rest, bottom⟩ (·.absorb top))
      refine hrest.modifyCurrent fun d hd => ?_
      rcases mem_definitionsOf.mp hd with hd | hd
      · rcases OrderedMap.mem_values_append hd with hd | hd
        · exact hrest.current d (mem_definitionsOf.mpr (Or.inl hd))
        · exact htop d (mem_definitionsOf.mpr (Or.inl hd))
      · rcases OrderedMap.mem_values_append hd with hd | hd
        · exact hrest.current d (mem_definitionsOf.mpr (Or.inr hd))
        · exact htop d (mem_definitionsOf.mpr (Or.inr hd))

theorem modifyCountingFrom {f : Scope → Scope} (hf : ∀ c, definitionsOf (f c) = definitionsOf c)
    {inner inner' : List Scope} (h : ScopeStack.modifyCountingFrom f inner = some inner') :
    ∀ c' ∈ inner', ∃ c ∈ inner, definitionsOf c' = definitionsOf c := by
  induction inner generalizing inner' with
  | nil => exact nomatch h
  | cons top rest ih =>
      rw [ScopeStack.modifyCountingFrom] at h
      split at h
      · obtain ⟨rest', hrest, rfl⟩ := Option.map_eq_some_iff.mp h
        intro c' hc'
        rcases List.mem_cons.mp hc' with rfl | hc'
        · exact ⟨c', List.mem_cons_self, rfl⟩
        · obtain ⟨c, hc, heq⟩ := ih hrest c' hc'
          exact ⟨c, List.mem_cons_of_mem top hc, heq⟩
      · rw [← Option.some.inj h]
        intro c' hc'
        rcases List.mem_cons.mp hc' with rfl | hc'
        · exact ⟨top, List.mem_cons_self, hf top⟩
        · exact ⟨c', List.mem_cons_of_mem top hc', rfl⟩

/-- Counting leaves the definitions alone. -/
theorem modifyCounting (h : Registers D s) {f : Scope → Scope}
    (hf : ∀ c, definitionsOf (f c) = definitionsOf c) : Registers D (s.modifyCounting f) := by
  intro c' hc'
  unfold ScopeStack.modifyCounting at hc'
  split at hc'
  next inner' hinner =>
    rcases List.mem_append.mp hc' with hc' | hc'
    · obtain ⟨c, hc, heq⟩ := modifyCountingFrom hf hinner c' hc'
      rw [heq]
      exact h c (List.mem_append_left _ hc)
    · exact h c' (List.mem_append_right _ hc')
  next =>
    rcases List.mem_append.mp hc' with hc' | hc'
    · exact h c' (List.mem_append_left _ hc')
    · rw [List.mem_singleton.mp hc', hf]
      exact h s.bottom (List.mem_append_right _ List.mem_cons_self)

theorem takeTryNumber (h : Registers D s) : Registers D s.takeTryNumber.2 :=
  h.modifyCounting fun _ => rfl

theorem takeLoopNumber (h : Registers D s) : Registers D s.takeLoopNumber.2 :=
  h.modifyCounting fun _ => rfl

end ScopeStack.Registers
end CompilerBackend
