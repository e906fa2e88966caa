import CompilerBackend.Proofs.Target.Wording
/-!
# Steps on a program

What a step on a program does, whatever well-formed program it starts from: it keeps the program
well-formed, it only adds to it, and its result is as stated once the program after it is a part
of the one that handles are looked up in. The facts `H` that are at hand when the step is made
belong to the result alone, so the first two parts never depend on them.
-/

namespace CompilerBackend

open Program

/-! ## Sizes -/

theorem Arities.mem_insertSizes_iff {m n : Nat} {l : List Nat} :
    m ∈ Arities.insertSizes n l ↔ m = n ∨ m ∈ l := by
  induction l with
  | nil => simp [insertSizes]
  | cons k l ih =>
      rw [insertSizes]
      split_ifs with hlt heq
      · exact List.mem_cons
      · subst heq
        simp
      · rw [List.mem_cons, ih, List.mem_cons]
        tauto

/-! ## Steps -/

/-- From facts `H`, a step gives a result as in `Q` and leaves a larger well-formed program. -/
def Interned (w : Wording) (H : Prop) {α : Type} (step : Interning α) (Q : α → Prop) : Prop :=
  ∀ p : Program, p.WellFormed →
    (step p).2.WellFormed ∧ p.Extends (step p).2 ∧
      (H → (step p).2.Extends w.program → Q (step p).1)

namespace Interned

variable {w : Wording} {H : Prop} {α β : Type}

theorem pure {Q : α → Prop} {a : α} (h : H → Q a) :
    Interned w H (Pure.pure a : Interning α) Q := fun p hp =>
  ⟨hp, Extends.refl p, fun hH _ => h hH⟩

theorem bind {step : Interning α} {next : α → Interning β} {Q : α → Prop} {R : β → Prop}
    (hs : Interned w H step Q) (hn : ∀ a, Interned w (H ∧ Q a) (next a) R) :
    Interned w H (step >>= next) R := by
  intro p hp
  obtain ⟨hp1, hext1, hq⟩ := hs p hp
  obtain ⟨hp2, hext2, hr⟩ := hn (step p).1 (step p).2 hp1
  exact ⟨hp2, hext1.trans hext2, fun hH hfinal => hr ⟨hH, hq hH (hext2.trans hfinal)⟩ hfinal⟩

theorem imp {step : Interning α} {Q R : α → Prop} (hs : Interned w H step Q)
    (h : H → ∀ a, Q a → R a) : Interned w H step R := by
  intro p hp
  obtain ⟨hp1, hext, hq⟩ := hs p hp
  exact ⟨hp1, hext, fun hH hfinal => h hH _ (hq hH hfinal)⟩

theorem weaken {H' : Prop} {step : Interning α} {Q : α → Prop} (hs : Interned w H' step Q)
    (h : H → H') : Interned w H step Q := by
  intro p hp
  obtain ⟨hp1, hext, hq⟩ := hs p hp
  exact ⟨hp1, hext, fun hH => hq (h hH)⟩

theorem mapM {step : α → Interning β} {Q : β → Prop} {l : List α}
    (hs : ∀ a ∈ l, Interned w H (step a) Q) :
    Interned w H (l.mapM step) fun bs => ∀ b ∈ bs, Q b := by
  induction l with
  | nil =>
      rw [List.mapM_nil]
      exact pure fun _ b hb => nomatch hb
  | cons a l ih =>
      rw [List.mapM_cons]
      refine (hs a List.mem_cons_self).bind fun b => ?_
      have hl := ih fun a ha => hs a (List.mem_cons_of_mem _ ha)
      refine (hl.weaken And.left).bind fun bs => pure fun h => ?_
      exact List.forall_mem_cons.mpr ⟨h.1.2, h.2⟩

end Interned

section

variable {w : Wording} {H : Prop}

theorem interned_handleOf (c : Constant) : Interned w H (handleOf c) (Term w) := by
  intro p hp
  obtain ⟨hp1, hext, hmem⟩ := hp.intern c
  exact ⟨hp1, hext, fun _ hfinal => term_handle hp1 hmem hfinal⟩

theorem interned_handleOfText (s : String) : Interned w H (handleOfText s) (Term w) :=
  interned_handleOf (.str s)

/-- Sizes do not matter to the table. -/
theorem wellFormed_of_constants {p p' : Program} (h : p.WellFormed)
    (heq : p'.constants = p.constants) : p'.WellFormed where
  keyed := by rw [table, heq]; exact h.keyed
  numbered := by rw [table, heq]; exact h.numbered
  distinct := by rw [table, heq]; exact h.distinct

theorem interned_recordTuple (n : Nat) :
    Interned w H (recordTuple n) fun _ => n ∈ Helper.tuple.sizes w.program :=
  fun _ hp => ⟨wellFormed_of_constants hp rfl,
    ⟨List.prefix_refl _, fun _ h => Arities.mem_insertSizes_iff.mpr (Or.inr h), fun _ h => h,
      fun _ h => h⟩,
    fun _ hfinal => hfinal.tuples n (Arities.mem_insertSizes_iff.mpr (Or.inl rfl))⟩

theorem interned_recordList (n : Nat) :
    Interned w H (recordList n) fun _ => n ∈ Helper.list.sizes w.program :=
  fun _ hp => ⟨wellFormed_of_constants hp rfl,
    ⟨List.prefix_refl _, fun _ h => h, fun _ h => Arities.mem_insertSizes_iff.mpr (Or.inr h),
      fun _ h => h⟩,
    fun _ hfinal => hfinal.lists n (Arities.mem_insertSizes_iff.mpr (Or.inl rfl))⟩

theorem interned_recordDict (n : Nat) :
    Interned w H (recordDict n) fun _ => n ∈ Helper.dict.sizes w.program :=
  fun _ hp => ⟨wellFormed_of_constants hp rfl,
    ⟨List.prefix_refl _, fun _ h => h, fun _ h => h,
      fun _ h => Arities.mem_insertSizes_iff.mpr (Or.inr h)⟩,
    fun _ hfinal => hfinal.dicts n (Arities.mem_insertSizes_iff.mpr (Or.inl rfl))⟩

end

end CompilerBackend
