import CompilerBackend.Proofs.Target.Interned
/-!
# What a program holds

A program answers requests: for the handle of a constant, and for the helper that makes a container
of some size. It holds what it was asked for.

- `Program.Sound`: no size stands twice, and the table is well-formed.
- `has_grant_iff`: after a request a program holds that and what it held before.
- `grant_of_has`: a request for what a program holds changes nothing.
-/

namespace CompilerBackend

/-- What a lowering asks of the program: the handle of a constant, or the helper for a container
of some size. -/
inductive Request where
  | constant (c : Constant)
  | tuple (size : Nat)
  | list (size : Nat)
  | dict (size : Nat)

def Request.text (s : String) : Request := .constant (.str s)

/-! ## Sizes -/

namespace Arities

variable {m n : Nat} {l : List Nat}

def Ascending (a : Arities) : Prop := a.sizes.Pairwise (· < ·)

theorem Ascending.insert {a : Arities} (h : a.Ascending) (n : Nat) : (a.insert n).Ascending := by
  obtain ⟨l⟩ := a
  change (insertSizes n l).Pairwise (· < ·)
  change l.Pairwise (· < ·) at h
  induction l with
  | nil => exact List.pairwise_singleton _ n
  | cons k l ih =>
      obtain ⟨hk, hl⟩ := List.pairwise_cons.mp h
      rw [insertSizes]
      split_ifs with hlt heq
      · refine List.pairwise_cons.mpr ⟨fun m hm => ?_, h⟩
        rcases List.mem_cons.mp hm with rfl | hm
        · exact hlt
        · exact hlt.trans (hk m hm)
      · exact h
      · refine List.pairwise_cons.mpr ⟨fun m hm => ?_, ih hl⟩
        rcases mem_insertSizes_iff.mp hm with rfl | hm
        · omega
        · exact hk m hm

theorem Ascending.insert_of_mem {a : Arities} (h : a.Ascending) (hn : n ∈ a.sizes) :
    a.insert n = a := by
  obtain ⟨l⟩ := a
  refine congrArg Arities.mk ?_
  change l.Pairwise (· < ·) at h
  change n ∈ l at hn
  induction l with
  | nil => exact nomatch hn
  | cons k l ih =>
      obtain ⟨hk, hl⟩ := List.pairwise_cons.mp h
      rw [insertSizes]
      rcases List.mem_cons.mp hn with rfl | hn
      · rw [if_neg (lt_irrefl n), if_pos rfl]
      · have hlt := hk n hn
        rw [if_neg (by omega), if_neg (by omega), ih hl hn]

end Arities

namespace Program

variable {p q : Program} {r r' : Request}

/-! ## Holding -/

/-- The program has been asked before. -/
def Has (p : Program) : Request → Prop
  | .constant c => c.key ∈ p.constants.keys
  | .tuple n => n ∈ p.tuples.sizes
  | .list n => n ∈ p.lists.sizes
  | .dict n => n ∈ p.dicts.sizes

def grant (p : Program) : Request → Program
  | .constant c => (p.intern c).2
  | .tuple n => { p with tuples := p.tuples.insert n }
  | .list n => { p with lists := p.lists.insert n }
  | .dict n => { p with dicts := p.dicts.insert n }

/-- A well-formed program with its sizes in order. -/
structure Sound (p : Program) : Prop where
  wellFormed : p.WellFormed
  tuples : p.tuples.Ascending
  lists : p.lists.Ascending
  dicts : p.dicts.Ascending

theorem sound_empty : Sound {} :=
  ⟨wellFormed_empty, List.Pairwise.nil, List.Pairwise.nil, List.Pairwise.nil⟩

theorem Sound.grant (h : p.Sound) (r : Request) : (p.grant r).Sound := by
  cases r with
  | constant c =>
      refine ⟨(h.wellFormed.intern c).1, ?_, ?_, ?_⟩
      all_goals
        rcases h.wellFormed.intern_cases c with ⟨e, -, -, heq⟩ | ⟨-, constants, heq, -⟩
        all_goals
          rw [Program.grant, heq]
      exacts [h.tuples, h.tuples, h.lists, h.lists, h.dicts, h.dicts]
  | tuple n => exact ⟨wellFormed_of_constants h.wellFormed rfl, h.tuples.insert n, h.lists, h.dicts⟩
  | list n => exact ⟨wellFormed_of_constants h.wellFormed rfl, h.tuples, h.lists.insert n, h.dicts⟩
  | dict n => exact ⟨wellFormed_of_constants h.wellFormed rfl, h.tuples, h.lists, h.dicts.insert n⟩

theorem Sound.extends_grant (h : p.Sound) (r : Request) : p.Extends (p.grant r) := by
  have hmem : ∀ {n m : Nat} {l : List Nat}, m ∈ l → m ∈ Arities.insertSizes n l :=
    fun h => Arities.mem_insertSizes_iff.mpr (Or.inr h)
  cases r with
  | constant c => exact (h.wellFormed.intern c).2.1
  | tuple n => exact ⟨List.prefix_refl _, fun _ => hmem, fun _ h => h, fun _ h => h⟩
  | list n => exact ⟨List.prefix_refl _, fun _ h => h, fun _ => hmem, fun _ h => h⟩
  | dict n => exact ⟨List.prefix_refl _, fun _ h => h, fun _ h => h, fun _ => hmem⟩

/-- A program holds what it is asked for, and what it held before. -/
theorem Sound.has_grant_iff (h : p.Sound) : (p.grant r).Has r' ↔ p.Has r' ∨ r' = r := by
  cases r with
  | constant c =>
      rcases h.wellFormed.intern_cases c with ⟨e, he, rfl, heq⟩ | ⟨-, constants, heq, hadd⟩
      · rw [Program.grant, heq]
        refine ⟨Or.inl, fun hr => hr.elim id ?_⟩
        rintro rfl
        exact h.wellFormed.mem_keys.mpr ⟨e, he, rfl⟩
      · rw [Program.grant, heq]
        cases r' with
        | constant d =>
            simp only [Has, OrderedMap.keys, hadd, List.map_append, List.mem_append, List.map_cons,
              List.map_nil, List.mem_singleton, Request.constant.injEq]
            exact or_congr_right ⟨fun hk => Constant.key_injective hk, congrArg Constant.key⟩
        | _ => simp [Has]
  | tuple n => cases r' <;> simp [Has, Program.grant, Arities.insert, Arities.mem_insertSizes_iff, or_comm]
  | list n => cases r' <;> simp [Has, Program.grant, Arities.insert, Arities.mem_insertSizes_iff, or_comm]
  | dict n => cases r' <;> simp [Has, Program.grant, Arities.insert, Arities.mem_insertSizes_iff, or_comm]

theorem Sound.grant_of_has (h : p.Sound) (hr : p.Has r) : p.grant r = p := by
  cases r with
  | constant c =>
      rcases h.wellFormed.intern_cases c with ⟨e, -, -, heq⟩ | ⟨hnone, -⟩
      · rw [Program.grant, heq]
      · obtain ⟨e, he, hc⟩ := h.wellFormed.mem_keys.mp hr
        exact absurd hc (hnone e he)
  | tuple n => rw [Program.grant, h.tuples.insert_of_mem hr]
  | list n => rw [Program.grant, h.lists.insert_of_mem hr]
  | dict n => rw [Program.grant, h.dicts.insert_of_mem hr]

theorem Sound.has_of_extends (hp : p.Sound) (hq : q.Sound) (h : p.Extends q) (hr : p.Has r) :
    q.Has r := by
  cases r with
  | constant c =>
      obtain ⟨e, he, hc⟩ := hp.wellFormed.mem_keys.mp hr
      exact hq.wellFormed.mem_keys.mpr ⟨e, h.mem he, hc⟩
  | tuple n => exact h.tuples n hr
  | list n => exact h.lists n hr
  | dict n => exact h.dicts n hr

/-- The handle of a constant does not change any more. -/
theorem Sound.intern_of_extends (hp : p.Sound) (hq : q.Sound) {c : Constant}
    (h : (p.intern c).2.Extends q) : q.intern c = ((p.intern c).1, q) := by
  obtain ⟨-, -, hmem⟩ := hp.wellFormed.intern c
  rcases hq.wellFormed.intern_cases c with ⟨e, he, hc, heq⟩ | ⟨hnone, -⟩
  · have hsame := hq.wellFormed.entry_unique he (h.mem hmem) (Or.inl hc)
    rw [heq, hsame]
  · exact absurd rfl (hnone _ (h.mem hmem))

end Program
end CompilerBackend
