import CompilerBackend.Proofs.Lowering.Names
import CompilerBackend.Proofs.Lowering.Recorded
import CompilerBackend.Proofs.Tree.PreOrder
/-!
# Which definitions a log has

A log has the definitions that are lowered, and no other node. Where the slots hold a tree, it has
each one once, and behind all that are nested in it.

- `Tree.Lowers`: a node is lowered on account of another; `generated_iff_lowers`.
- `Defines.mem_iff`: the nodes in a log.
- `Defines.pairwise`: their order.
-/

namespace CompilerBackend
namespace Tree

variable {t : Tree} {top root n m c id : NodeId} {ids log : List NodeId}

/-! ## Lowered nodes -/

def Lowers (t : Tree) : NodeId → NodeId → Prop := Relation.ReflTransGen fun n c => c ∈ t.lowered n

/-- Slots are lowered in the order in which they are held; some are passed over. -/
theorem lowered_sublist (t : Tree) (id : NodeId) : (t.lowered id).Sublist (t.children id) := by
  rw [lowered, positions, children]
  cases t.kind id with
  | module m => simp [NodeKind.children]
  | sequence statements => simp [NodeKind.children]
  | handler h => simp [NodeKind.children]
  | expr e =>
      rw [NodeKind.children, ← e.map_positions]
  | stmt s =>
      rw [NodeKind.children, ← s.map_positions (t.inGenerator id)]
      exact List.sublist_append_left _ _

theorem lowers_iff : t.Lowers n m ↔ m = n ∨ ∃ c ∈ t.lowered n, t.Lowers c m := by
  rw [Lowers, Relation.ReflTransGen.cases_head_iff, eq_comm]

theorem Lowers.connected (h : t.Lowers n m) (hn : t.Connected top n) : t.Connected top m := by
  induction h with
  | refl => exact hn
  | tail _ hc ih => exact ih.child ((t.lowered_sublist _).subset hc)

theorem Lowers.reaches (h : t.Lowers n m) : t.Reaches n m := by
  induction h with
  | refl => exact Reaches.refl t n
  | tail _ hc ih => exact ih.child ((t.lowered_sublist _).subset hc)

theorem lowers_of_generates {p q : Position} (h : t.Generates p q) : t.Lowers p.2 q.2 := by
  induction h with
  | refl => exact Relation.ReflTransGen.refl
  | tail _ hq ih => exact ih.tail (List.mem_map_of_mem hq)

theorem Lowers.generates (h : t.Lowers n m) (role : Role) :
    ∃ role', t.Generates (role, n) (role', m) := by
  induction h with
  | refl => exact ⟨role, Relation.ReflTransGen.refl⟩
  | tail _ hc ih =>
      obtain ⟨role, hrole⟩ := ih
      obtain ⟨q, hq, rfl⟩ := List.mem_map.mp hc
      exact ⟨q.1, hrole.tail hq⟩

/-- The generated nodes are those that are lowered on account of a slot of the root. -/
theorem generated_iff_lowers :
    (∃ role, t.Generated root (role, n)) ↔ ∃ c ∈ t.lowered root, t.Lowers c n := by
  constructor
  · rintro ⟨role, p, hp, hn⟩
    exact ⟨p.2, List.mem_map_of_mem hp, lowers_of_generates hn⟩
  · rintro ⟨c, hc, hn⟩
    obtain ⟨⟨role, c⟩, hp, rfl⟩ := List.mem_map.mp hc
    obtain ⟨role', hrole⟩ := hn.generates role
    exact ⟨role', _, hp, hrole⟩

/-! ## Logs -/

namespace Defines

/-- A log has the definitions that are lowered and nothing else. -/
theorem mem_iff (h : t.Defines ids log) :
    n ∈ log ↔ t.isDefinition n = true ∧ ∃ id ∈ ids, t.Lowers id n := by
  induction h with
  | nil => simp
  | @definition id ids below others hid _ _ ih ih' =>
      rw [List.mem_append, List.mem_cons, ih, ih', List.exists_mem_cons_iff, lowers_iff (n := id)]
      constructor
      · rintro (⟨hn, hbelow⟩ | rfl | ⟨hn, hothers⟩)
        · exact ⟨hn, .inl (.inr hbelow)⟩
        · exact ⟨hid, .inl (.inl rfl)⟩
        · exact ⟨hn, .inr hothers⟩
      · rintro ⟨hn, (rfl | hbelow) | hothers⟩
        · exact .inr (.inl rfl)
        · exact .inl ⟨hn, hbelow⟩
        · exact .inr (.inr ⟨hn, hothers⟩)
  | @fold id ids log hid _ ih =>
      rw [ih, List.exists_mem_cons_iff, lowers_iff (n := id)]
      simp only [List.mem_append, or_and_right, exists_or]
      -- the node itself is no definition
      refine and_congr_right fun hn => or_congr_left (or_iff_right ?_).symm
      rintro rfl
      exact Bool.noConfusion (hn.symm.trans hid)
  | perm hperm _ ih =>
      rw [ih]
      simp only [hperm.mem_iff]

theorem connected (h : t.Defines ids log) (hids : ∀ id ∈ ids, t.Connected top id) :
    ∀ n ∈ log, t.Connected top n := by
  intro n hn
  obtain ⟨-, id, hid, hn⟩ := h.mem_iff.mp hn
  exact hn.connected (hids id hid)

theorem reaches (h : t.Defines ids log) (hn : n ∈ log) : ∃ id ∈ ids, t.Reaches id n := by
  obtain ⟨-, id, hid, hn⟩ := h.mem_iff.mp hn
  exact ⟨id, hid, hn.reaches⟩

def Apart (t : Tree) (ids : List NodeId) : Prop :=
  ids.Pairwise fun id id' => ∀ n, t.Reaches id n → ¬ t.Reaches id' n

/-- The slots of a node hold nothing in common. -/
theorem apart_lowered (h : t.IsTree top) (hid : t.Reaches top id) : Apart t (t.lowered id) := by
  refine ((h.nodup_children hid).pairwise_of_forall_ne ?_).sublist (t.lowered_sublist id)
  intro c hc d hd hne n hcn hdn
  exact hne (h.child_unique hid hc hd hcn hdn)

/-- In a tree, no node in a log is at or below an earlier one. -/
theorem pairwise (h : t.Defines ids log) (htree : t.IsTree top)
    (hids : ∀ id ∈ ids, t.Reaches top id) (hapart : Apart t ids) :
    log.Pairwise fun n m => ¬ t.Reaches n m := by
  have hslots : ∀ {id}, t.Reaches top id → ∀ c ∈ t.lowered id, t.Reaches top c :=
    fun hid c hc => hid.child ((t.lowered_sublist _).subset hc)
  induction h with
  | nil => exact List.Pairwise.nil
  | @definition id ids below others hid hbelow hothers ih ih' =>
      obtain ⟨hfirst, hapart⟩ := List.pairwise_cons.mp hapart
      obtain ⟨hreached, hids⟩ := List.forall_mem_cons.mp hids
      -- what is at or below `id` is not at or below one of `ids`
      have haside : ∀ {n m}, t.Reaches id n → m ∈ others → ¬ t.Reaches n m := by
        intro n m hn hm hnm
        obtain ⟨id', hid', hm⟩ := hothers.reaches hm
        exact hfirst id' hid' m (hn.trans hnm) hm
      refine List.pairwise_append.mpr
        ⟨ih (hslots hreached) (apart_lowered htree hreached),
          List.pairwise_cons.mpr ⟨fun m => haside (Reaches.refl t id), ih' hids hapart⟩,
          fun n hn m hm hnm => ?_⟩
      obtain ⟨c, hc, hcn⟩ := hbelow.reaches hn
      have hc := (t.lowered_sublist id).subset hc
      rcases List.mem_cons.mp hm with rfl | hm
      · exact htree.not_reaches_of_child hreached hc (hcn.trans hnm)
      · exact haside (Reaches.of_child hc hcn) hm hnm
  | @fold id ids log _ _ ih =>
      obtain ⟨hfirst, hapart⟩ := List.pairwise_cons.mp hapart
      obtain ⟨hreached, hids⟩ := List.forall_mem_cons.mp hids
      refine ih (List.forall_mem_append.mpr ⟨hslots hreached, hids⟩)
        (List.pairwise_append.mpr ⟨apart_lowered htree hreached, hapart, ?_⟩)
      intro c hc id' hid' n hcn
      exact hfirst id' hid' n (Reaches.of_child ((t.lowered_sublist id).subset hc) hcn)
  | perm hperm _ ih =>
      have hsymm : ∀ {id id' : NodeId}, (∀ n, t.Reaches id n → ¬ t.Reaches id' n) →
          ∀ n, t.Reaches id' n → ¬ t.Reaches id n := fun h n hn' hn => h n hn hn'
      exact ih (fun id hid => hids id (hperm.mem_iff.mpr hid)) ((hperm.pairwise_iff hsymm).mp hapart)

end Defines
end Tree
end CompilerBackend
