import CompilerBackend.Proofs.Raise.Cut
/-!
# A raise that becomes statements

The side effects of the raise become expression statements, one each, and the raise becomes a
raise statement behind them; together they take the place of the statement that evaluated the
raise. The new nodes get the ids that are handed out next, in order.
-/

namespace CompilerBackend
namespace Tree

variable {t t' : Tree} {id n : NodeId}

def freshIds (t : Tree) (k : Nat) : List NodeId := (List.range k).map t.fresh

theorem mem_freshIds {k : Nat} : n ∈ t.freshIds k ↔ ∃ i < k, n = t.fresh i := by
  simp only [freshIds, List.mem_map, List.mem_range, eq_comm]

theorem length_freshIds (t : Tree) (k : Nat) : (t.freshIds k).length = k := by
  rw [freshIds, List.length_map, List.length_range]

theorem freshIds_succ (t : Tree) (k : Nat) :
    t.freshIds (k + 1) = t.freshIds k ++ [t.fresh k] := by
  rw [freshIds, List.range_succ, List.map_append]
  rfl

theorem nodup_freshIds (t : Tree) (k : Nat) : (t.freshIds k).Nodup :=
  List.nodup_range.map fun _ _ h => fresh_inj h

theorem not_mem_freshIds {k : Nat} (hn : t.Has n) : n ∉ t.freshIds k := by
  rw [mem_freshIds]
  rintro ⟨i, -, h⟩
  exact hn.ne_fresh i h

/-! ## Expression statements for the side effects -/

/-- What adding one expression statement for each expression leaves. -/
structure EffectsAdded (t : Tree) (es : List NodeId) (u : Tree) : Prop where
  kind_new : ∀ i e, es[i]? = some e → u.kind (t.fresh i) = .stmt (.expression e)
  kind_old : ∀ n, t.Has n → u.kind n = t.kind n
  parent_effect : ∀ i e, es[i]? = some e → u.parent e = some (t.fresh i)
  parent_old : ∀ n, t.Has n → n ∉ es → u.parent n = t.parent n
  location_new : ∀ i e, es[i]? = some e → u.location (t.fresh i) = t.location e
  location_old : ∀ n, t.Has n → u.location n = t.location n
  size_eq : u.size = t.size + es.length
  root_eq : u.root = t.root

theorem addEffectStatements_ids (t : Tree) (es : List NodeId) :
    (t.addEffectStatements es).2 = t.freshIds es.length := by
  induction es generalizing t with
  | nil => rfl
  | cons e es ih =>
      show t.nextId :: ((t.add _ _).addEffectStatements es).2 = _
      rw [ih, List.length_cons, freshIds, freshIds, List.range_succ_eq_map, List.map_cons,
        List.map_map]
      exact congrArg _ (List.map_congr_left fun i _ => fresh_add t _ _ i)

theorem EffectsAdded.nil (t : Tree) : EffectsAdded t [] t := by
  constructor <;> simp

/-- One expression statement, then those for the other expressions. -/
theorem EffectsAdded.cons {e : NodeId} {es : List NodeId} {u : Tree} (he : t.Has e)
    (hnot : e ∉ es) (hhas : ∀ d ∈ es, t.Has d)
    (added : EffectsAdded (t.add (.stmt (.expression e)) (t.location e)) es u) :
    EffectsAdded t (e :: es) u := by
  constructor
  case kind_new =>
    intro i d hi
    cases i with
    | zero =>
        rw [← Option.some.inj hi, fresh_zero, added.kind_old _ (has_add_nextId t _ _),
          kind_add_nextId]
    | succ i =>
        rw [← fresh_add]
        exact added.kind_new i d hi
  case kind_old =>
    intro n hn
    rw [added.kind_old n (hn.add _ _), kind_add_ne t (hn.ne_fresh 0)]
  case parent_effect =>
    intro i d hi
    cases i with
    | zero =>
        rw [← Option.some.inj hi, added.parent_old e (he.add _ _) hnot]
        exact parent_add_of_mem List.mem_cons_self he _
    | succ i =>
        rw [← fresh_add]
        exact added.parent_effect i d hi
  case parent_old =>
    intro n hn hmem
    rw [List.mem_cons, not_or] at hmem
    rw [added.parent_old n (hn.add _ _) hmem.2]
    exact parent_add_of_not_mem (fun hc => hmem.1 (List.mem_singleton.mp hc)) hn _
  case location_new =>
    intro i d hi
    cases i with
    | zero =>
        rw [← Option.some.inj hi, fresh_zero, added.location_old _ (has_add_nextId t _ _),
          location_add_nextId]
    | succ i =>
        have hd : t.Has d := hhas d (List.mem_of_getElem? hi)
        rw [← fresh_add, added.location_new i d hi, location_add_ne t (hd.ne_fresh 0)]
  case location_old =>
    intro n hn
    rw [added.location_old n (hn.add _ _), location_add_ne t (hn.ne_fresh 0)]
  case size_eq =>
    rw [added.size_eq, size_add, List.length_cons]
    omega
  case root_eq =>
    rw [added.root_eq, root_add]

theorem effectsAdded {es : List NodeId} (hnd : es.Nodup) (hhas : ∀ e ∈ es, t.Has e) :
    EffectsAdded t es (t.addEffectStatements es).1 := by
  induction es generalizing t with
  | nil => exact EffectsAdded.nil t
  | cons e es ih =>
      rw [List.nodup_cons] at hnd
      have hrest : ∀ d ∈ es, t.Has d := fun d hd => hhas d (List.mem_cons_of_mem e hd)
      exact EffectsAdded.cons (hhas e List.mem_cons_self) hnd.1 hrest
        (ih hnd.2 fun d hd => (hrest d hd).add _ _)

/-! ## The statements in their sequence -/

/-- The tree with the statements added and the sequence still as it was. -/
structure Staged (c : Cut t id) (u : Tree) : Prop where
  kind_effect : ∀ i e, c.kept[i]? = some e → u.kind (t.fresh i) = .stmt (.expression e)
  kind_last :
    u.kind (t.fresh c.kept.length) = .stmt (.raise (some c.exceptionType) c.value none)
  kind_raise : u.kind c.raise = .expr (.raise c.exceptionType c.value c.kept)
  kind_other : ∀ n, t.Has n → n ≠ c.raise → u.kind n = t.kind n
  parent_effect : ∀ i e, c.kept[i]? = some e → u.parent e = some (t.fresh i)
  parent_shown : ∀ n ∈ c.exceptionType :: c.value.toList,
    u.parent n = some (t.fresh c.kept.length)
  parent_other : ∀ n, t.Has n → n ∉ c.kept → n ∉ c.exceptionType :: c.value.toList →
    u.parent n = t.parent n
  location_effect : ∀ i e, c.kept[i]? = some e → u.location (t.fresh i) = t.location e
  location_last : u.location (t.fresh c.kept.length) = t.location c.raise
  location_old : ∀ n, t.Has n → u.location n = t.location n
  size_eq : u.size = t.size + c.kept.length + 1
  root_eq : u.root = t.root

theorem Gathered.fresh_eq {c : Cut t id} {u : Tree} (g : Gathered c u) (i : Nat) :
    u.fresh i = t.fresh i := by
  refine NodeId.ext_index ?_
  show u.size + i = t.size + i
  rw [g.size_eq]

theorem Gathered.has {c : Cut t id} {u : Tree} (g : Gathered c u) (hn : t.Has n) :
    u.Has n := by
  rw [Has, g.size_eq]
  exact hn

/-- The raise statement on top of the expression statements. -/
theorem staged_add (h : t.WellFormed) (hid : t.Reachable id) {c : Cut t id} {u v : Tree}
    (g : Gathered c u) (added : EffectsAdded u c.kept v) :
    Staged c (v.add (.stmt (.raise (some c.exceptionType) c.value none))
      (v.location c.raise)) := by
  have hraise : t.Has c.raise := Has.of_expr c.kind_raise
  have hnext : v.nextId = t.fresh c.kept.length := by
    rw [← g.fresh_eq]
    exact NodeId.ext_index added.size_eq
  have hold : ∀ {n}, t.Has n → v.Has n := fun hn => by
    rw [Has, added.size_eq, g.size_eq]
    exact Nat.lt_add_right _ hn
  have hstmt : ∀ {i e}, c.kept[i]? = some e → t.fresh i ≠ v.nextId := by
    intro i e hi hn
    rw [hnext] at hn
    have hlt := (List.getElem?_eq_some_iff.mp hi).1
    have hij := fresh_inj hn
    omega
  have hchildren : (NodeKind.stmt (.raise (some c.exceptionType) c.value none)).children =
      c.exceptionType :: c.value.toList := List.append_nil _
  constructor
  case kind_effect =>
    intro i e hi
    rw [kind_add_ne v (hstmt hi), ← g.fresh_eq]
    exact added.kind_new i e hi
  case kind_last =>
    rw [← hnext, kind_add_nextId]
  case kind_raise =>
    rw [kind_add_ne v ((hold hraise).ne_fresh 0), added.kind_old _ (g.has hraise)]
    exact g.kind_raise
  case kind_other =>
    intro n hn hne
    rw [kind_add_ne v ((hold hn).ne_fresh 0), added.kind_old _ (g.has hn)]
    exact g.kind_other n hne
  case parent_effect =>
    intro i e hi
    have he := List.mem_of_getElem? hi
    have hnot : e ∉ c.exceptionType :: c.value.toList := fun hm =>
      (c.held_of_shown h hid hm).2.2.1 he
    rw [parent_add_of_not_mem (hchildren ▸ hnot) (hold (c.has_of_kept h hid he)), ← g.fresh_eq]
    exact added.parent_effect i e hi
  case parent_shown =>
    intro n hn
    rw [← hnext]
    exact parent_add_of_mem (hchildren ▸ hn) (hold (c.has_of_shown h hid hn)) _
  case parent_other =>
    intro n hn hk hs
    have hmoved : n ∉ c.moved := fun hm => hk (List.mem_append_left _ hm)
    rw [parent_add_of_not_mem (hchildren ▸ hs) (hold hn), added.parent_old n (g.has hn) hk]
    exact g.parent_other n hmoved
  case location_effect =>
    intro i e hi
    rw [location_add_ne v (hstmt hi), ← g.fresh_eq, added.location_new i e hi]
    exact g.location_eq e
  case location_last =>
    rw [← hnext, location_add_nextId, added.location_old _ (g.has hraise)]
    exact g.location_eq _
  case location_old =>
    intro n hn
    rw [location_add_ne v ((hold hn).ne_fresh 0), added.location_old _ (g.has hn)]
    exact g.location_eq n
  case size_eq =>
    rw [size_add, added.size_eq, g.size_eq]
  case root_eq =>
    rw [root_add, added.root_eq, g.root_eq]

theorem addRaiseStatements_eq {c : Cut t id} {u : Tree} (g : Gathered c u) :
    u.addRaiseStatements c.raise =
      ((u.addEffectStatements c.kept).1.add
          (.stmt (.raise (some c.exceptionType) c.value none))
          ((u.addEffectStatements c.kept).1.location c.raise),
        (u.addEffectStatements c.kept).2 ++ [(u.addEffectStatements c.kept).1.nextId]) := by
  rw [addRaiseStatements, expr?, g.kind_raise]
  rfl

theorem staged_addRaiseStatements (h : t.WellFormed) (hid : t.Reachable id) (c : Cut t id) :
    ∃ u, Staged c u ∧ (t.prependEffects c.raise c.moved).addRaiseStatements c.raise =
      (u, t.freshIds (c.kept.length + 1)) := by
  have g := gathered_prependEffects h hid c
  generalize t.prependEffects c.raise c.moved = u at g ⊢
  have added := effectsAdded (c.nodup_kept h hid) fun e he => g.has (c.has_of_kept h hid he)
  have hnext : (u.addEffectStatements c.kept).1.nextId = u.fresh c.kept.length :=
    NodeId.ext_index added.size_eq
  have hids : u.freshIds (c.kept.length + 1) = t.freshIds (c.kept.length + 1) :=
    List.map_congr_left fun i _ => g.fresh_eq i
  refine ⟨_, staged_add h hid g added, ?_⟩
  rw [addRaiseStatements_eq g, addEffectStatements_ids, hnext, ← freshIds_succ, hids]

/-- What is left when statements take the place of the one that evaluated the raise. The raise
expression is detached; the last of the new statements raises what it raised. -/
structure Spread (c : Cut t id) (holder : NodeId) (left right : List NodeId) (t' : Tree) :
    Prop where
  kind_holder :
    t'.kind holder = .sequence (left ++ t.freshIds (c.kept.length + 1) ++ right)
  kind_effect : ∀ i e, c.kept[i]? = some e → t'.kind (t.fresh i) = .stmt (.expression e)
  kind_last :
    t'.kind (t.fresh c.kept.length) = .stmt (.raise (some c.exceptionType) c.value none)
  kind_raise : t'.kind c.raise = .expr (.raise c.exceptionType c.value c.kept)
  kind_other : ∀ n, t.Has n → n ≠ holder → n ≠ c.raise → t'.kind n = t.kind n
  parent_fresh : ∀ n ∈ t.freshIds (c.kept.length + 1), t'.parent n = some holder
  parent_effect : ∀ i e, c.kept[i]? = some e → t'.parent e = some (t.fresh i)
  parent_shown : ∀ n ∈ c.exceptionType :: c.value.toList,
    t'.parent n = some (t.fresh c.kept.length)
  parent_other : ∀ n, t.Has n → n ≠ id → n ∉ c.kept →
    n ∉ c.exceptionType :: c.value.toList → t'.parent n = t.parent n
  location_effect : ∀ i e, c.kept[i]? = some e → t'.location (t.fresh i) = t.location e
  location_last : t'.location (t.fresh c.kept.length) = t.location c.raise
  location_old : ∀ n, t.Has n → t'.location n = t.location n
  size_eq : t'.size = t.size + c.kept.length + 1
  root_eq : t'.root = t.root

theorem spread_splice (h : t.WellFormed) (hid : t.Reachable id) {c : Cut t id}
    {holder : NodeId} {left right : List NodeId} (w : Placed t id holder left right) {u : Tree}
    (s : Staged c u) :
    ∃ t', Spread c holder left right t' ∧
      u.splice? id (t.freshIds (c.kept.length + 1)) = some t' := by
  have hhas : t.Has id := Has.of_parent w.parent_eq
  have hholder : t.Has holder := Has.of_child w.mem_children
  have hparent : u.parent id = some holder := by
    rw [s.parent_other id hhas, w.parent_eq]
    · exact fun hm => (c.held_of_kept h hid hm).2.2.1 rfl
    · exact fun hm => (c.held_of_shown h hid hm).2.2.2.1 rfl
  have hkind : u.kind holder = .sequence (left ++ id :: right) := by
    rw [s.kind_other holder hholder (c.holder_ne_raise h hid w.parent_eq), w.kind_eq]
  have hsize : u.Has holder := by
    rw [Has, s.size_eq]
    exact Nat.lt_add_right _ (Nat.lt_add_right _ hholder)
  have hstmt : ∀ i, t.fresh i ≠ holder := fun i => (hholder.ne_fresh i).symm
  refine ⟨_, ?_, splice?_eq hparent hkind w.not_mem_left _⟩
  constructor
  case kind_holder =>
    rw [kind_setParent, kind_setParents, kind_setKind_self hsize]
  case kind_effect =>
    intro i e hi
    rw [kind_setParent, kind_setParents, kind_setKind_ne _ (hstmt i)]
    exact s.kind_effect i e hi
  case kind_last =>
    rw [kind_setParent, kind_setParents, kind_setKind_ne _ (hstmt _)]
    exact s.kind_last
  case kind_raise =>
    rw [kind_setParent, kind_setParents,
      kind_setKind_ne _ (c.holder_ne_raise h hid w.parent_eq).symm]
    exact s.kind_raise
  case kind_other =>
    intro n hn hne hnr
    rw [kind_setParent, kind_setParents, kind_setKind_ne _ hne]
    exact s.kind_other n hn hnr
  case parent_fresh =>
    intro n hn
    have hne : n ≠ id := fun e => not_mem_freshIds hhas (e ▸ hn)
    rw [parent_setParent_ne _ hne]
    refine parent_setParents_of_mem hn ?_ _
    obtain ⟨i, hi, rfl⟩ := mem_freshIds.mp hn
    rw [Has, size_setKind, s.size_eq]
    show t.size + i < _
    omega
  case parent_effect =>
    intro i e hi
    have he := List.mem_of_getElem? hi
    rw [parent_setParent_ne _ (c.held_of_kept h hid he).2.2.1,
      parent_setParents_of_not_mem _ (not_mem_freshIds (c.has_of_kept h hid he)),
      parent_setKind]
    exact s.parent_effect i e hi
  case parent_shown =>
    intro n hn
    rw [parent_setParent_ne _ (c.held_of_shown h hid hn).2.2.2.1,
      parent_setParents_of_not_mem _ (not_mem_freshIds (c.has_of_shown h hid hn)),
      parent_setKind]
    exact s.parent_shown n hn
  case parent_other =>
    intro n hn hne hk hs
    rw [parent_setParent_ne _ hne, parent_setParents_of_not_mem _ (not_mem_freshIds hn),
      parent_setKind]
    exact s.parent_other n hn hk hs
  case location_effect =>
    intro i e hi
    rw [location_setParent, location_setParents, location_setKind]
    exact s.location_effect i e hi
  case location_last =>
    rw [location_setParent, location_setParents, location_setKind]
    exact s.location_last
  case location_old =>
    intro n hn
    rw [location_setParent, location_setParents, location_setKind]
    exact s.location_old n hn
  case size_eq =>
    rw [size_setParent, size_setParents, size_setKind]
    exact s.size_eq
  case root_eq =>
    rw [root_setParent, root_setParents, root_setKind]
    exact s.root_eq

end Tree
end CompilerBackend
