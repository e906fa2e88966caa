import CompilerBackend.Proofs.Lowering.Position
import CompilerBackend.Proofs.Lowering.Requests
/-!
# Where uses go on to

A use of a node goes on to uses of the children of the node, and only a condition can go on to the
same node, to test it as an operand. A child that is no constant keeps the container around it from
folding, so it is lowered.

- `Setting.parts_inside`, `Tree.positions_inside`: what is gone on to.
- `Tree.operand_mem_containerParts`, `Tree.operand_mem_namedParts`: what is not folded.
-/

namespace CompilerBackend

open Lowering

/-! ## Containers -/

theorem mem_operands_iff {v : Usage} {ids : List NodeId} :
    v ∈ operands ids ↔ v.1 = Use.operand ∧ v.2 ∈ ids := by
  obtain ⟨use, n⟩ := v
  simp [operands, eq_comm, and_comm]

namespace Tree

variable {t : Tree} {ids : List NodeId} {pairs : List (NodeId × NodeId)} {v : Usage} {d : NodeId}

theorem mem_of_mem_containerParts (h : v ∈ t.containerParts ids) : v.2 ∈ ids := by
  unfold containerParts at h
  split at h
  · exact nomatch h
  · exact (mem_operands_iff.mp h).2

theorem mem_of_mem_dictParts (h : v ∈ t.dictParts pairs) : v.2 ∈ pairSlots pairs := by
  unfold dictParts at h
  split at h
  · exact nomatch h
  · rcases List.mem_append.mp (mem_operands_iff.mp h).2 with hm | hm <;>
      obtain ⟨p, hp, heq⟩ := List.mem_map.mp hm <;>
        exact List.mem_flatMap.mpr ⟨p, hp, by simp [← heq]⟩

theorem mem_of_mem_namedParts (h : v ∈ t.namedParts pairs) : v.2 ∈ pairSlots pairs := by
  unfold namedParts at h
  split at h
  · exact nomatch h
  · exact mem_of_mem_dictParts h

theorem constant?_of_immutableConstants? {cs : List Constant}
    (h : immutableConstants? t ids = some cs) (hd : d ∈ ids) : t.constant? d ≠ none := by
  induction ids generalizing cs with
  | nil => exact nomatch hd
  | cons e ids ih =>
      obtain ⟨c, hc, h⟩ := Option.bind_eq_some_iff.mp h
      obtain ⟨cs, hcs, -⟩ := Option.bind_eq_some_iff.mp h
      rcases List.mem_cons.mp hd with rfl | hd
      · intro hnone
        rw [immutableConstant?, hnone] at hc
        exact nomatch hc
      · exact ih hcs hd

/-- What is no constant keeps a container from folding. -/
theorem operand_mem_containerParts (hd : d ∈ ids) (hconst : t.constant? d = none) :
    (Use.operand, d) ∈ t.containerParts ids := by
  unfold containerParts
  split
  next cs hcs => exact absurd hconst (constant?_of_immutableConstants? hcs hd)
  next => exact mem_operands_iff.mpr ⟨rfl, hd⟩

theorem operand_mem_namedParts (hd : d ∈ pairSlots pairs) (hconst : t.constant? d = none) :
    (Use.operand, d) ∈ t.namedParts pairs := by
  obtain ⟨p, hp, hdp⟩ := List.mem_flatMap.mp hd
  have hslot : d ∈ pairs.map (·.1) ∨ d ∈ pairs.map (·.2) := by
    rcases List.mem_cons.mp hdp with rfl | hdp
    · exact Or.inl (List.mem_map_of_mem hp)
    · rw [List.mem_singleton.mp hdp]
      exact Or.inr (List.mem_map_of_mem hp)
  have hnone : t.foldedDict? pairs = none := by
    by_contra hfolds
    obtain ⟨c, hc⟩ := Option.ne_none_iff_exists'.mp hfolds
    obtain ⟨ks, hks, hc⟩ := Option.bind_eq_some_iff.mp hc
    obtain ⟨vs, hvs, -⟩ := Option.bind_eq_some_iff.mp hc
    rcases hslot with hk | hv
    · exact constant?_of_immutableConstants? hks hk hconst
    · exact constant?_of_immutableConstants? hvs hv hconst
  have hne : pairs.isEmpty = false := List.isEmpty_eq_false_iff.mpr (List.ne_nil_of_mem hp)
  rw [namedParts, hne, dictParts, hnone]
  exact mem_operands_iff.mpr ⟨rfl, List.mem_append.mpr hslot⟩

end Tree

/-! ## Uses -/

namespace Setting

variable {s : Setting} {lower upper : Option NodeId} {u v : Usage} {use : Use} {n : NodeId}

theorem mem_of_mem_boundParts (h : v ∈ s.boundParts lower upper) :
    v.2 ∈ lower.toList ++ upper.toList := by
  unfold boundParts at h
  split at h
  · exact nomatch h
  · exact (mem_operands_iff.mp h).2

theorem expressionParts_inside {e : Expr} (h : v ∈ s.expressionParts e) : v.2 ∈ e.children := by
  have hlines : ∀ o : Option NodeId, v ∈ o.toList.map (Use.lines, ·) → v.2 ∈ o.toList := by
    intro o hv
    obtain ⟨d, hd, rfl⟩ := List.mem_map.mp hv
    exact hd
  cases e with
  | conditional condition yes no =>
      rcases List.mem_cons.mp h with rfl | h
      · exact List.mem_cons_self
      · exact List.mem_cons_of_mem _ (mem_operands_iff.mp h).2
  | makeTuple elements => exact Tree.mem_of_mem_containerParts h
  | makeList elements => exact Tree.mem_of_mem_containerParts h
  | makeSet elements => exact Tree.mem_of_mem_containerParts h
  | makeDict pairs => exact Tree.mem_of_mem_dictParts h
  | call callee positional named starList starDict =>
      rw [expressionParts, List.mem_append, List.mem_append, List.mem_cons] at h
      rcases h with ((rfl | h) | h) | h
      · simp [Expr.children]
      · simp [Expr.children, Tree.mem_of_mem_containerParts h]
      · simp [Expr.children, Tree.mem_of_mem_namedParts h]
      · rw [Expr.children, List.append_assoc]
        exact List.mem_append_right _ (mem_operands_iff.mp h).2
  | slice source lower upper =>
      rcases List.mem_cons.mp h with rfl | h
      · exact List.mem_cons_self
      · exact List.mem_cons_of_mem _ (mem_of_mem_boundParts h)
  | function body => exact hlines body.body h
  | functionDefaulted definition defaults =>
      rcases List.mem_append.mp h with h | h
      · exact List.mem_append_left _ (mem_operands_iff.mp h).2
      · rw [List.mem_singleton.mp h]
        exact List.mem_append_right _ List.mem_cons_self
  | classBody body => exact hlines body.body h
  | classBased definition bases =>
      rcases List.mem_append.mp h with h | h
      · exact List.mem_append_left _ (Tree.mem_of_mem_containerParts h)
      · rw [List.mem_singleton.mp h]
        exact List.mem_append_right _ List.mem_cons_self
  | dict positional named =>
      rcases List.mem_append.mp h with h | h
      · exact List.mem_append_left _ (mem_operands_iff.mp h).2
      · exact List.mem_append_right _ (Tree.mem_of_mem_namedParts h)
  | assignment target source =>
      rw [List.mem_singleton.mp h]
      exact List.mem_cons_self
  | _ => exact (mem_operands_iff.mp h).2

theorem statementParts_inside {st : Stmt} (h : v ∈ s.statementParts n st) :
    v.2 ∈ st.children := by
  cases st with
  | assign target source =>
      rw [List.mem_singleton.mp h]
      exact List.mem_cons_self
  | assignSlice source lower upper value =>
      rcases List.mem_cons.mp h with rfl | h
      · exact List.mem_cons_self
      · rcases List.mem_cons.mp h with rfl | h
        · exact List.mem_cons_of_mem _ List.mem_cons_self
        · exact List.mem_cons_of_mem _ (List.mem_cons_of_mem _ (mem_of_mem_boundParts h))
  | delete target => exact nomatch h
  | deleteSlice source lower upper =>
      rcases List.mem_cons.mp h with rfl | h
      · exact List.mem_cons_self
      · exact List.mem_cons_of_mem _ (mem_of_mem_boundParts h)
  | returnValue value =>
      rw [statementParts] at h
      split at h
      · exact nomatch h
      · rw [List.mem_singleton.mp h]
        exact List.mem_cons_self
  | raise exceptionType value traceback =>
      cases exceptionType with
      | none => exact nomatch h
      | some type =>
          cases value with
          | none =>
              rw [List.mem_singleton.mp h]
              exact List.mem_cons_self
          | some value => exact (mem_operands_iff.mp h).2
  | block body | execInline body | loop body _ | conditional _ _ _ | tryFinally _ _
  | tryExcept _ _ _ =>
      simp only [statementParts, List.mem_cons, List.mem_append, List.mem_map, List.not_mem_nil,
        or_false] at h
      simp only [Stmt.children, List.mem_cons, List.mem_append, List.not_mem_nil, or_false]
      grind
  | _ => exact (mem_operands_iff.mp h).2

/-- A condition goes on to the children of the node or to the node as an operand. -/
theorem conditionParts_inside {k : NodeKind} (h : v ∈ conditionParts n k) :
    v.2 ∈ k.children ∨ v = (Use.operand, n) := by
  unfold conditionParts at h
  split at h
  · exact nomatch h
  · exact Or.inl (mem_operands_iff.mp h).2
  · obtain ⟨d, hd, rfl⟩ := List.mem_map.mp h
    exact Or.inl hd
  · obtain ⟨d, hd, rfl⟩ := List.mem_map.mp h
    exact Or.inl hd
  · rw [List.mem_singleton.mp h]
    exact Or.inl List.mem_cons_self
  · exact Or.inr (List.mem_singleton.mp h)

/-- A use goes on to children of the node; only a condition can go on to the same node. -/
theorem parts_inside (h : v ∈ s.parts (use, n)) :
    v.2 ∈ s.tree.children n ∨ (use = .condition ∧ v = (Use.operand, n)) := by
  rw [Tree.children]
  cases use with
  | operand =>
      obtain ⟨e, he, hv⟩ := List.mem_flatMap.mp h
      rw [Tree.expr?_eq_some_iff.mp (Option.mem_toList.mp he)]
      exact Or.inl (expressionParts_inside hv)
  | condition => exact (conditionParts_inside h).imp_right fun hv => ⟨rfl, hv⟩
  | definition =>
      left
      change v ∈ definitionParts _ at h
      unfold definitionParts at h
      split at h
      next body hk =>
        obtain ⟨d, hd, rfl⟩ := List.mem_map.mp h
        rw [hk]
        exact hd
      next body hk =>
        obtain ⟨d, hd, rfl⟩ := List.mem_map.mp h
        rw [hk]
        exact hd
      next => cases h
  | statement =>
      obtain ⟨st, hs, hv⟩ := List.mem_flatMap.mp h
      rw [Tree.stmt?_eq_some_iff.mp (Option.mem_toList.mp hs)]
      exact Or.inl (statementParts_inside hv)
  | handler =>
      obtain ⟨handler, hh, hv⟩ := List.mem_flatMap.mp h
      rw [Tree.handler?_eq_some_iff.mp (Option.mem_toList.mp hh)]
      rcases List.mem_append.mp hv with hv | hv
      · exact Or.inl (List.mem_append_left _
          (List.mem_append_left _ (mem_operands_iff.mp hv).2))
      · obtain ⟨d, hd, rfl⟩ := List.mem_map.mp hv
        exact Or.inl (List.mem_append_right _ hd)
  | lines =>
      obtain ⟨d, hd, rfl⟩ := List.mem_map.mp h
      left
      change d ∈ ((s.tree.kind n).sequence?).getD [] at hd
      cases hk : s.tree.kind n with
      | sequence statements =>
          rw [hk] at hd
          exact hd
      | _ =>
          rw [hk] at hd
          cases hd

theorem requests_of_mem_parts (h : v ∈ s.parts u) : s.Requests v ⊆ s.Requests u :=
  fun _ hr => mem_requests_iff.mpr (Or.inr ⟨v, h, hr⟩)

end Setting

/-! ## Roles -/

/-- A position goes on to children of its node. -/
theorem Tree.positions_inside {t : Tree} {n : NodeId} {q : Position} (h : q ∈ t.positions n) :
    q.2 ∈ t.children n := by
  rw [Tree.children]
  unfold Tree.positions at h
  split at h
  next m hk =>
    obtain ⟨d, hd, rfl⟩ := List.mem_map.mp h
    rw [hk]
    exact hd
  next statements hk =>
    obtain ⟨d, hd, rfl⟩ := List.mem_map.mp h
    rw [hk]
    exact hd
  next handler hk =>
    rw [hk]
    simp only [List.mem_append, List.mem_map] at h
    simp only [NodeKind.children, List.mem_append]
    rcases h with (⟨d, hd, rfl⟩ | ⟨d, hd, rfl⟩) | ⟨d, hd, rfl⟩ <;> simp [hd]
  next e hk =>
    rw [hk, NodeKind.children, ← e.map_positions]
    exact List.mem_map_of_mem h
  next st hk =>
    rw [hk, NodeKind.children, ← st.map_positions (t.inGenerator n)]
    exact List.mem_append_left _ (List.mem_map_of_mem h)

end CompilerBackend
