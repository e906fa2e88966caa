import CompilerBackend.Proofs.Raise.Origin
import CompilerBackend.Proofs.Lowering.Renamed
import CompilerBackend.Proofs.Lowering.Inside
/-!
# What is lowered of a rewritten tree

A node that is left by a rewrite asks for no more than the node that it stands for, and it fits
what that one fits. A raise that has come up evaluates only what the node that gave way had to
lower as operands: what has side effects is no constant, so no container has folded it.

- `Tree.PairedRaises`: the parts of all raise statements are lowered.
- `Cut.requests_evaluated`, `Cut.resolved_evaluated`: what a raise evaluates in the end.
- `Carried.requests_subset`, `Carried.resolved`: the whole tree, from the leaves up.
-/

namespace CompilerBackend

open Lowering

/-- A raise statement with a value has a type, one with a traceback has a value. -/
def NodeKind.isPaired : NodeKind → Bool
  | .stmt (.raise exceptionType value traceback) =>
    (!value.isSome || exceptionType.isSome) && (!traceback.isSome || value.isSome)
  | _ => true

@[simp] theorem NodeKind.isPaired_mapChildren (f : NodeId → NodeId) (k : NodeKind) :
    (k.mapChildren f).isPaired = k.isPaired := by
  cases k with
  | stmt st =>
      cases st with
      | raise exceptionType value traceback => simp [mapChildren, Stmt.mapChildren, isPaired]
      | _ => rfl
  | _ => rfl

def Tree.PairedRaises (t : Tree) : Prop := ∀ n, t.Reachable n → (t.kind n).isPaired = true

/-- The uses in which a node lowers its parts as operands. -/
def Use.Evaluates : Use → NodeKind → Prop
  | .operand, .expr _ => True
  | .condition, .expr _ => True
  | .statement, .stmt _ => True
  | _, _ => False

/-! ## Nodes that give way -/

namespace Tree

variable {s : Setting} {t : Tree} {id n d : NodeId} {use : Use} {third : Bool}

theorem constant?_of_effects (h : t.mayHaveSideEffects d = true) : t.constant? d = none := by
  cases hc : t.constant? d with
  | none => rfl
  | some c =>
      rw [mayHaveSideEffects, depthBound, mayHaveSideEffectsFrom, expr?,
        constant?_eq_some_iff.mp hc] at h
      exact Bool.noConfusion h

section

variable {exceptionType value traceback : Option NodeId}

theorem paired_cases
    (hp : (NodeKind.stmt (.raise exceptionType value traceback)).isPaired = true) :
    (exceptionType = none ∧ value = none ∧ traceback = none) ∨
      (∃ type, exceptionType = some type ∧ value = none ∧ traceback = none) ∨
        ∃ type v, exceptionType = some type ∧ value = some v := by
  rw [NodeKind.isPaired] at hp
  cases exceptionType <;> cases value <;> cases traceback <;> simp_all

/-- The parts of a raise statement are lowered, if each has the part before it. -/
theorem statementParts_raise
    (hp : (NodeKind.stmt (.raise exceptionType value traceback)).isPaired = true) :
    s.statementParts n (.raise exceptionType value traceback) =
      operands (Stmt.raise exceptionType value traceback).children := by
  rcases paired_cases hp with ⟨rfl, rfl, rfl⟩ | ⟨_, rfl, rfl, rfl⟩ | ⟨_, _, rfl, rfl⟩ <;> rfl

theorem positions_raise
    (hp : (NodeKind.stmt (.raise exceptionType value traceback)).isPaired = true)
    (inGenerator : Bool) : (Stmt.raise exceptionType value traceback).positions inGenerator =
      (Stmt.raise exceptionType value traceback).children.map (Role.expression, ·) := by
  rcases paired_cases hp with ⟨rfl, rfl, rfl⟩ | ⟨_, rfl, rfl, rfl⟩ | ⟨_, _, rfl, rfl⟩ <;> rfl

end

/-- An operation or a call lowers each child that is no constant. -/
theorem operand_mem_parts_of_expr {e : Expr} (he : s.tree.kind id = .expr e)
    (hy : s.tree.yieldsToRaise id = true) (hd : d ∈ s.tree.children id)
    (hconst : s.tree.constant? d = none) : (Use.operand, d) ∈ s.parts (.operand, id) := by
  rw [Tree.children, he, NodeKind.children] at hd
  rw [yieldsToRaise, he] at hy
  rw [Setting.parts, expr?, he]
  refine List.mem_append_left _ ?_
  cases e with
  | operation operator ids => exact mem_operands_iff.mpr ⟨rfl, hd⟩
  | call callee positional named starList starDict =>
      rw [Expr.children, List.append_assoc, List.mem_append, List.mem_append, List.mem_cons] at hd
      rw [Setting.expressionParts, List.mem_append, List.mem_append, List.mem_cons]
      rcases hd with ((rfl | hd) | hd) | hd
      · exact Or.inl (Or.inl (Or.inl rfl))
      · exact Or.inl (Or.inl (Or.inr (operand_mem_containerParts hd hconst)))
      · exact Or.inl (Or.inr (operand_mem_namedParts hd hconst))
      · exact Or.inr (mem_operands_iff.mpr ⟨rfl, hd⟩)
  | _ => exact Bool.noConfusion hy

/-- A statement that gives way to a raise lowers all of its children. -/
theorem parts_of_stmt {st : Stmt} (hp : s.tree.PairedRaises) (hid : s.tree.Reachable id)
    (hs : s.tree.kind id = .stmt st) (hy : s.tree.yieldsToRaise id = true) :
    s.parts (.statement, id) = operands (s.tree.children id) := by
  rw [Setting.parts, stmt?, Tree.children, hs]
  rw [yieldsToRaise, hs] at hy
  refine (List.append_nil _).trans ?_
  cases st with
  | print destination values newline => rfl
  | expression value => rfl
  | raise exceptionType value traceback =>
      have hpaired := hp id hid
      rw [hs] at hpaired
      exact statementParts_raise hpaired
  | _ => exact Bool.noConfusion hy

/-- All children of a node that gives way to a raise are lowered as expressions. -/
theorem positions_of_yields (hp : t.PairedRaises) (hid : t.Reachable id)
    (hy : t.yieldsToRaise id = true) :
    t.positions id = (t.children id).map (Role.expression, ·) := by
  rw [positions, Tree.children]
  rw [yieldsToRaise] at hy
  split at hy
  next hk => rw [hk]; rfl
  next hk => rw [hk]; rfl
  next hk => rw [hk]; rfl
  next hk => rw [hk]; rfl
  next hk =>
    have hpaired := hp id hid
    rw [hk] at hpaired ⊢
    exact positions_raise hpaired _
  next => exact Bool.noConfusion hy

/-- As a condition it is tested as an operand, unless it is a negation. -/
theorem conditionParts_of_yields (hy : t.yieldsToRaise id = true) :
    Setting.conditionParts id (t.kind id) = [(Use.operand, id)] ∨
      ∃ d, t.kind id = .expr (.operation .not [d]) := by
  unfold Setting.conditionParts
  rw [yieldsToRaise] at hy
  split
  next hk => rw [hk] at hy; exact Bool.noConfusion hy
  next hk => rw [hk] at hy; exact Bool.noConfusion hy
  next hk => rw [hk] at hy; exact Bool.noConfusion hy
  next hk => rw [hk] at hy; exact Bool.noConfusion hy
  next d hk => exact Or.inr ⟨d, hk⟩
  next => exact Or.inl rfl

namespace Cut

variable {c : Cut t id}

theorem mem_evaluated_iff : d ∈ c.evaluated ↔ d ∈ c.moved ∨ d ∈ t.children c.raise := by
  rw [evaluated, kept, List.append_assoc, ← c.children_raise, List.mem_append]

end Cut

section

variable (c : Cut s.tree id)

/-- What a raise expression evaluates is lowered for it. -/
theorem Cut.operand_mem_parts_raise (hd : d ∈ s.tree.children c.raise) :
    (Use.operand, d) ∈ s.parts (.operand, c.raise) := by
  rw [Tree.children, c.kind_raise] at hd
  rw [Setting.parts, expr?, c.kind_raise]
  exact List.mem_append_left _ (mem_operands_iff.mpr ⟨rfl, hd⟩)

/-- The node asks for all that the raise asks for in the end, since it lowers the raise and what
moves into it. -/
theorem Cut.requests_of_operands {u : Usage}
    (h : ∀ d ∈ s.tree.children id, s.tree.constant? d = none → (Use.operand, d) ∈ s.parts u)
    (hd : d ∈ c.evaluated) : s.Requests (.operand, d) ⊆ s.Requests u := by
  rcases c.mem_evaluated_iff.mp hd with hd | hd
  · have heffects := (List.mem_filter.mp hd).2
    exact Setting.requests_of_mem_parts
      (h d (Cut.mem_children_of_moved hd) (constant?_of_effects heffects))
  · exact (Setting.requests_of_mem_parts (c.operand_mem_parts_raise hd)).trans
      (Setting.requests_of_mem_parts (h _ c.raise_mem c.constant?_raise))

theorem Cut.requests_evaluated (hp : s.tree.PairedRaises) (hid : s.tree.Reachable id)
    (hy : s.tree.yieldsToRaise id = true) (huse : use.Evaluates (s.tree.kind id))
    (hd : d ∈ c.evaluated) : s.Requests (.operand, d) ⊆ s.Requests (use, id) := by
  rcases isExpr_or_isStmt_of_yields hy with ⟨e, he⟩ | ⟨st, hs⟩
  · have hoperand : s.Requests (.operand, d) ⊆ s.Requests (.operand, id) :=
      c.requests_of_operands (fun _ hm hconst => operand_mem_parts_of_expr he hy hm hconst) hd
    rw [he] at huse
    cases use with
    | operand => exact hoperand
    | condition =>
        rcases conditionParts_of_yields hy with hparts | ⟨x, hx⟩
        · refine hoperand.trans (Setting.requests_of_mem_parts ?_)
          rw [Setting.parts, hparts]
          exact List.mem_singleton_self _
        · -- the raise is the only operand of a negation, and nothing moves into it
          have hchildren := c.children_eq
          rw [Tree.children, hx] at hchildren
          obtain ⟨hbefore, hraise, -⟩ : c.before = [] ∧ x = c.raise ∧ c.after = [] := by
            cases hb : c.before with
            | nil =>
                rw [hb] at hchildren
                obtain ⟨hr, ha⟩ := List.cons.inj hchildren
                exact ⟨rfl, hr, ha.symm⟩
            | cons b rest =>
                rw [hb] at hchildren
                have hlength := congrArg List.length hchildren
                simp [NodeKind.children, Expr.children] at hlength
          have hmoved : d ∈ s.tree.children c.raise := by
            refine (c.mem_evaluated_iff.mp hd).resolve_left fun hm => ?_
            rw [Cut.moved, hbefore] at hm
            exact absurd hm List.not_mem_nil
          have hcondition : (Use.condition, c.raise) ∈ s.parts (.condition, id) := by
            rw [Setting.parts, hx, ← hraise]
            exact List.mem_singleton_self _
          have htested : (Use.operand, c.raise) ∈ s.parts (.condition, c.raise) := by
            rw [Setting.parts, c.kind_raise]
            exact List.mem_singleton_self _
          exact (Setting.requests_of_mem_parts (c.operand_mem_parts_raise hmoved)).trans
            ((Setting.requests_of_mem_parts htested).trans
              (Setting.requests_of_mem_parts hcondition))
    | _ => exact huse.elim
  · rw [hs] at huse
    cases use with
    | statement =>
        refine c.requests_of_operands (fun m hm _ => ?_) hd
        rw [parts_of_stmt hp hid hs hy]
        exact mem_operands_iff.mpr ⟨rfl, hm⟩
    | _ => exact huse.elim

end

theorem Cut.resolved_evaluated (c : Cut t id) (hp : t.PairedRaises) (hid : t.Reachable id)
    (hy : t.yieldsToRaise id = true) {role : Role} (h : t.Resolved third (role, id))
    (hd : d ∈ c.evaluated) : t.Resolved third (.expression, d) := by
  have hchild : ∀ m ∈ t.children id, t.Resolved third (.expression, m) := fun m hm => by
    refine (resolved_iff.mp h).2 _ ?_
    rw [positions_of_yields hp hid hy]
    exact List.mem_map_of_mem hm
  rcases c.mem_evaluated_iff.mp hd with hd | hd
  · exact hchild d (Cut.mem_children_of_moved hd)
  · refine (resolved_iff.mp (hchild _ c.raise_mem)).2 _ ?_
    rw [Tree.children, c.kind_raise] at hd
    rw [positions, c.kind_raise]
    exact List.mem_map_of_mem hd

/-! ## The whole tree -/

theorem Piece.isPaired {k k' : NodeKind} (h : Piece k k') : k'.isPaired = true := by
  cases h with
  | raised st exceptionType value => cases value <;> rfl
  | _ => rfl

theorem Piece.asks_eq_nil {k : NodeKind} (h : Piece k (s.tree.kind n)) (use : Use) :
    s.asks (use, n) = [] := by
  generalize hk : s.tree.kind n = k' at h
  cases h <;> cases use <;> simp only [Setting.asks, expr?, stmt?, hk] <;> rfl

/-- A piece goes on to its children as operands, where the node that gave way did. -/
theorem Piece.mem_parts {k : NodeKind} (h : Piece k (s.tree.kind n)) {v : Usage}
    (hv : v ∈ s.parts (use, n)) :
    (use.Evaluates k ∧ v ∈ operands (s.tree.children n)) ∨
      (use = .condition ∧ v = (Use.operand, n)) := by
  have hraise : ∀ exceptionType value,
      s.statementParts n (.raise (some exceptionType) value none) =
        operands (exceptionType :: value.toList) := by
    intro exceptionType value
    cases value <;> rfl
  have heffect : ∀ value, s.statementParts n (.expression value) = operands [value] := fun _ => rfl
  rw [Tree.children]
  generalize hk : s.tree.kind n = k' at h
  cases h <;> cases use <;>
    simp_all [Setting.parts, expr?, NodeKind.expr?, stmt?, NodeKind.stmt?, handler?,
      NodeKind.handler?, sequence?, NodeKind.sequence?, Setting.conditionParts,
      Setting.definitionParts, Setting.expressionParts, Use.Evaluates, NodeKind.children,
      Stmt.children]

/-- The uses of a piece that ask for anything, and what it goes on to in them. -/
theorem Piece.requests {k : NodeKind} (h : Piece k (s.tree.kind n)) {r : Request}
    (hr : r ∈ s.Requests (use, n)) :
    use.Evaluates k ∧ ∃ d ∈ s.tree.children n, r ∈ s.Requests (.operand, d) := by
  have hdirect : ∀ {use : Use}, use ≠ .condition → r ∈ s.Requests (use, n) →
      use.Evaluates k ∧ ∃ d ∈ s.tree.children n, r ∈ s.Requests (.operand, d) := by
    intro use hne hr
    rw [Setting.mem_requests_iff, h.asks_eq_nil] at hr
    obtain ⟨v, hv, hr⟩ := hr.resolve_left List.not_mem_nil
    obtain ⟨huse, hv⟩ := (h.mem_parts hv).resolve_right fun hcondition => hne hcondition.1
    obtain ⟨d, hd, rfl⟩ := List.mem_map.mp hv
    exact ⟨huse, d, hd, hr⟩
  by_cases hcondition : use = .condition
  · subst hcondition
    rw [Setting.mem_requests_iff, h.asks_eq_nil] at hr
    obtain ⟨v, hv, hr⟩ := hr.resolve_left List.not_mem_nil
    rcases h.mem_parts hv with ⟨huse, hv⟩ | ⟨-, rfl⟩
    · obtain ⟨d, hd, rfl⟩ := List.mem_map.mp hv
      exact ⟨huse, d, hd, hr⟩
    · -- it is tested as an operand
      obtain ⟨huse, hchild⟩ := hdirect Use.noConfusion hr
      refine ⟨?_, hchild⟩
      cases k with
      | expr e => trivial
      | _ => exact huse.elim
  · exact hdirect hcondition hr

/-- A sequence asks for nothing itself. -/
theorem asks_of_sequence {statements : List NodeId} (hk : s.tree.kind n = .sequence statements)
    (use : Use) : s.asks (use, n) = [] := by
  cases use <;> simp only [Setting.asks, expr?, stmt?, hk] <;> rfl

/-- A sequence goes on to its statements. -/
theorem mem_parts_of_sequence {statements : List NodeId}
    (hk : s.tree.kind n = .sequence statements) {v : Usage} : v ∈ s.parts (use, n) ↔
      (use = .lines ∧ ∃ d ∈ statements, v = (Use.statement, d)) ∨
        (use = .condition ∧ v = (Use.operand, n)) := by
  cases use <;> simp [Setting.parts, expr?, NodeKind.expr?, stmt?, NodeKind.stmt?, handler?,
    NodeKind.handler?, sequence?, NodeKind.sequence?, Setting.conditionParts,
    Setting.definitionParts, hk, eq_comm]

theorem requests_operand_of_sequence {statements : List NodeId}
    (hk : s.tree.kind n = .sequence statements) : s.Requests (.operand, n) = ∅ := by
  refine Set.eq_empty_iff_forall_notMem.mpr fun r hr => ?_
  rw [Setting.mem_requests_iff, asks_of_sequence hk] at hr
  obtain ⟨v, hv, -⟩ := hr.resolve_left List.not_mem_nil
  simp [mem_parts_of_sequence hk] at hv

namespace Carried

variable {t' : Tree} {source : NodeId → NodeId}

/-- A node that has stayed is alike, but for its slots. -/
theorem alike {f : NodeId → NodeId} (r : Carried t t' source) (hn : t'.Reachable n)
    (hsource : source n = n) (self : f n = n) (hkind : t'.kind n = (t.kind n).mapChildren f)
    (hchild : ∀ d ∈ t.children n, source (f d) = d ∧ t'.constant? (f d) = t.constant? d) :
    Alike t t' f n where
  self := self
  kind := hkind
  constant d hd := (hchild d hd).2
  enclosing := by rw [r.enclosing_eq hn, hsource]

/-- A node that has stayed asks for no more than it did, if its children do not. A condition that
is tested as an operand is the case where it goes on to itself. -/
theorem requests_of_stayed {f : NodeId → NodeId} (a : Alike s.tree t' f n)
    (hchild : ∀ d ∈ s.tree.children n, ∀ use,
      Setting.Requests { s with tree := t' } (use, f d) ⊆ s.Requests (use, d)) :
    Setting.Requests { s with tree := t' } (use, n) ⊆ s.Requests (use, n) := by
  have hstep : ∀ use, (use = .condition →
      Setting.Requests { s with tree := t' } (.operand, n) ⊆ s.Requests (.operand, n)) →
      Setting.Requests { s with tree := t' } (use, n) ⊆ s.Requests (use, n) := by
    intro use hself r hr
    rw [Setting.mem_requests_iff, a.asks_eq, a.parts_eq] at hr
    refine Setting.mem_requests_iff.mpr (hr.imp_right ?_)
    rintro ⟨v, hv, hr⟩
    obtain ⟨⟨use', d⟩, hd, rfl⟩ := List.mem_map.mp hv
    refine ⟨(use', d), hd, ?_⟩
    rcases Setting.parts_inside hd with hinside | ⟨hcondition, heq⟩
    · exact hchild d hinside use' hr
    · cases heq
      rw [renamed, a.self] at hr
      exact hself hcondition hr
  exact hstep use fun _ => hstep .operand Use.noConfusion

/-- What is left asks for no more than what it stands for. -/
theorem requests_subset (r : Carried s.tree t' source) (hp : s.tree.PairedRaises)
    (hn : t'.Reachable n) (use : Use) :
    Setting.Requests { s with tree := t' } (use, n) ⊆ s.Requests (use, source n) := by
  obtain ⟨root, hroot, hreach⟩ := hn
  refine (r.wellFormed_new root hroot).2.bottomUp (P := fun n => ∀ use,
    Setting.Requests { s with tree := t' } (use, n) ⊆ s.Requests (use, source n)) ?_ hreach use
  intro n hn ih use
  have hn' : t'.Reachable n := ⟨root, hroot, hn⟩
  have hchild : ∀ d ∈ t'.children n, ∀ use,
      Setting.Requests { s with tree := t' } (use, d) ⊆ s.Requests (use, source d) :=
    fun d hd => ih d ((Reaches.refl t' n).child hd) (r.wellFormed_new.child_ne hn' hd)
  cases r.fate hn' with
  | stayed hsource self hkind hslots =>
      rw [hsource]
      refine requests_of_stayed (r.alike hn' hsource self hkind hslots) fun d hd use => ?_
      obtain ⟨hslot, -⟩ := hslots d hd
      refine (hchild _ ?_ use).trans (by rw [hslot])
      rw [children, hkind, NodeKind.children_mapChildren]
      exact List.mem_map_of_mem hd
  | sequence hsource hold hnew hstatement =>
      rw [hsource]
      intro q hq
      rw [Setting.mem_requests_iff, asks_of_sequence hnew] at hq
      obtain ⟨v, hv, hq⟩ := hq.resolve_left List.not_mem_nil
      rcases (mem_parts_of_sequence hnew).mp hv with ⟨rfl, d, hd, rfl⟩ | ⟨-, rfl⟩
      · have hpart : (Use.statement, source d) ∈ s.parts (.lines, n) :=
          (mem_parts_of_sequence hold).mpr (Or.inl ⟨rfl, source d, hstatement d hd, rfl⟩)
        refine Setting.requests_of_mem_parts hpart (hchild d ?_ .statement hq)
        rw [children, hnew]
        exact hd
      · rw [requests_operand_of_sequence hnew] at hq
        exact hq.elim
  | piece hsource hid c hy hkinds hoperand =>
      rw [hsource]
      intro q hq
      obtain ⟨huse, d, hd, hq⟩ :=
        Piece.requests (s := { s with tree := t' }) hkinds hq
      obtain ⟨hself, hmem⟩ := hoperand d hd
      have hrequests := hchild d hd .operand hq
      rw [hself] at hrequests
      exact c.requests_evaluated hp hid hy huse hmem hrequests

/-! ## What fits -/

/-- A piece fits where the node that gave way did, and its children are lowered as expressions. -/
theorem fits_of_piece {id : NodeId} {role : Role} (hy : t.yieldsToRaise id = true)
    (hkinds : Piece (t.kind id) (t'.kind n)) (hfits : (t.kind id).fits third role = true) :
    (t'.kind n).fits third role = true ∧
      t'.positions n = (t'.children n).map (Role.expression, ·) := by
  rw [positions, Tree.children]
  rw [yieldsToRaise] at hy
  generalize hk : t.kind id = k at hkinds hfits hy
  generalize hk' : t'.kind n = k' at hkinds
  cases hkinds with
  | lifted e exceptionType value effects =>
      refine ⟨?_, rfl⟩
      cases role with
      | expression => rfl
      | sequence | statement | handler => exact Bool.noConfusion hfits
      | target | function _ | classBody =>
          cases e <;> first | exact Bool.noConfusion hy | exact Bool.noConfusion hfits
  | effect st value =>
      refine ⟨?_, rfl⟩
      cases role <;> first | rfl | exact Bool.noConfusion hfits
  | raised st exceptionType value =>
      constructor
      · cases role <;> first | rfl | exact Bool.noConfusion hfits
      · cases value <;> rfl

/-- What stands for a node that is resolved is resolved. -/
theorem resolved (r : Carried t t' source) (hp : t.PairedRaises) (hn : t'.Reachable n)
    {role : Role} (h : t.Resolved third (role, source n)) : t'.Resolved third (role, n) := by
  obtain ⟨root, hroot, hreach⟩ := hn
  refine (r.wellFormed_new root hroot).2.bottomUp (P := fun n => ∀ role,
    t.Resolved third (role, source n) → t'.Resolved third (role, n)) ?_ hreach role h
  intro n hn ih role h
  have hn' : t'.Reachable n := ⟨root, hroot, hn⟩
  have hchild : ∀ d ∈ t'.children n, ∀ role,
      t.Resolved third (role, source d) → t'.Resolved third (role, d) :=
    fun d hd => ih d ((Reaches.refl t' n).child hd) (r.wellFormed_new.child_ne hn' hd)
  obtain ⟨hfits, hbelow⟩ := resolved_iff.mp h
  refine resolved_iff.mpr ?_
  cases r.fate hn' with
  | stayed hsource self hkind hslots =>
      rw [hsource] at hfits hbelow
      refine ⟨?_, fun q hq => ?_⟩
      · rw [hkind, NodeKind.fits_mapChildren]
        exact hfits
      · have hq' := positions_inside hq
        rw [(r.alike hn' hsource self hkind hslots).positions_eq] at hq
        obtain ⟨p, hp, rfl⟩ := List.mem_map.mp hq
        refine hchild _ hq' p.1 ?_
        rw [renamed, (hslots _ (positions_inside hp)).1]
        exact hbelow p hp
  | sequence hsource hold hnew hstatement =>
      rw [hsource] at hfits hbelow
      rw [hold] at hfits
      rw [positions, hold] at hbelow
      refine ⟨?_, fun q hq => ?_⟩
      · rw [hnew]
        cases role <;> first | rfl | exact hfits
      · have hq' := positions_inside hq
        rw [positions, hnew] at hq
        obtain ⟨d, hd, rfl⟩ := List.mem_map.mp hq
        exact hchild d hq' .statement (hbelow _ (List.mem_map_of_mem (hstatement d hd)))
  | piece hsource hid c hy hkinds hoperand =>
      rw [hsource] at hfits h
      obtain ⟨hfits', hpositions⟩ := fits_of_piece hy hkinds hfits
      refine ⟨hfits', fun q hq => ?_⟩
      rw [hpositions] at hq
      obtain ⟨d, hd, rfl⟩ := List.mem_map.mp hq
      obtain ⟨hself, hmem⟩ := hoperand d hd
      refine hchild d hd .expression ?_
      rw [hself]
      exact c.resolved_evaluated hp hid hy h hmem

theorem pairedRaises (r : Carried t t' source) (hp : t.PairedRaises) : t'.PairedRaises := by
  intro n hn
  cases r.fate hn with
  | stayed hsource self hkind hslots =>
      have hpaired := hp _ (r.reachable_source hn)
      rwa [hkind, NodeKind.isPaired_mapChildren, ← hsource]
  | sequence hsource hold hnew hstatement =>
      rw [hnew]
      rfl
  | piece hsource hid c hy hkinds hoperand =>
      exact hkinds.isPaired

end Carried
end Tree
end CompilerBackend
