import CompilerBackend.Proofs.Lowering.Position
import CompilerBackend.Proofs.Lowering.Requests
import CompilerBackend.Proofs.Tree.Enclosing
/-!
# Nodes with renamed slots

What a node asks for, goes on to and asks of the nodes below it is read off its kind, the constants
among its children and the providers around it. Where these agree but for the ids in its slots, the
answers agree but for those ids.

- `Alike`: a node of two trees that agrees in this way.
- `Alike.asks_eq`, `Alike.parts_eq`, `Alike.positions_eq`: the answers.
- `NodeKind.fits_mapChildren`: what a role asks of a node says nothing about its slots.
-/

namespace CompilerBackend

open Lowering

def renamed {κ : Type*} (f : NodeId → NodeId) (u : κ × NodeId) : κ × NodeId := (u.1, f u.2)

@[simp] theorem operands_map (f : NodeId → NodeId) (ids : List NodeId) :
    operands (ids.map f) = (operands ids).map (renamed f) := by
  rw [operands, operands, List.map_map, List.map_map]
  rfl

theorem map_renamed {κ : Type*} (f : NodeId → NodeId) (k : κ) (ids : List NodeId) :
    (ids.map f).map (k, ·) = (ids.map (k, ·)).map (renamed f) := by
  rw [List.map_map, List.map_map]
  rfl

theorem map_fst_mapPairs (f : NodeId → NodeId) (pairs : List (NodeId × NodeId)) :
    (mapPairs f pairs).map (·.1) = (pairs.map (·.1)).map f := by
  rw [mapPairs, List.map_map, List.map_map]
  rfl

theorem map_snd_mapPairs (f : NodeId → NodeId) (pairs : List (NodeId × NodeId)) :
    (mapPairs f pairs).map (·.2) = (pairs.map (·.2)).map f := by
  rw [mapPairs, List.map_map, List.map_map]
  rfl

/-- A node of a tree and of another one agree but for the ids in the slots. -/
structure Alike (t t' : Tree) (f : NodeId → NodeId) (n : NodeId) : Prop where
  self : f n = n
  kind : t'.kind n = (t.kind n).mapChildren f
  constant : ∀ d ∈ t.children n, t'.constant? (f d) = t.constant? d
  enclosing : t'.enclosing n = t.enclosing n

/-! ## Constants among the children -/

namespace Tree

section

variable {t t' : Tree} {f : NodeId → NodeId} {ids : List NodeId} {o : Option NodeId}
  {pairs : List (NodeId × NodeId)} {fold : List Constant → Constant} {build : List Request}

theorem immutableConstants?_map (h : ∀ d ∈ ids, t'.constant? (f d) = t.constant? d) :
    immutableConstants? t' (ids.map f) = immutableConstants? t ids := by
  induction ids with
  | nil => rfl
  | cons d ids ih =>
      rw [List.forall_mem_cons] at h
      rw [List.map_cons, immutableConstants?, immutableConstants?, ih h.2, immutableConstant?,
        immutableConstant?, h.1]

theorem containerAsks_map (h : ∀ d ∈ ids, t'.constant? (f d) = t.constant? d) :
    t'.containerAsks fold build (ids.map f) = t.containerAsks fold build ids := by
  rw [containerAsks, containerAsks, immutableConstants?_map h]

theorem containerParts_map (h : ∀ d ∈ ids, t'.constant? (f d) = t.constant? d) :
    t'.containerParts (ids.map f) = (t.containerParts ids).map (renamed f) := by
  rw [containerParts, containerParts, immutableConstants?_map h, operands_map]
  split <;> rfl

theorem tupleAsks_map (h : ∀ d ∈ ids, t'.constant? (f d) = t.constant? d) :
    t'.tupleAsks (ids.map f) = t.tupleAsks ids := by
  rw [tupleAsks, tupleAsks, containerAsks_map h, List.length_map]

theorem positionalAsks_map (h : ∀ d ∈ ids, t'.constant? (f d) = t.constant? d) :
    t'.positionalAsks (ids.map f) = t.positionalAsks ids := by
  rw [positionalAsks, positionalAsks, tupleAsks_map h, List.isEmpty_map]

theorem foldedDict?_map (h : ∀ d ∈ pairSlots pairs, t'.constant? (f d) = t.constant? d) :
    t'.foldedDict? (mapPairs f pairs) = t.foldedDict? pairs := by
  rw [foldedDict?, foldedDict?, map_fst_mapPairs, map_snd_mapPairs, immutableConstants?_map,
    immutableConstants?_map]
  all_goals
    intro d hd
    obtain ⟨p, hp, rfl⟩ := List.mem_map.mp hd
    refine h _ (List.mem_flatMap.mpr ⟨p, hp, ?_⟩)
    simp

theorem dictAsks_map (h : ∀ d ∈ pairSlots pairs, t'.constant? (f d) = t.constant? d) :
    t'.dictAsks (mapPairs f pairs) = t.dictAsks pairs := by
  rw [dictAsks, dictAsks, foldedDict?_map h, mapPairs, List.length_map]

theorem dictParts_map (h : ∀ d ∈ pairSlots pairs, t'.constant? (f d) = t.constant? d) :
    t'.dictParts (mapPairs f pairs) = (t.dictParts pairs).map (renamed f) := by
  rw [dictParts, dictParts, foldedDict?_map h, map_fst_mapPairs, map_snd_mapPairs,
    ← List.map_append, operands_map]
  split <;> rfl

theorem isEmpty_mapPairs : (mapPairs f pairs).isEmpty = pairs.isEmpty := List.isEmpty_map

theorem namedAsks_map (h : ∀ d ∈ pairSlots pairs, t'.constant? (f d) = t.constant? d) :
    t'.namedAsks (mapPairs f pairs) = t.namedAsks pairs := by
  rw [namedAsks, namedAsks, dictAsks_map h, isEmpty_mapPairs]

theorem namedParts_map (h : ∀ d ∈ pairSlots pairs, t'.constant? (f d) = t.constant? d) :
    t'.namedParts (mapPairs f pairs) = (t.namedParts pairs).map (renamed f) := by
  rw [namedParts, namedParts, dictParts_map h, isEmpty_mapPairs]
  split <;> rfl

theorem isNativeBound_map (h : ∀ d ∈ o.toList, t'.constant? (f d) = t.constant? d) :
    isNativeBound t' (o.map f) = isNativeBound t o := by
  cases o with
  | none => rfl
  | some d =>
      have hd := h d List.mem_cons_self
      rw [isNativeBound, isNativeBound, Option.map_some, Option.all_some, Option.all_some,
        isIndexable, isIndexable, hd]

end

end Tree

/-! ## Providers -/

@[simp] theorem Provider.localsAsks_bare (p : Provider) : p.bare.localsAsks = p.localsAsks := by
  cases p <;> rfl

@[simp] theorem Provider.copyAsks_bare (p : Provider) : p.bare.copyAsks = p.copyAsks := by
  cases p <;> rfl

namespace Alike

variable {s : Setting} {t t' : Tree} {f : NodeId → NodeId} {n : NodeId} {lower upper : Option NodeId}

theorem scopeAsks_eq (a : Alike t t' f n) {g : Provider → List Request}
    (hg : ∀ p, g p.bare = g p) :
    (t'.scope? n).toList.flatMap g = (t.scope? n).toList.flatMap g := by
  have heq := Tree.scope?_congr a.enclosing hg
  have hflat : ∀ o : Option Provider, o.toList.flatMap g = (o.map g).toList.flatten := by
    intro o
    cases o <;> simp
  rw [hflat, hflat, heq]

def generates : Provider → Bool
  | .function f => f.isGenerator
  | _ => false

theorem inGenerator_eq (a : Alike t t' f n) : t'.inGenerator n = t.inGenerator n := by
  have hgenerates : ∀ t : Tree, t.inGenerator n = ((t.scope? n).map generates).getD false := by
    intro t
    rw [Tree.inGenerator, Tree.enclosingFunction?]
    cases t.scope? n with
    | none => rfl
    | some p => cases p <;> rfl
  rw [hgenerates, hgenerates, Tree.scope?_congr a.enclosing]
  intro p
  cases p <;> rfl

/-! ## Expressions -/

theorem boundParts_eq (h : ∀ d ∈ lower.toList ++ upper.toList,
    t'.constant? (f d) = s.tree.constant? d) :
    Setting.boundParts { s with tree := t' } (lower.map f) (upper.map f) =
      (s.boundParts lower upper).map (renamed f) := by
  have hnative : hasNativeBounds { s with tree := t' } (lower.map f) (upper.map f) =
      hasNativeBounds s lower upper := by
    rw [hasNativeBounds, hasNativeBounds,
      Tree.isNativeBound_map fun d hd => h d (List.mem_append_left _ hd),
      Tree.isNativeBound_map fun d hd => h d (List.mem_append_right _ hd)]
  rw [Setting.boundParts, Setting.boundParts, hnative, toList_map, toList_map, ← List.map_append,
    operands_map]
  split <;> rfl

theorem expressionAsks_eq (a : Alike s.tree t' f n) {e : Expr} (he : s.tree.kind n = .expr e) :
    Setting.expressionAsks { s with tree := t' } n (e.mapChildren f) = s.expressionAsks n e := by
  have hconst := a.constant
  rw [Tree.children, he] at hconst
  have hlocals : Setting.localsAsks { s with tree := t' } n = s.localsAsks n :=
    a.scopeAsks_eq Provider.localsAsks_bare
  cases e with
  | makeTuple elements => exact Tree.tupleAsks_map hconst
  | makeList elements =>
      rw [Setting.expressionAsks, Expr.mapChildren, Setting.expressionAsks, List.length_map]
      exact Tree.containerAsks_map hconst
  | makeSet elements => exact Tree.containerAsks_map hconst
  | makeDict pairs => exact Tree.dictAsks_map hconst
  | call callee positional named starList starDict =>
      have hpositional : ∀ d ∈ positional, t'.constant? (f d) = s.tree.constant? d :=
        fun d hd => hconst d (by simp [NodeKind.children, Expr.children, hd])
      have hnamed : ∀ d ∈ pairSlots named, t'.constant? (f d) = s.tree.constant? d :=
        fun d hd => hconst d (by simp [NodeKind.children, Expr.children, hd])
      exact congrArg₂ _ (Tree.positionalAsks_map hpositional) (Tree.namedAsks_map hnamed)
  | attributeOf source name =>
      exact congrArg (fun name => [Request.text name]) (Tree.attributeName_congr a.enclosing name)
  | classBased definition bases =>
      refine Tree.tupleAsks_map fun d hd => hconst d ?_
      simp [NodeKind.children, Expr.children, hd]
  | importModule name names level =>
      rw [Expr.mapChildren, Setting.expressionAsks, Setting.expressionAsks, hlocals]
  | builtinImport name fromList inGlobals inLocals level =>
      rw [Expr.mapChildren, Setting.expressionAsks, Setting.expressionAsks, hlocals,
        Option.isSome_map, Option.isSome_map, Option.isSome_map]
  | locals => exact hlocals
  | dir => exact a.scopeAsks_eq Provider.copyAsks_bare
  | dict positional named =>
      refine Tree.namedAsks_map fun d hd => hconst d ?_
      simp [NodeKind.children, Expr.children, hd]
  | eval mode source inGlobals inLocals =>
      rw [Expr.mapChildren, Setting.expressionAsks, Setting.expressionAsks, evalAsks, evalAsks,
        Option.isSome_map, Option.isSome_map]
  | makeException name arguments =>
      rw [Expr.mapChildren, Setting.expressionAsks, Setting.expressionAsks, List.isEmpty_map,
        List.length_map]
  | _ => rfl

theorem expressionParts_eq (a : Alike s.tree t' f n) {e : Expr} (he : s.tree.kind n = .expr e) :
    Setting.expressionParts { s with tree := t' } (e.mapChildren f) =
      (s.expressionParts e).map (renamed f) := by
  have hconst := a.constant
  rw [Tree.children, he] at hconst
  have hchildren : operands (e.mapChildren f).children = (operands e.children).map (renamed f) := by
    rw [Expr.children_mapChildren, operands_map]
  cases e with
  | conditional condition yes no => rfl
  | makeTuple elements => exact Tree.containerParts_map hconst
  | makeList elements => exact Tree.containerParts_map hconst
  | makeSet elements => exact Tree.containerParts_map hconst
  | makeDict pairs => exact Tree.dictParts_map hconst
  | call callee positional named starList starDict =>
      have hpositional : ∀ d ∈ positional, t'.constant? (f d) = s.tree.constant? d :=
        fun d hd => hconst d (by simp [NodeKind.children, Expr.children, hd])
      have hnamed : ∀ d ∈ pairSlots named, t'.constant? (f d) = s.tree.constant? d :=
        fun d hd => hconst d (by simp [NodeKind.children, Expr.children, hd])
      rw [Expr.mapChildren, Setting.expressionParts, Setting.expressionParts,
        Tree.containerParts_map hpositional, Tree.namedParts_map hnamed, toList_map, toList_map,
        ← List.map_append, operands_map]
      simp [renamed]
  | slice source lower upper =>
      have hbounds : ∀ d ∈ lower.toList ++ upper.toList,
          t'.constant? (f d) = s.tree.constant? d :=
        fun d hd => hconst d (List.mem_cons_of_mem _ hd)
      rw [Expr.mapChildren, Setting.expressionParts, Setting.expressionParts,
        boundParts_eq hbounds]
      rfl
  | function body =>
      rw [Expr.mapChildren, Setting.expressionParts, Setting.expressionParts, toList_map,
        map_renamed]
  | functionDefaulted definition defaults =>
      rw [Expr.mapChildren, Setting.expressionParts, Setting.expressionParts, operands_map]
      simp [renamed]
  | classBody body =>
      rw [Expr.mapChildren, Setting.expressionParts, Setting.expressionParts, toList_map,
        map_renamed]
  | classBased definition bases =>
      have hbases : ∀ d ∈ bases, t'.constant? (f d) = s.tree.constant? d :=
        fun d hd => hconst d (List.mem_append_left _ hd)
      rw [Expr.mapChildren, Setting.expressionParts, Setting.expressionParts,
        Tree.containerParts_map hbases]
      simp [renamed]
  | dict positional named =>
      have hnamed : ∀ d ∈ pairSlots named, t'.constant? (f d) = s.tree.constant? d :=
        fun d hd => hconst d (List.mem_append_right _ hd)
      rw [Expr.mapChildren, Setting.expressionParts, Setting.expressionParts,
        Tree.namedParts_map hnamed, toList_map, operands_map, List.map_append]
  | assignment target source => rfl
  | _ => exact hchildren

/-! ## Conditions, definitions and statements -/

theorem conditionParts_eq (self : f n = n) (k : NodeKind) :
    Setting.conditionParts n (k.mapChildren f) =
      (Setting.conditionParts n k).map (renamed f) := by
  have hdefault : [(Use.operand, n)] = [(Use.operand, n)].map (renamed f) := by
    rw [List.map_singleton, renamed, self]
  cases k with
  | expr e =>
      cases e with
      | constant c => rfl
      | comparison comparator left right => rfl
      | disjunction ids => exact map_renamed f Use.condition ids
      | conjunction ids => exact map_renamed f Use.condition ids
      | operation operator ids =>
          cases operator with
          | not =>
              match ids with
              | [] => exact hdefault
              | [d] => rfl
              | d :: d' :: rest => exact hdefault
          | _ => exact hdefault
      | _ => exact hdefault
  | _ => exact hdefault

theorem definitionAsks_eq (k : NodeKind) :
    Setting.definitionAsks { s with tree := t' } (k.mapChildren f) = s.definitionAsks k := by
  cases k with
  | expr e => cases e <;> rfl
  | _ => rfl

theorem definitionParts_eq (k : NodeKind) :
    Setting.definitionParts (k.mapChildren f) =
      (Setting.definitionParts k).map (renamed f) := by
  have hbody : ∀ o : Option NodeId, (o.map f).toList.map (Use.lines, ·) =
      (o.toList.map (Use.lines, ·)).map (renamed f) := by
    intro o
    rw [toList_map, map_renamed]
  cases k with
  | expr e =>
      cases e with
      | function body => exact hbody body.body
      | classBody body => exact hbody body.body
      | _ => rfl
  | _ => rfl

theorem statementAsks_eq (a : Alike s.tree t' f n) (st : Stmt) :
    Setting.statementAsks { s with tree := t' } n (st.mapChildren f) = s.statementAsks n st := by
  cases st with
  | assignAttribute source name value =>
      exact congrArg (fun name => [Request.text name]) (Tree.attributeName_congr a.enclosing name)
  | deleteAttribute source name =>
      exact congrArg (fun name => [Request.text name]) (Tree.attributeName_congr a.enclosing name)
  | exec source inGlobals inLocals =>
      rw [Stmt.mapChildren, Setting.statementAsks, Setting.statementAsks, evalAsks, evalAsks,
        Option.isSome_map, Option.isSome_map]
  | _ => rfl

theorem statementParts_eq (a : Alike s.tree t' f n) {st : Stmt} (hs : s.tree.kind n = .stmt st) :
    Setting.statementParts { s with tree := t' } n (st.mapChildren f) =
      (s.statementParts n st).map (renamed f) := by
  have hconst := a.constant
  rw [Tree.children, hs] at hconst
  have hchildren : operands (st.mapChildren f).children =
      (operands st.children).map (renamed f) := by
    rw [Stmt.children_mapChildren, operands_map]
  have hgenerator : (t'.enclosingFunction? n).any (·.isGenerator) =
      (s.tree.enclosingFunction? n).any (·.isGenerator) := a.inGenerator_eq
  cases st with
  | assign target source => rfl
  | assignSlice source lower upper value =>
      have hbounds : ∀ d ∈ lower.toList ++ upper.toList,
          t'.constant? (f d) = s.tree.constant? d :=
        fun d hd => hconst d (List.mem_cons_of_mem _ (List.mem_cons_of_mem _ hd))
      rw [Stmt.mapChildren, Setting.statementParts, Setting.statementParts,
        boundParts_eq hbounds]
      rfl
  | delete target => rfl
  | deleteSlice source lower upper =>
      have hbounds : ∀ d ∈ lower.toList ++ upper.toList,
          t'.constant? (f d) = s.tree.constant? d :=
        fun d hd => hconst d (List.mem_cons_of_mem _ hd)
      rw [Stmt.mapChildren, Setting.statementParts, Setting.statementParts,
        boundParts_eq hbounds]
      rfl
  | block body => rfl
  | execInline body => rfl
  | returnValue value =>
      rw [Stmt.mapChildren, Setting.statementParts, Setting.statementParts, hgenerator]
      split <;> rfl
  | loop body unwinds =>
      rw [Stmt.mapChildren, Setting.statementParts, Setting.statementParts, toList_map,
        map_renamed]
  | conditional condition yes no =>
      rw [Stmt.mapChildren, Setting.statementParts, Setting.statementParts, toList_map, toList_map,
        ← List.map_append, map_renamed]
      rfl
  | tryFinally tried final => rfl
  | tryExcept tried handlers noRaise =>
      rw [Stmt.mapChildren, Setting.statementParts, Setting.statementParts, toList_map,
        map_renamed, map_renamed, List.cons_append, List.cons_append, List.map_cons,
        List.map_append]
      rfl
  | raise exceptionType value traceback =>
      cases exceptionType with
      | none => rfl
      | some type =>
          cases value with
          | none => rfl
          | some value =>
              cases traceback <;> rfl
  | _ => exact hchildren

end Alike

/-! ## Roles -/

theorem Expr.positions_mapChildren (f : NodeId → NodeId) (e : Expr) :
    (e.mapChildren f).positions = e.positions.map (renamed f) := by
  have hchildren : (e.mapChildren f).children.map (Role.expression, ·) =
      (e.children.map (Role.expression, ·)).map (renamed f) := by
    rw [Expr.children_mapChildren, map_renamed]
  cases e with
  | function body =>
      simp only [Expr.mapChildren, Expr.positions, toList_map, map_renamed]
  | functionDefaulted definition defaults =>
      rw [Expr.mapChildren, Expr.positions, Expr.positions, List.length_map, map_renamed,
        List.map_append]
      rfl
  | classBody body =>
      simp only [Expr.mapChildren, Expr.positions, toList_map, map_renamed]
  | classBased definition bases =>
      rw [Expr.mapChildren, Expr.positions, Expr.positions, map_renamed, List.map_append]
      rfl
  | assignment target source => rfl
  | _ => exact hchildren

theorem Stmt.positions_mapChildren (f : NodeId → NodeId) (st : Stmt) (inGenerator : Bool) :
    (st.mapChildren f).positions inGenerator = (st.positions inGenerator).map (renamed f) := by
  have hchildren : (st.mapChildren f).children.map (Role.expression, ·) =
      (st.children.map (Role.expression, ·)).map (renamed f) := by
    rw [Stmt.children_mapChildren, map_renamed]
  cases st with
  | assign target source => rfl
  | delete target => rfl
  | block body => rfl
  | execInline body => rfl
  | returnValue value => cases inGenerator <;> rfl
  | loop body unwinds =>
      simp only [Stmt.mapChildren, Stmt.positions, toList_map, map_renamed]
  | conditional condition yes no =>
      simp only [Stmt.mapChildren, Stmt.positions, toList_map, ← List.map_append, map_renamed,
        List.map_cons]
      rfl
  | tryFinally tried final => rfl
  | tryExcept tried handlers noRaise =>
      simp only [Stmt.mapChildren, Stmt.positions, toList_map, map_renamed, List.map_cons,
        List.map_append]
      rfl
  | raise exceptionType value traceback =>
      cases exceptionType <;> cases value <;> cases traceback <;> rfl
  | _ => exact hchildren

/-- What a role asks of a node says nothing about its slots. -/
@[simp] theorem NodeKind.fits_mapChildren (f : NodeId → NodeId) (third : Bool) (role : Role)
    (k : NodeKind) : (k.mapChildren f).fits third role = k.fits third role := by
  have hoperand : ∀ e : Expr, (e.mapChildren f).isOperand third = e.isOperand third := by
    intro e
    cases e with
    | integer kind value base => cases kind <;> rfl
    | _ => rfl
  cases k with
  | expr e =>
      cases role with
      | expression => exact hoperand e
      | _ => cases e <;> rfl
  | _ => cases role <;> rfl

namespace Alike

variable {s : Setting} {t t' : Tree} {f : NodeId → NodeId} {n : NodeId}

/-! ## All uses -/

/-- Two nodes that are alike ask for the same. -/
theorem asks_eq (a : Alike s.tree t' f n) (use : Use) :
    Setting.asks { s with tree := t' } (use, n) = s.asks (use, n) := by
  cases use with
  | operand =>
      rw [Setting.asks, Setting.asks, Tree.expr?, Tree.expr?, a.kind]
      cases hk : s.tree.kind n with
      | expr e => exact congrArg (· ++ []) (a.expressionAsks_eq hk)
      | _ => rfl
  | definition =>
      rw [Setting.asks, Setting.asks, a.kind]
      exact definitionAsks_eq _
  | statement =>
      rw [Setting.asks, Setting.asks, Tree.stmt?, Tree.stmt?, a.kind]
      cases hk : s.tree.kind n with
      | stmt st => exact congrArg (· ++ []) (a.statementAsks_eq st)
      | _ => rfl
  | _ => rfl

/-- Two nodes that are alike go on to the same slots. -/
theorem parts_eq (a : Alike s.tree t' f n) (use : Use) :
    Setting.parts { s with tree := t' } (use, n) = (s.parts (use, n)).map (renamed f) := by
  cases use with
  | operand =>
      rw [Setting.parts, Setting.parts, Tree.expr?, Tree.expr?, a.kind]
      cases hk : s.tree.kind n with
      | expr e =>
          refine (List.append_nil _).trans ((a.expressionParts_eq hk).trans ?_)
          exact congrArg _ (List.append_nil _).symm
      | _ => rfl
  | condition =>
      rw [Setting.parts, Setting.parts, a.kind]
      exact conditionParts_eq a.self _
  | definition =>
      rw [Setting.parts, Setting.parts, a.kind]
      exact definitionParts_eq _
  | statement =>
      rw [Setting.parts, Setting.parts, Tree.stmt?, Tree.stmt?, a.kind]
      cases hk : s.tree.kind n with
      | stmt st =>
          refine (List.append_nil _).trans ((a.statementParts_eq hk).trans ?_)
          exact congrArg _ (List.append_nil _).symm
      | _ => rfl
  | handler =>
      rw [Setting.parts, Setting.parts, Tree.handler?, Tree.handler?, a.kind]
      cases hk : s.tree.kind n with
      | handler h =>
          simp only [NodeKind.mapChildren, NodeKind.handler?, Option.toList_some,
            List.flatMap_singleton, operands_map, toList_map, map_renamed, List.map_append]
      | _ => rfl
  | lines =>
      rw [Setting.parts, Setting.parts, Tree.sequence?, Tree.sequence?, a.kind]
      cases hk : s.tree.kind n with
      | sequence statements => exact map_renamed f Use.statement statements
      | _ => rfl

theorem positions_eq (a : Alike t t' f n) :
    t'.positions n = (t.positions n).map (renamed f) := by
  rw [Tree.positions, Tree.positions, a.kind]
  cases t.kind n with
  | module m =>
      refine (congrArg _ (toList_map f m.body)).trans ?_
      exact map_renamed f Role.sequence m.body.toList
  | sequence statements => exact map_renamed f Role.statement statements
  | handler h =>
      simp only [NodeKind.mapChildren, toList_map, map_renamed, List.map_append]
  | expr e => exact e.positions_mapChildren f
  | stmt st =>
      rw [NodeKind.mapChildren, a.inGenerator_eq]
      exact st.positions_mapChildren f _

end Alike
end CompilerBackend
