import CompilerBackend.Tree.Property
import CompilerBackend.Proofs.Tree.WellFormed
/-!
# What running a node does

A behaviour takes the events that have happened to those that have happened afterwards, and says
how the node has ended. An event is the id of the node that acts. An oracle decides all that the
tree does not show: what an action leads to, which operands a choice evaluates, and what
statements other than the simple ones make of the behaviours of their children.

- `Oracle.meaning`: the behaviour of a node from those of its children.
- `behaviour_eq`, `behaviour_unique`: on a tree these equations hold, and they determine the
  behaviour of every node.
- `behaviour_of_quiet`: a node without side effects does nothing.
- `Oracle.meaning_mapChildren`: what a node does depends on the ids in its slots only where it
  raises, and there only if its children let it.
-/

namespace CompilerBackend

inductive Ending (ε : Type*) where
  | completes
  | raises (exceptionType : NodeId) (value traceback : Option NodeId) (place : Location)
  /-- The exception being handled is raised once more. -/
  | reraises (place : Location)
  /-- The node is left in another way: by an exception out of an action or by a jump. -/
  | leaves (how : ε)

/-- Events and an ending, from the events before. -/
def Behaviour (ε : Type*) : Type _ := List NodeId → List NodeId × Ending ε

namespace Behaviour

variable {ε : Type*} {a b c : Behaviour ε}

def skip : Behaviour ε := fun events => (events, .completes)

/-- Nothing happens but the ending. -/
def stop (e : Ending ε) : Behaviour ε := fun events => (events, e)

def andThen (a b : Behaviour ε) : Behaviour ε := fun events =>
  match a events with
  | (events', .completes) => b events'
  | stopped => stopped

/-- One after the other, up to the first that does not complete. -/
def runAll : List (Behaviour ε) → Behaviour ε
  | [] => skip
  | b :: bs => b.andThen (runAll bs)

def Stops (b : Behaviour ε) : Prop := ∀ events, (b events).2 ≠ .completes

theorem skip_andThen (b : Behaviour ε) : skip.andThen b = b := rfl

theorem andThen_skip (a : Behaviour ε) : a.andThen skip = a := by
  funext events
  rw [andThen]
  split
  · rename_i events' h
    exact h.symm
  · rfl

theorem andThen_assoc (a b c : Behaviour ε) :
    (a.andThen b).andThen c = a.andThen (b.andThen c) := by
  funext events
  simp only [andThen]
  rcases h : a events with ⟨events', e⟩
  cases e <;> rfl

theorem Stops.andThen_eq (h : a.Stops) (b : Behaviour ε) : a.andThen b = a := by
  funext events
  have hne := h events
  rw [andThen]
  split
  · rename_i events' heq
    rw [heq] at hne
    exact absurd rfl hne
  · rfl

theorem Stops.of_andThen (a : Behaviour ε) (h : b.Stops) : (a.andThen b).Stops := by
  intro events
  rw [andThen]
  split
  · exact h _
  · rename_i hne
    intro hc
    exact hne (a events).1 (Prod.ext rfl hc)

theorem stops_stop {e : Ending ε} (h : e ≠ .completes) : (stop e).Stops := fun _ => h

theorem runAll_append (as bs : List (Behaviour ε)) :
    runAll (as ++ bs) = (runAll as).andThen (runAll bs) := by
  induction as with
  | nil => rfl
  | cons a as ih => rw [List.cons_append, runAll, runAll, ih, andThen_assoc]

theorem runAll_singleton (b : Behaviour ε) : runAll [b] = b := andThen_skip b

/-- What stands behind one that stops is never reached. -/
theorem Stops.runAll_cut (h : b.Stops) (as bs : List (Behaviour ε)) :
    runAll (as ++ b :: bs) = (runAll as).andThen b := by
  rw [runAll_append, runAll, h.andThen_eq]

theorem Stops.runAll_of_mem (h : b.Stops) {bs : List (Behaviour ε)} (hb : b ∈ bs) :
    (runAll bs).Stops := by
  obtain ⟨before, after, rfl⟩ := List.append_of_mem hb
  rw [h.runAll_cut]
  exact Stops.of_andThen _ h

/-- Those that do nothing can be left out. -/
theorem runAll_filter {ι : Type*} {f : ι → Behaviour ε} {keep : ι → Bool} {l : List ι}
    (h : ∀ i ∈ l, keep i = false → f i = skip) :
    runAll ((l.filter keep).map f) = runAll (l.map f) := by
  induction l with
  | nil => rfl
  | cons i l ih =>
      have ih := ih fun j hj => h j (List.mem_cons_of_mem i hj)
      cases hi : keep i with
      | true => rw [List.filter_cons_of_pos hi, List.map_cons, List.map_cons, runAll, runAll, ih]
      | false =>
          rw [List.filter_cons_of_neg (by simp [hi]), ih, List.map_cons, runAll,
            h i List.mem_cons_self hi, skip_andThen]

theorem runAll_of_skip {bs : List (Behaviour ε)} (h : ∀ b ∈ bs, b = skip) :
    runAll bs = skip := by
  induction bs with
  | nil => rfl
  | cons b bs ih =>
      rw [runAll, h b List.mem_cons_self, skip_andThen]
      exact ih fun d hd => h d (List.mem_cons_of_mem b hd)

end Behaviour

/-- The node kind without the ids in its slots. -/
def NodeKind.shape (k : NodeKind) : NodeKind := k.mapChildren fun _ => ⟨0⟩

/-- What decides how a tree behaves, apart from the tree. -/
structure Oracle (ε : Type*) where
  /-- How the action of a node ends, after the events before it. -/
  answer : List NodeId → NodeId → Ending ε
  /-- Whether a choice evaluates its operand of a number. -/
  picks : List NodeId → NodeId → Nat → Bool
  /-- What a node of another shape does, from the behaviours of its children. -/
  other : NodeId → NodeKind → List (Behaviour ε) → Behaviour ε

namespace Oracle

variable {ε : Type*} (o : Oracle ε)

def act (id : NodeId) : Behaviour ε := fun events => (events ++ [id], o.answer events id)

/-- The operands that are picked, from number `i` on. -/
def picked (id : NodeId) : Nat → List (Behaviour ε) → Behaviour ε
  | _, [] => .skip
  | i, b :: bs => fun events =>
    if o.picks events id i then b.andThen (picked id (i + 1) bs) events
    else picked id (i + 1) bs events

/-- What an expression does. A function definition does not run the body; a raise ends with the
type and the value that it names, at its own place. -/
def exprMeaning (id : NodeId) (place : Location) (bs : List (Behaviour ε)) :
    Expr → Behaviour ε
  | .function _ => o.act id
  | .raise exceptionType value _ =>
    (Behaviour.runAll bs).andThen (.stop (.raises exceptionType value none place))
  | .disjunction _ | .conjunction _ | .conditional _ _ _ => o.picked id 0 bs
  | e => (Behaviour.runAll bs).andThen (if e.effect = .own then o.act id else .skip)

/-- What a node does, from the behaviours of its children. -/
def meaning (id : NodeId) (place : Location) (bs : List (Behaviour ε)) :
    NodeKind → Behaviour ε
  | .expr e => o.exprMeaning id place bs e
  | .sequence _ => Behaviour.runAll bs
  | .stmt (.expression _) => Behaviour.runAll bs
  | .stmt (.print _ _ _) => (Behaviour.runAll bs).andThen (o.act id)
  | .stmt (.raise (some exceptionType) value traceback) =>
    (Behaviour.runAll bs).andThen (.stop (.raises exceptionType value traceback place))
  | .stmt (.raise none _ _) => (Behaviour.runAll bs).andThen (.stop (.reraises place))
  | k => o.other id k.shape bs

end Oracle

namespace Tree

variable {ε : Type*} (o : Oracle ε) (t : Tree)

def behaviourFrom : Nat → NodeId → Behaviour ε
  | 0, _ => .skip
  | n + 1, id => o.meaning id (t.location id) ((t.children id).map (behaviourFrom n)) (t.kind id)

def behaviour (id : NodeId) : Behaviour ε := t.behaviourFrom o t.depthBound id

variable {o t} {top n : NodeId}

/-! ## The equations of a behaviour -/

theorem behaviourFrom_eq_of_fitsIn {j k : Nat} (h : t.FitsIn k n) (hjk : k ≤ j) :
    t.behaviourFrom o j n = t.behaviourFrom o k n := by
  induction k generalizing j n with
  | zero => exact h.elim
  | succ k ih =>
      obtain ⟨j, rfl⟩ : ∃ i, j = i + 1 := ⟨j - 1, by omega⟩
      have hmap : (t.children n).map (t.behaviourFrom o j) =
          (t.children n).map (t.behaviourFrom o k) :=
        List.map_congr_left fun c hc => ih (h c hc) (by omega)
      rw [behaviourFrom, behaviourFrom, hmap]

/-- On a tree the behaviour of a node is made of those of its children. -/
theorem IsTree.behaviour_eq (h : t.IsTree top) (hn : t.Reaches top n) :
    t.behaviour o n =
      o.meaning n (t.location n) ((t.children n).map (t.behaviour o)) (t.kind n) := by
  have hfits : ∀ c ∈ t.children n, t.FitsIn t.size c := h.fitsIn hn
  have hmap : (t.children n).map (t.behaviourFrom o t.size) =
      (t.children n).map (t.behaviour o) :=
    List.map_congr_left fun c hc =>
      (behaviourFrom_eq_of_fitsIn (hfits c hc) (Nat.le_succ t.size)).symm
  rw [← hmap]
  rfl

/-- Whatever satisfies the equations is the behaviour. -/
theorem IsTree.behaviour_unique (h : t.IsTree top) {f : NodeId → Behaviour ε}
    (eqn : ∀ n, t.Reaches top n →
      o.meaning n (t.location n) ((t.children n).map f) (t.kind n) = f n)
    (hn : t.Reaches top n) : t.behaviour o n = f n := by
  -- from the leaves up: both sides are made of the children in the same way
  refine h.bottomUp (P := fun m => t.behaviour o m = f m) ?_ hn
  intro m hm ih
  have hmap : (t.children m).map (t.behaviour o) = (t.children m).map f := by
    refine List.map_congr_left fun c hc => ih c ((Reaches.refl t m).child hc) ?_
    rintro rfl
    exact h.not_reaches_of_child hm hc (Reaches.refl t c)
  rw [h.behaviour_eq hm, hmap]
  exact eqn m hm

theorem WellFormed.behaviour_eq (h : t.WellFormed) (hn : t.Reachable n) :
    t.behaviour o n =
      o.meaning n (t.location n) ((t.children n).map (t.behaviour o)) (t.kind n) :=
  (h.isTree hn).behaviour_eq (Reaches.refl t n)

theorem WellFormed.behaviour_unique (h : t.WellFormed) {f : NodeId → Behaviour ε}
    (eqn : ∀ n, t.Reachable n →
      o.meaning n (t.location n) ((t.children n).map f) (t.kind n) = f n)
    (hn : t.Reachable n) : t.behaviour o n = f n := by
  obtain ⟨root, hroot, hr⟩ := hn
  exact (h root hroot).2.behaviour_unique (fun m hm => eqn m ⟨root, hroot, hm⟩) hr

end Tree

/-! ## Nodes without side effects -/

theorem Expr.children_of_silent {e : Expr} (h : e.effect = .silent) : e.children = [] := by
  cases e <;> first | rfl | exact Effect.noConfusion h

namespace Oracle

variable {ε : Type*} {o : Oracle ε} {id : NodeId} {place : Location}

theorem picked_of_skip {bs : List (Behaviour ε)} (h : ∀ b ∈ bs, b = .skip) (i : Nat) :
    o.picked id i bs = .skip := by
  induction bs generalizing i with
  | nil => rfl
  | cons b bs ih =>
      have ih := ih (fun d hd => h d (List.mem_cons_of_mem b hd)) (i + 1)
      funext events
      rw [picked, h b List.mem_cons_self, Behaviour.skip_andThen, ih]
      exact ite_self _

/-- An expression that does nothing of its own does nothing if its children do nothing. -/
theorem exprMeaning_of_skip {e : Expr} (he : e.effect ≠ .own) {bs : List (Behaviour ε)}
    (h : ∀ b ∈ bs, b = .skip) : o.exprMeaning id place bs e = .skip := by
  have hall : (Behaviour.runAll bs).andThen (if e.effect = .own then o.act id else .skip) =
      .skip := by
    rw [if_neg he, Behaviour.runAll_of_skip h, Behaviour.skip_andThen]
  cases e with
  | disjunction operands => exact picked_of_skip h 0
  | conjunction operands => exact picked_of_skip h 0
  | conditional condition yes no => exact picked_of_skip h 0
  | function f => exact absurd rfl he
  | raise exceptionType value effects => exact absurd rfl he
  | _ => exact hall

end Oracle

namespace Tree

variable {ε : Type*} {o : Oracle ε} {t : Tree} {n : NodeId}

theorem behaviourFrom_of_quiet {k : Nat} (h : t.mayHaveSideEffectsFrom k n = false) :
    t.behaviourFrom o k n = .skip := by
  induction k generalizing n with
  | zero => rfl
  | succ k ih =>
      rw [mayHaveSideEffectsFrom, expr?] at h
      cases hk : t.kind n with
      | expr e =>
          rw [hk] at h
          have hchildren : t.children n = e.children := by
            rw [children, hk]
            rfl
          rw [behaviourFrom, hk, hchildren]
          cases he : e.effect with
          | own =>
              simp only [NodeKind.expr?, he] at h
              exact Bool.noConfusion h
          | silent =>
              refine Oracle.exprMeaning_of_skip (by rw [he]; exact Effect.noConfusion) ?_
              rw [Expr.children_of_silent he]
              exact fun b hb => absurd hb List.not_mem_nil
          | ofChildren =>
              simp only [NodeKind.expr?, he, List.any_eq_false] at h
              refine Oracle.exprMeaning_of_skip (by rw [he]; exact Effect.noConfusion) ?_
              intro b hb
              obtain ⟨c, hc, rfl⟩ := List.mem_map.mp hb
              exact ih (Bool.eq_false_iff.mpr (h c hc))
      | _ =>
          rw [hk] at h
          exact Bool.noConfusion h

/-- A node that the analysis calls free of side effects does nothing. -/
theorem behaviour_of_quiet (h : t.mayHaveSideEffects n = false) : t.behaviour o n = .skip :=
  behaviourFrom_of_quiet h

end Tree

/-! ## The ids in the slots -/

theorem mapPairs_mapPairs (f g : NodeId → NodeId) (pairs : List (NodeId × NodeId)) :
    mapPairs g (mapPairs f pairs) = mapPairs (g ∘ f) pairs := by
  rw [mapPairs, mapPairs, List.map_map]
  rfl

theorem Stmt.mapChildren_mapChildren (f g : NodeId → NodeId) (s : Stmt) :
    (s.mapChildren f).mapChildren g = s.mapChildren (g ∘ f) := by
  cases s <;> simp [mapChildren]

theorem Expr.mapChildren_mapChildren (f g : NodeId → NodeId) (e : Expr) :
    (e.mapChildren f).mapChildren g = e.mapChildren (g ∘ f) := by
  cases e <;> simp [mapChildren, mapPairs_mapPairs]

theorem NodeKind.shape_mapChildren (f : NodeId → NodeId) (k : NodeKind) :
    (k.mapChildren f).shape = k.shape := by
  cases k <;>
    simp [shape, mapChildren, Stmt.mapChildren_mapChildren, Expr.mapChildren_mapChildren,
      Function.comp_def]

/-- A function definition stays one, with the same data but for its body. -/
theorem NodeKind.function_of_mapChildren {k : NodeKind} {g : NodeId → NodeId}
    {f' : FunctionBody} (h : k.mapChildren g = .expr (.function f')) :
    ∃ f : FunctionBody, k = .expr (.function f) ∧ f' = { f with body := f'.body } := by
  cases k with
  | expr e =>
      cases e with
      | function f =>
          refine ⟨f, rfl, ?_⟩
          rw [← Expr.function.inj (NodeKind.expr.inj h)]
      | _ => exact Expr.noConfusion (NodeKind.expr.inj h)
  | _ => exact NodeKind.noConfusion h

namespace Oracle

variable {ε : Type*} {o : Oracle ε} {id : NodeId} {place : Location}

/-- What a node does depends on the ids in its slots only where it raises: then they tell what is
raised, unless a child stops before. -/
theorem meaning_mapChildren {bs : List (Behaviour ε)} (hs : (Behaviour.runAll bs).Stops)
    (f : NodeId → NodeId) (k : NodeKind) :
    o.meaning id place bs (k.mapChildren f) = o.meaning id place bs k := by
  -- what would follow the children is never asked for, so it may differ
  have stopped : ∀ a b : Behaviour ε,
      (Behaviour.runAll bs).andThen a = (Behaviour.runAll bs).andThen b := fun a b =>
    (hs.andThen_eq a).trans (hs.andThen_eq b).symm
  have hshape := NodeKind.shape_mapChildren f k
  cases k with
  | module m => exact congrArg (fun k => o.other id k bs) hshape
  | handler h => exact congrArg (fun k => o.other id k bs) hshape
  | sequence statements => rfl
  | expr e =>
      cases e with
      | raise exceptionType value effects => exact stopped _ _
      | _ => rfl
  | stmt s =>
      cases s with
      | expression value => rfl
      | print destination values newline => rfl
      | raise exceptionType value traceback =>
          cases exceptionType <;> exact stopped _ _
      | _ => exact congrArg (fun k => o.other id k bs) hshape

end Oracle
end CompilerBackend
