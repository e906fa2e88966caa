import CompilerBackend.Proofs.Tree.Lookup
import CompilerBackend.Tree.Property
/-!
# How statements complete

A run of a statement or a sequence completes in one of five ways. Which of them a node allows
follows from its blocks, where the outcome of a condition, the number of rounds of a loop, the
exceptions of expressions and the handler that an exception finds are left open.

- `Completes`: the completions of a node.
- `not_completes_normal`: behind an abortative statement control never goes on.
-/

namespace CompilerBackend

/-- The way in which a run of a statement ends. -/
inductive Completion where
  /-- Control goes on behind the statement. -/
  | normal
  | returns
  | raises
  | breaks
  | continues
  deriving DecidableEq, Inhabited

/-- How a statement can end apart from what its blocks do. Any expression of it may raise. -/
def Stmt.endings : Stmt → List Completion
  | .returnValue _ => [.returns, .raises]
  | .raise _ _ _ => [.raises]
  | .breakLoop _ => [.breaks]
  | .continueLoop _ => [.continues]
  -- a choice ends by itself only if its condition raises
  | .conditional _ _ _ => [.raises]
  -- the rounds of a loop may run out, even before the first one
  | .loop _ _ => [.normal]
  | .declareGlobal _ => [.normal]
  | .block _ | .execInline _ | .tryFinally _ _ | .tryExcept _ _ _ => []
  | .assign _ _ | .assignAttribute _ _ _ | .assignSubscript _ _ _ | .assignSlice _ _ _ _
  | .delete _ | .deleteAttribute _ _ | .deleteSubscript _ _ | .deleteSlice _ _ _ | .expression _
  | .print _ _ _ | .importStar _ | .exec _ _ _ | .unpackCheck _ _ => [.normal, .raises]

namespace Tree

/-- The completions of the node in a slot; an empty slot is nothing to run. -/
inductive Completes (t : Tree) : Option NodeId → Completion → Prop
  | nothing : Completes t none .normal
  | ending {id : NodeId} {s : Stmt} {c : Completion} (hs : t.stmt? id = some s)
      (hc : c ∈ s.endings) : Completes t (some id) c
  | sequence {id : NodeId} {ids : List NodeId} (hs : t.sequence? id = some ids)
      (hall : ∀ i ∈ ids, Completes t (some i) .normal) : Completes t (some id) .normal
  | sequenceLeft {id i : NodeId} {before after : List NodeId} {c : Completion}
      (hs : t.sequence? id = some (before ++ i :: after))
      (hbefore : ∀ b ∈ before, Completes t (some b) .normal) (hi : Completes t (some i) c)
      (hc : c ≠ .normal) : Completes t (some id) c
  | block {id body : NodeId} {c : Completion} (hs : t.stmt? id = some (.block body))
      (hbody : Completes t (some body) c) : Completes t (some id) c
  | execInline {id body : NodeId} {c : Completion} (hs : t.stmt? id = some (.execInline body))
      (hbody : Completes t (some body) c) : Completes t (some id) c
  | yes {id condition : NodeId} {yes no : Option NodeId} {c : Completion}
      (hs : t.stmt? id = some (.conditional condition yes no)) (hyes : Completes t yes c) :
      Completes t (some id) c
  | no {id condition : NodeId} {yes no : Option NodeId} {c : Completion}
      (hs : t.stmt? id = some (.conditional condition yes no)) (hno : Completes t no c) :
      Completes t (some id) c
  /-- A loop absorbs breaks and continues of its body, and passes on what else leaves it. -/
  | loopLeft {id : NodeId} {body : Option NodeId} {unwinds : Bool} {c : Completion}
      (hs : t.stmt? id = some (.loop body unwinds)) (hbody : Completes t body c)
      (hc : c = .returns ∨ c = .raises) : Completes t (some id) c
  | finallyKept {id tried final : NodeId} {c : Completion}
      (hs : t.stmt? id = some (.tryFinally tried final)) (htried : Completes t (some tried) c)
      (hfinal : Completes t (some final) .normal) : Completes t (some id) c
  /-- A final block that ends early overrides the way in which the tried block has ended. -/
  | finallyOverridden {id tried final : NodeId} {c d : Completion}
      (hs : t.stmt? id = some (.tryFinally tried final)) (htried : Completes t (some tried) c)
      (hfinal : Completes t (some final) d) (hd : d ≠ .normal) : Completes t (some id) d
  | exceptNotRaised {id tried : NodeId} {handlers : List NodeId} {noRaise : Option NodeId}
      {c : Completion} (hs : t.stmt? id = some (.tryExcept tried handlers noRaise))
      (htried : Completes t (some tried) .normal) (hnoRaise : Completes t noRaise c) :
      Completes t (some id) c
  | exceptLeft {id tried : NodeId} {handlers : List NodeId} {noRaise : Option NodeId}
      {c : Completion} (hs : t.stmt? id = some (.tryExcept tried handlers noRaise))
      (htried : Completes t (some tried) c) (hc : c ≠ .normal) : Completes t (some id) c
  | exceptCaught {id tried handlerNode : NodeId} {handlers : List NodeId}
      {noRaise : Option NodeId} {handler : Handler} {c : Completion}
      (hs : t.stmt? id = some (.tryExcept tried handlers noRaise))
      (htried : Completes t (some tried) .raises) (hmem : handlerNode ∈ handlers)
      (hhandler : t.handler? handlerNode = some handler)
      (hbranch : Completes t handler.branch c) : Completes t (some id) c

variable {t : Tree} {id : NodeId}

/-! ## What the analysis says of a node -/

/-- What the analysis makes of a statement from its answers for the blocks. -/
def abortsBy (below : NodeId → Bool) : Stmt → Bool
  | .returnValue _ | .raise _ _ _ | .breakLoop _ | .continueLoop _ => true
  | .conditional _ yes no => yes.any below && no.any below
  | .tryFinally tried final => below tried || below final
  | .block body => below body
  | _ => false

theorem isAbortativeFrom_of_stmt {s : Stmt} (hs : t.stmt? id = some s) (n : Nat) :
    t.isAbortativeFrom (n + 1) id = abortsBy (t.isAbortativeFrom n) s := by
  rw [isAbortativeFrom, stmt?_eq_some_iff.mp hs]
  cases s <;> rfl

theorem isAbortativeFrom_of_sequence {ids : List NodeId} (hs : t.sequence? id = some ids)
    (n : Nat) : t.isAbortativeFrom (n + 1) id = ids.any (t.isAbortativeFrom n) := by
  rw [isAbortativeFrom, sequence?_eq_some_iff.mp hs]

/-- A statement that can end normally by itself is none of the abortative ones. -/
theorem abortsBy_of_endings {s : Stmt} (h : .normal ∈ s.endings) (below : NodeId → Bool) :
    abortsBy below s = false := by
  cases s <;> simp_all [Stmt.endings, abortsBy]

/-! ## Soundness -/

/-- Looking no level deep, the analysis calls nothing abortative. -/
theorem isAbortativeFrom_eq_false_of_succ
    (h : ∀ n, t.isAbortativeFrom (n + 1) id = false) (n : Nat) : t.isAbortativeFrom n id = false := by
  cases n with
  | zero => rfl
  | succ n => exact h n

/-- No level of the analysis calls a node abortative that can complete normally. The induction is on
the run: each rule that ends normally needs a block that does, or all of them. -/
theorem Completes.isAbortativeFrom_eq_false {slot : Option NodeId} {c : Completion}
    (h : t.Completes slot c) (hc : c = .normal) {id : NodeId} (hid : slot = some id) (n : Nat) :
    t.isAbortativeFrom n id = false := by
  induction h generalizing id n with
  | nothing => exact nomatch hid
  | ending hs hmem =>
      cases hid
      subst hc
      refine isAbortativeFrom_eq_false_of_succ (fun n => ?_) n
      rw [isAbortativeFrom_of_stmt hs, abortsBy_of_endings hmem]
  | sequence hs hall ih =>
      cases hid
      refine isAbortativeFrom_eq_false_of_succ (fun n => ?_) n
      rw [isAbortativeFrom_of_sequence hs, List.any_eq_false]
      intro i hi
      rw [ih i hi rfl rfl n]
      exact Bool.false_ne_true
  | sequenceLeft _ _ _ hne => exact absurd hc hne
  | block hs _ ih =>
      cases hid
      refine isAbortativeFrom_eq_false_of_succ (fun n => ?_) n
      rw [isAbortativeFrom_of_stmt hs]
      exact ih hc rfl n
  | @yes _ _ yes no _ hs _ ih =>
      cases hid
      refine isAbortativeFrom_eq_false_of_succ (fun n => ?_) n
      rw [isAbortativeFrom_of_stmt hs]
      -- an empty branch and one that can complete normally both spoil the conjunction
      cases yes with
      | none => rfl
      | some yes => rw [abortsBy, Option.any_some, ih hc rfl n, Bool.false_and]
  | @no _ _ yes no _ hs _ ih =>
      cases hid
      refine isAbortativeFrom_eq_false_of_succ (fun n => ?_) n
      rw [isAbortativeFrom_of_stmt hs]
      cases no with
      | none => rw [abortsBy, Option.any_none, Bool.and_false]
      | some no => rw [abortsBy, Option.any_some, ih hc rfl n, Bool.and_false]
  | finallyKept hs _ _ ihtried ihfinal =>
      cases hid
      refine isAbortativeFrom_eq_false_of_succ (fun n => ?_) n
      rw [isAbortativeFrom_of_stmt hs, abortsBy, ihtried hc rfl n, ihfinal rfl rfl n,
        Bool.or_false]
  | finallyOverridden _ _ _ hne => exact absurd hc hne
  | loopLeft _ _ hleft =>
      subst hc
      rcases hleft with h | h <;> exact nomatch h
  | exceptLeft _ _ hne => exact absurd hc hne
  -- these are abortative for no blocks at all
  | execInline hs | exceptNotRaised hs | exceptCaught hs =>
      cases hid
      exact isAbortativeFrom_eq_false_of_succ (isAbortativeFrom_of_stmt hs) n

/-- Control never goes on behind an abortative node. -/
theorem not_completes_normal (h : t.isAbortative id = true) :
    ¬ t.Completes (some id) .normal := by
  intro hcompletes
  rw [isAbortative, hcompletes.isAbortativeFrom_eq_false rfl rfl] at h
  exact Bool.false_ne_true h

end Tree
end CompilerBackend
