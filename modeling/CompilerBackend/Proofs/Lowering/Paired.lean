import CompilerBackend.Proofs.Lowering.Meets
import CompilerBackend.Proofs.Lowering.Names
import CompilerBackend.Proofs.Lowering.Recorded
import CompilerBackend.Proofs.Target.Traced
/-!
# Lowerings side by side

One judgement relates two lowerings that start from the same program and from stacks of scopes of
the same bodies. Both stop for the same reason, or neither stops; the program stays the same in
both; and what they add to their innermost scopes is told by one list of records, whose nodes are as
a language of logs says. The two lowerings of interest are those of one node with and without a
trace, or one lowering and itself.

- `Paired.pure`, `Paired.bind`, `Paired.fail`: the rules of the monad.
- `Paired.intern`, `Paired.inScope`, `Paired.registersFunction`, …: the rules of its steps.
- `Paired.and_meets`: what is known of one of the lowerings is known of both.
-/

namespace CompilerBackend

open Program Target

inductive Record.Fits (t : Tree) (w : Wording) : Record → Prop
  | function {id : NodeId} {f : FunctionBody} (hkind : t.kind id = .expr (.function f))
      (defaults : Nat) {body' body : List String} (hbody : Twins w body' body) :
      Fits t w ⟨id,
        ⟨functionDeclaration f.codeName defaults f.closureVariables,
          functionText f (t.location id) body'⟩,
        ⟨functionDeclaration f.codeName defaults f.closureVariables,
          functionText f (t.location id) body⟩⟩
  | classBody {id : NodeId} {c : ClassBody} (hkind : t.kind id = .expr (.classBody c))
      {body' body : List String} (hbody : Twins w body' body) :
      Fits t w ⟨id,
        ⟨classDeclaration c.codeName c.closureVariables, classText c (t.location id) body'⟩,
        ⟨classDeclaration c.codeName c.closureVariables, classText c (t.location id) body⟩⟩

inductive Ended (t : Tree) (w : Wording) (f : Frame) (frames : List Frame) {α : Type}
    (logs : List NodeId → Prop) (R : α → α → Prop) :
    Except Stop α × Progress → Except Stop α × Progress → Prop
  | stopped (stop : Stop) {g' g : Progress} (hprogram : g'.program = g.program) :
      Ended t w f frames logs R (.error stop, g') (.error stop, g)
  | finished {a' a : α} {g' g : Progress} {more : List Record} (hresult : R a' a)
      (hprogram : g'.program = g.program) (hwf : g.program.WellFormed)
      (hscopes : Abreast t (f.log more :: frames) g'.scopes g.scopes)
      (hfits : ∀ r ∈ more, r.Fits t w) (hlog : logs (more.map (·.node))) :
      Ended t w f frames logs R (.ok a', g') (.ok a, g)

/-- Two lowerings that have registered nothing. -/
theorem Ended.quiet {t : Tree} {w : Wording} {f : Frame} {frames : List Frame} {α : Type}
    {logs : List NodeId → Prop} {R : α → α → Prop} {a' a : α} {g' g : Progress}
    (hresult : R a' a) (hprogram : g'.program = g.program) (hwf : g.program.WellFormed)
    (hscopes : Abreast t (f :: frames) g'.scopes g.scopes) (hlog : logs []) :
    Ended t w f frames logs R (.ok a', g') (.ok a, g) := by
  rw [← f.log_nil] at hscopes
  exact .finished hresult hprogram hwf hscopes (fun _ hr => nomatch hr) hlog

/-- Two lowerings come to related results, and what they register is in `logs`. -/
def Paired (t : Tree) (w : Wording) {α : Type} (step' step : Lower α) (logs : List NodeId → Prop)
    (R : α → α → Prop) : Prop :=
  ∀ (f : Frame) (frames : List Frame) (g' g : Progress),
    g'.program = g.program → g.program.WellFormed →
    Abreast t (f :: frames) g'.scopes g.scopes →
    Ended t w f frames logs R (step'.run g') (step.run g)

/-- The same result twice, and what is known of it. -/
def Same {α : Type} (Q : α → Prop) (a' a : α) : Prop := a' = a ∧ Q a

namespace Paired

variable {t : Tree} {w : Wording} {α β : Type} {step' step : Lower α} {next' next : α → Lower β}
  {logs logs' : List NodeId → Prop} {l l' m : List NodeId} {R : α → α → Prop} {S : β → β → Prop}
  {Q : α → Prop} {a' a : α}

/-! ## The monad -/

theorem pure (h : R a' a) : Paired t w (Pure.pure a' : Lower α) (Pure.pure a) (t.Defines []) R :=
  fun _ _ _ _ hprogram hwf hscopes => .quiet h hprogram hwf hscopes .nil

theorem same (h : Q a) : Paired t w (Pure.pure a : Lower α) (Pure.pure a) (t.Defines []) (Same Q) :=
  pure ⟨rfl, h⟩

theorem throws (stop : Stop) : Paired t w (throw stop : Lower α) (throw stop) logs R :=
  fun _ _ _ _ hprogram _ _ => .stopped stop hprogram

theorem fail (id : NodeId) (cause : Cause) :
    Paired t w (Lower.fail t id cause : Lower α) (Lower.fail t id cause) logs R := throws _

/-- Nothing comes after a stop. -/
theorem fail_bind (id : NodeId) (cause : Cause) :
    Paired t w (Lower.fail t id cause >>= next') (Lower.fail t id cause >>= next) logs S := throws _

/-- One log is behind the other. -/
theorem seq (hs : Paired t w step' step logs R)
    (hn : ∀ a' a, R a' a → Paired t w (next' a') (next a) logs' S) :
    Paired t w (step' >>= next') (step >>= next)
      (fun log => ∃ a b, logs a ∧ logs' b ∧ log = a ++ b) S := by
  intro f frames g' g hprogram hwf hscopes
  have hfirst := hs _ _ _ _ hprogram hwf hscopes
  rw [Meets.run_bind, Meets.run_bind]
  generalize step'.run g' = e', step.run g = e at hfirst
  cases hfirst with
  | stopped stop hprogram => exact .stopped stop hprogram
  | finished hresult hprogram hwf hscopes hfits hlog =>
      have hsecond := hn _ _ hresult _ _ _ _ hprogram hwf hscopes
      dsimp only
      generalize (next' _).run _ = e', (next _).run _ = e at hsecond
      cases hsecond with
      | stopped stop hprogram => exact .stopped stop hprogram
      | @finished _ _ _ _ more' hresult hprogram hwf hscopes hfits' hlog' =>
          rw [Frame.log_log] at hscopes
          refine .finished hresult hprogram hwf hscopes (fun r hr => ?_) ⟨_, _, hlog, hlog', ?_⟩
          · exact (List.mem_append.mp hr).elim (hfits r) (hfits' r)
          · rw [List.map_append]

theorem seq_same (hs : Paired t w step' step logs (Same Q))
    (hn : ∀ a, Q a → Paired t w (next' a) (next a) logs' S) :
    Paired t w (step' >>= next') (step >>= next)
      (fun log => ∃ a b, logs a ∧ logs' b ∧ log = a ++ b) S :=
  hs.seq fun _ a h => h.1 ▸ hn a h.2

theorem bind_rel (hs : Paired t w step' step (t.Defines l) R)
    (hn : ∀ a' a, R a' a → Paired t w (next' a') (next a) (t.Defines m) S) :
    Paired t w (step' >>= next') (step >>= next) (t.Defines (l ++ m)) S := by
  intro f frames g' g hprogram hwf hscopes
  have hboth := hs.seq hn _ _ _ _ hprogram hwf hscopes
  generalize (step' >>= next').run g' = e', (step >>= next).run g = e at hboth
  cases hboth with
  | stopped stop hprogram => exact .stopped stop hprogram
  | finished hresult hprogram hwf hscopes hfits hlog =>
      obtain ⟨_, _, hl, hm, hlog⟩ := hlog
      exact .finished hresult hprogram hwf hscopes hfits (hlog ▸ hl.append hm)

theorem bind (hs : Paired t w step' step (t.Defines l) (Same Q))
    (hn : ∀ a, Q a → Paired t w (next' a) (next a) (t.Defines m) S) :
    Paired t w (step' >>= next') (step >>= next) (t.Defines (l ++ m)) S :=
  hs.bind_rel fun _ a h => h.1 ▸ hn a h.2

/-! ## Weakening -/

theorem weaken (hs : Paired t w step' step logs R) (hlogs : ∀ log, logs log → logs' log)
    {R' : α → α → Prop} (hR : ∀ a' a, R a' a → R' a' a) : Paired t w step' step logs' R' := by
  intro f frames g' g hprogram hwf hscopes
  have hends := hs _ _ _ _ hprogram hwf hscopes
  generalize step'.run g' = e', step.run g = e at hends
  cases hends with
  | stopped stop hprogram => exact .stopped stop hprogram
  | finished hresult hprogram hwf hscopes hfits hlog =>
      exact .finished (hR _ _ hresult) hprogram hwf hscopes hfits (hlogs _ hlog)

theorem imp (hs : Paired t w step' step logs R) {R' : α → α → Prop}
    (h : ∀ a' a, R a' a → R' a' a) : Paired t w step' step logs R' := hs.weaken (fun _ hlog => hlog) h

theorem perm (hs : Paired t w step' step (t.Defines l) R) (h : l'.Perm l) :
    Paired t w step' step (t.Defines l') R := hs.weaken (fun _ => .perm h) fun _ _ hR => hR

theorem list (hs : Paired t w step' step (t.Defines l) R) (h : l = l') :
    Paired t w step' step (t.Defines l') R := h ▸ hs

/-- A node that defines nothing counts as its slots. -/
theorem fold {id : NodeId} (hs : Paired t w step' step (t.Defines (t.lowered id ++ l)) R)
    (hid : t.isDefinition id = false) : Paired t w step' step (t.Defines (id :: l)) R :=
  hs.weaken (fun _ => .fold hid) fun _ _ h => h

/-- The slots of a node that defines nothing itself. -/
theorem node {id : NodeId} (hs : Paired t w step' step (t.Defines (t.lowered id)) R)
    (hid : t.isDefinition id = false) : Paired t w step' step (t.Defines [id]) R :=
  fold (hs.list (List.append_nil _).symm) hid

/-! ## Steps -/

theorem intern {first : Interning α} (h : ∀ p : Program, p.WellFormed →
    (first p).2.WellFormed ∧ Q (first p).1) :
    Paired t w (Lower.intern first) (Lower.intern first) (t.Defines []) (Same Q) := by
  intro f frames g' g hprogram hwf hscopes
  obtain ⟨hwf', hQ⟩ := h g.program hwf
  have hrun' : (Lower.intern first).run g' =
      (.ok (first g.program).1, ⟨(first g.program).2, g'.scopes⟩) := by
    rw [← hprogram]
    rfl
  rw [hrun']
  exact .quiet ⟨rfl, hQ⟩ rfl hwf' hscopes .nil

theorem takeTryNumber : Paired t w (Lower.onScopes ScopeStack.takeTryNumber)
    (Lower.onScopes ScopeStack.takeTryNumber) (t.Defines []) (Same fun _ => True) := by
  intro f frames g' g hprogram hwf hscopes
  obtain ⟨hnumber, hscopes⟩ := hscopes.takeTryNumber
  exact .quiet ⟨hnumber, trivial⟩ hprogram hwf hscopes .nil

theorem takeLoopNumber : Paired t w (Lower.onScopes ScopeStack.takeLoopNumber)
    (Lower.onScopes ScopeStack.takeLoopNumber) (t.Defines []) (Same fun _ => True) := by
  intro f frames g' g hprogram hwf hscopes
  obtain ⟨hnumber, hscopes⟩ := hscopes.takeLoopNumber
  exact .quiet ⟨hnumber, trivial⟩ hprogram hwf hscopes .nil

theorem registersFunction {r : Record} {f : FunctionBody}
    (hkind : t.kind r.node = .expr (.function f)) (hr : r.Fits t w) :
    Paired t w (Lower.onScopes fun scopes => ((), scopes.addFunction f.codeName r.traced))
      (Lower.onScopes fun scopes => ((), scopes.addFunction f.codeName r.plain))
      (· = [r.node]) (Same fun _ => True) :=
  fun _ _ _ _ hprogram hwf hscopes => .finished ⟨rfl, trivial⟩ hprogram hwf (hscopes.addFunction hkind)
    (by simpa using hr) rfl

theorem registersClass {r : Record} {c : ClassBody}
    (hkind : t.kind r.node = .expr (.classBody c)) (hr : r.Fits t w) :
    Paired t w (Lower.onScopes fun scopes => ((), scopes.addClass c.codeName r.traced))
      (Lower.onScopes fun scopes => ((), scopes.addClass c.codeName r.plain))
      (· = [r.node]) (Same fun _ => True) :=
  fun _ _ _ _ hprogram hwf hscopes => .finished ⟨rfl, trivial⟩ hprogram hwf (hscopes.addClass hkind)
    (by simpa using hr) rfl

/-- A closed scope leaves its log to the one around it. -/
theorem inScope (hs : Paired t w step' step logs R) (kind : ScopeKind) :
    Paired t w (Lower.inScope kind step') (Lower.inScope kind step) logs R := by
  intro f frames g' g hprogram hwf hscopes
  have hinner := hs _ _ { g' with scopes := g'.scopes.push kind }
    { g with scopes := g.scopes.push kind } hprogram hwf (hscopes.push kind)
  have hrun : ∀ (step : Lower α) (h : Progress), (Lower.inScope kind step).run h =
      ((step.run { h with scopes := h.scopes.push kind }).1,
        { (step.run { h with scopes := h.scopes.push kind }).2 with
          scopes := (step.run { h with scopes := h.scopes.push kind }).2.scopes.pop }) :=
    fun _ _ => rfl
  rw [hrun, hrun]
  generalize step'.run _ = e', step.run _ = e at hinner
  cases hinner with
  | stopped stop hprogram => exact .stopped stop hprogram
  | finished hresult hprogram hwf hscopes hfits hlog =>
      exact .finished hresult hprogram hwf hscopes.pop hfits hlog

theorem within (hs : Paired t w step' step logs R) (place : PathStep) :
    Paired t w (Lower.within place step') (Lower.within place step) logs R := by
  intro f frames g' g hprogram hwf hscopes
  have hends := hs _ _ _ _ hprogram hwf hscopes
  rw [Meets.run_within, Meets.run_within]
  generalize step'.run g' = e', step.run g = e at hends
  cases hends with
  | stopped stop hprogram => exact .stopped _ hprogram
  | finished hresult hprogram hwf hscopes hfits hlog =>
      exact .finished hresult hprogram hwf hscopes hfits hlog

/-- Both lowerings take the same way. -/
theorem ite {c : Prop} [Decidable c] {other' other : Lower α}
    (hyes : c → Paired t w step' step logs R) (hno : ¬ c → Paired t w other' other logs R) :
    Paired t w (if c then step' else other') (if c then step else other) logs R := by
  by_cases hc : c
  · rw [if_pos hc, if_pos hc]
    exact hyes hc
  · rw [if_neg hc, if_neg hc]
    exact hno hc

end Paired

/-! ## Wordings of which only names matter -/

/-- A wording that allows any token and holds no helper to anything. -/
structure Wording.Lax (w : Wording) : Prop where
  stray : ∀ word, w.stray word
  converts : ∀ word, w.converts word
  apart : ¬ w.apart
  tight : ¬ w.tight

def Wording.onto (w : Wording) (p : Program) : Wording := { w with program := p }

namespace Wording.Lax

variable {w : Wording} {p : Program} {s : String} {o : Operand}

theorem onto (h : w.Lax) (p : Program) : (w.onto p).Lax :=
  ⟨h.stray, h.converts, h.apart, h.tight⟩

theorem allows (h : w.Lax) (word : String) : w.Allows word :=
  ⟨fun _ => Or.inr (h.stray word), fun _ => h.converts word⟩

theorem worded (h : w.Lax) (s : String) : Worded w s := fun word _ _ =>
  ⟨h.allows word, fun hserving => absurd hserving.2 h.apart⟩

theorem calm (h : w.Lax) (s : String) : Calm w s := fun word _ =>
  ⟨h.allows word, fun hserving => absurd hserving.2 h.apart⟩

theorem term (h : w.Lax) (hs : Term (w.onto p) s) : Term w s :=
  ⟨⟨⟨h.worded s, hs.piece.inline, hs.piece.spared⟩, hs.solid.starts, hs.solid.stops⟩, hs.flat⟩

theorem fine (h : w.Lax) (ho : o.Fine (w.onto p)) : o.Fine w := h.term ho

theorem lift (h : w.Lax) (ho : o.Fine w) : o.Fine (w.onto p) := (h.onto p).fine (p := w.program) ho

theorem line (h : w.Lax) (hs : Line (w.onto p) s) : Line w s := by
  obtain ⟨a, ha, rfl⟩ := hs
  exact ⟨a, h.term ha, rfl⟩

theorem named {name : String} (h : w.Lax) (hname : Named w name) : Named (w.onto p) name :=
  ⟨⟨(h.onto p).calm name, hname.unspaced, hname.spared⟩, hname.identifier⟩

theorem codeNamed {codeName : String} (h : w.Lax) (hc : CodeNamed w codeName) :
    CodeNamed (w.onto p) codeName where
  globalStorage hname := (h.onto p).term (p := w.program)
    (hc.globalStorage ((h.onto p).named (p := w.program) hname))
  moduleVariable := (h.onto p).term (p := w.program) hc.moduleVariable

theorem suits {k : NodeKind} {l : Location} (h : w.Lax) (hk : Suits w k l) :
    Suits (w.onto p) k l where
  file := ⟨(h.onto p).calm _, hk.file.unspaced, hk.file.spared⟩
  names n hn := h.named (hk.names n hn)
  titles n _ := (h.onto p).calm n
  glued s _ := (h.onto p).worded s
  named _ := (h.onto p).allows _

theorem registered (h : w.Lax) (scopes : ScopeStack) : Registered w scopes :=
  fun _ _ d _ => ⟨h.worded d.declaration, h.worded d.code⟩

end Wording.Lax

/-- What a step on a program gives does not depend on the program in the end. -/
theorem Interned.given {w : Wording} {α : Type} {Q : α → Prop} {first : Interning α}
    (h : ∀ p, Interned (w.onto p) True first Q) {p : Program} (hp : p.WellFormed) :
    (first p).2.WellFormed ∧ Q (first p).1 :=
  ⟨(h p p hp).1, (h (first p).2 p hp).2.2 trivial (Extends.refl _)⟩

namespace Paired

variable {t : Tree} {w : Wording} {α : Type} {step' step : Lower α} {logs : List NodeId → Prop}
  {R : α → α → Prop} {Q : α → Prop}

theorem interned {first : Interning α} (h : ∀ p, Interned (w.onto p) True first Q) :
    Paired t w (Lower.intern first) (Lower.intern first) (t.Defines []) (Same Q) :=
  intern fun _ hp => Interned.given h hp

/-- A step on a program of which only the program after it matters. -/
theorem internedAny {first : Interning α} {Q : α → Prop} (h : Interned w False first Q) :
    Paired t w (Lower.intern first) (Lower.intern first) (t.Defines []) (Same fun _ => True) :=
  intern fun p hp => ⟨(h p hp).1, trivial⟩

/-- Both lowerings begin in the same state, whatever scopes are open. -/
theorem ended (hs : Paired t w step' step logs R) {g : Progress} (hg : g.program.WellFormed) :
    ∃ f frames, Ended t w f frames logs R (step'.run g) (step.run g) := by
  obtain ⟨f, frames, hframes⟩ : ∃ f frames,
      g.scopes.toList.map (fun c => (⟨c, c, []⟩ : Frame)) = f :: frames :=
    List.exists_cons_of_ne_nil (by simp [ScopeStack.toList])
  have hscopes := Abreast.start (t := t) g.scopes
  rw [hframes] at hscopes
  exact ⟨f, frames, hs f frames g g rfl hg hscopes⟩

/-- What comes out of a lowering in any state is related to what comes out of the other. -/
theorem result (hs : Paired t w step' step logs R) {g : Progress} (hg : g.program.WellFormed)
    {a : α} (hrun : (step.run g).1 = .ok a) : ∃ a', R a' a := by
  obtain ⟨f, frames, hends⟩ := hs.ended hg
  generalize step'.run g = e', step.run g = e at hends hrun
  cases hends with
  | stopped stop hprogram => exact nomatch hrun
  | finished h hprogram hwf hscopes hfits hlog => exact ⟨_, Except.ok.inj hrun ▸ h⟩

/-- The first lowering comes to a well-formed program. -/
theorem runs (hs : Paired t w step' step logs R) {g g' : Progress} (hg : g.program.WellFormed)
    {a' : α} (hrun : step'.run g = (.ok a', g')) : g'.program.WellFormed ∧ ∃ a, R a' a := by
  obtain ⟨f, frames, hends⟩ := hs.ended hg
  generalize step.run g = e at hends
  rw [hrun] at hends
  cases hends with
  | finished h hprogram hwf hscopes hfits hlog => exact ⟨hprogram ▸ hwf, _, h⟩

/-- What is known of the result of one lowering is known of that of both. -/
theorem and_meets {T Φ : Prop} (hs : Paired t w step' step logs R) (hlax : w.Lax)
    (hm : ∀ p, Meets (w.onto p) T True step Φ Q) :
    Paired t w step' step logs fun a' a => R a' a ∧ Q a := by
  intro f frames g' g hprogram hwf hscopes
  have hends := hs _ _ _ _ hprogram hwf hscopes
  have hresult := ((hm (step.run g).2.program g hwf).2.2 trivial (Extends.refl _)
    ((hlax.onto _).registered _)).result
  generalize step'.run g' = e', step.run g = e at hends hresult
  cases hends with
  | stopped stop hprogram => exact .stopped stop hprogram
  | finished h hprogram hwf hscopes hfits hlog =>
      exact .finished ⟨h, hresult _ rfl⟩ hprogram hwf hscopes hfits hlog

end Paired
end CompilerBackend
