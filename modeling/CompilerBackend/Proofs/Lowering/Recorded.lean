import CompilerBackend.Proofs.Lowering.Position
import CompilerBackend.Proofs.Program.Table
import CompilerBackend.Scopes
/-!
# Records of definitions

A scope holds its definitions by name. What it holds is told by a log: the functions and classes in
the order in which they were registered, by node, those of closed scopes included. Closing a scope
appends its log to that of the scope below, whatever names the definitions go by.

- `OrderedMap.ofEntries`: a map from insertions; `append_ofEntries` appends one to another.
- `Scope.Holds`: a scope and its log.
- `Abreast`: two stacks of scopes with the same bodies open and the same nodes in their logs.
- `Tree.Defines`: the logs of a lowering, by node; what is nested comes before what it is a part of.
-/

namespace CompilerBackend

/-! ## Maps from insertions -/

namespace OrderedMap

variable {κ α : Type} [DecidableEq κ] {m n : OrderedMap κ α} {k k' : κ} {v v' : α}
  {l l' : List (κ × α)}

def ofEntries (l : List (κ × α)) : OrderedMap κ α := empty.append ⟨l⟩

theorem append_concat (m : OrderedMap κ α) (l : List (κ × α)) (k : κ) (v : α) :
    m.append ⟨l ++ [(k, v)]⟩ = (m.append ⟨l⟩).insert k v := List.foldl_concat _ _ _ _

theorem mem_keys_insert : k' ∈ (m.insert k v).keys ↔ k' = k ∨ k' ∈ m.keys := by
  obtain ⟨l⟩ := m
  change k' ∈ (insertEntries k v l).map (·.1) ↔ k' = k ∨ k' ∈ l.map (·.1)
  induction l with
  | nil => simp [insertEntries]
  | cons e l ih =>
      rw [insertEntries]
      split
      next heq => simp [← heq]
      next =>
        rw [List.map_cons, List.mem_cons, ih, List.map_cons, List.mem_cons]
        exact or_left_comm

theorem nodup_keys_insert (h : m.keys.Nodup) : (m.insert k v).keys.Nodup := by
  obtain ⟨l⟩ := m
  induction l with
  | nil => exact List.nodup_singleton k
  | cons e l ih =>
      obtain ⟨hnot, hrest⟩ := List.nodup_cons.mp h
      change ((insertEntries k v (e :: l)).map (·.1)).Nodup
      rw [insertEntries]
      split
      next heq => exact List.nodup_cons.mpr ⟨by rwa [← heq], hrest⟩
      next hne =>
        refine List.nodup_cons.mpr ⟨fun hmem => ?_, ih hrest⟩
        exact (mem_keys_insert (m := ⟨l⟩).mp hmem).elim hne hnot

/-- A later value for the same key replaces the earlier one. -/
theorem insert_insert : (m.insert k v).insert k v' = m.insert k v' := by
  obtain ⟨l⟩ := m
  refine congrArg OrderedMap.mk ?_
  change insertEntries k v' (insertEntries k v l) = insertEntries k v' l
  induction l with
  | nil => simp [insertEntries]
  | cons e l ih =>
      rw [insertEntries, insertEntries]
      split
      next => simp [insertEntries]
      next hne => rw [insertEntries, if_neg hne, ih]

/-- A key that is there already keeps its place. -/
theorem insert_comm (hk : k ∈ m.keys) (hne : k ≠ k') :
    (m.insert k' v').insert k v = (m.insert k v).insert k' v' := by
  obtain ⟨l⟩ := m
  refine congrArg OrderedMap.mk ?_
  change insertEntries k v (insertEntries k' v' l) = insertEntries k' v' (insertEntries k v l)
  induction l with
  | nil => exact nomatch hk
  | cons e l ih =>
      by_cases he : e.1 = k
      · subst he
        simp [insertEntries, hne]
      · have hrest : k ∈ l.map (·.1) := (List.mem_cons.mp hk).resolve_left (Ne.symm he)
        by_cases he' : e.1 = k'
        · subst he'
          simp [insertEntries, he]
        · simp only [insertEntries, he, he', if_false, ih hrest]

theorem insert_append_of_mem (hk : k ∈ m.keys) (hnot : k ∉ l.map (·.1)) :
    (m.append ⟨l⟩).insert k v = (m.insert k v).append ⟨l⟩ := by
  induction l generalizing m with
  | nil => rfl
  | cons e l ih =>
      obtain ⟨hne, hnot⟩ := not_or.mp (mt List.mem_cons.mpr hnot)
      change ((m.insert e.1 e.2).append ⟨l⟩).insert k v = ((m.insert k v).insert e.1 e.2).append ⟨l⟩
      rw [ih (mem_keys_insert.mpr (Or.inr hk)) hnot, insert_comm hk hne]

/-- An insertion in what is appended is one behind the appending. -/
theorem append_insert (h : n.keys.Nodup) : m.append (n.insert k v) = (m.append n).insert k v := by
  obtain ⟨l⟩ := n
  induction l generalizing m with
  | nil => rfl
  | cons e l ih =>
      obtain ⟨hnot, hrest⟩ : e.1 ∉ l.map (·.1) ∧ (l.map (·.1)).Nodup := List.nodup_cons.mp h
      change m.append ⟨insertEntries k v (e :: l)⟩ = ((m.insert e.1 e.2).append ⟨l⟩).insert k v
      rw [insertEntries]
      split
      next heq =>
        rw [heq] at hnot ⊢
        rw [insert_append_of_mem (mem_keys_insert.mpr (Or.inl rfl)) hnot, insert_insert]
        rfl
      next => exact ih hrest

theorem ofEntries_concat (l : List (κ × α)) (k : κ) (v : α) :
    ofEntries (l ++ [(k, v)]) = (ofEntries l).insert k v := append_concat empty l k v

theorem nodup_keys_ofEntries (l : List (κ × α)) : (ofEntries l).keys.Nodup := by
  induction l using List.reverseRecOn with
  | nil => exact List.nodup_nil
  | append_singleton l e ih =>
      rw [ofEntries_concat]
      exact nodup_keys_insert ih

/-- A map that is appended counts as its insertions. -/
theorem append_ofEntries (m : OrderedMap κ α) (l : List (κ × α)) :
    m.append (ofEntries l) = m.append ⟨l⟩ := by
  induction l using List.reverseRecOn with
  | nil => rfl
  | append_singleton l e ih =>
      rw [ofEntries_concat, append_insert (nodup_keys_ofEntries l), ih, append_concat]

/-- Distinct keys stand in the order of their insertions. -/
theorem entries_ofEntries (h : (l.map (·.1)).Nodup) : (ofEntries l).entries = l := by
  induction l using List.reverseRecOn with
  | nil => rfl
  | append_singleton l e ih =>
      rw [List.map_append, List.nodup_append] at h
      obtain ⟨hl, -, hdisjoint⟩ := h
      have hnot : e.1 ∉ (ofEntries l).keys := by
        rw [keys, ih hl]
        exact fun hmem => hdisjoint _ hmem e.1 List.mem_cons_self rfl
      rw [ofEntries_concat, entries_insert hnot, ih hl]

/-- Related values at the same keys stay so, whether the keys are distinct or not. -/
theorem rel_ofEntries {β : Type} {R : α → β → Prop} {l' : List (κ × β)}
    (h : List.Forall₂ (fun e e' => e.1 = e'.1 ∧ R e.2 e'.2) l l') :
    List.Forall₂ R (ofEntries l).values (ofEntries l').values := by
  suffices hentries : ∀ {m : OrderedMap κ α} {m' : OrderedMap κ β},
      List.Forall₂ (fun e e' => e.1 = e'.1 ∧ R e.2 e'.2) m.entries m'.entries →
      List.Forall₂ (fun e e' => e.1 = e'.1 ∧ R e.2 e'.2) (m.append ⟨l⟩).entries
        (m'.append ⟨l'⟩).entries by
    rw [values, values, List.forall₂_map_left_iff, List.forall₂_map_right_iff]
    exact (@hentries empty empty .nil).imp fun _ _ he => he.2
  have hinsert : ∀ {es : List (κ × α)} {es' : List (κ × β)} {k : κ} {v : α} {v' : β}, R v v' →
      List.Forall₂ (fun e e' => e.1 = e'.1 ∧ R e.2 e'.2) es es' →
      List.Forall₂ (fun e e' => e.1 = e'.1 ∧ R e.2 e'.2) (insertEntries k v es)
        (insertEntries k v' es') := by
    intro es es' k v v' hv hes
    induction hes with
    | nil => exact .cons ⟨rfl, hv⟩ .nil
    | cons he hes ih =>
        rw [insertEntries, insertEntries, he.1]
        split
        · exact .cons ⟨rfl, hv⟩ hes
        · exact .cons ⟨rfl, he.2⟩ ih
  induction h with
  | nil => exact id
  | @cons e e' _ _ he _ ih =>
      intro m m' hm
      refine ih ?_
      change List.Forall₂ _ (insertEntries e.1 e.2 m.entries) (insertEntries e'.1 e'.2 m'.entries)
      rw [← he.1]
      exact hinsert he.2 hm

end OrderedMap

/-! ## Logs -/

namespace Tree

def functionName? (t : Tree) (id : NodeId) : Option String :=
  match t.kind id with
  | .expr (.function f) => some f.codeName
  | _ => none

def className? (t : Tree) (id : NodeId) : Option String :=
  match t.kind id with
  | .expr (.classBody c) => some c.codeName
  | _ => none

def isDefinition (t : Tree) (id : NodeId) : Bool :=
  (t.functionName? id).isSome || (t.className? id).isSome

def lowered (t : Tree) (id : NodeId) : List NodeId := (t.positions id).map Prod.snd

end Tree

/-- The texts of functions or classes in the order of their registration. -/
abbrev Log := List (NodeId × Definition)

/-- The definitions after those of a log that have names of one sort. -/
def Log.onto (name? : NodeId → Option String) (log : Log) (base : Definitions) : Definitions :=
  base.append ⟨log.filterMap fun r => (name? r.1).map (·, r.2)⟩

/-- A scope holds the definitions in a log besides those of an earlier one. -/
structure Scope.Holds (t : Tree) (base c : Scope) (log : Log) : Prop where
  functions : c.functions = log.onto t.functionName? base.functions
  classes : c.classes = log.onto t.className? base.classes

namespace Log

variable {t : Tree} {name? : NodeId → Option String} {id : NodeId} {name : String}

theorem onto_append (log more : Log) (base : Definitions) :
    (log ++ more).onto name? base = more.onto name? (log.onto name? base) := by
  rw [onto, onto, onto, List.filterMap_append]
  exact List.foldl_append ..

/-- What was registered from the start can be registered later. -/
theorem append_onto (more : Log) (base : Definitions) :
    base.append (more.onto name? .empty) = more.onto name? base :=
  OrderedMap.append_ofEntries base _

theorem onto_concat (h : name? id = some name) (log : Log) (d : Definition) (base : Definitions) :
    (log ++ [(id, d)]).onto name? base = (log.onto name? base).insert name d := by
  rw [onto, List.filterMap_append, onto, ← OrderedMap.append_concat]
  simp [h]

theorem onto_concat_none (h : name? id = none) (log : Log) (d : Definition) (base : Definitions) :
    (log ++ [(id, d)]).onto name? base = log.onto name? base := by
  rw [onto, List.filterMap_append, onto]
  simp [h]

end Log

namespace Scope.Holds

variable {t : Tree} {base c d : Scope} {log more : Log} {id : NodeId}

theorem start (c : Scope) : Holds t c c [] := ⟨rfl, rfl⟩

theorem absorb {kind : ScopeKind} (h : Holds t base c log) (h' : Holds t (.ofKind kind) d more) :
    Holds t base (c.absorb d) (log ++ more) where
  functions := by
    rw [Log.onto_append, ← h.functions, ← Log.append_onto more c.functions]
    exact congrArg (c.functions.append ·) h'.functions
  classes := by
    rw [Log.onto_append, ← h.classes, ← Log.append_onto more c.classes]
    exact congrArg (c.classes.append ·) h'.classes

theorem addFunction (h : Holds t base c log) {f : FunctionBody}
    (hkind : t.kind id = .expr (.function f)) (d : Definition) :
    Holds t base { c with functions := c.functions.insert f.codeName d } (log ++ [(id, d)]) where
  functions := by
    have hname : t.functionName? id = some f.codeName := by rw [Tree.functionName?, hkind]
    rw [Log.onto_concat hname, ← h.functions]
  classes := by
    have hname : t.className? id = none := by rw [Tree.className?, hkind]
    rw [Log.onto_concat_none hname, ← h.classes]

theorem addClass (h : Holds t base c log) {b : ClassBody}
    (hkind : t.kind id = .expr (.classBody b)) (d : Definition) :
    Holds t base { c with classes := c.classes.insert b.codeName d } (log ++ [(id, d)]) where
  functions := by
    have hname : t.functionName? id = none := by rw [Tree.functionName?, hkind]
    rw [Log.onto_concat_none hname, ← h.functions]
  classes := by
    have hname : t.className? id = some b.codeName := by rw [Tree.className?, hkind]
    rw [Log.onto_concat hname, ← h.classes]

end Scope.Holds

/-! ## Two stacks of scopes -/

/-- The texts of a function or class in two lowerings. -/
structure Record where
  node : NodeId
  traced : Definition
  plain : Definition

/-- What two scopes of the same body were at first, and what they have registered since. -/
structure Frame where
  traced : Scope
  plain : Scope
  records : List Record := []

namespace Frame

def ofKind (kind : ScopeKind) : Frame := { traced := .ofKind kind, plain := .ofKind kind }

def log (f : Frame) (more : List Record) : Frame := { f with records := f.records ++ more }

theorem log_nil (f : Frame) : f.log [] = f := by rw [log, List.append_nil]

theorem log_log (f : Frame) (more others : List Record) :
    (f.log more).log others = f.log (more ++ others) := by
  rw [log, log, log, List.append_assoc]

end Frame

/-- Two scopes of the same body, with what they hold. -/
structure SameBody (t : Tree) (f : Frame) (c' c : Scope) : Prop where
  kind : c'.kind = c.kind
  tries : c'.tryCount = c.tryCount
  loops : c'.loopCount = c.loopCount
  traced : Scope.Holds t f.traced c' (f.records.map fun r => (r.node, r.traced))
  plain : Scope.Holds t f.plain c (f.records.map fun r => (r.node, r.plain))

inductive SameBodies (t : Tree) : List Frame → List Scope → List Scope → Prop
  | nil : SameBodies t [] [] []
  | cons {f : Frame} {c' c : Scope} {frames : List Frame} {rest' rest : List Scope}
      (h : SameBody t f c' c) (hrest : SameBodies t frames rest' rest) :
      SameBodies t (f :: frames) (c' :: rest') (c :: rest)

def Abreast (t : Tree) (frames : List Frame) (s' s : ScopeStack) : Prop :=
  SameBodies t frames s'.toList s.toList

theorem SameBody.start (t : Tree) (c : Scope) : SameBody t ⟨c, c, []⟩ c c :=
  ⟨rfl, rfl, rfl, Scope.Holds.start c, Scope.Holds.start c⟩

namespace ScopeStack

theorem toList_push (s : ScopeStack) (kind : ScopeKind) :
    (s.push kind).toList = Scope.ofKind kind :: s.toList := rfl

theorem toList_modifyCurrent (s : ScopeStack) (f : Scope → Scope) :
    (s.modifyCurrent f).toList = s.toList.modifyHead f := by
  obtain ⟨inner, bottom⟩ := s
  cases inner <;> rfl

/-- The scope below takes over what a closed one holds. -/
theorem toList_pop {s : ScopeStack} {top below : Scope} {rest : List Scope}
    (h : s.toList = top :: below :: rest) : s.pop.toList = below.absorb top :: rest := by
  obtain ⟨inner, bottom⟩ := s
  cases inner with
  | nil => exact nomatch h
  | cons c inner =>
      obtain ⟨rfl, htail⟩ := List.cons.inj h
      change (modifyCurrent ⟨inner, bottom⟩ (·.absorb c)).toList = _
      have hstack : (⟨inner, bottom⟩ : ScopeStack).toList = below :: rest := htail
      rw [toList_modifyCurrent, hstack]
      rfl

/-! Inline code counts with the body around it. -/

section

variable {c : Scope} {inner : List Scope} {bottom : Scope}

theorem counting_cons_inline (h : c.kind = .inline) :
    counting ⟨c :: inner, bottom⟩ = counting ⟨inner, bottom⟩ := by
  rw [counting, counting, List.find?_cons_of_neg (by simp [h])]

theorem counting_cons_body (h : c.kind ≠ .inline) : counting ⟨c :: inner, bottom⟩ = c := by
  rw [counting, List.find?_cons_of_pos (by simp [h])]
  rfl

theorem toList_modifyCounting_inline (h : c.kind = .inline) (f : Scope → Scope) :
    (modifyCounting ⟨c :: inner, bottom⟩ f).toList = c :: (modifyCounting ⟨inner, bottom⟩ f).toList := by
  unfold modifyCounting
  dsimp only
  rw [modifyCountingFrom, if_pos h]
  cases modifyCountingFrom f inner <;> rfl

theorem toList_modifyCounting_body (h : c.kind ≠ .inline) (f : Scope → Scope) :
    (modifyCounting ⟨c :: inner, bottom⟩ f).toList = f c :: (inner ++ [bottom]) := by
  unfold modifyCounting
  dsimp only
  rw [modifyCountingFrom, if_neg h]
  rfl

end

end ScopeStack

namespace Abreast

variable {t : Tree} {f : Frame} {frames : List Frame} {s' s : ScopeStack}

/-- A stack and itself. -/
theorem start (s : ScopeStack) :
    Abreast t (s.toList.map fun c => ⟨c, c, []⟩) s s := by
  unfold Abreast
  induction s.toList with
  | nil => exact .nil
  | cons c rest ih => exact .cons (SameBody.start t c) ih

theorem push (h : Abreast t frames s' s) (kind : ScopeKind) :
    Abreast t (Frame.ofKind kind :: frames) (s'.push kind) (s.push kind) := by
  rw [Abreast, ScopeStack.toList_push, ScopeStack.toList_push]
  exact .cons (SameBody.start t _) h

/-- What closed scopes have registered goes to those below. -/
theorem pop {kind : ScopeKind} {more : List Record}
    (h : Abreast t ((Frame.ofKind kind).log more :: f :: frames) s' s) :
    Abreast t (f.log more :: frames) s'.pop s.pop := by
  unfold Abreast at h ⊢
  generalize htop' : s'.toList = scopes' at h
  generalize htop : s.toList = scopes at h
  obtain - | ⟨hinner, - | ⟨hbelow, hrest⟩⟩ := h
  rw [ScopeStack.toList_pop htop', ScopeStack.toList_pop htop]
  refine .cons ⟨hbelow.kind, hbelow.tries, hbelow.loops, ?_, ?_⟩ hrest
  · rw [Frame.log, List.map_append]
    exact hbelow.traced.absorb hinner.traced
  · rw [Frame.log, List.map_append]
    exact hbelow.plain.absorb hinner.plain

/-- A change of the innermost scopes. -/
theorem modifyCurrent {later : Frame} (h : Abreast t (f :: frames) s' s)
    {step' step : Scope → Scope}
    (hstep : ∀ {c' c}, SameBody t f c' c → SameBody t later (step' c') (step c)) :
    Abreast t (later :: frames) (s'.modifyCurrent step') (s.modifyCurrent step) := by
  rw [Abreast, ScopeStack.toList_modifyCurrent, ScopeStack.toList_modifyCurrent]
  unfold Abreast at h
  generalize s'.toList = scopes' at h
  generalize s.toList = scopes at h
  obtain - | ⟨htop, hrest⟩ := h
  exact .cons (hstep htop) hrest

/-- The scopes whose body the code goes into are those of the same body. -/
theorem counted (h : Abreast t frames s' s) :
    (∃ f, SameBody t f s'.counting s.counting) ∧ ∀ step : Scope → Scope,
      (∀ {f c' c}, SameBody t f c' c → SameBody t f (step c') (step c)) →
      Abreast t frames (s'.modifyCounting step) (s.modifyCounting step) := by
  obtain ⟨inner', bottom'⟩ := s'
  obtain ⟨inner, bottom⟩ := s
  change SameBodies t frames (inner' ++ [bottom']) (inner ++ [bottom]) at h
  induction inner' generalizing inner frames with
  | nil =>
      obtain _ | ⟨c, inner⟩ := inner
      · obtain - | ⟨hbottom, hnil⟩ := h
        exact ⟨⟨_, hbottom⟩, fun step hstep => .cons (hstep hbottom) hnil⟩
      · obtain - | ⟨-, hrest⟩ := h
        cases inner <;> exact nomatch hrest
  | cons c' inner' ih =>
      obtain _ | ⟨c, inner⟩ := inner
      · obtain - | ⟨-, hrest⟩ := h
        cases inner' <;> exact nomatch hrest
      obtain - | ⟨htop, hrest⟩ := h
      obtain ⟨hcounting, hmodify⟩ := ih inner hrest
      by_cases hinline : c.kind = .inline
      · have hinline' : c'.kind = .inline := htop.kind.trans hinline
        refine ⟨?_, fun step hstep => ?_⟩
        · rwa [ScopeStack.counting_cons_inline hinline', ScopeStack.counting_cons_inline hinline]
        · rw [Abreast, ScopeStack.toList_modifyCounting_inline hinline',
            ScopeStack.toList_modifyCounting_inline hinline]
          exact .cons htop (hmodify step hstep)
      · have hinline' : c'.kind ≠ .inline := htop.kind ▸ hinline
        rw [ScopeStack.counting_cons_body hinline', ScopeStack.counting_cons_body hinline]
        refine ⟨⟨_, htop⟩, fun step hstep => ?_⟩
        rw [Abreast, ScopeStack.toList_modifyCounting_body hinline',
          ScopeStack.toList_modifyCounting_body hinline]
        exact .cons (hstep htop) hrest

theorem takeTryNumber (h : Abreast t frames s' s) :
    s'.takeTryNumber.1 = s.takeTryNumber.1 ∧ Abreast t frames s'.takeTryNumber.2 s.takeTryNumber.2 := by
  obtain ⟨⟨_, hcounting⟩, hmodify⟩ := h.counted
  unfold ScopeStack.takeTryNumber
  rw [hcounting.tries]
  exact ⟨rfl, hmodify _ fun hc => ⟨hc.kind, rfl, hc.loops, ⟨hc.traced.1, hc.traced.2⟩,
    ⟨hc.plain.1, hc.plain.2⟩⟩⟩

theorem takeLoopNumber (h : Abreast t frames s' s) :
    s'.takeLoopNumber.1 = s.takeLoopNumber.1 ∧
      Abreast t frames s'.takeLoopNumber.2 s.takeLoopNumber.2 := by
  obtain ⟨⟨_, hcounting⟩, hmodify⟩ := h.counted
  unfold ScopeStack.takeLoopNumber
  rw [hcounting.loops]
  exact ⟨rfl, hmodify _ fun hc => ⟨hc.kind, hc.tries, rfl, ⟨hc.traced.1, hc.traced.2⟩,
    ⟨hc.plain.1, hc.plain.2⟩⟩⟩

/-- A function is registered with the innermost scopes. -/
theorem addFunction (h : Abreast t (f :: frames) s' s) {r : Record} {b : FunctionBody}
    (hkind : t.kind r.node = .expr (.function b)) :
    Abreast t (f.log [r] :: frames) (s'.addFunction b.codeName r.traced)
      (s.addFunction b.codeName r.plain) := by
  refine h.modifyCurrent fun hc => ⟨hc.kind, hc.tries, hc.loops, ?_, ?_⟩
  · rw [Frame.log, List.map_append]
    exact hc.traced.addFunction hkind r.traced
  · rw [Frame.log, List.map_append]
    exact hc.plain.addFunction hkind r.plain

/-- A class is registered with the innermost scopes. -/
theorem addClass (h : Abreast t (f :: frames) s' s) {r : Record} {b : ClassBody}
    (hkind : t.kind r.node = .expr (.classBody b)) :
    Abreast t (f.log [r] :: frames) (s'.addClass b.codeName r.traced)
      (s.addClass b.codeName r.plain) := by
  refine h.modifyCurrent fun hc => ⟨hc.kind, hc.tries, hc.loops, ?_, ?_⟩
  · rw [Frame.log, List.map_append]
    exact hc.traced.addClass hkind r.traced
  · rw [Frame.log, List.map_append]
    exact hc.plain.addClass hkind r.plain

end Abreast

/-! ## What a lowering registers -/

namespace Tree

variable {t : Tree}

/-- The logs that lowering some nodes can leave: each definition at or below them comes once, behind
those in its own slots. Of other nodes only the slots count. -/
inductive Defines (t : Tree) : List NodeId → List NodeId → Prop
  | nil : Defines t [] []
  | definition {id : NodeId} {ids below others : List NodeId} (hid : t.isDefinition id = true)
      (hbelow : Defines t (t.lowered id) below) (hothers : Defines t ids others) :
      Defines t (id :: ids) (below ++ id :: others)
  | fold {id : NodeId} {ids log : List NodeId} (hid : t.isDefinition id = false)
      (h : Defines t (t.lowered id ++ ids) log) : Defines t (id :: ids) log
  | perm {ids ids' log : List NodeId} (hperm : ids'.Perm ids) (h : Defines t ids log) :
      Defines t ids' log

namespace Defines

variable {id : NodeId} {ids ids' log log' : List NodeId}

theorem append (h : Defines t ids log) (h' : Defines t ids' log') :
    Defines t (ids ++ ids') (log ++ log') := by
  induction h with
  | nil => exact h'
  | definition hid hbelow _ _ ih =>
      rw [List.append_assoc]
      exact .definition hid hbelow ih
  | fold hid _ ih =>
      rw [List.append_assoc] at ih
      exact .fold hid ih
  | perm hperm _ ih => exact .perm (hperm.append_right ids') ih

theorem eq_nil (h : Defines t ids log) (hids : ids = []) : log = [] := by
  induction h with
  | nil => rfl
  | definition => exact nomatch hids
  | fold => exact nomatch hids
  | perm hperm _ ih => exact ih (List.nil_perm.mp (hids ▸ hperm))

/-- What is in the slots of a definition, then the definition itself. -/
theorem concat (hid : t.isDefinition id = true) (h : Defines t (t.lowered id) log) :
    Defines t [id] (log ++ [id]) := .definition hid h .nil

/-- Nodes without slots that define nothing. -/
theorem silent (h : ∀ id ∈ ids, t.isDefinition id = false ∧ t.lowered id = []) :
    Defines t ids [] := by
  induction ids with
  | nil => exact .nil
  | cons id ids ih =>
      obtain ⟨hid, hslots⟩ := h id List.mem_cons_self
      refine .fold hid ?_
      rw [hslots]
      exact ih fun c hc => h c (List.mem_cons_of_mem id hc)

end Defines

end Tree
end CompilerBackend
