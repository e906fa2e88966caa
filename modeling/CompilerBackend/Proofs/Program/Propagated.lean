import CompilerBackend.Proofs.Lowering.AskedStatements
import CompilerBackend.Proofs.Lowering.Carried
import CompilerBackend.Proofs.Lowering.Acceptance
/-!
# Translations of a tree whose raises are propagated

The propagation of raises never costs a module its text, and it never makes the text ask for more.
All that a translation looks at is kept by a single rewrite, so by the whole propagation.

- `Tree.Keeps`: what a rewrite keeps of a module, with `Carried.keeps` for one rewrite.
- `moduleText_propagateRaises`: the translations before and after.
-/

namespace CompilerBackend

open Program Lowering Target

variable {s : Setting} {t t' : Tree} {root n : NodeId} {source : NodeId → NodeId} {m : Module}

/-! ## Names -/

@[simp] theorem NodeKind.names_mapChildren (f : NodeId → NodeId) (k : NodeKind) :
    (k.mapChildren f).names = k.names := by
  cases k with
  | expr e => cases e <;> rfl
  | _ => rfl

@[simp] theorem NodeKind.titles_mapChildren (f : NodeId → NodeId) (k : NodeKind) :
    (k.mapChildren f).titles = k.titles := by
  cases k with
  | expr e => cases e <;> rfl
  | _ => rfl

theorem Tree.Piece.names_eq_nil {k k' : NodeKind} (h : Tree.Piece k k') :
    k'.names = [] ∧ k'.titles = [] := by
  cases h <;> exact ⟨rfl, rfl⟩

namespace Tree

theorem Reachable.reaches (hn : t.Reachable n) (hroot : t.root = some root) : t.Reaches root n := by
  obtain ⟨r, hr, hreach⟩ := hn
  rwa [Option.some.inj (hroot.symm.trans hr)]

namespace Carried

/-- No new name comes in. -/
theorem shown (r : Carried t t' source) (hn : t'.Reachable n) :
    ((t'.kind n).names = [] ∧ (t'.kind n).titles = []) ∨ t.Reachable n ∧
      (t'.kind n).names = (t.kind n).names ∧ (t'.kind n).titles = (t.kind n).titles := by
  cases r.fate hn with
  | stayed hsource self hkind hslots =>
      rw [hkind, NodeKind.names_mapChildren, NodeKind.titles_mapChildren]
      exact Or.inr ⟨hsource ▸ r.reachable_source hn, rfl, rfl⟩
  | sequence hsource hold hnew hstatement =>
      rw [hnew]
      exact Or.inl ⟨rfl, rfl⟩
  | piece hsource hid c hy hkinds hoperand => exact Or.inl hkinds.names_eq_nil

theorem unspaced (r : Carried t t' source) (hroot : t.root = some root)
    (hroot' : t'.root = some root) (h : t.Unspaced root) : t'.Unspaced root := by
  intro n hn
  have hn' : t'.Reachable n := ⟨root, hroot', hn⟩
  constructor
  · obtain ⟨m, hm, hplace⟩ := r.place hn'
    rw [hplace]
    exact (h m (hm.reaches hroot)).1
  · rcases r.shown hn' with ⟨hnames, -⟩ | ⟨hold, hnames, -⟩
    · rw [hnames]
      exact List.forall_mem_nil _
    · rw [hnames]
      exact (h n (hold.reaches hroot)).2

/-! ## The module -/

/-- The module at the root stays, with another body at most. -/
theorem root_module (r : Carried t t' source) (hroot : t.root = some root)
    (hm : t.kind root = .module m) : t'.root = some root ∧ ∃ f, Alike t t' f root ∧
      ∀ d ∈ t.children root, source (f d) = d := by
  obtain ⟨root', hroot'⟩ : ∃ root', t'.root = some root' := by
    cases h : t'.root with
    | none =>
        have hnone := r.root
        rw [h, hroot] at hnone
        exact nomatch hnone
    | some root' => exact ⟨root', rfl⟩
  have hsource : source root' = root :=
    Option.some.inj ((r.source_root hroot').symm.trans hroot)
  have hreach : t'.Reachable root' := ⟨root', hroot', Reaches.refl t' root'⟩
  cases r.fate hreach with
  | stayed hself self hkind hslots =>
      obtain rfl : root' = root := hself.symm.trans hsource
      exact ⟨hroot', _, r.alike hreach hself self hkind hslots, fun d hd => (hslots d hd).1⟩
  | sequence hself hold hnew hstatement =>
      obtain rfl : root' = root := hself.symm.trans hsource
      rw [hm] at hold
      exact nomatch hold
  | piece hpiece hid c hy hkinds hoperand =>
      obtain rfl := hpiece.symm.trans hsource
      rw [yieldsToRaise, hm] at hy
      exact Bool.noConfusion hy

end Carried

/-- What a rewrite keeps of the module at the root: its data, that everything it generates fits,
and no more requests than `R`. -/
structure Keeps (s : Setting) (root : NodeId) (m : Module) (R : Set Request) (u : Tree) : Prop where
  root_eq : u.root = some root
  paired : u.PairedRaises
  unspaced : u.Unspaced root
  resolved : ∀ q ∈ u.positions root, u.Resolved s.options.isThird q
  body : ∃ b, u.kind root = .module { m with body := b } ∧
    Setting.BodyRequests { s with tree := u } { m with body := b } ⊆ R

theorem Carried.keeps {R : Set Request} (r : Carried t t' source) (h : t.Keeps s root m R) :
    t'.Keeps s root m R := by
  obtain ⟨b, hkind, hrequests⟩ := h.body
  obtain ⟨hroot', f, a, hslots⟩ := r.root_module h.root_eq hkind
  have hkind' : t'.kind root = .module { m with body := b.map f } := by
    rw [a.kind, hkind]
    rfl
  have hreach : ∀ d ∈ t.children root, t'.Reachable (f d) := by
    intro d hd
    refine Reachable.child ⟨root, hroot', Reaches.refl t' root⟩ ?_
    rw [children, a.kind, NodeKind.children_mapChildren]
    exact List.mem_map_of_mem hd
  refine ⟨hroot', r.pairedRaises h.paired, r.unspaced h.root_eq hroot' h.unspaced, ?_, b.map f,
    hkind', ?_⟩
  · intro q hq
    rw [a.positions_eq] at hq
    obtain ⟨p, hp, rfl⟩ := List.mem_map.mp hq
    have hinside := positions_inside hp
    refine r.resolved h.paired (hreach _ hinside) ?_
    rw [hslots _ hinside]
    exact h.resolved p hp
  · refine fun q hq => hrequests ?_
    obtain ⟨v, hv, hq⟩ := hq
    obtain ⟨d', hd', rfl⟩ := List.mem_map.mp hv
    obtain ⟨d, hd, rfl⟩ : ∃ d ∈ b.toList, f d = d' := by
      rw [toList_map] at hd'
      exact List.mem_map.mp hd'
    have hinside : d ∈ t.children root := by
      rw [children, hkind]
      exact hd
    refine ⟨(.lines, d), List.mem_map_of_mem hd, ?_⟩
    have hsubset := Carried.requests_subset (s := { s with tree := t }) r h.paired
      (hreach d hinside) .lines hq
    rwa [hslots d hinside] at hsubset

end Tree

/-! ## Both translations -/

/-- What a translation into an empty program has asked for. -/
theorem has_moduleText_iff {options : Options} {moduleName text : String}
    (hm : t.kind root = .module m) (htext : (t.moduleText options root moduleName {}).1 = .ok text)
    (r : Request) : (t.moduleText options root moduleName {}).2.Has r ↔
      r ∈ m.asks moduleName ∨ r ∈ Setting.BodyRequests
        ⟨t, options, moduleName, moduleIdentifier moduleName⟩ m := by
  have haccounts := accounts_moduleAt
    (s := ⟨t, options, moduleName, moduleIdentifier moduleName⟩) (Tree.module?_eq_some_iff.mpr hm)
  obtain ⟨-, -, hok⟩ := haccounts ⟨{}, {}⟩ sound_empty
  refine ((hok text htext).asked r).trans (or_iff_right ?_)
  cases r <;> exact List.not_mem_nil

/-- A program that has been asked for no more than another one holds no more. -/
theorem Program.Sound.holdings_subset {p q : Program} (hp : p.Sound)
    (h : ∀ r, p.Has r → q.Has r) : p.constants.keys ⊆ q.constants.keys ∧
      p.tuples.sizes ⊆ q.tuples.sizes ∧ p.lists.sizes ⊆ q.lists.sizes ∧
        p.dicts.sizes ⊆ q.dicts.sizes := by
  refine ⟨fun k hk => ?_, fun n => h (.tuple n), fun n => h (.list n), fun n => h (.dict n)⟩
  have hkeyed := hk
  rw [OrderedMap.keys, hp.wellFormed.keyed, List.map_map, List.mem_map] at hkeyed
  obtain ⟨e, he, rfl⟩ := hkeyed
  exact h (.constant e.constant) hk

/-- A module that is translated before its raises are propagated is translated afterwards, and then
it asks for no constant and no helper that it did not ask for before. -/
theorem moduleText_propagateRaises {options : Options} {moduleName text : String}
    (hwf : t.WellFormed) (hroot : t.root = some root) (hmodule : ∃ m, t.kind root = .module m)
    (hnames : t.Unspaced root) (hpaired : t.PairedRaises)
    (htext : (t.moduleText options root moduleName {}).1 = .ok text) :
    let u := t.propagateRaises.tree
    let before := (t.moduleText options root moduleName {}).2
    let after := (u.moduleText options root moduleName {}).2
    u.root = some root ∧ (∃ text', (u.moduleText options root moduleName {}).1 = .ok text') ∧
      after.constants.keys ⊆ before.constants.keys ∧ after.tuples.sizes ⊆ before.tuples.sizes ∧
        after.lists.sizes ⊆ before.lists.sizes ∧ after.dicts.sizes ⊆ before.dicts.sizes := by
  intro u before after
  obtain ⟨m, hm⟩ := hmodule
  obtain ⟨hparent, htree⟩ := hwf root hroot
  let s : Setting := ⟨t, options, moduleName, moduleIdentifier moduleName⟩
  have hresolved := (isOk_moduleText_iff htree hparent ⟨m, hm⟩ hnames wellFormed_empty).mp
    ⟨text, htext⟩
  have hbase : t.Keeps s root m (s.BodyRequests m) :=
    ⟨hroot, hpaired, hnames, hresolved, m.body, hm, Set.Subset.refl _⟩
  obtain ⟨k, run⟩ := Tree.exists_run hwf
  have hkeeps : u.Keeps s root m (s.BodyRequests m) :=
    run.preserves (P := Tree.Keeps s root m (s.BodyRequests m)) hwf hbase
      fun v v' hv hr hkeeps => (hr.carried hv).elim fun _ hcarried => hcarried.keeps hkeeps
  obtain ⟨b, hm', hrequests⟩ := hkeeps.body
  obtain ⟨hparent', htree'⟩ := run.wellFormed hwf root hkeeps.root_eq
  obtain ⟨text', htext'⟩ := (isOk_moduleText_iff htree' hparent' ⟨_, hm'⟩ hkeeps.unspaced
    wellFormed_empty).mpr hkeeps.resolved
  refine ⟨hkeeps.root_eq, ⟨text', htext'⟩, Sound.holdings_subset ?_ fun r hr => ?_⟩
  · exact ((accounts_moduleAt (s := { s with tree := u }) (Tree.module?_eq_some_iff.mpr hm'))
      ⟨{}, {}⟩ sound_empty).1
  · refine (has_moduleText_iff hm htext r).mpr ?_
    exact ((has_moduleText_iff hm' htext' r).mp hr).imp_right fun hbody => hrequests hbody

/-- The test of all nodes can be run. -/
theorem Tree.pairedRaises_of_nodes
    (h : ∀ n ∈ Node.absent :: t.nodes.toList, n.kind.isPaired = true) : t.PairedRaises :=
  fun n _ => h _ (t.node_mem n)

def raisingCallPositions : List Position :=
  [(.sequence, ⟨1⟩), (.statement, ⟨2⟩), (.statement, ⟨11⟩), (.expression, ⟨3⟩), (.expression, ⟨4⟩),
    (.expression, ⟨5⟩), (.expression, ⟨6⟩), (.expression, ⟨7⟩), (.expression, ⟨8⟩),
    (.expression, ⟨9⟩), (.expression, ⟨10⟩), (.expression, ⟨12⟩)]

/-- A raise among the arguments of a call. -/
theorem moduleText_propagateRaises_raisingCall :
    Tree.raisingCall.WellFormed ∧ Tree.raisingCall.root = some ⟨0⟩ ∧
    (∃ m, Tree.raisingCall.kind ⟨0⟩ = .module m) ∧ Tree.raisingCall.Unspaced ⟨0⟩ ∧
    Tree.raisingCall.PairedRaises ∧
    (∃ text, (Tree.raisingCall.moduleText {} ⟨0⟩ "raising" {}).1 = .ok text) ∧
    (∃ text, (Tree.raisingCall.propagateRaises.tree.moduleText {} ⟨0⟩ "raising" {}).1 = .ok text) ∧
    (Tree.raisingCall.propagateRaises.tree.moduleText {} ⟨0⟩ "raising" {}).2.constants.keys ⊆
      (Tree.raisingCall.moduleText {} ⟨0⟩ "raising" {}).2.constants.keys := by
  have hmodule : ∃ m, Tree.raisingCall.kind ⟨0⟩ = .module m := ⟨_, rfl⟩
  have hnames : Tree.raisingCall.Unspaced ⟨0⟩ := Tree.unspaced_of_nodes (by decide +kernel)
  have hpaired : Tree.raisingCall.PairedRaises := Tree.pairedRaises_of_nodes (by decide +kernel)
  obtain ⟨hparent, htree⟩ := Tree.wellFormed_raisingCall ⟨0⟩ rfl
  have hclosed : ∀ q ∈ raisingCallPositions, (Tree.raisingCall.kind q.2).fits false q.1 = true ∧
      ∀ r ∈ Tree.raisingCall.positions q.2, r ∈ raisingCallPositions := by decide +kernel
  obtain ⟨text, htext⟩ :
      ∃ text, (Tree.raisingCall.moduleText {} ⟨0⟩ "raising" {}).1 = .ok text :=
    (isOk_moduleText_iff htree hparent hmodule hnames wellFormed_empty).mpr fun q hq =>
      Tree.resolved_of_closed hclosed q (by
        rw [List.mem_singleton.mp hq]
        exact List.mem_cons_self)
  obtain ⟨-, htext', hkeys, -⟩ :=
    moduleText_propagateRaises Tree.wellFormed_raisingCall rfl hmodule hnames hpaired htext
  exact ⟨Tree.wellFormed_raisingCall, rfl, hmodule, hnames, hpaired, ⟨text, htext⟩, htext', hkeys⟩

end CompilerBackend
