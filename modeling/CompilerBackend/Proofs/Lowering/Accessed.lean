import CompilerBackend.Proofs.Lowering.ChargedStatements
import CompilerBackend.Proofs.Lowering.Distinct
/-!
# How often a module reads a variable

In the text of a module, definitions included, the code of an operand stands once, where it is used.
The one exception are the globals of an import in the module that is given no locals: they are used
for both. So if a single node refers to a variable that a function or class stores, the text reads
it at most once, unless the node is in such globals.

- `covers_load`: the counts of nodes cover what the codes of the nodes read.
- `moduleText_accesses`: how often the text reads a variable.
-/

namespace CompilerBackend

open Program Target Lowering Text

variable {t : Tree} {options : Options} {root : NodeId} {moduleName text : String} {p : Program}
  {a : LocalAccess}

/-- Each node counts for what its code reads. -/
theorem covers_load (h : t.IsTree root) (hp : t.parent root = none) (hplain : t.Plain root)
    (hquiet : ∀ n, t.Reaches root n → ∀ s ∈ (t.location n).file :: (t.kind n).titles,
      a.count s = 0) :
    a.Covers ⟨t, options, moduleName, moduleIdentifier moduleName⟩ root
      (t.load (NodeKind.refersTo a.name)) where
  codeName := isIdentifier_moduleIdentifier moduleName
  names := hplain
  files hn := hquiet _ (h.reaches_of_connected hp hn) _ List.mem_cons_self
  titles hn title hmem :=
    hquiet _ (h.reaches_of_connected hp hn) title (List.mem_cons_of_mem _ hmem)
  dues hn := (h.load_eq hp (h.reaches_of_connected hp hn)).ge

/-- What a module reads is charged to its body. -/
theorem count_moduleEnd_le {m : Module} (hparen : ')' ∉ moduleName.toList)
    (hv : ∀ v ∈ m.globals ++ m.temporaries, IsIdentifier v.name)
    {codes : Option (List String)} {g : Progress} (hwf : g.program.WellFormed)
    (htext : (moduleEnd m moduleName (.ok codes, g)).1 = .ok text) :
    a.count text ≤ a.registered g.scopes + a.total (codes.getD []) := by
  obtain ⟨-, hglobals, hopening⟩ := Interned.given (w := .lax False False)
    (fun _ => LocalAccess.interned_total_moduleOpening (a := a) hparen hv) hwf
  have hbottom : a.held g.scopes.bottom ≤ a.registered g.scopes :=
    List.le_sum_of_mem (List.mem_map_of_mem (List.mem_append_right _ List.mem_cons_self))
  have hcount := LocalAccess.count_moduleLayout hparen hglobals (definitionsOf g.scopes.bottom)
    ((moduleOpening m moduleName g.program).1.2 ++ codes.getD [])
  rw [LocalAccess.total_append, hopening, Nat.zero_add] at hcount
  rw [← Except.ok.inj htext]
  exact hcount.trans_le (Nat.add_le_add_right hbottom _)

theorem count_moduleText_le (h : t.IsTree root) (hp : t.parent root = none)
    (hplain : t.Plain root)
    (hquiet : ∀ n, t.Reaches root n → ∀ s ∈ (t.location n).file :: (t.kind n).titles,
      a.count s = 0)
    (hparen : ')' ∉ moduleName.toList) (hwf : p.WellFormed)
    (htext : (t.moduleText options root moduleName p).1 = .ok text) :
    a.count text ≤ t.load (NodeKind.refersTo a.name) root := by
  obtain ⟨m, hm⟩ := exists_module_of_moduleText htext
  have hkind := Tree.module?_eq_some_iff.mp hm
  have hroot := Tree.Connected.refl t root
  let s : Setting := ⟨t, options, moduleName, moduleIdentifier moduleName⟩
  have hcovers : a.Covers s root (t.load (NodeKind.refersTo a.name)) :=
    covers_load h hp hplain hquiet
  have hv : ∀ v ∈ m.globals ++ m.temporaries, IsIdentifier v.name := fun v hmem =>
    hplain root hroot v.name (by
      rw [hkind]
      exact List.mem_map_of_mem hmem)
  have hchildren : t.children root = m.body.toList := by
    rw [Tree.children, hkind]
    rfl
  have hbody : ∀ c ∈ m.body, t.Connected root c := fun c hc => hroot.child (by
    rw [hchildren]
    exact Option.mem_toList.mpr hc)
  rw [moduleText_eq_end hm] at htext
  dsimp only at htext
  cases hrun : (s.lowerer.optionalSequence m.body).run ⟨p, {}⟩ with
  | mk result g =>
      rw [hrun] at htext
      cases result with
      | error stop => cases htext
      | ok codes =>
          obtain ⟨hwf', n, hcodes, hcharge⟩ := LocalAccess.charges_optionalSequence
            (LocalAccess.within_ofDepth hcovers s.depthBound) hbody hwf hrun
          have hcount := count_moduleEnd_le (a := a) hparen hv hwf' htext
          have hpaid := hcovers.children_le hroot
          rw [show s.tree.children root = _ from hchildren] at hpaid
          -- the scopes are empty at first: all that they hold at the end was charged on the way
          rw [LocalAccess.registered_empty, Nat.zero_add] at hcharge
          omega

/-- In a tree all names are plain, and no title and no name of a file reads the variable. Then the
text of the module, with all definitions in it, reads it at most once for each node that refers to
it, and twice as often in the globals of an import that are its locals too. So if a single node
refers to it, and in no such globals, the text reads it once at most. -/
theorem moduleText_accesses (h : t.IsTree root) (hp : t.parent root = none) (hplain : t.Plain root)
    (hquiet : ∀ n, t.Reaches root n → ∀ s ∈ (t.location n).file :: (t.kind n).titles,
      a.count s = 0)
    (hparen : ')' ∉ moduleName.toList) (hreached : p.Reached)
    (htext : (t.moduleText options root moduleName p).1 = .ok text) :
    a.count text ≤ ((t.preOrder root).map fun n =>
        if (t.kind n).refersTo a.name then 2 ^ t.repetitions n else 0).sum ∧
      ∀ m, (∀ n, t.Reaches root n → (t.kind n).refersTo a.name = true → n = m) →
        a.count text ≤ 2 ^ t.repetitions m := by
  have hle := count_moduleText_le h hp hplain hquiet hparen hreached.wellFormed htext
  exact ⟨hle.trans_eq (Tree.load_top hp), fun m hone => hle.trans (h.load_top_le hp hone)⟩

/-- The module `__import__("os", g)`, with `g` of a function. -/
def sharingImport : Tree where
  nodes :=
    let entry (kind : NodeKind) (parent : Option NodeId) : Node :=
      ⟨kind, parent, { file := "spam.py", line := 1 }⟩
    #[entry (.module { name := "spam", filename := "spam.py", body := some ⟨1⟩ }) none,
      entry (.sequence [⟨2⟩]) (some ⟨0⟩),
      entry (.stmt (.expression ⟨3⟩)) (some ⟨1⟩),
      entry (.expr (.builtinImport ⟨4⟩ none (some ⟨5⟩) none none)) (some ⟨2⟩),
      entry (.expr (.constant (.str "os"))) (some ⟨3⟩),
      entry (.expr (.variableRef "g" (some ⟨"g", .functionLocal⟩))) (some ⟨3⟩)]
  root := some ⟨0⟩

/-- The globals are in the text twice: once as they are, and once in place of the locals. -/
theorem moduleText_accesses_sharingImport :
    sharingImport.IsTree ⟨0⟩ ∧ sharingImport.parent ⟨0⟩ = none ∧ sharingImport.Plain ⟨0⟩ ∧
    ')' ∉ "spam".toList ∧ Program.Reached {} ∧
    ∃ (a : LocalAccess) (text : String), a.name = "g" ∧
      (∀ n, sharingImport.Reaches ⟨0⟩ n →
        ∀ s ∈ (sharingImport.location n).file :: (sharingImport.kind n).titles, a.count s = 0) ∧
      (∀ n, sharingImport.Reaches ⟨0⟩ n → (sharingImport.kind n).refersTo "g" = true → n = ⟨5⟩) ∧
      (sharingImport.moduleText {} ⟨0⟩ "spam" {}).1 = .ok text ∧
      a.count text = 2 ∧ a.count text ≤ 2 ^ sharingImport.repetitions ⟨5⟩ ∧
      sharingImport.repetitions ⟨5⟩ = 1 := by
  have hwf : sharingImport.WellFormed :=
    Tree.WellFormed.of_arena rfl rfl (by decide) (by decide +kernel)
  have htree : sharingImport.IsTree ⟨0⟩ := (hwf ⟨0⟩ rfl).2
  have hplain : sharingImport.Plain ⟨0⟩ := Tree.plain_of_nodes (by decide +kernel)
  have hparen : ')' ∉ "spam".toList := by decide +kernel
  let a : LocalAccess := ⟨"g", List.all_eq_true.mp (by decide +kernel)⟩
  have htexts : (Node.absent :: sharingImport.nodes.toList).all (fun n =>
      (n.location.file :: n.kind.titles).all (!·.toList.contains ')')) = true := by decide +kernel
  have hquiet : ∀ n, sharingImport.Reaches ⟨0⟩ n →
      ∀ s ∈ (sharingImport.location n).file :: (sharingImport.kind n).titles, a.count s = 0 := by
    intro n _ s hs
    have hmiss := List.all_eq_true.mp (List.all_eq_true.mp htexts _ (sharingImport.node_mem n)) s hs
    exact LocalAccess.count_of_not_mem (c := ')') (by decide) (by simpa using hmiss)
  have hreferences : (sharingImport.preOrder ⟨0⟩).all (fun n =>
      !(sharingImport.kind n).refersTo "g" || n == ⟨5⟩) = true := by decide +kernel
  have hone : ∀ n, sharingImport.Reaches ⟨0⟩ n →
      (sharingImport.kind n).refersTo a.name = true → n = ⟨5⟩ := by
    intro n hn hrefers
    have hnode := List.all_eq_true.mp hreferences n (htree.mem_preOrder.mpr hn)
    rw [show (sharingImport.kind n).refersTo "g" = true from hrefers] at hnode
    simpa using hnode
  have hcheck : (sharingImport.moduleText {} ⟨0⟩ "spam" {}).1.toOption.any (fun text =>
      (codes text).all (· < 128) && occurrencesIn
        ((localStorage "g" ++ ".asObject()").toList.map Char.toNat) false (codes text) == 2) =
      true := by decide +kernel
  cases htext : (sharingImport.moduleText {} ⟨0⟩ "spam" {}).1 with
  | error stop =>
      rw [htext] at hcheck
      exact Bool.noConfusion hcheck
  | ok text =>
      rw [htext] at hcheck
      have hchecked := (Bool.and_eq_true _ _).mp hcheck
      have htwice : a.count text = 2 :=
        (occurrences_eq_of_ascii hchecked.1).trans (beq_iff_eq.mp hchecked.2)
      have hbound := (moduleText_accesses htree rfl hplain hquiet hparen Program.Reached.empty
        htext).2 ⟨5⟩ hone
      exact ⟨htree, rfl, hplain, hparen, Program.Reached.empty, a, text, rfl, hquiet, hone, rfl,
        htwice, hbound, by decide +kernel⟩

end CompilerBackend
