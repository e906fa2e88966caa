import CompilerBackend.Proofs.Lowering.PairedStatements
import CompilerBackend.Proofs.Program.Reached
/-!
# Brackets of generated code

Where names are plain and execution is not traced, parentheses and braces are nested in all that an
expression, a condition or a statement becomes, whatever scopes are open and whatever the program
holds. Each is paired with itself: what is known of two lowerings is then known of the one.

- `Tree.Plain`: the names that a lowering can come to are plain.
- `lowering_nested`: operands, conditions and statements.
-/

namespace CompilerBackend

open Text Target Lowering

def Tree.Plain (t : Tree) (top : NodeId) : Prop :=
  ∀ n, t.Connected top n → ∀ name ∈ (t.kind n).names, ∀ c ∈ name.toList, isNameChar c = true

variable {s : Setting} {id : NodeId}

theorem grounded_plain (hcode : IsIdentifier s.codeName) (hnames : s.tree.Plain id) :
    Grounded (Wording.lax True False) s False id :=
  grounded_lax hcode False.elim fun n hn name hname =>
    ⟨fun _ => hnames n hn name hname, False.elim⟩

/-- The lowerings of nodes, each paired with itself. -/
theorem pairs_plain (hcode : IsIdentifier s.codeName) (hnames : s.tree.Plain id)
    (htrace : s.options.traceExecution = false) (levels : Nat) :
    (Lowerer.ofDepth (s.tracing false) levels).Pairs s (Wording.lax True False) id
      (Lowerer.ofDepth s levels) :=
  pairs_ofDepth (grounded_plain hcode hnames) (lax_lax True False) (Or.inl trivial)
    (fun h => Bool.noConfusion h) htrace levels

/-- Plain names, no trace: in the code of an operand, in a condition and in the code of a statement
each closing parenthesis or brace closes the latest that is open, and none is left open. The code of
a statement ends like one, unless it is empty. -/
theorem lowering_nested (hcode : IsIdentifier s.codeName) (hnames : s.tree.Plain id)
    (htrace : s.options.traceExecution = false) {g : Progress} (hg : g.program.Reached) :
    (∀ o, ((s.lowerer.expression id).run g).1 = .ok o → Nested o.code.toList) ∧
      (∀ inverted c, ((s.lowerer.condition id inverted).run g).1 = .ok c → Nested c.toList) ∧
      ∀ c, ((s.statement id).run g).1 = .ok c → Nested c.toList ∧ (c = "" ∨ Ends c) := by
  have hpairs := pairs_plain hcode hnames htrace s.depthBound
  have hid := Tree.Connected.refl s.tree id
  have hwf := hg.wellFormed
  refine ⟨fun o ho => ?_, fun inverted c hc => ?_, fun c hc => ?_⟩
  · obtain ⟨_, -, hfine⟩ := (hpairs.expression hid).result hwf ho
    exact (Term.flat hfine trivial).nested
  · obtain ⟨_, -, hterm⟩ := (hpairs.condition inverted hid).result hwf hc
    exact (hterm.flat trivial).nested
  · have hstatement := paired_statement (b := false) (grounded_plain hcode hnames)
      (lax_lax True False) (Or.inl trivial) hpairs hid
    obtain ⟨_, ⟨-, rfl⟩ | htwin⟩ := hstatement.result hwf hc
    · exact ⟨Nested.empty, Or.inl rfl⟩
    · exact ⟨htwin.nested trivial, Or.inr htwin.plain.ends⟩

/-! ## A loop -/

theorem Tree.plain_of_nodes {t : Tree} {top : NodeId}
    (h : ∀ n ∈ Node.absent :: t.nodes.toList,
      n.kind.names.all (·.toList.all isNameChar) = true) : t.Plain top := by
  intro n _
  have hall := h _ (t.node_mem n)
  simp only [List.all_eq_true] at hall
  exact hall

/-- `while True: if x: break`. -/
def searching : Tree where
  nodes :=
    let entry (kind : NodeKind) (parent : Option NodeId) : Node :=
      ⟨kind, parent, { file := "spam.py", line := 1 }⟩
    #[entry (.stmt (.loop (some ⟨1⟩) false)) none,
      entry (.sequence [⟨2⟩]) (some ⟨0⟩),
      entry (.stmt (.conditional ⟨3⟩ (some ⟨4⟩) none)) (some ⟨1⟩),
      entry (.expr (.variableRef "x" (some ⟨"x", .moduleGlobal⟩))) (some ⟨2⟩),
      entry (.sequence [⟨5⟩]) (some ⟨2⟩),
      entry (.stmt (.breakLoop false)) (some ⟨4⟩)]

/-- The blocks of the loop are nested. -/
theorem lowering_nested_searching :
    IsIdentifier "spam" ∧ searching.Plain ⟨0⟩ ∧ ({} : Options).traceExecution = false ∧
    Program.Reached {} ∧
    ∃ c, ((Setting.statement ⟨searching, {}, "spam", "spam"⟩ ⟨0⟩).run {}).1 = .ok c ∧ c ≠ "" ∧
      Nested c.toList ∧ Ends c := by
  have hcode : IsIdentifier "spam" := List.all_eq_true.mp (by decide +kernel)
  have hnames : searching.Plain ⟨0⟩ := Tree.plain_of_nodes (by decide +kernel)
  have hcheck : ((Setting.statement ⟨searching, {}, "spam", "spam"⟩ ⟨0⟩).run {}).1.toOption.any
      (· != "") = true := by decide +kernel
  obtain ⟨c, hc, hne⟩ : ∃ c, ((Setting.statement ⟨searching, {}, "spam", "spam"⟩ ⟨0⟩).run {}).1 =
      .ok c ∧ c ≠ "" := by
    cases hresult : ((Setting.statement ⟨searching, {}, "spam", "spam"⟩ ⟨0⟩).run {}).1 with
    | ok c =>
        rw [hresult] at hcheck
        exact ⟨c, rfl, bne_iff_ne.mp hcheck⟩
    | error stop =>
        rw [hresult] at hcheck
        exact Bool.noConfusion hcheck
  obtain ⟨hnested, hends⟩ :=
    (lowering_nested (s := ⟨searching, {}, "spam", "spam"⟩) hcode hnames rfl (g := {})
      Program.Reached.empty).2.2 c hc
  exact ⟨hcode, hnames, rfl, Program.Reached.empty, c, hc, hne, hnested, hends.resolve_left hne⟩

end CompilerBackend
