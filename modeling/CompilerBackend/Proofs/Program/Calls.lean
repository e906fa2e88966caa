import CompilerBackend.Proofs.Program.Helpers
import CompilerBackend.Proofs.Program.Stable
/-!
# Calls of helpers

The text of a module builds its containers by helpers, which are defined in a text that is made
later, from the sizes that the program has recorded. Where no name contains `MAKE_`, a token of
the text that begins like a helper is one of a recorded size, called with the arguments that its
definition takes.

- `Tree.MakeFree`: what is assumed of the names in a tree.
- `Lands`: the parameters that receive an entry of a dict.
- `moduleText_helperCalls`: the calls in a module's text and the definitions in any later program.
-/

namespace CompilerBackend

open Program Target Lowering Text

variable {t : Tree} {options : Options} {root : NodeId} {moduleName : String} {p : Program}

/-! ## Names -/

def MakeFree (s : String) : Prop := ¬ "MAKE_".toList <:+: s.toList

/-- Names that go into target text are plain, and neither they nor titles and file names contain
`MAKE_`. -/
def Tree.MakeFree (t : Tree) (root : NodeId) : Prop :=
  ∀ n, t.Connected root n → CompilerBackend.MakeFree (t.location n).file ∧
    (∀ name ∈ (t.kind n).names, ∀ c ∈ name.toList, isNameChar c = true) ∧
    ∀ name ∈ (t.kind n).names ++ (t.kind n).titles, CompilerBackend.MakeFree name

/-- A name of a module, made of plain names and dots. -/
def IsDotted (moduleName : String) : Prop :=
  ∀ c ∈ moduleName.toList, isNameChar c = true ∨ c = '.'

/-- The operands are lowered from the keys and values of a dict that the tree makes somewhere. -/
def Setting.Makes (s : Setting) (top : NodeId) (keys values : List Operand) : Prop :=
  ∃ n levels, s.tree.Connected top n ∧
    (Lowerer.ofDepth s levels).Gives ((s.tree.kind n).entries.map (·.1)) keys ∧
    (Lowerer.ofDepth s levels).Gives ((s.tree.kind n).entries.map (·.2)) values

/-- The wording of texts whose calls of helpers are served by a program. -/
def Wording.calling (s : Setting) (top : NodeId) (p : Program) : Wording where
  program := p
  stray _ := True
  converts _ := True
  tight := False
  absent _ := False
  plain := True
  apart := True
  pairs := s.Makes top

variable {s : Setting} {w : Wording}

theorem Helper.start_eq (h : Helper) : ∃ c rest, c ≠ '_' ∧
    h.start.toList = "MAKE".toList ++ '_' :: c :: rest := by
  cases h with
  | tuple => exact ⟨'T', "UPLE".toList, by decide, by decide +kernel⟩
  | list => exact ⟨'L', "IST".toList, by decide, by decide +kernel⟩
  | dict => exact ⟨'D', "ICT".toList, by decide, by decide +kernel⟩

theorem allows_calling (word : String) : (Wording.calling s root p).Allows word :=
  ⟨fun _ => Or.inr trivial, fun _ => trivial⟩

theorem MakeFree.calm {name : String} (h : MakeFree name) :
    Calm (Wording.calling s root p) name := by
  refine fun word hword => ⟨allows_calling word, fun _ ⟨k, hk⟩ => h ?_⟩
  obtain ⟨c, rest, -, hstart⟩ := k.start_eq
  obtain ⟨before, behind, hsplit, -⟩ := hword
  obtain ⟨more, hmore⟩ := hk
  rw [hsplit, ← hmore, hstart]
  exact ⟨before, c :: rest ++ more ++ behind, by simp⟩

/-- A single token that does not begin like a helper. -/
theorem calm_of_token {name : String} (hname : ∀ c ∈ name.toList, isNameChar c = true)
    (hlike : ¬ IsHelperLike name) : Calm (Wording.calling s root p) name := by
  intro word hword
  rw [String.toList_inj.mp (IsRun.eq_of_name hname hword)]
  exact ⟨allows_calling name, fun _ => hlike⟩

/-- A name glued to name characters, of which the first one begins no helper. -/
theorem calm_glued {a name b : String}
    (ha : (a.toList.all isNameChar && a.toList.head?.any (· != 'M')) = true)
    (hname : ∀ c ∈ name.toList, isNameChar c = true) (hb : b.toList.all isNameChar = true) :
    Calm (Wording.calling s root p) (a ++ name ++ b) := by
  rw [Bool.and_eq_true, List.all_eq_true, Option.any_eq_true] at ha
  obtain ⟨ha, c, hhead, hc⟩ := ha
  refine calm_of_token (fun d hd => ?_) fun ⟨k, rest, hrest⟩ => bne_iff_ne.mp hc ?_
  · rw [String.toList_append, String.toList_append, List.mem_append, List.mem_append] at hd
    exact hd.elim (fun hd => hd.elim (ha d) (hname d)) (List.all_eq_true.mp hb d)
  · have hfirst := congrArg List.head? hrest
    rw [String.toList_append, String.toList_append, List.append_assoc, List.head?_append,
      List.head?_append, hhead] at hfirst
    exact (Option.some.inj (hfirst.symm.trans (by cases k <;> rfl)))

theorem calm_gluedTexts {k : NodeKind}
    (hplain : ∀ name ∈ k.names, ∀ c ∈ name.toList, isNameChar c = true) :
    ∀ text ∈ k.gluedTexts, Calm (Wording.calling s root p) text := by
  intro text htext
  unfold NodeKind.gluedTexts at htext
  split at htext
  next name =>
    rw [List.mem_singleton.mp htext]
    exact calm_glued (by decide +kernel) (hplain name List.mem_cons_self) (by decide +kernel)
  next f =>
    rw [List.mem_singleton.mp htext, implementationName]
    split
    all_goals
      exact calm_glued (by decide +kernel) (hplain f.codeName List.mem_cons_self)
        (by decide +kernel)
  next =>
    exact nomatch htext

/-- What a module's identifier begins with up to its first underscore, its name begins with. -/
theorem prefix_of_flatMap_identifierChars {cs before : List Char} {c : Char}
    (hcs : ∀ d ∈ cs, isNameChar d = true ∨ d = '.') (hbefore : '_' ∉ before) (hc : c ≠ '_')
    (h : before ++ ['_', c] <+: cs.flatMap identifierChars) : before ++ ['_'] <+: cs := by
  induction before generalizing cs with
  | nil =>
      cases cs with
      | nil => exact absurd h (by simp)
      | cons d cs =>
          rw [List.flatMap_cons, identifierChars] at h
          split_ifs at h with hdot hname
          · simp [hc] at h
          · have hd : '_' = d := (List.cons_prefix_cons.mp h).1
            rw [List.nil_append, hd]
            exact List.prefix_append [d] cs
          · exact absurd (hcs d List.mem_cons_self) (by simp [hdot, hname])
  | cons b before ih =>
      rw [List.mem_cons, not_or] at hbefore
      cases cs with
      | nil => exact absurd h (by simp)
      | cons d cs =>
          rw [List.flatMap_cons, identifierChars] at h
          split_ifs at h with hdot hname
          · exact absurd (List.cons_prefix_cons.mp h).1.symm hbefore.1
          · obtain ⟨rfl, hmore⟩ := List.cons_prefix_cons.mp h
            exact List.cons_prefix_cons.mpr
              ⟨rfl, ih (fun e he => hcs e (List.mem_cons_of_mem _ he)) hbefore.2 hmore⟩
          · exact absurd (hcs d List.mem_cons_self) (by simp [hdot, hname])

theorem MakeFree.calm_moduleIdentifier (h : CompilerBackend.MakeFree moduleName)
    (hdotted : IsDotted moduleName) :
    Calm (Wording.calling s root p) (moduleIdentifier moduleName) := by
  refine calm_of_token (isIdentifier_moduleIdentifier moduleName) fun ⟨k, hk⟩ => h ?_
  obtain ⟨c, rest, hc, hstart⟩ := k.start_eq
  have hmake : "MAKE_".toList = "MAKE".toList ++ ['_'] := by decide +kernel
  have hchars : (moduleIdentifier moduleName).toList =
      moduleName.toList.flatMap identifierChars := String.toList_ofList
  have hbegin : "MAKE".toList ++ ['_', c] <+: "MAKE".toList ++ '_' :: c :: rest :=
    (List.prefix_append_right_inj _).mpr (List.prefix_append ['_', c] rest)
  rw [hstart, hchars] at hk
  rw [hmake]
  exact (prefix_of_flatMap_identifierChars hdotted (by decide +kernel) hc (hbegin.trans hk)).isInfix

/-! ## Entries of a dict -/

/-- Two arguments for each member of a list. -/
theorem getElem?_pairs {α β : Type} (f g : α → β) (l : List α) (i : Nat) :
    (l.flatMap fun a => [f a, g a])[2 * i]? = l[i]?.map f ∧
      (l.flatMap fun a => [f a, g a])[2 * i + 1]? = l[i]?.map g := by
  induction l generalizing i with
  | nil => exact ⟨rfl, rfl⟩
  | cons a l ih =>
      cases i with
      | zero => exact ⟨rfl, rfl⟩
      | succ i =>
          obtain ⟨hf, hg⟩ := ih i
          exact ⟨hf, hg⟩

/-- An entry of a dict lands in the parameters for its place, the value before the key, and the
body stores the one under the other. -/
structure Lands (d : HelperDefinition) (arguments : List String) (i : Nat) (key value : String) :
    Prop where
  value : (d.parameters.zip arguments)[2 * i]? = some ("PyObject *value" ++ toString i, value)
  key : (d.parameters.zip arguments)[2 * i + 1]? = some ("PyObject *key" ++ toString i, key)
  stored : indentLine (terminated (applied "PyDict_SetItem"
    ["result", "key" ++ toString i, "value" ++ toString i])) ∈ d.body

theorem lands_dict {keys values : List Operand} {i n : Nat} {k v : Operand}
    (hk : keys[i]? = some k) (hv : values[i]? = some v) (hi : i < n) :
    Lands (Helper.dict.definition n) ((dictArguments keys values).map trim) i
      (trim k.asArgument) (trim v.asArgument) := by
  have hrange : (List.range n)[i]? = some i := List.getElem?_range hi
  have hentry : (keys.zip values)[i]? = some (k, v) :=
    List.getElem?_zip_eq_some.mpr ⟨hk, hv⟩
  obtain ⟨hfirst, hsecond⟩ := getElem?_pairs (fun i : Nat => "PyObject *value" ++ toString i)
    (fun i => "PyObject *key" ++ toString i) (List.range n) i
  obtain ⟨hvalue, hkey⟩ := getElem?_pairs (fun e : Operand × Operand => e.2.asArgument)
    (fun e => e.1.asArgument) (keys.zip values) i
  rw [hrange] at hfirst hsecond
  rw [hentry] at hvalue hkey
  refine ⟨List.getElem?_zip_eq_some.mpr ⟨hfirst, ?_⟩, List.getElem?_zip_eq_some.mpr ⟨hsecond, ?_⟩, ?_⟩
  · rw [List.getElem?_map]
    exact congrArg (Option.map trim) hvalue
  · rw [List.getElem?_map]
    exact congrArg (Option.map trim) hkey
  · refine List.mem_cons_of_mem _ (List.mem_map_of_mem (f := indentLine) ?_)
    exact List.mem_append_left _ (List.mem_cons_of_mem _
      (List.mem_map_of_mem (f := Helper.dict.fill) (List.mem_range.mpr hi)))

theorem length_parameters (h : Helper) (n : Nat) :
    (h.definition n).parameters.length = h.arity n := by
  cases h <;> simp [Helper.definition, Helper.parameters, Helper.arity, Nat.mul_comm]

/-! ## Calls -/

theorem grounded_calling (hnames : t.MakeFree root) :
    Grounded (Wording.calling ⟨t, options, moduleName, moduleIdentifier moduleName⟩ root p)
      ⟨t, options, moduleName, moduleIdentifier moduleName⟩ False root where
  pairs hn hkeys hvalues _ := ⟨_, _, hn, hkeys, hvalues⟩
  tight := False.elim
  codeName := (isIdentifier_moduleIdentifier moduleName).codeNamed
  suits n hn := by
    obtain ⟨hfile, hplain, hfree⟩ := hnames n hn
    refine ⟨⟨hfile.calm, False.elim, fun _ _ _ => False.elim⟩, fun name hmem =>
      ⟨⟨?_, False.elim, fun _ _ _ => False.elim⟩, fun _ => hplain name hmem⟩, fun name hmem => ?_,
      fun s hs => (calm_gluedTexts hplain s hs).worded,
      fun _ => allows_calling _⟩
    · exact (hfree name (List.mem_append_left _ hmem)).calm
    · exact (hfree name (List.mem_append_right _ hmem)).calm

theorem serves_moduleText (hnames : t.MakeFree root) (hmodule : CompilerBackend.MakeFree moduleName)
    (hdotted : IsDotted moduleName) (hp : p.WellFormed) {text : String}
    (htext : (t.moduleText options root moduleName p).1 = .ok text) {h : Helper} {word : String}
    {behind : List Char} (hword : IsTokenBefore word behind text)
    (hstart : h.start.toList <+: word.toList) :
    (Wording.calling ⟨t, options, moduleName, moduleIdentifier moduleName⟩ root
      (t.moduleText options root moduleName p).2).Serves h word behind :=
  (((moduleText_of_meets (meets_moduleAt (grounded_calling hnames) hmodule.calm
    (hmodule.calm_moduleIdentifier hdotted).worded) hp rfl).1 text htext) word behind hword).2
      ⟨trivial, trivial⟩ h hstart

/-- The program has recorded the size, and its text for the helpers defines the one for that size
once. -/
structure Program.Answers (q : Program) (h : Helper) (n : Nat) : Prop where
  recorded : n ∈ h.sizes q
  defined : (definitionsIn (helpersText q)).filter (·.name == h.name n) = [h.definition n]

theorem Program.Sound.answers {q r : Program} (hq : q.Sound) (hr : q.Later r) {h : Helper} {n : Nat}
    (hn : n ∈ h.sizes q) : r.Answers h n := by
  obtain ⟨hsound, hext⟩ := hq.later hr
  have hmem : n ∈ h.sizes r := by
    cases h with
    | tuple => exact hext.tuples n hn
    | list => exact hext.lists n hn
    | dict => exact hext.dicts n hn
  exact ⟨hmem, hsound.defined hmem⟩

/-- Plain names without `MAKE_`: a token of a module's text that begins like a helper is the one
for some size, called with as many arguments as its definition has parameters. The program after
the translation, and any later one, has recorded the size and defines the helper once. The
arguments of a dict are the keys and values of one that the tree makes, and each entry lands in
the parameters for its place. -/
theorem moduleText_helperCalls (hnames : t.MakeFree root)
    (hmodule : CompilerBackend.MakeFree moduleName) (hdotted : IsDotted moduleName)
    (hp : p.Reached) {text : String}
    (htext : (t.moduleText options root moduleName p).1 = .ok text) {h : Helper} {word : String}
    {behind : List Char} (hword : IsTokenBefore word behind text)
    (hstart : h.start.toList <+: word.toList) :
    ∃ n arguments, word = h.name n ∧ callArguments? behind = some arguments ∧
      arguments.length = h.arity n ∧ (h.definition n).parameters.length = h.arity n ∧
      (∀ q, (t.moduleText options root moduleName p).2.Later q → q.Answers h n) ∧
      (h = .dict → ∃ keys values, keys.length = n ∧ values.length = n ∧
        Setting.Makes ⟨t, options, moduleName, moduleIdentifier moduleName⟩ root keys values ∧
        ∀ i k v, keys[i]? = some k → values[i]? = some v →
          Lands (h.definition n) arguments i (trim k.asArgument) (trim v.asArgument)) := by
  obtain ⟨n, hn, hname, arguments, hread, hlength, hdict⟩ :=
    serves_moduleText hnames hmodule hdotted hp.wellFormed htext hword hstart
  refine ⟨n, arguments, hname, hread, hlength, length_parameters h n,
    fun q hq => hp.sound.moduleText.1.answers hq hn, ?_⟩
  rintro rfl
  obtain ⟨keys, values, hmakes, rfl⟩ := hdict rfl
  obtain ⟨m, levels, -, hkeys, hvalues⟩ := id hmakes
  have hsame : keys.length = values.length := by
    rw [hkeys.length_eq, hvalues.length_eq, List.length_map, List.length_map]
  have hcount : keys.length = n := by
    rw [List.length_map, length_dictArguments hsame, Helper.arity] at hlength
    omega
  refine ⟨keys, values, hcount, hsame.symm.trans hcount, hmakes, fun i k v hk hv => ?_⟩
  refine lands_dict hk hv ?_
  rw [← hcount]
  exact (List.getElem?_eq_some_iff.mp hk).1

/-! ## A dict display -/

/-- Whether a token stands at a place of a text, by their codes. -/
def isTokenAt (place : Nat) (word text : List Nat) : Bool :=
  let behind := text.drop place
  text.all (· < 128) && word.isPrefixOf behind &&
    (text.take place).getLast?.all (!isNameCode ·) &&
    (behind.drop word.length).head?.all (!isNameCode ·)

theorem isToken_of_isTokenAt {place : Nat} {word text : String} (hword : isPlainName word = true)
    (h : isTokenAt place (charCodes word) (codes text) = true) : IsToken word text := by
  simp only [isTokenAt, Bool.and_eq_true, List.all_eq_true, decide_eq_true_eq] at h
  obtain ⟨⟨⟨hascii, hprefix⟩, hbefore⟩, hbehind⟩ := h
  obtain ⟨rest, hrest⟩ := List.isPrefixOf_iff_prefix.mp hprefix
  rw [← hrest, List.drop_left] at hbehind
  have hsplit : text.toList.map Char.toNat =
      (codes text).take place ++ (word.toList.map Char.toNat ++ rest) := by
    rw [← codes_eq_of_ascii hascii, ← charCodes, hrest, List.take_append_drop]
  obtain ⟨before, more, htext, hbeforeCodes, hmore⟩ := List.map_eq_append_iff.mp hsplit
  obtain ⟨middle, behind, rfl, hmiddle, rfl⟩ := List.map_eq_append_iff.mp hmore
  have hinjective : Function.Injective Char.toNat := fun c d hcd => Char.ext (UInt32.toNat_inj.mp hcd)
  obtain rfl : middle = word.toList := List.map_injective_iff.mpr hinjective hmiddle
  refine ⟨before, behind, htext, ?_, isNameChar_of_mem_plain hword, fun c hc => ?_, fun c hc => ?_⟩
  · intro hnil
    rw [String.toList_eq_nil_iff.mp hnil] at hword
    exact Bool.noConfusion hword
  · rw [← hbeforeCodes, List.getLast?_map, Option.mem_def.mp hc, Option.map_some] at hbefore
    rw [isNameChar_eq_isNameCode]
    simpa using hbefore
  · rw [List.head?_map, Option.mem_def.mp hc, Option.map_some] at hbehind
    rw [isNameChar_eq_isNameCode]
    simpa using hbehind

theorem MakeFree.of_not_mem {s : String} (h : 'M' ∉ s.toList) : CompilerBackend.MakeFree s :=
  fun hmake => h (hmake.subset (by decide +kernel))

theorem Tree.makeFree_of_nodes (h : ∀ n ∈ Node.absent :: t.nodes.toList,
    ((n.location.file :: n.kind.names ++ n.kind.titles).all (!·.toList.contains 'M') &&
      n.kind.names.all (·.toList.all isNameChar)) = true) : t.MakeFree root := by
  intro n _
  have hall := h _ (t.node_mem n)
  simp only [Bool.and_eq_true, List.all_eq_true, Bool.not_eq_true', List.contains_eq_mem,
    decide_eq_false_iff_not, List.cons_append, List.forall_mem_cons] at hall
  obtain ⟨⟨hfile, hfree⟩, hplain⟩ := hall
  exact ⟨.of_not_mem hfile, hplain, fun name hname => .of_not_mem (hfree name hname)⟩

/-- The module `{x: "spam"}`. -/
def dictDisplay : Tree where
  nodes :=
    let entry (kind : NodeKind) (parent : Option NodeId) : Node :=
      ⟨kind, parent, { file := "spam.py", line := 1 }⟩
    #[entry (.module { name := "spam", filename := "spam.py", body := some ⟨1⟩ }) none,
      entry (.sequence [⟨2⟩]) (some ⟨0⟩),
      entry (.stmt (.expression ⟨3⟩)) (some ⟨1⟩),
      entry (.expr (.makeDict [(⟨4⟩, ⟨5⟩)])) (some ⟨2⟩),
      entry (.expr (.variableRef "x" (some ⟨"x", .moduleGlobal⟩))) (some ⟨3⟩),
      entry (.expr (.constant (.str "spam"))) (some ⟨3⟩)]
  root := some ⟨0⟩

/-- The display is made by the helper for one entry. -/
theorem moduleText_helperCalls_dictDisplay :
    dictDisplay.MakeFree ⟨0⟩ ∧ CompilerBackend.MakeFree "spam" ∧ IsDotted "spam" ∧
    Program.Reached {} ∧ Helper.dict.start.toList <+: "MAKE_DICT1".toList ∧
    ∃ text behind, (dictDisplay.moduleText {} ⟨0⟩ "spam" {}).1 = .ok text ∧
      IsTokenBefore "MAKE_DICT1" behind text ∧
      (dictDisplay.moduleText {} ⟨0⟩ "spam" {}).2.Answers .dict 1 ∧
      ∃ arguments, callArguments? behind = some arguments ∧ arguments.length = 2 := by
  have hnames : dictDisplay.MakeFree ⟨0⟩ := Tree.makeFree_of_nodes (by decide +kernel)
  have hmodule : CompilerBackend.MakeFree "spam" := .of_not_mem (by decide +kernel)
  have hdotted : IsDotted "spam" := fun c hc =>
    Or.inl (isNameChar_of_mem_plain (by decide +kernel) c hc)
  have hstart : Helper.dict.start.toList <+: "MAKE_DICT1".toList := by decide +kernel
  have hcheck : (dictDisplay.moduleText {} ⟨0⟩ "spam" {}).1.toOption.any
      (fun text => isTokenAt 429 (charCodes "MAKE_DICT1") (codes text)) = true := by decide +kernel
  obtain ⟨text, htext, htoken⟩ : ∃ text, (dictDisplay.moduleText {} ⟨0⟩ "spam" {}).1 = .ok text ∧
      isTokenAt 429 (charCodes "MAKE_DICT1") (codes text) = true := by
    cases hresult : (dictDisplay.moduleText {} ⟨0⟩ "spam" {}).1 with
    | ok text =>
        rw [hresult] at hcheck
        exact ⟨text, rfl, hcheck⟩
    | error stop =>
        rw [hresult] at hcheck
        exact Bool.noConfusion hcheck
  obtain ⟨behind, hword⟩ :=
    isToken_iff_before.mp (isToken_of_isTokenAt (by decide +kernel) htoken)
  obtain ⟨n, arguments, hname, hread, hlength, -, hanswers, -⟩ :=
    moduleText_helperCalls hnames hmodule hdotted Program.Reached.empty htext hword hstart
  obtain ⟨-, rfl⟩ : Helper.dict = Helper.dict ∧ 1 = n := by
    rw [← Helper.name_inj, ← hname]
    decide +kernel
  exact ⟨hnames, hmodule, hdotted, Program.Reached.empty, hstart, text, behind, htext, hword,
    hanswers _ Relation.ReflTransGen.refl, arguments, hread, hlength⟩

end CompilerBackend
