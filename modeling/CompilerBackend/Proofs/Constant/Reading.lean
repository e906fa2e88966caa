import CompilerBackend.Proofs.Constant.Sharing
import CompilerBackend.Target.Operation
/-!
# Values of target text

Code that only names, copies and builds constants can be read back. A name stands for an entry of
the table or for a constant of the runtime; a copy and a temporary stand for what they are given;
the helpers of the containers make one of the values of their arguments, in order, those of dicts
of a value and a key at a time.

- `Program.value?`: what code stands for in a program.
- `Program.Spells`: code that stands for a constant, and can be an argument.
- `spells_handle`, `Spells.copied`, `Spells.asArgument`: names, copies and temporaries.
- `spells_tuple`, `spells_list`, `spells_set`, `spells_dict`: containers.
-/

namespace CompilerBackend

open Text Target Program

variable {p : Program} {f code : String} {codes arguments : List String} {c : Constant}
  {cs : List Constant}

/-! ## Reading -/

/-- What a name stands for: a constant of the runtime, or an entry of the table. -/
def Program.named? (p : Program) (name : String) : Option Constant :=
  match Runtime.singletons.lookup name with
  | some c => some c
  | none => (p.table.find? (·.handle = name)).map (·.constant)

/-- The keys and values of a dict, from its values and keys in turn. -/
def entries? : List Constant → Option (List (Constant × Constant))
  | [] => some []
  | [_] => none
  | v :: k :: rest => (entries? rest).map ((k, v) :: ·)

def assembled? (helper : String) (values : List Constant) : Option Constant :=
  if helper = "MAKE_TUPLE" ++ toString values.length then some (.tuple values)
  else if helper = "MAKE_LIST" ++ toString values.length then some (.list values)
  else if helper = "MAKE_DICT" ++ toString (values.length / 2) then (entries? values).map .dict
  else none

def isPassing (helper : String) : Bool :=
  helper == "PyObjectTemporary" || (copyDepth? helper).isSome

def callTail (helper : String) : String :=
  if helper = "PyObjectTemporary" then ".asObject()" else ""

def called? (read : String → Option Constant) (helper : String) :
    List String → Option Constant
  | [] => none
  | first :: rest =>
    if isPassing helper then if rest = [] then read first else none
    else if helper = "MAKE_SET" then
      if first = toString rest.length then (rest.mapM read).map .set else none
    else ((first :: rest).mapM read).bind (assembled? helper)

/-- What code stands for, at most so many levels deep. A call has to be written as calls are. -/
def Program.read? (p : Program) : Nat → String → Option Constant
  | 0, _ => none
  | n + 1, code =>
    let helper := String.ofList (code.toList.takeWhile isNameChar)
    match callArguments? (code.toList.dropWhile isNameChar) with
    | none => p.named? code
    | some arguments =>
      if code = applied helper arguments ++ callTail helper then called? (p.read? n) helper arguments
      else none

def Program.value? (p : Program) (code : String) : Option Constant :=
  p.read? (code.toList.length + 1) code

/-- The code can be an argument, and stands for a constant. -/
structure Program.Spells (p : Program) (code : String) (c : Constant) : Prop extends
    IsArgument code where
  read : ∀ n, code.toList.length < n → p.read? n code = some c

theorem Program.Spells.value (h : p.Spells code c) : p.value? code = some c :=
  h.read _ (Nat.lt_succ_self _)

/-! ## Calls -/

theorem mapM_eq_some_iff {α β : Type} {step : α → Option β} {as : List α} {bs : List β} :
    as.mapM step = some bs ↔ List.Forall₂ (fun a b => step a = some b) as bs := by
  induction as generalizing bs with
  | nil =>
      rw [List.forall₂_nil_left_iff, List.mapM_nil]
      exact ⟨fun h => (Option.some.inj h).symm, fun h => h ▸ rfl⟩
  | cons a as ih =>
      rw [List.mapM_cons, List.forall₂_cons_left_iff]
      constructor
      · intro h
        obtain ⟨b, hb, hrest⟩ := Option.bind_eq_some_iff.mp h
        obtain ⟨rest, hmapped, hend⟩ := Option.bind_eq_some_iff.mp hrest
        exact ⟨b, rest, hb, ih.mp hmapped, (Option.some.inj hend).symm⟩
      · rintro ⟨b, rest, hb, hmapped, rfl⟩
        rw [hb, ih.mpr hmapped]
        rfl

theorem length_le_commaSeparated {s : String} (h : s ∈ codes) :
    s.toList.length ≤ (commaSeparated codes).toList.length := by
  induction codes with
  | nil => exact nomatch h
  | cons a codes ih =>
      cases codes with
      | nil =>
          rw [commaSeparated, String.intercalate_singleton, List.mem_singleton.mp h]
      | cons b codes =>
          rw [commaSeparated, String.intercalate_cons_cons, String.toList_append,
            List.length_append, String.toList_append, List.length_append]
          rcases List.mem_cons.mp h with rfl | h
          · omega
          · have hrest := ih h
            rw [commaSeparated] at hrest
            omega

theorem length_lt_applied {s : String} (h : s ∈ codes) (f : String) (behind : String) :
    s.toList.length < (applied f codes ++ behind).toList.length := by
  have hle := length_le_commaSeparated h
  simp only [applied, String.toList_append, List.length_append]
  have hopen : "( ".toList.length = 2 := rfl
  omega

/-- A call stands for what its helper makes of what the arguments stand for. -/
theorem spells_call (hf : ∀ d ∈ f.toList, isNameChar d = true) (hstarts : Starts f)
    (harguments : ∀ s ∈ arguments, IsArgument s)
    (hcalled : ∀ n, (∀ s ∈ arguments, s.toList.length < n) →
      called? (p.read? n) f arguments = some c) :
    p.Spells (applied f arguments ++ callTail f) c := by
  -- the text behind the call, if there is any, ends the code instead of the parenthesis
  have htail : Flat (callTail f) ∧ ∀ s, Stops s → Stops (s ++ callTail f) := by
    unfold callTail
    split
    · exact ⟨by rw [Flat]; decide, fun s _ =>
        (stops_of_code (a := ".asObject()") (by rfl) (by rfl)).append s⟩
    · exact ⟨flat_empty, fun s hs => by rwa [String.append_empty]⟩
  have hbegins : Starts (applied f arguments ++ callTail f) :=
    (hstarts.applied arguments).append (callTail f)
  have hends : Stops (applied f arguments ++ callTail f) := htail.2 _ (stops_applied f arguments)
  refine ⟨⟨((Flat.of_name hf).applied fun s hs => (harguments s hs).flat.level).append htail.1,
    beq_iff_eq.mp (hasNoMargin_of_solid hbegins hends), hbegins.isBlankText_eq_false⟩,
    fun n hn => ?_⟩
  obtain ⟨n, rfl⟩ : ∃ m, n = m + 1 := ⟨n - 1, by omega⟩
  obtain ⟨hname, hcut⟩ := cut_applied hf harguments (callTail f)
  rw [read?, hcut, hname]
  dsimp only
  rw [if_pos rfl]
  refine hcalled n fun s hs => ?_
  have hlt := length_lt_applied hs f (callTail f)
  omega

/-! ## Names, copies and temporaries -/

theorem spells_name (hplain : isPlainName code = true) (h : p.named? code = some c) :
    p.Spells code c := by
  have hname := isNameChar_of_mem_plain hplain
  refine ⟨IsArgument.of_name hname (ne_empty_of_isPlainName hplain), fun n hn => ?_⟩
  obtain ⟨n, rfl⟩ : ∃ m, n = m + 1 := ⟨n - 1, by omega⟩
  rw [read?, List.dropWhile_eq_nil_iff.mpr hname]
  exact h

theorem spells_singleton {name : String} (h : (name, c) ∈ Runtime.singletons) :
    p.Spells name c := by
  simp only [Runtime.singletons, List.mem_cons, Prod.mk.injEq, List.not_mem_nil, or_false] at h
  rcases h with ⟨rfl, rfl⟩ | ⟨rfl, rfl⟩ | ⟨rfl, rfl⟩ | ⟨rfl, rfl⟩
  all_goals exact spells_name (by decide) rfl

/-- A handle is the name of its entry only. -/
theorem spells_handle (hp : p.WellFormed) {e : TableEntry} (he : e ∈ p.table) :
    p.Spells e.handle e.constant := by
  refine spells_name (hp.isPlainName_handle he) ?_
  obtain ⟨i, hi⟩ := List.mem_iff_getElem?.mp he
  have hstart : handleStart.toList <+: e.handle.toList :=
    hp.numbered hi ▸ handleStart_prefix_newHandle i e.constant
  have hnone : Runtime.singletons.lookup e.handle = none := by
    rw [List.lookup_eq_none_iff]
    have hother : ∀ entry ∈ Runtime.singletons, ¬ handleStart.toList <+: entry.1.toList := by
      simp [Runtime.singletons, handleStart]
    exact fun entry hentry => bne_iff_ne.mpr fun heq => hother entry hentry (heq ▸ hstart)
  have hfound : p.table.find? (·.handle = e.handle) = some e := by
    obtain ⟨found, hfound⟩ : ∃ found, p.table.find? (·.handle = e.handle) = some found :=
      Option.isSome_iff_exists.mp (List.find?_isSome.mpr ⟨e, he, decide_eq_true rfl⟩)
    have hsame : found.handle = e.handle := by simpa using List.find?_some hfound
    rw [hfound, hp.entry_unique (List.mem_of_find?_eq_some hfound) he (Or.inr hsame)]
  rw [named?, hnone, hfound]
  rfl

namespace Program.Spells

/-- A helper that passes on what it is given. -/
theorem passed (h : p.Spells code c) (hf : ∀ d ∈ f.toList, isNameChar d = true) (hstarts : Starts f)
    (hpassing : isPassing f = true) : p.Spells (applied f [code] ++ callTail f) c := by
  refine spells_call hf hstarts (by simpa using h.toIsArgument) fun n hn => ?_
  rw [called?, if_pos hpassing, if_pos rfl]
  exact h.read n (hn code List.mem_cons_self)

theorem copied (h : p.Spells code c)
    (hf : f ∈ ["LIST_COPY", "PyDict_Copy", "PySet_New", "DEEP_COPY"]) :
    p.Spells (applied f [code]) c := by
  obtain ⟨hname, hstarts, hpassing, htail⟩ : isPlainName f = true ∧ isHead f = true ∧
      isPassing f = true ∧ callTail f = "" := by
    revert f
    decide
  have hpassed := h.passed (isNameChar_of_mem_plain hname) (starts_of_isHead hstarts) hpassing
  rwa [htail, String.append_empty] at hpassed

theorem asArgument {o : Operand} (h : p.Spells o.code c) : p.Spells o.asArgument c := by
  unfold Operand.asArgument
  split
  · exact h.passed (f := "PyObjectTemporary") (isNameChar_of_mem_plain (by decide))
      (starts_of_isHead (by rfl)) (by decide)
  · exact h

end Program.Spells

def Program.AllSpell (p : Program) (os : List Operand) (cs : List Constant) : Prop :=
  List.Forall₂ (fun o c => p.Spells o.code c) os cs

theorem Program.AllSpell.asArguments {os : List Operand} (h : p.AllSpell os cs) :
    List.Forall₂ p.Spells (asArguments os) cs :=
  List.forall₂_map_left_iff.mpr (h.imp fun _ _ ho => ho.asArgument)

theorem Program.AllSpell.ne_nil {os : List Operand} (h : p.AllSpell os cs) (hne : cs ≠ []) :
    os ≠ [] := by
  rintro rfl
  exact hne (List.forall₂_nil_left_iff.mp h)

/-! ## Containers -/

theorem isArgument_of_spells (h : List.Forall₂ p.Spells codes cs) : ∀ s ∈ codes, IsArgument s :=
  ((List.forall₂_and_left (R := p.Spells) _ _).mp (h.imp fun _ _ hs => ⟨hs.toIsArgument, hs⟩)).1

/-- Arguments that are short enough are read one by one. -/
theorem mapM_read (h : List.Forall₂ p.Spells codes cs) {n : Nat}
    (hn : ∀ s ∈ codes, s.toList.length < n) : codes.mapM (p.read? n) = some cs :=
  mapM_eq_some_iff.mpr (((List.forall₂_and_left _ _).mpr ⟨hn, h⟩).imp fun _ _ hs => hs.2.read n hs.1)

def sizedStarts : List String := ["MAKE_TUPLE", "MAKE_LIST", "MAKE_DICT"]

section

variable {start : String} {n : Nat}

theorem sized_ne {other : String} (hstart : start ∈ sizedStarts)
    (hother : ¬ ∃ start ∈ sizedStarts, start.toList <+: other.toList) :
    start ++ toString n ≠ other := by
  rintro rfl
  exact hother ⟨start, hstart, by rw [String.toList_append]; exact List.prefix_append _ _⟩

/-- The names of the helpers tell the containers apart. -/
theorem sized_ne_sized {other : String} (hstart : start ∈ sizedStarts) (hother : other ∈ sizedStarts)
    (hne : start ≠ other) (m : Nat) : start ++ toString n ≠ other ++ toString m := by
  intro heq
  have hchars := congrArg String.toList heq
  simp only [sizedStarts, List.mem_cons, List.not_mem_nil, or_false] at hstart hother
  rcases hstart with rfl | rfl | rfl <;> rcases hother with rfl | rfl | rfl
  all_goals first
    | exact hne rfl
    | simp at hchars

theorem not_passing_sized (hstart : start ∈ sizedStarts) :
    isPassing (start ++ toString n) = false := by
  have hne : ∀ other ∈ ["PyObjectTemporary", "DEEP_COPY", "LIST_COPY", "PyDict_Copy", "PySet_New"],
      start ++ toString n ≠ other := fun other hother => sized_ne hstart (by
    revert other
    simp [sizedStarts])
  simp only [List.forall_mem_cons] at hne
  obtain ⟨htemporary, hdeep, hlist, hdict, hset, -⟩ := hne
  rw [isPassing, beq_false_of_ne htemporary, copyDepth?, if_neg hdeep, if_neg (by
    simp only [List.mem_cons, List.not_mem_nil, or_false, not_or]
    exact ⟨hlist, hdict, hset⟩)]
  rfl

/-- The values of arguments, made into a container by the helper of a size. -/
theorem spells_sized (hstart : start ∈ sizedStarts) (h : List.Forall₂ p.Spells codes cs)
    (hne : codes ≠ []) (hassembled : assembled? (start ++ toString n) cs = some c) :
    p.Spells (applied (start ++ toString n) codes) c := by
  have hletters : ∀ start ∈ sizedStarts, isPlainName start = true ∧
      start.toList.head? = some 'M' := by
    decide
  obtain ⟨hplain, hhead⟩ := hletters start hstart
  have hstarts : Starts start := ⟨'M', hhead, by decide, by decide⟩
  have hname : ∀ d ∈ (start ++ toString n).toList, isNameChar d = true := by
    intro d hd
    rw [String.toList_append, List.mem_append] at hd
    exact hd.elim (isNameChar_of_mem_plain hplain d)
      fun hd => isNameChar_of_isDigit (isDigit_of_mem_natural hd)
  have htail : callTail (start ++ toString n) = "" :=
    if_neg (sized_ne hstart (by simp [sizedStarts]))
  rw [← String.append_empty (s := applied _ codes), ← htail]
  refine spells_call hname (hstarts.append _) (isArgument_of_spells h)
    fun m hm => ?_
  have hread := mapM_read h hm
  obtain ⟨first, rest, rfl⟩ := List.exists_cons_of_ne_nil hne
  rw [called?, not_passing_sized hstart, if_neg Bool.false_ne_true,
    if_neg (sized_ne hstart (by simp [sizedStarts])), hread]
  exact hassembled

end

section

variable {os keys values : List Operand} {ks vs : List Constant}

theorem spells_tuple (h : p.AllSpell os cs) (hne : cs ≠ []) :
    p.Spells (applied ("MAKE_TUPLE" ++ toString os.length) (asArguments os)) (.tuple cs) := by
  refine spells_sized (by simp [sizedStarts]) h.asArguments (by simpa [asArguments] using h.ne_nil hne) ?_
  rw [assembled?, if_pos (by rw [h.length_eq])]

theorem spells_list (h : p.AllSpell os cs) (hne : cs ≠ []) :
    p.Spells (applied ("MAKE_LIST" ++ toString os.length) (asArguments os)) (.list cs) := by
  refine spells_sized (by simp [sizedStarts]) h.asArguments (by simpa [asArguments] using h.ne_nil hne) ?_
  rw [assembled?, if_neg (sized_ne_sized (by simp [sizedStarts]) (by simp [sizedStarts])
    (by decide) _), if_pos (by rw [h.length_eq])]

/-- A dict's helper is given a value and a key at a time. -/
theorem dictArguments_spell (hk : p.AllSpell keys ks) (hv : p.AllSpell values vs)
    (hlength : ks.length = vs.length) : ∃ cs,
      List.Forall₂ p.Spells (dictArguments keys values) cs ∧ entries? cs = some (ks.zip vs) ∧
        cs.length = 2 * keys.length := by
  induction hk generalizing values vs with
  | nil => exact ⟨[], List.Forall₂.nil, rfl, rfl⟩
  | cons hkey _ ih =>
      cases hv with
      | nil => exact nomatch hlength
      | cons hvalue hvalues =>
          obtain ⟨cs, hcs, hentries, hcount⟩ := ih hvalues (Nat.succ.inj hlength)
          refine ⟨_, List.Forall₂.cons hvalue.asArgument (.cons hkey.asArgument hcs), ?_, ?_⟩
          · rw [entries?, hentries]
            rfl
          · simp only [List.length_cons, hcount]
            omega

theorem spells_dict (hk : p.AllSpell keys ks) (hv : p.AllSpell values vs)
    (hlength : ks.length = vs.length) (hne : ks ≠ []) :
    p.Spells (applied ("MAKE_DICT" ++ toString keys.length) (dictArguments keys values))
      (.dict (ks.zip vs)) := by
  obtain ⟨cs, hcs, hentries, hcount⟩ := dictArguments_spell hk hv hlength
  refine spells_sized (by simp [sizedStarts]) hcs ?_ ?_
  · rw [← List.length_pos_iff, hcs.length_eq, hcount]
    have hpos := List.length_pos_iff.mpr (hk.ne_nil hne)
    omega
  · have hother : ∀ start ∈ ["MAKE_TUPLE", "MAKE_LIST"], ∀ n m : Nat,
        "MAKE_DICT" ++ toString n ≠ start ++ toString m := fun start hstart n m =>
      sized_ne_sized (by simp [sizedStarts]) (List.mem_append_left ["MAKE_DICT"] hstart)
        (by rintro rfl; simp at hstart) m
    rw [assembled?, if_neg (hother _ (by simp) _ _), if_neg (hother _ (by simp) _ _),
      if_pos (by rw [hcount, Nat.mul_div_cancel_left _ (by decide)]), hentries]
    rfl

theorem spells_set (h : p.AllSpell os cs) :
    p.Spells (applied "MAKE_SET" (toString os.length :: asArguments os)) (.set cs) := by
  have hcount : IsArgument (toString os.length) :=
    .of_name (fun d hd => isNameChar_of_isDigit (isDigit_of_mem_natural hd)) (natural_ne_empty _)
  have harguments := List.forall_mem_cons.mpr ⟨hcount, isArgument_of_spells h.asArguments⟩
  have hcall : p.Spells (applied "MAKE_SET" (toString os.length :: asArguments os) ++
      callTail "MAKE_SET") (.set cs) := by
    refine spells_call (isNameChar_of_mem_plain (by decide)) (starts_of_isHead (by rfl))
      harguments fun n hn => ?_
    rw [called?, if_neg (by decide), if_pos rfl, if_pos (by rw [asArguments, List.length_map]),
      mapM_read h.asArguments (List.forall_mem_cons.mp hn).2]
    rfl
  rwa [show callTail "MAKE_SET" = "" from rfl, String.append_empty] at hcall

end

end CompilerBackend
