import CompilerBackend.Text.Lines
import CompilerBackend.Target.Operation
import CompilerBackend.Proofs.Program.Table
import CompilerBackend.Proofs.Text.Arguments
import CompilerBackend.Proofs.Text.BlankLines
import CompilerBackend.Proofs.Text.Code
import CompilerBackend.Proofs.Text.Token
import Mathlib
/-!
# What target text is made of

Target text is put together from fixed texts, names, numbers and handles. A `Wording` says which
tokens may look like handles, what the calls of helpers may be made of, and what is known of names;
the predicates here are kept by every way in which the writers put texts together.

- `Worded`: each token that begins like a handle is one of the table, or a known stray; each token
  that begins like a helper is one of a recorded size, in front of as many arguments; none begins
  like the conversion to an index, apart from known ones.
- `Calm`: the first half, and no token begins like a helper.
- `Piece`: a worded text on one line, if names hold no blanks.
- `Solid`: a piece that neither begins nor ends with a blank.
- `Phrase`, `Term`: a piece in which parentheses match, and a solid text that is one argument.
- `Piece.lead`, `Piece.sep`, `Piece.tail`: fixed text in front, between and behind.
-/

namespace CompilerBackend

open Text Target Program

/-- The containers that are built by a helper of their size. -/
inductive Helper where
  | tuple
  | list
  | dict
  deriving DecidableEq

namespace Helper

def start : Helper → String
  | .tuple => "MAKE_TUPLE"
  | .list => "MAKE_LIST"
  | .dict => "MAKE_DICT"

def name (h : Helper) (n : Nat) : String := h.start ++ toString n

def sizes (h : Helper) (p : Program) : List Nat :=
  match h with
  | .tuple => p.tuples.sizes
  | .list => p.lists.sizes
  | .dict => p.dicts.sizes

/-- The number of arguments for a size: a dict takes a value and a key for each of its entries. -/
def arity : Helper → Nat → Nat
  | .dict, n => 2 * n
  | _, n => n

end Helper

/-- What the tokens of target text are held to. -/
structure Wording where
  /-- The program whose table handles are looked up in. -/
  program : Program
  /-- Tokens outside the table that begin like a handle all the same. -/
  stray : String → Prop
  /-- Tokens that begin like the conversion to an index all the same. -/
  converts : String → Prop
  /-- Names are known to hold no blanks. -/
  tight : Prop
  /-- Blank characters that names are known not to hold. -/
  absent : Char → Prop
  /-- Names are known to be plain. -/
  plain : Prop
  /-- Names are known not to begin like a helper. -/
  apart : Prop
  /-- The keys and values that dicts are built of. -/
  pairs : List Operand → List Operand → Prop

def indexStart : String := "CONVERT_TO_INDEX"

namespace Wording

def unbroken (w : Wording) : Prop := w.absent '\n'

/-- The calls of helpers can be told from what names bring in. -/
def serving (w : Wording) : Prop := w.plain ∧ w.apart

/-- A token that looks like a handle is one, or a known stray, and one that looks like the
conversion to an index is known. -/
def Allows (w : Wording) (word : String) : Prop :=
  (handleStart.toList <+: word.toList →
    (∃ e ∈ w.program.table, e.handle = word) ∨ w.stray word) ∧
  (indexStart.toList <+: word.toList → w.converts word)

/-- The token is the helper of a recorded size, called in the text behind it with as many arguments
as it takes; those of a dict are values and keys, each value in front of its key. -/
def Serves (w : Wording) (h : Helper) (word : String) (behind : List Char) : Prop :=
  ∃ n ∈ h.sizes w.program, word = h.name n ∧ ∃ arguments,
    callArguments? behind = some arguments ∧ arguments.length = h.arity n ∧
    (h = .dict → ∃ keys values, w.pairs keys values ∧
      arguments = (dictArguments keys values).map trim)

theorem Serves.extend {w : Wording} {h : Helper} {word : String} {near behind : List Char}
    (hs : w.Serves h word near) (hpre : near <+: behind) : w.Serves h word behind := by
  obtain ⟨n, hn, hword, arguments, hread, hrest⟩ := hs
  obtain ⟨more, rfl⟩ := hpre
  exact ⟨n, hn, hword, arguments, callArguments?_extend hread more, hrest⟩

/-- The arguments of a call stand in one line. -/
theorem Serves.line {w : Wording} {h : Helper} {word : String} {behind more : List Char}
    (hs : w.Serves h word (behind ++ more)) (hmore : ∀ c ∈ more.head?, isForeign c = true) :
    w.Serves h word behind := by
  obtain ⟨n, hn, hword, arguments, hread, hrest⟩ := hs
  exact ⟨n, hn, hword, arguments, callArguments?_line hmore hread, hrest⟩

end Wording

/-- A text that begins like the helper of a container. -/
def IsHelperLike (word : String) : Prop := ∃ h : Helper, h.start.toList <+: word.toList

def Worded (w : Wording) (s : String) : Prop :=
  ∀ word behind, IsTokenBefore word behind s → w.Allows word ∧
    (w.serving → ∀ h : Helper, h.start.toList <+: word.toList → w.Serves h word behind)

def Calm (w : Wording) (s : String) : Prop :=
  ∀ word, IsToken word s → w.Allows word ∧ (w.serving → ¬ IsHelperLike word)

/-- The only blank character in the text is the space. -/
def Inline (s : String) : Prop := ∀ c ∈ s.toList, isBlank c = true → c = ' '

def Unbroken (s : String) : Prop := '\n' ∉ s.toList

/-- The text holds none of the blank characters that names are known not to hold, but for spaces. -/
def Spared (w : Wording) (s : String) : Prop :=
  ∀ c ∈ s.toList, isBlank c = true → w.absent c → c = ' '

/-- The text begins neither with a blank nor with the letter that the lines of a trace begin with,
and is not empty. -/
def Starts (s : String) : Prop := ∃ c, s.toList.head? = some c ∧ isBlank c = false ∧ c ≠ 'p'

def Stops (s : String) : Prop := ∃ c, s.toList.getLast? = some c ∧ isBlank c = false

structure Piece (w : Wording) (s : String) : Prop where
  worded : Worded w s
  inline : w.tight → Inline s
  spared : Spared w s

/-- A part of a line that shows where it begins and ends. -/
structure Solid (w : Wording) (s : String) : Prop where
  piece : Piece w s
  starts : Starts s
  stops : w.tight → Stops s

/-- A name or title that a comment or a message shows. -/
structure Shown (w : Wording) (name : String) : Prop where
  calm : Calm w name
  unspaced : w.tight → ∀ c ∈ name.toList, isBlank c = false
  spared : Spared w name

structure Named (w : Wording) (name : String) : Prop extends Shown w name where
  identifier : w.plain → ∀ c ∈ name.toList, isNameChar c = true

/-- A piece in which parentheses match. -/
structure Phrase (w : Wording) (s : String) : Prop where
  piece : Piece w s
  level : w.plain → Level s

structure Term (w : Wording) (s : String) : Prop where
  solid : Solid w s
  flat : w.plain → Flat s

/-! ## Fixed texts -/

def marks : List String :=
  handleStart :: indexStart :: [Helper.tuple, Helper.list, Helper.dict].map Helper.start

/-- The codes of what handles, the conversion to an index and helpers begin with. -/
def markCodes : List (List Nat) := [[99, 111, 110, 115, 116, 95],
  [67, 79, 78, 86, 69, 82, 84, 95, 84, 79, 95, 73, 78, 68, 69, 88],
  [77, 65, 75, 69, 95, 84, 85, 80, 76, 69], [77, 65, 75, 69, 95, 76, 73, 83, 84],
  [77, 65, 75, 69, 95, 68, 73, 67, 84]]

/-- The ends of a text that a token can begin at, by their codes; `glued` tells whether a name
character stands in front. -/
def tokenTails (glued : Bool) : List Nat → List (List Nat)
  | [] => []
  | n :: ns =>
    if glued then tokenTails (isNameCode n) ns else (n :: ns) :: tokenTails (isNameCode n) ns

/-- Whether fixed text can stand in front of anything: it is plain, and no token that begins in it
looks like a handle, the conversion to an index or a helper, however it goes on. -/
def isLead (s : String) : Bool :=
  ((tokenTails false (codes s)).all fun rest =>
    markCodes.all fun mark => !rest.isPrefixOf mark && !mark.isPrefixOf rest) &&
  (codes s).all isPlainCode

def isTail (s : String) : Bool := isLead s && (codes s).head?.any fun n => !isNameCode n

def isHead (s : String) : Bool :=
  isLead s && (codes s).head?.any fun n => n != 0x20 && n != 0x70

def isEnd (s : String) : Bool := isTail s && (codes s).getLast?.any fun n => n != 0x20

def isSolid (s : String) : Bool := isHead s && (codes s).getLast?.any fun n => n != 0x20

/-- Whether parentheses match in fixed text, and all commas stand in them. -/
def isFlat (s : String) : Bool := balance 0 (codes s) == some 0

variable {w : Wording} {a b m s : String}

theorem codes_of_isLead (ha : isLead a = true) : codes a = charCodes a := by
  rw [isLead, Bool.and_eq_true, List.all_eq_true, List.all_eq_true] at ha
  exact codes_eq ha.2

theorem isPlainCode_of_isLead (ha : isLead a = true) {c : Char} (hc : c ∈ a.toList) :
    isPlainCode c.toNat = true := by
  have hcodes := codes_of_isLead ha
  rw [isLead, Bool.and_eq_true, List.all_eq_true, List.all_eq_true, hcodes] at ha
  exact ha.2 _ (List.mem_map_of_mem hc)

theorem mem_tokenTails {before rest : List Char} (hne : rest ≠ []) (hend : EndsApart before)
    {g : Bool} (hglued : before = [] → g = false) :
    rest.map Char.toNat ∈ tokenTails g ((before ++ rest).map Char.toNat) := by
  induction before generalizing g with
  | nil =>
      obtain ⟨c, cs, rfl⟩ := List.exists_cons_of_ne_nil hne
      rw [List.nil_append, List.map_cons, tokenTails, hglued rfl]
      exact List.mem_cons_self
  | cons c cs ih =>
      have hnext := ih (g := isNameCode c.toNat)
        (EndsApart.of_append (a := [c]) (by simpa using hend)) fun hnil => by
          subst hnil
          rw [← isNameChar_eq_isNameCode]
          exact hend c rfl
      rw [List.cons_append, List.map_cons, tokenTails]
      split
      · exact hnext
      · exact List.mem_cons_of_mem _ hnext

theorem markCodes_eq : markCodes = marks.map charCodes := by decide

theorem not_mark_of_lead (ha : isLead a = true) {before rest : List Char}
    (hsplit : a.toList = before ++ rest) (hne : rest ≠ []) (hend : EndsApart before)
    {word more : List Char} (hw : word <+: rest ++ more) {mark : String} (hmark : mark ∈ marks) :
    ¬ mark.toList <+: word := by
  intro hstart
  have hcodes := codes_of_isLead ha
  rw [isLead, Bool.and_eq_true, List.all_eq_true, hcodes, charCodes, hsplit] at ha
  have hrest := ha.1 _ (mem_tokenTails hne hend fun _ => rfl)
  have hmem : mark.toList.map Char.toNat ∈ markCodes := by
    rw [markCodes_eq]
    exact List.mem_map_of_mem hmark
  have hboth := List.all_eq_true.mp hrest _ hmem
  rw [Bool.and_eq_true, Bool.not_eq_true', Bool.not_eq_true'] at hboth
  -- both texts begin the longer one, so one of them begins the other
  rcases List.prefix_or_prefix_of_prefix (hstart.trans hw) (List.prefix_append rest more) with h | h
  · rw [List.isPrefixOf_iff_prefix.mpr (h.map _)] at hboth
    exact Bool.noConfusion hboth.2
  · rw [List.isPrefixOf_iff_prefix.mpr (h.map _)] at hboth
    exact Bool.noConfusion hboth.1

theorem handleStart_mem_marks : handleStart ∈ marks := List.mem_cons_self

theorem indexStart_mem_marks : indexStart ∈ marks := List.mem_cons_of_mem _ List.mem_cons_self

theorem Helper.start_mem_marks (h : Helper) : h.start ∈ marks := by cases h <;> simp [marks]

/-- A token that begins like none of them is allowed. -/
theorem Wording.allows_of_not_mark {word : String}
    (h : ∀ {mark}, mark ∈ marks → ¬ mark.toList <+: word.toList) : w.Allows word :=
  ⟨fun hstart => absurd hstart (h handleStart_mem_marks),
    fun hstart => absurd hstart (h indexStart_mem_marks)⟩

/-! ## Tokens -/

theorem Calm.worded (h : Calm w s) : Worded w s := by
  intro word behind hword
  obtain ⟨hallows, hcalm⟩ := h word hword.isToken
  exact ⟨hallows, fun hp k hk => absurd ⟨k, hk⟩ (hcalm hp)⟩

theorem Worded.allows (h : Worded w s) {word : String} (hword : IsToken word s) :
    w.Allows word := by
  obtain ⟨behind, hword⟩ := isToken_iff_before.mp hword
  exact (h word behind hword).1

theorem Worded.lead (ha : isLead a = true) (hb : Worded w b) : Worded w (a ++ b) := by
  intro word behind hword
  rw [IsTokenBefore, String.toList_append] at hword
  rcases hword.append_cases with ⟨before, rest, hne, hsplit, hend, hpre⟩ | hword
  · have hmark : ∀ {mark}, mark ∈ marks → ¬ mark.toList <+: word.toList := fun hmark =>
      not_mark_of_lead ha hsplit hne hend hpre hmark
    exact ⟨Wording.allows_of_not_mark hmark,
      fun _ h hstart => absurd hstart (hmark h.start_mem_marks)⟩
  · exact hb word behind hword

theorem Calm.lead (ha : isLead a = true) (hb : Calm w b) : Calm w (a ++ b) := by
  intro word hword
  rw [IsToken, String.toList_append] at hword
  rcases hword.append_cases with ⟨before, rest, hne, hsplit, hend, hpre⟩ | hword
  · have hmark : ∀ {mark}, mark ∈ marks → ¬ mark.toList <+: word.toList := fun hmark =>
      not_mark_of_lead ha hsplit hne hend hpre hmark
    exact ⟨Wording.allows_of_not_mark hmark,
      fun _ ⟨h, hstart⟩ => absurd hstart (hmark h.start_mem_marks)⟩
  · exact hb word hword

/-- Nothing of the kind begins with an underscore. -/
theorem head?_of_mark {mark : String} (hmark : mark ∈ marks) {word : List Char}
    (h : mark.toList <+: word) : word.head? ≠ some '_' := by
  obtain ⟨rest, rfl⟩ := h
  have hheads : ∀ mark ∈ marks, mark.toList.head?.any (· != '_') = true := by decide
  have hhead := hheads mark hmark
  rw [Option.any_eq_true] at hhead
  obtain ⟨c, hc, hne⟩ := hhead
  rw [List.head?_append, hc, Option.some_or]
  exact fun heq => bne_iff_ne.mp hne (Option.some.inj heq)

/-- A name glued to name characters, of which the first is an underscore. -/
theorem Worded.behindName (ha : ∀ c ∈ a.toList, isNameChar c = true)
    (hstart : a.toList.head? = some '_') (hb : Worded w b) : Worded w (a ++ b) := by
  intro word behind hword
  rw [IsTokenBefore, String.toList_append] at hword
  rcases hword.append_cases with ⟨before, rest, hne, hsplit, hend, hpre⟩ | hword
  · -- all of `a` belongs to the token, whose first letter is that of `a`
    have hnil : before = [] := by
      by_contra hbefore
      have hname := ha _ (by rw [hsplit]; exact List.mem_append_left _ (List.getLast_mem hbefore))
      rw [hend _ (Option.mem_def.mpr (List.getLast?_eq_some_getLast hbefore))] at hname
      exact Bool.noConfusion hname
    rw [hnil, List.nil_append] at hsplit
    have hhead : ∀ {mark}, mark ∈ marks → ¬ mark.toList <+: word.toList := by
      intro mark hmark hmarked
      refine head?_of_mark hmark (hmarked.trans hpre) ?_
      rw [← hsplit, List.head?_append, hstart, Option.some_or]
    exact ⟨Wording.allows_of_not_mark hhead,
      fun _ h hhelper => absurd hhelper (hhead h.start_mem_marks)⟩
  · exact hb word behind hword

theorem calm_empty : Calm w "" := by
  intro word hword
  obtain ⟨c, hc, -⟩ := hword.exists_name
  simp at hc

theorem worded_empty : Worded w "" := calm_empty.worded

theorem Calm.text (ha : isLead a = true) : Calm w a := by
  rw [← String.append_empty (s := a)]
  exact Calm.lead ha calm_empty

theorem Worded.text (ha : isLead a = true) : Worded w a := (Calm.text ha).worded

theorem Worded.apart (ha : Worded w a) (hb : Worded w b)
    (hseam : EndsApart a.toList ∨ StartsApart b.toList) : Worded w (a ++ b) := by
  intro word behind hword
  rw [IsTokenBefore, String.toList_append] at hword
  rcases hword.append_apart hseam with ⟨near, hnear, rfl⟩ | hword
  · obtain ⟨hallows, hserves⟩ := ha word near hnear
    exact ⟨hallows, fun hp h hstart => (hserves hp h hstart).extend (List.prefix_append _ _)⟩
  · exact hb word behind hword

theorem Calm.apart (ha : Calm w a) (hb : Calm w b)
    (hseam : EndsApart a.toList ∨ StartsApart b.toList) : Calm w (a ++ b) := by
  intro word hword
  rw [IsToken, String.toList_append] at hword
  exact (hword.append_apart hseam).elim (ha word) (hb word)

theorem startsApart_of_isTail (hb : isTail b = true) : StartsApart b.toList := by
  rw [isTail, Bool.and_eq_true, Option.any_eq_true] at hb
  obtain ⟨hlead, n, hn, hname⟩ := hb
  intro c hc
  rw [codes_of_isLead hlead, charCodes, List.head?_map, Option.mem_def.mp hc, Option.map_some] at hn
  rw [isNameChar_eq_isNameCode, Option.some.inj hn]
  exact (Bool.not_eq_true' _).mp hname

theorem Worded.tail (ha : Worded w a) (hb : isTail b = true) : Worded w (a ++ b) := by
  have hlead : isLead b = true := (Bool.and_eq_true _ _ ▸ hb).1
  exact ha.apart (Worded.text hlead) (Or.inr (startsApart_of_isTail hb))

theorem startsApart_append_of_isTail (hm : isTail m = true) (b : String) :
    StartsApart (m ++ b).toList := by
  have hlead : isLead m = true := (Bool.and_eq_true _ _ ▸ hm).1
  have hne : m.toList ≠ [] := by
    intro hnil
    rw [isTail, codes_of_isLead hlead, charCodes, hnil] at hm
    simp at hm
  rw [String.toList_append]
  exact (startsApart_of_isTail hm).append hne

theorem Worded.sep (ha : Worded w a) (hm : isTail m = true) (hb : Worded w b) :
    Worded w (a ++ m ++ b) := by
  have hlead : isLead m = true := (Bool.and_eq_true _ _ ▸ hm).1
  rw [String.append_assoc]
  exact ha.apart (Worded.lead hlead hb) (Or.inr (startsApart_append_of_isTail hm b))

theorem Calm.sep (ha : Calm w a) (hm : isTail m = true) (hb : Calm w b) :
    Calm w (a ++ m ++ b) := by
  have hlead : isLead m = true := (Bool.and_eq_true _ _ ▸ hm).1
  rw [String.append_assoc]
  exact ha.apart (Calm.lead hlead hb) (Or.inr (startsApart_append_of_isTail hm b))

/-! ## Spaces -/

theorem Inline.append (ha : Inline a) (hb : Inline b) : Inline (a ++ b) := by
  intro c hc
  rw [String.toList_append, List.mem_append] at hc
  exact hc.elim (ha c) (hb c)

theorem inline_of_visible (h : ∀ c ∈ a.toList, isBlank c = false) : Inline a := by
  intro c hc hblank
  rw [h c hc] at hblank
  exact Bool.noConfusion hblank

theorem inline_of_isLead (ha : isLead a = true) : Inline a := fun _ hc hblank =>
  eq_space_of_isBlank (isPlainCode_of_isLead ha hc) hblank

theorem Unbroken.append (ha : Unbroken a) (hb : Unbroken b) : Unbroken (a ++ b) := by
  rw [Unbroken, String.toList_append, List.mem_append]
  exact not_or.mpr ⟨ha, hb⟩

theorem Inline.spared (h : Inline a) : Spared w a := fun c hc hblank _ => h c hc hblank

theorem Spared.append (ha : Spared w a) (hb : Spared w b) : Spared w (a ++ b) := by
  intro c hc
  rw [String.toList_append, List.mem_append] at hc
  exact hc.elim (ha c) (hb c)

theorem Spared.unbroken (h : Spared w a) (hu : w.unbroken) : Unbroken a := fun hmem =>
  absurd (h _ hmem (by decide) hu) (by decide)

theorem unbroken_of_visible (h : ∀ c ∈ a.toList, isBlank c = false) : Unbroken a := fun hmem =>
  absurd (h _ hmem) (by decide)

theorem unbroken_of_isLead (ha : isLead a = true) : Unbroken a := fun hmem =>
  absurd (isPlainCode_of_isLead ha hmem) (by decide)

theorem Starts.append (h : Starts a) (b : String) : Starts (a ++ b) := by
  obtain ⟨c, hc, hfirst⟩ := h
  refine ⟨c, ?_, hfirst⟩
  rw [String.toList_append, List.head?_append, hc, Option.some_or]

theorem Stops.append (a : String) (h : Stops b) : Stops (a ++ b) := by
  obtain ⟨c, hc, hsolid⟩ := h
  refine ⟨c, ?_, hsolid⟩
  rw [String.toList_append, List.getLast?_append, hc, Option.some_or]

theorem isBlank_of_code {c : Char} (hplain : isPlainCode c.toNat = true) (h : c.toNat ≠ 0x20) :
    isBlank c = false := by
  rw [Bool.eq_false_iff]
  intro hblank
  exact h (congrArg Char.toNat (eq_space_of_isBlank hplain hblank))

theorem starts_of_isHead (ha : isHead a = true) : Starts a := by
  rw [isHead, Bool.and_eq_true, Option.any_eq_true] at ha
  obtain ⟨hlead, n, hn, hfirst⟩ := ha
  rw [codes_of_isLead hlead, charCodes, List.head?_map, Option.map_eq_some_iff] at hn
  obtain ⟨c, hc, rfl⟩ := hn
  rw [Bool.and_eq_true, bne_iff_ne, bne_iff_ne] at hfirst
  refine ⟨c, hc, isBlank_of_code (isPlainCode_of_isLead hlead (List.mem_of_head? hc)) hfirst.1, ?_⟩
  rintro rfl
  exact hfirst.2 rfl

theorem stops_of_code (hlead : isLead a = true)
    (h : ((codes a).getLast?.any fun n => n != 0x20) = true) : Stops a := by
  rw [Option.any_eq_true] at h
  obtain ⟨n, hn, hsolid⟩ := h
  rw [codes_of_isLead hlead, charCodes, List.getLast?_map, Option.map_eq_some_iff] at hn
  obtain ⟨c, hc, rfl⟩ := hn
  exact ⟨c, hc, isBlank_of_code (isPlainCode_of_isLead hlead (List.mem_of_getLast? hc))
    (bne_iff_ne.mp hsolid)⟩

/-- A call begins as the name of its function does, and ends with its parenthesis. -/
theorem Starts.applied {f : String} (h : Starts f) (arguments : List String) :
    Starts (applied f arguments) := ((h.append _).append _).append _

theorem stops_applied (f : String) (arguments : List String) : Stops (applied f arguments) :=
  (stops_of_code (a := " )") (by rfl) (by rfl)).append _

/-- A text that begins and ends without a blank has no margin. -/
theorem hasNoMargin_of_solid (hs : Starts s) (he : Stops s) : hasNoMargin s = true := by
  obtain ⟨c, hc, hcsolid, -⟩ := hs
  obtain ⟨d, hd, hdsolid⟩ := he
  exact hasNoMargin_of_edged ⟨⟨c, hc, hcsolid⟩, d, hd, hdsolid⟩

namespace Piece

theorem unbroken (h : Piece w s) (hu : w.unbroken) : Unbroken s := h.spared.unbroken hu

theorem lead (ha : isLead a = true) (hb : Piece w b) : Piece w (a ++ b) where
  worded := Worded.lead ha hb.worded
  inline h := (inline_of_isLead ha).append (hb.inline h)
  spared := (inline_of_isLead ha).spared.append hb.spared

theorem text (ha : isLead a = true) : Piece w a where
  worded := Worded.text ha
  inline _ := inline_of_isLead ha
  spared := (inline_of_isLead ha).spared

theorem tail (ha : Piece w a) (hb : isTail b = true) : Piece w (a ++ b) where
  worded := ha.worded.tail hb
  inline h := (ha.inline h).append (inline_of_isLead (Bool.and_eq_true _ _ ▸ hb).1)
  spared := ha.spared.append (inline_of_isLead (Bool.and_eq_true _ _ ▸ hb).1).spared

theorem sep (ha : Piece w a) (hm : isTail m = true) (hb : Piece w b) : Piece w (a ++ m ++ b) where
  worded := ha.worded.sep hm hb.worded
  inline h := ((ha.inline h).append (inline_of_isLead (Bool.and_eq_true _ _ ▸ hm).1)).append
    (hb.inline h)
  spared := (ha.spared.append (inline_of_isLead (Bool.and_eq_true _ _ ▸ hm).1).spared).append
    hb.spared

theorem empty : Piece w "" := text (by rfl)

theorem intercalate (hm : isTail m = true) {l : List String} (h : ∀ s ∈ l, Piece w s) :
    Piece w (m.intercalate l) := by
  induction l with
  | nil => exact empty
  | cons a l ih =>
      have hl := ih fun s hs => h s (List.mem_cons_of_mem a hs)
      cases l with
      | nil =>
          rw [String.intercalate_singleton]
          exact h a List.mem_cons_self
      | cons b l =>
          rw [String.intercalate_cons_cons]
          exact (h a List.mem_cons_self).sep hm hl

theorem commaSeparated {l : List String} (h : ∀ s ∈ l, Piece w s) : Piece w (commaSeparated l) :=
  intercalate (by rfl) h

theorem applied {f : String} (hf : Piece w f) {arguments : List String}
    (h : ∀ s ∈ arguments, Piece w s) : Piece w (applied f arguments) :=
  (hf.sep (by rfl) (commaSeparated h)).tail (by rfl)

theorem terminated (h : Piece w s) : Piece w (terminated s) := h.tail (by rfl)

end Piece

namespace Solid

theorem text (ha : isSolid a = true) : Solid w a := by
  rw [isSolid, Bool.and_eq_true] at ha
  have hlead := (Bool.and_eq_true _ _ ▸ ha.1).1
  exact ⟨Piece.text hlead, starts_of_isHead ha.1, fun _ => stops_of_code hlead ha.2⟩

/-- Fixed text in front of a solid one. -/
theorem lead (ha : isHead a = true) (hb : Solid w b) : Solid w (a ++ b) where
  piece := hb.piece.lead (Bool.and_eq_true _ _ ▸ ha).1
  starts := (starts_of_isHead ha).append b
  stops ht := (hb.stops ht).append a

/-- Fixed text behind a solid one. -/
theorem tail (ha : Solid w a) (hb : isEnd b = true) : Solid w (a ++ b) := by
  rw [isEnd, Bool.and_eq_true] at hb
  have hlead := (Bool.and_eq_true _ _ ▸ hb.1).1
  exact ⟨ha.piece.tail hb.1, ha.starts.append b, fun _ => (stops_of_code hlead hb.2).append a⟩

/-- Fixed text around a piece. -/
theorem between (ha : isHead a = true) (hs : Piece w s) (hb : isEnd b = true) :
    Solid w (a ++ s ++ b) := by
  rw [isEnd, Bool.and_eq_true] at hb
  have hlead := (Bool.and_eq_true _ _ ▸ hb.1).1
  exact ⟨(hs.lead (Bool.and_eq_true _ _ ▸ ha).1).tail hb.1,
    ((starts_of_isHead ha).append s).append b, fun _ => (stops_of_code hlead hb.2).append _⟩

theorem applied {f : String} (hf : Solid w f) {arguments : List String}
    (h : ∀ s ∈ arguments, Piece w s) : Solid w (applied f arguments) where
  piece := hf.piece.applied h
  starts := ((hf.starts.append _).append _).append _
  stops _ := (stops_of_code (by rfl) (by rfl)).append _

theorem terminated (h : Solid w s) : Solid w (terminated s) := h.tail (by rfl)

end Solid

/-! ## Parentheses -/

theorem flat_of_isFlat (hlead : isLead a = true) (ha : isFlat a = true) : Flat a := by
  rw [isFlat, beq_iff_eq, codes_of_isLead hlead] at ha
  exact ha

theorem Starts.isBlankText_eq_false (h : Starts s) : isBlankText s = false := by
  obtain ⟨c, hc, hsolid, -⟩ := h
  rw [isBlankText, List.all_eq_false]
  exact ⟨c, List.mem_of_head? hc, by rw [hsolid]; exact Bool.false_ne_true⟩

namespace Phrase

theorem text (ha : (isLead a && isFlat a) = true) : Phrase w a := by
  rw [Bool.and_eq_true] at ha
  exact ⟨Piece.text ha.1, fun _ => (flat_of_isFlat ha.1 ha.2).level⟩

theorem lead (ha : (isLead a && isFlat a) = true) (hb : Phrase w b) : Phrase w (a ++ b) := by
  rw [Bool.and_eq_true] at ha
  exact ⟨hb.piece.lead ha.1, fun hp => (flat_of_isFlat ha.1 ha.2).level.append (hb.level hp)⟩

theorem level_of_codes (hm : isTail m = true) (h : (balance 1 (codes m) == some 1) = true) :
    Level m := by
  rw [beq_iff_eq, codes_of_isLead (Bool.and_eq_true _ _ ▸ hm).1] at h
  exact h

/-- A separator may hold commas. -/
theorem sep (ha : Phrase w a) (hm : (isTail m && balance 1 (codes m) == some 1) = true)
    (hb : Phrase w b) : Phrase w (a ++ m ++ b) := by
  rw [Bool.and_eq_true] at hm
  exact ⟨ha.piece.sep hm.1 hb.piece, fun hp =>
    ((ha.level hp).append (level_of_codes hm.1 hm.2)).append (hb.level hp)⟩

theorem intercalate (hm : (isTail m && balance 1 (codes m) == some 1) = true)
    {l : List String} (h : ∀ s ∈ l, Phrase w s) : Phrase w (m.intercalate l) := by
  rw [Bool.and_eq_true] at hm
  exact ⟨Piece.intercalate hm.1 fun s hs => (h s hs).piece, fun hp =>
    Level.intercalate (level_of_codes hm.1 hm.2) fun s hs => (h s hs).level hp⟩

theorem commaSeparated {l : List String} (h : ∀ s ∈ l, Phrase w s) :
    Phrase w (commaSeparated l) := intercalate (by rfl) h

end Phrase

namespace Term

theorem piece (h : Term w s) : Piece w s := h.solid.piece

theorem phrase (h : Term w s) : Phrase w s := ⟨h.piece, fun hp => (h.flat hp).level⟩

theorem text (ha : (isSolid a && isFlat a) = true) : Term w a := by
  rw [Bool.and_eq_true] at ha
  have hlead := (Bool.and_eq_true _ _ ▸ (Bool.and_eq_true _ _ ▸ ha.1).1).1
  exact ⟨Solid.text ha.1, fun _ => flat_of_isFlat hlead ha.2⟩

/-- Fixed text in front of a term. -/
theorem lead (ha : (isHead a && isFlat a) = true) (hb : Term w b) : Term w (a ++ b) := by
  rw [Bool.and_eq_true] at ha
  have hlead := (Bool.and_eq_true _ _ ▸ ha.1).1
  exact ⟨hb.solid.lead ha.1, fun hp => (flat_of_isFlat hlead ha.2).append (hb.flat hp)⟩

/-- Fixed text behind a term. -/
theorem tail (ha : Term w a) (hb : (isEnd b && isFlat b) = true) : Term w (a ++ b) := by
  rw [Bool.and_eq_true] at hb
  have hlead := (Bool.and_eq_true _ _ ▸ (Bool.and_eq_true _ _ ▸ hb.1).1).1
  exact ⟨ha.solid.tail hb.1, fun hp => (ha.flat hp).append (flat_of_isFlat hlead hb.2)⟩

/-- A phrase in parentheses. -/
theorem between (ha : (isHead a && balance 0 (codes a) == some 1) = true) (hs : Phrase w s)
    (hb : (isEnd b && balance 1 (codes b) == some 0) = true) : Term w (a ++ s ++ b) := by
  rw [Bool.and_eq_true, beq_iff_eq] at ha hb
  have hopen := ha.2
  have hclose := hb.2
  rw [codes_of_isLead (Bool.and_eq_true _ _ ▸ ha.1).1] at hopen
  rw [codes_of_isLead (Bool.and_eq_true _ _ ▸ (Bool.and_eq_true _ _ ▸ hb.1).1).1] at hclose
  exact ⟨Solid.between ha.1 hs.piece hb.1, fun hp => Level.between hopen (hs.level hp) hclose⟩

/-- Fixed text between terms. -/
theorem sep (ha : Term w a) (hm : (isTail m && isFlat m) = true) (hb : Term w b) :
    Term w (a ++ m ++ b) := by
  rw [Bool.and_eq_true] at hm
  have hlead := (Bool.and_eq_true _ _ ▸ hm.1).1
  exact ⟨⟨ha.piece.sep hm.1 hb.piece, (ha.solid.starts.append m).append b,
    fun ht => (hb.solid.stops ht).append _⟩, fun hp =>
    ((ha.flat hp).append (flat_of_isFlat hlead hm.2)).append (hb.flat hp)⟩

theorem applied {f : String} (hf : Term w f) {arguments : List String}
    (h : ∀ s ∈ arguments, Phrase w s) : Term w (applied f arguments) :=
  ⟨hf.solid.applied fun s hs => (h s hs).piece, fun hp =>
    (hf.flat hp).applied fun s hs => (h s hs).level hp⟩

/-- A call of a helper with a fixed name. -/
theorem call {f : String} (hf : (isSolid f && isFlat f) = true) {arguments : List String}
    (h : ∀ s ∈ arguments, Phrase w s) : Term w (Target.applied f arguments) := applied (text hf) h

theorem nullary {f : String} (hf : Term w f) : Term w (nullary f) := hf.tail (by rfl)

theorem appliedIfAny {f : String} (hf : Term w f) {arguments : List String}
    (h : ∀ s ∈ arguments, Phrase w s) : Term w (appliedIfAny f arguments) := by
  unfold Target.appliedIfAny
  split
  · exact hf.nullary
  · exact hf.applied h

end Term

/-! ## Numbers, handles and names -/

/-- A handle, the conversion to an index and a helper each begin with a letter that numbers do not
have. -/
theorem calm_of_not_mem (h : 'c' ∉ s.toList ∧ 'C' ∉ s.toList ∧ 'M' ∉ s.toList) : Calm w s := by
  rintro word ⟨x, y, hsplit, -⟩
  have hsubset : ∀ {c}, c ∈ word.toList → c ∈ s.toList := by
    intro c hc
    rw [hsplit]
    exact List.mem_append_right x (List.mem_append_left y hc)
  refine ⟨⟨fun hstart => ?_, fun hstart => ?_⟩, fun _ ⟨k, hstart⟩ => ?_⟩
  · exact absurd (hsubset (hstart.subset (by simp [handleStart]))) h.1
  · exact absurd (hsubset (hstart.subset (by simp [indexStart]))) h.2.1
  · exact absurd (hsubset (hstart.subset (by cases k <;> simp [Helper.start]))) h.2.2

theorem starts_of_visible (h : ∀ c ∈ s.toList, isBlank c = false) (hne : s ≠ "")
    (hfirst : s.toList.head? ≠ some 'p') : Starts s := by
  have hchars : s.toList ≠ [] := fun hnil => hne (String.toList_eq_nil_iff.mp hnil)
  refine ⟨s.toList.head hchars, List.head?_eq_some_head hchars, h _ (List.head_mem hchars), ?_⟩
  exact fun heq => hfirst (heq ▸ List.head?_eq_some_head hchars)

theorem stops_of_visible (h : ∀ c ∈ s.toList, isBlank c = false) (hne : s ≠ "") : Stops s := by
  have hchars : s.toList ≠ [] := fun hnil => hne (String.toList_eq_nil_iff.mp hnil)
  exact ⟨s.toList.getLast hchars, List.getLast?_eq_some_getLast hchars,
    h _ (List.getLast_mem hchars)⟩

/-- A nonempty text of name characters whose tokens are allowed. -/
theorem Term.of_name (hw : Worded w s) (hname : ∀ c ∈ s.toList, isNameChar c = true)
    (hne : s ≠ "") (hfirst : s.toList.head? ≠ some 'p') : Term w s := by
  have hvisible : ∀ c ∈ s.toList, isBlank c = false := fun c hc =>
    isBlank_of_isNameChar (hname c hc)
  exact ⟨⟨⟨hw, fun _ => inline_of_visible hvisible, (inline_of_visible hvisible).spared⟩,
    starts_of_visible hvisible hne hfirst, fun _ => stops_of_visible hvisible hne⟩,
    fun _ => Flat.of_name hname⟩

theorem calm_natural (n : Nat) : Calm w (toString n) := by
  have hdigits : ∀ {c : Char}, c.isDigit = false → c ∉ (toString n).toList := fun hnot hc =>
    Bool.noConfusion (hnot.symm.trans (isDigit_of_mem_natural hc))
  exact calm_of_not_mem ⟨hdigits (by rfl), hdigits (by rfl), hdigits (by rfl)⟩

theorem natural_ne_empty (n : Nat) : toString n ≠ "" := by
  rw [Nat.toString_eq_ofList_toDigits]
  intro hnil
  have hlen := congrArg String.length hnil
  simp at hlen

theorem term_natural (n : Nat) : Term w (toString n) :=
  Term.of_name (calm_natural n).worded
    (fun _ hc => isNameChar_of_isDigit (isDigit_of_mem_natural hc)) (natural_ne_empty n)
    fun hfirst => absurd (isDigit_of_mem_natural (List.mem_of_head? hfirst)) (by decide)

theorem term_integer (n : Int) : Term w (toString n) := by
  cases n with
  | ofNat n => exact term_natural n
  | negSucc n => exact (term_natural (n + 1)).lead (a := "-") (by rfl)

/-- A single token that begins like a handle and is allowed. -/
theorem Term.of_handle (hname : ∀ c ∈ s.toList, isNameChar c = true)
    (hstart : handleStart.toList <+: s.toList) (h : w.Allows s) : Term w s := by
  have hcalm : Calm w s := by
    intro word hword
    rw [String.toList_inj.mp (IsRun.eq_of_name hname hword)]
    refine ⟨h, fun _ ⟨k, hk⟩ => ?_⟩
    -- the two begin with different letters
    have hfirst := List.prefix_of_prefix_length_le hstart hk (by cases k <;> decide)
    exact absurd hfirst (by cases k <;> decide)
  refine Term.of_name hcalm.worded hname (fun hnil => ?_) fun hfirst => ?_
  · rw [hnil] at hstart
    exact absurd hstart (by decide)
  · obtain ⟨rest, hrest⟩ := hstart
    rw [← hrest, handleStart] at hfirst
    exact absurd (Option.some.inj hfirst) (by decide)

theorem handleStart_prefix_newHandle (place : Nat) (c : Constant) :
    handleStart.toList <+: (newHandle place c).toList := by
  by_cases hc : c = .none
  · rw [hc, newHandle_none, String.toList_append]
    exact List.prefix_append _ _
  · rw [newHandle_eq hc, String.toList_append]
    simp only [String.toList_append, List.append_assoc]
    exact List.prefix_append _ _

/-- What begins like a handle does not begin like the conversion to an index. -/
theorem Wording.allows_of_handle {word : String} (hstart : handleStart.toList <+: word.toList)
    (h : (∃ e ∈ w.program.table, e.handle = word) ∨ w.stray word) : w.Allows word := by
  refine ⟨fun _ => h, fun hindex => ?_⟩
  have hfirst := List.prefix_of_prefix_length_le hstart hindex (by decide)
  exact absurd hfirst (by decide)

/-- The handle of an entry. -/
theorem term_handle {p : Program} {e : TableEntry} (hp : p.WellFormed) (he : e ∈ p.table)
    (hext : p.Extends w.program) : Term w e.handle := by
  obtain ⟨i, hi⟩ := List.mem_iff_getElem?.mp he
  refine Term.of_handle (isNameChar_of_mem_plain (hp.isPlainName_handle he)) ?_
    (Wording.allows_of_handle ?_ (Or.inl ⟨e, hext.mem he, rfl⟩))
  all_goals
    rw [hp.numbered hi]
    exact handleStart_prefix_newHandle i e.constant

namespace Named

variable {name : String}

theorem worded (h : Named w name) : Worded w name := h.calm.worded

theorem piece (h : Named w name) : Piece w name where
  worded := h.worded
  inline ht := inline_of_visible (h.unspaced ht)
  spared := h.spared

theorem phrase (h : Named w name) : Phrase w name :=
  ⟨h.piece, fun hp => (Flat.of_name (h.identifier hp)).level⟩

/-- A name behind fixed text. -/
theorem lead (ha : (isSolid a && isFlat a) = true) (h : Named w name) : Term w (a ++ name) := by
  rw [Bool.and_eq_true, isSolid, Bool.and_eq_true] at ha
  have hlead := (Bool.and_eq_true _ _ ▸ ha.1.1).1
  refine ⟨⟨h.piece.lead hlead, (starts_of_isHead ha.1.1).append name, fun ht => ?_⟩, fun hp =>
    (flat_of_isFlat hlead ha.2).append (Flat.of_name (h.identifier hp))⟩
  by_cases hnil : name = ""
  · rw [hnil, String.append_empty]
    exact stops_of_code hlead ha.1.2
  · exact (stops_of_visible (h.unspaced ht) hnil).append a

/-- A name glued to name characters, of which the first is an underscore. -/
theorem behindName (ha : ∀ c ∈ a.toList, isNameChar c = true)
    (hstart : a.toList.head? = some '_') (h : Named w name) : Term w (a ++ name) := by
  have hne : a ≠ "" := by
    rintro rfl
    exact nomatch hstart
  have hstarts : Starts a :=
    starts_of_visible (fun c hc => isBlank_of_isNameChar (ha c hc)) hne (by simp [hstart])
  have hvisible : w.tight → ∀ c ∈ (a ++ name).toList, isBlank c = false := by
    intro ht c hc
    rw [String.toList_append, List.mem_append] at hc
    exact hc.elim (fun hc => isBlank_of_isNameChar (ha c hc)) (h.unspaced ht c)
  have hinline : Inline a := inline_of_visible fun c hc => isBlank_of_isNameChar (ha c hc)
  refine ⟨⟨⟨Worded.behindName ha hstart h.worded, fun ht => inline_of_visible (hvisible ht),
    hinline.spared.append h.spared⟩,
    hstarts.append name, fun ht => stops_of_visible (hvisible ht) fun hnil => ?_⟩, fun hp =>
    (Flat.of_name ha).append (Flat.of_name (h.identifier hp))⟩
  exact hne (String.append_eq_empty_iff.mp hnil).1

theorem empty : Named w "" where
  calm := calm_empty
  unspaced _ c hc := by simp at hc
  spared c hc := by simp at hc
  identifier _ c hc := by simp at hc

end Named

theorem Shown.piece (h : Shown w s) : Piece w s where
  worded := h.calm.worded
  inline ht := inline_of_visible (h.unspaced ht)
  spared := h.spared

end CompilerBackend
