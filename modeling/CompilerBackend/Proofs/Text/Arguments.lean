import CompilerBackend.Target.Operand
import CompilerBackend.Text.Lines
import CompilerBackend.Proofs.Text.Code
import CompilerBackend.Proofs.Text.Lines
/-!
# Arguments of a call

What stands between the parentheses of a call, cut at the commas that stand in no parentheses of
their own. A quote, another kind of bracket or a line end makes the text unreadable, so what is
read never lies in a string or in the arguments of a template, and never goes on in another line.

- `callArguments?`: the arguments at the head of a text.
- `balance`: how parentheses match in a part of a text; `Flat`: a part within one argument.
- `callArguments?_applied`: what the writer of calls puts down comes back; `cut_applied`: so does
  the name in front of it.
- `callArguments?_line`: the arguments of a call stand in one line.
-/

namespace CompilerBackend.Text

open Target

/-! ## Reading -/

/-- Characters that end the reading of a call: quotes, brackets of other kinds and line ends. -/
def isForeign (c : Char) : Bool :=
  c == '"' || c == '\'' || c == '[' || c == ']' || c == '\x7b' || c == '\x7d' || c == '\n' ||
    c == '\r'

/-- The arguments up to the parenthesis that closes the call, from within the first of them.
The characters read of it are `current`, last one first, and `depth` parentheses are open in it. -/
def argumentsFrom (depth : Nat) (current : List Char) : List Char → Option (List (List Char))
  | [] => none
  | c :: cs =>
    if isForeign c then none
    else if c = '(' then argumentsFrom (depth + 1) (c :: current) cs
    else if c = ')' then
      if depth = 0 then some [current.reverse] else argumentsFrom (depth - 1) (c :: current) cs
    else if c = ',' ∧ depth = 0 then (argumentsFrom 0 [] cs).map (current.reverse :: ·)
    else argumentsFrom depth (c :: current) cs

def tidied : List (List Char) → List String
  | [only] => if only.all isBlank then [] else [String.ofList (trimChars only)]
  | parts => parts.map fun part => String.ofList (trimChars part)

def callArguments? : List Char → Option (List String)
  | '(' :: cs => (argumentsFrom 0 [] cs).map tidied
  | _ => none

/-! ## Matching parentheses -/

/-- The number of open parentheses behind a part of a text with the given codes, if so many are
open in front of it. There is none if a comma or a closing parenthesis stands outside all of them,
or a character that ends the reading. -/
def balance (depth : Nat) : List Nat → Option Nat
  | [] => some depth
  | n :: ns =>
    if isForeign (Char.ofNat n) then none
    else if n = 40 then balance (depth + 1) ns
    else if n = 41 then if depth = 0 then none else balance (depth - 1) ns
    else if n = 44 ∧ depth = 0 then none
    else balance depth ns

def charCodes (s : String) : List Nat := s.toList.map Char.toNat

/-- The text can be a part of an argument: parentheses match and no comma stands outside them. -/
def Flat (s : String) : Prop := balance 0 (charCodes s) = some 0

/-- The text can be a part of what stands in parentheses. -/
def Level (s : String) : Prop := balance 1 (charCodes s) = some 1

theorem charCodes_append (a b : String) : charCodes (a ++ b) = charCodes a ++ charCodes b := by
  rw [charCodes, String.toList_append, List.map_append]
  rfl

theorem balance_append (depth : Nat) (ns ms : List Nat) :
    balance depth (ns ++ ms) = (balance depth ns).bind fun d => balance d ms := by
  induction ns generalizing depth with
  | nil => rfl
  | cons n ns ih =>
      rw [List.cons_append, balance, balance]
      split_ifs
      · rfl
      · exact ih _
      · rfl
      · exact ih _
      · rfl
      · exact ih _

/-- Further parentheses around a part change nothing inside it. -/
theorem balance_add {depth final : Nat} {ns : List Nat} (h : balance depth ns = some final)
    (more : Nat) : balance (depth + more) ns = some (final + more) := by
  induction ns generalizing depth with
  | nil =>
      obtain rfl : depth = final := Option.some.inj h
      rfl
  | cons n ns ih =>
      rw [balance] at h ⊢
      split_ifs at h ⊢ with hforeign hopen hclose hzero hzero' hcomma hcomma'
      · have hnext := ih h
        rwa [Nat.add_right_comm] at hnext
      · omega
      · have hnext := ih h
        rwa [show depth - 1 + more = depth + more - 1 by omega] at hnext
      · omega
      · exact ih h

theorem Flat.level {s : String} (h : Flat s) : Level s := balance_add h 1

theorem Flat.append {a b : String} (ha : Flat a) (hb : Flat b) : Flat (a ++ b) := by
  rw [Flat, charCodes_append, balance_append, ha]
  exact hb

theorem Level.append {a b : String} (ha : Level a) (hb : Level b) : Level (a ++ b) := by
  rw [Level, charCodes_append, balance_append, ha]
  exact hb

/-- A part between a text that opens one parenthesis and one that closes it. -/
theorem Level.between {a s b : String} (ha : balance 0 (charCodes a) = some 1) (h : Level s)
    (hb : balance 1 (charCodes b) = some 0) : Flat (a ++ s ++ b) := by
  rw [Flat, charCodes_append, charCodes_append, balance_append, balance_append, ha,
    Option.bind_some, h]
  exact hb

theorem flat_empty : Flat "" := rfl

theorem level_comma : Level ", " := by
  rw [Level]
  decide

theorem Level.intercalate {sep : String} (hsep : Level sep) {l : List String}
    (h : ∀ s ∈ l, Level s) : Level (sep.intercalate l) := by
  induction l with
  | nil => exact flat_empty.level
  | cons a l ih =>
      have hl := ih fun s hs => h s (List.mem_cons_of_mem a hs)
      cases l with
      | nil =>
          rw [String.intercalate_singleton]
          exact h a List.mem_cons_self
      | cons b l =>
          rw [String.intercalate_cons_cons]
          exact ((h a List.mem_cons_self).append hsep).append hl

theorem Flat.applied {f : String} (hf : Flat f) {arguments : List String}
    (h : ∀ s ∈ arguments, Level s) : Flat (applied f arguments) := by
  have hcall : Flat ("( " ++ commaSeparated arguments ++ " )") :=
    (Level.intercalate level_comma h).between (by decide) (by decide +kernel)
  rw [String.append_assoc] at hcall
  rw [Target.applied, String.append_assoc, String.append_assoc]
  exact hf.append hcall

theorem isForeign_of_isNameChar {c : Char} (h : isNameChar c = true) : isForeign c = false := by
  rw [Bool.eq_false_iff]
  intro hforeign
  simp only [isForeign, Bool.or_eq_true, beq_iff_eq] at hforeign
  rcases hforeign with ((((((rfl | rfl) | rfl) | rfl) | rfl) | rfl) | rfl) | rfl
  all_goals exact absurd h (by decide)

theorem Flat.of_name {s : String} (h : ∀ c ∈ s.toList, isNameChar c = true) : Flat s := by
  rw [Flat, charCodes]
  generalize s.toList = cs at h ⊢
  induction cs with
  | nil => rfl
  | cons c cs ih =>
      have hc := h c List.mem_cons_self
      have hcode : c.toNat ≠ 40 ∧ c.toNat ≠ 41 ∧ c.toNat ≠ 44 := by
        rw [isNameChar_eq_isNameCode] at hc
        simp only [isNameCode, Bool.or_eq_true, Bool.and_eq_true, beq_iff_eq,
          decide_eq_true_eq] at hc
        omega
      rw [List.map_cons, balance, if_neg (by
        rw [Char.ofNat_toNat, isForeign_of_isNameChar hc]
        exact Bool.false_ne_true), if_neg hcode.1, if_neg hcode.2.1,
        if_neg fun hcomma => hcode.2.2 hcomma.1]
      exact ih fun d hd => h d (List.mem_cons_of_mem c hd)

/-! ## What is written is read -/

theorem argumentsFrom_append {depth final : Nat} {cs : List Char}
    (h : balance depth (cs.map Char.toNat) = some final) (current rest : List Char) :
    argumentsFrom depth current (cs ++ rest) =
      argumentsFrom final (cs.reverse ++ current) rest := by
  induction cs generalizing depth current with
  | nil =>
      obtain rfl : depth = final := Option.some.inj h
      rfl
  | cons c cs ih =>
      have hcode {d : Char} : c.toNat = d.toNat ↔ c = d :=
        ⟨fun heq => Char.ext (UInt32.toNat_inj.mp heq), congrArg Char.toNat⟩
      rw [List.map_cons, balance, Char.ofNat_toNat, show 40 = '('.toNat from rfl,
        show 41 = ')'.toNat from rfl, show 44 = ','.toNat from rfl] at h
      simp only [hcode] at h
      rw [List.cons_append, argumentsFrom, List.reverse_cons, List.append_assoc]
      split_ifs at h ⊢ with hforeign hopen hclose hzero hcomma
      · exact ih h _
      · exact ih h _
      · exact ih h _

theorem trimChars_cons_space (cs : List Char) : trimChars (' ' :: cs) = trimChars cs := by
  rw [trimChars, List.dropWhile_cons_of_pos (by decide)]
  rfl

/-- Blanks behind a text that is not blank do not matter. -/
theorem trimChars_append_space {cs : List Char} : trimChars (cs ++ [' ']) = trimChars cs := by
  rw [trimChars, trimChars, List.dropWhile_append]
  split
  next hblank =>
    have hnil : cs.dropWhile isBlank = [] := List.isEmpty_iff.mp hblank
    rw [hnil]
    rfl
  next => rw [List.reverse_append, List.reverse_singleton, List.singleton_append,
    List.dropWhile_cons_of_pos (by decide)]

/-- Flat texts between commas, behind a blank that has been read, are read one by one. -/
theorem argumentsFrom_commaSeparated {l : List String} (hne : l ≠ []) (h : ∀ s ∈ l, Flat s)
    (rest : List Char) :
    ∃ parts, argumentsFrom 0 [' '] ((commaSeparated l).toList ++ (' ' :: ')' :: rest)) =
        some parts ∧
      parts.map trimChars = l.map (fun s => trimChars s.toList) ∧
      parts.map (List.all · isBlank) = l.map fun s => s.toList.all isBlank := by
  induction l with
  | nil => exact absurd rfl hne
  | cons a l ih =>
      have ha := h a List.mem_cons_self
      have hpart : (a.toList.reverse ++ [' ']).reverse = ' ' :: a.toList := by simp
      cases l with
      | nil =>
          refine ⟨[' ' :: a.toList ++ [' ']], ?_, ?_, ?_⟩
          · rw [commaSeparated, String.intercalate_singleton, argumentsFrom_append ha]
            change some [(' ' :: (a.toList.reverse ++ [' '])).reverse] = _
            rw [List.reverse_cons, hpart]
          · rw [List.map_singleton, trimChars_append_space, trimChars_cons_space, List.map_singleton]
          · rw [List.map_singleton, List.all_append, List.all_cons, List.map_singleton]
            simp [show isBlank ' ' = true from rfl]
      | cons b l =>
          obtain ⟨parts, hread, htrim, hblank⟩ :=
            ih (by simp) fun s hs => h s (List.mem_cons_of_mem a hs)
          refine ⟨(' ' :: a.toList) :: parts, ?_, ?_, ?_⟩
          · have hchars : (commaSeparated (a :: b :: l)).toList =
                a.toList ++ (',' :: ' ' :: (commaSeparated (b :: l)).toList) := by
              rw [commaSeparated, String.intercalate_cons_cons]
              simp [commaSeparated]
            rw [hchars, List.append_assoc, argumentsFrom_append ha]
            change (argumentsFrom 0 [' '] ((commaSeparated (b :: l)).toList ++ ' ' :: ')' :: rest)).map
              ((a.toList.reverse ++ [' ']).reverse :: ·) = _
            rw [hread, hpart]
            rfl
          · rw [List.map_cons, htrim, trimChars_cons_space]
            rfl
          · rw [List.map_cons, hblank, List.all_cons]
            rfl

/-- The arguments of a written call are read as they are, but for their margins. -/
theorem callArguments?_applied {l : List String} (h : ∀ s ∈ l, Flat s)
    (hvisible : ∀ s ∈ l, isBlankText s = false) (rest : List Char) :
    callArguments? ("( ".toList ++ (commaSeparated l).toList ++ " )".toList ++ rest) =
      some (l.map trim) := by
  have hhead : "( ".toList ++ (commaSeparated l).toList ++ " )".toList ++ rest =
      '(' :: ' ' :: ((commaSeparated l).toList ++ (' ' :: ')' :: rest)) := by simp
  rw [hhead]
  change (argumentsFrom 0 [' '] _).map tidied = _
  by_cases hnil : l = []
  · subst hnil
    rfl
  · obtain ⟨parts, hread, htrim, hblank⟩ := argumentsFrom_commaSeparated hnil h rest
    rw [hread, Option.map_some]
    have htrimmed : l.map trim = parts.map fun part => String.ofList (trimChars part) := by
      have hmap := congrArg (List.map String.ofList) htrim
      rw [List.map_map, List.map_map] at hmap
      exact hmap.symm
    rw [htrimmed]
    unfold tidied
    split
    next only =>
      -- the only argument is not blank
      obtain ⟨s, rfl⟩ : ∃ s, l = [s] := by
        have hlength := congrArg List.length hblank
        rw [List.length_map, List.length_map, List.length_singleton] at hlength
        exact List.length_eq_one_iff.mp hlength.symm
      have hsolid : only.all isBlank = false :=
        (List.cons.inj hblank).1.trans (hvisible s List.mem_cons_self)
      rw [if_neg (by rw [hsolid]; exact Bool.false_ne_true)]
      rfl
    next => rfl

/-! ## Names as arguments -/

/-- The text comes back if it is read as an argument. -/
structure IsArgument (s : String) : Prop where
  flat : Flat s
  trimmed : trim s = s
  solid : isBlankText s = false

theorem IsArgument.of_name {s : String} (hname : ∀ c ∈ s.toList, isNameChar c = true)
    (hne : s ≠ "") : IsArgument s := by
  have hsolid : ∀ l : List Char, (∀ d ∈ l, isNameChar d = true) → l.dropWhile isBlank = l := by
    intro l hl
    cases l with
    | nil => rfl
    | cons d l =>
        rw [List.dropWhile_cons_of_neg]
        rw [isBlank_of_isNameChar (hl d List.mem_cons_self)]
        exact Bool.false_ne_true
  refine ⟨Flat.of_name hname, ?_, ?_⟩
  · rw [trim, trimChars, hsolid _ hname, hsolid _ fun d hd => hname d (List.mem_reverse.mp hd),
      List.reverse_reverse, String.ofList_toList]
  · rw [isBlankText, List.all_eq_false]
    obtain ⟨d, hd⟩ := List.exists_mem_of_ne_nil _ fun hnil => hne (String.toList_eq_nil_iff.mp hnil)
    refine ⟨d, hd, ?_⟩
    rw [isBlank_of_isNameChar (hname d hd)]
    exact Bool.false_ne_true

/-- A call is cut into the name of its function and its arguments. -/
theorem cut_applied {f : String} {arguments : List String}
    (hf : ∀ d ∈ f.toList, isNameChar d = true) (harguments : ∀ s ∈ arguments, IsArgument s)
    (behind : String) :
    String.ofList ((applied f arguments ++ behind).toList.takeWhile isNameChar) = f ∧
      callArguments? ((applied f arguments ++ behind).toList.dropWhile isNameChar) =
        some arguments := by
  have htext : (applied f arguments ++ behind).toList = f.toList ++
      ("( ".toList ++ (commaSeparated arguments).toList ++ " )".toList ++ behind.toList) := by
    simp only [applied, String.toList_append, List.append_assoc]
  have hopen : ∀ l : List Char, ("( ".toList ++ l).takeWhile isNameChar = [] ∧
      ("( ".toList ++ l).dropWhile isNameChar = "( ".toList ++ l := fun l =>
    ⟨List.takeWhile_cons_of_neg (by decide), List.dropWhile_cons_of_neg (by decide)⟩
  rw [htext]
  constructor
  · rw [List.takeWhile_append_of_pos hf, List.append_assoc, List.append_assoc, (hopen _).1,
      List.append_nil, String.ofList_toList]
  · rw [List.dropWhile_append_of_pos hf, List.append_assoc, List.append_assoc, (hopen _).2,
      ← List.append_assoc, ← List.append_assoc,
      callArguments?_applied (fun s hs => (harguments s hs).flat) fun s hs => (harguments s hs).solid,
      List.map_congr_left fun s hs => (harguments s hs).trimmed, List.map_id']

/-! ## Calls and lines -/

/-- Only what comes before the closing parenthesis is looked at. -/
theorem argumentsFrom_extend {depth : Nat} {current cs : List Char} {parts : List (List Char)}
    (h : argumentsFrom depth current cs = some parts) (more : List Char) :
    argumentsFrom depth current (cs ++ more) = some parts := by
  induction cs generalizing depth current parts with
  | nil => exact nomatch h
  | cons c cs ih =>
      rw [argumentsFrom] at h
      rw [List.cons_append, argumentsFrom]
      split_ifs at h ⊢ with hforeign hopen hclose hzero hcomma
      · exact ih h
      · exact h
      · exact ih h
      · obtain ⟨others, hothers, rfl⟩ := Option.map_eq_some_iff.mp h
        rw [ih hothers]
        rfl
      · exact ih h

/-- Nothing is read across a line end. -/
theorem argumentsFrom_line {depth : Nat} {current cs more : List Char} {parts : List (List Char)}
    (hmore : ∀ c ∈ more.head?, isForeign c = true)
    (h : argumentsFrom depth current (cs ++ more) = some parts) :
    argumentsFrom depth current cs = some parts := by
  induction cs generalizing depth current parts with
  | nil =>
      cases more with
      | nil => exact h
      | cons c more =>
          rw [List.nil_append, argumentsFrom, if_pos (hmore c rfl)] at h
          exact nomatch h
  | cons c cs ih =>
      rw [List.cons_append, argumentsFrom] at h
      rw [argumentsFrom]
      split_ifs at h ⊢ with hforeign hopen hclose hzero hcomma
      · exact ih h
      · exact h
      · exact ih h
      · obtain ⟨others, hothers, rfl⟩ := Option.map_eq_some_iff.mp h
        rw [ih hothers]
        rfl
      · exact ih h

theorem callArguments?_extend {cs : List Char} {arguments : List String}
    (h : callArguments? cs = some arguments) (more : List Char) :
    callArguments? (cs ++ more) = some arguments := by
  unfold callArguments? at h
  split at h
  next cs =>
    obtain ⟨parts, hparts, rfl⟩ := Option.map_eq_some_iff.mp h
    rw [List.cons_append, callArguments?, argumentsFrom_extend hparts]
    rfl
  next => exact nomatch h

theorem callArguments?_line {cs more : List Char} {arguments : List String}
    (hmore : ∀ c ∈ more.head?, isForeign c = true)
    (h : callArguments? (cs ++ more) = some arguments) : callArguments? cs = some arguments := by
  cases cs with
  | nil =>
      cases more with
      | nil => exact nomatch h
      | cons c more =>
          have hc := hmore c rfl
          unfold callArguments? at h
          split at h
          next heq =>
            obtain rfl : c = '(' := (List.cons.inj heq).1
            exact absurd hc (by decide)
          next => exact nomatch h
  | cons c cs =>
      unfold callArguments? at h
      split at h
      next tail heq =>
        obtain ⟨rfl, rfl⟩ := List.cons.inj heq
        obtain ⟨parts, hparts, rfl⟩ := Option.map_eq_some_iff.mp h
        rw [callArguments?, argumentsFrom_line hmore hparts]
        rfl
      next => exact nomatch h

end CompilerBackend.Text
