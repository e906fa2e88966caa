import CompilerBackend.Proofs.Text.Printable
/-!
# Reading string literals

A literal is one line between two quotes, with escapes that begin with a backslash. What the escapes
are depends on the kind of the literal: strings of the target, byte strings and character strings of
the compiled language. `LiteralKind.read?` reads a literal back as the bytes or code points that it
stands for.

- `LiteralKind.Spells`: the forms in which a writer may spell a unit, whatever follows.
- `Spells.item`, `Spells.bareQuotes`: such a form is read as the unit and hides no quote.
- `LiteralKind.writes`: so a quoted list of such forms is a literal of the units.
- `literals_read_back`: all three writers of literals use only such forms.
-/

namespace CompilerBackend.Text

/-! ## Digits -/

def isDigitOf (b : Nat) (c : Char) : Bool := c.isAlphanum && digitValue c.toLower < b

/-- How many digits of which base make a number. -/
structure DigitRun where
  base : Nat
  least : Nat
  /-- No bound where as many are taken as there are. -/
  most : Option Nat

def DigitRun.read? (d : DigitRun) (text : List Char) : Option (Nat × List Char) :=
  let digits := (d.most.elim text fun n => text.take n).takeWhile (isDigitOf d.base)
  if digits.length < d.least then none
  else some (valueOf d.base (digits.map Char.toLower).reverse, text.drop digits.length)

/-! ## Kinds of literals -/

/-- The rules by which the literals of a kind are read. A unit is a byte or a code point. -/
structure LiteralKind where
  /-- What is done with a text before it is taken apart into literals. -/
  prepare : List Char → List Char
  /-- What may stand in front of the opening quote. -/
  leads : List String
  quote : Char
  /-- The units of a character that belongs to no escape. -/
  bare? : Char → Option (List Nat)
  /-- Escapes of one character behind the backslash. -/
  letters : List (Char × Nat)
  /-- Escapes of a letter and digits. Octal digits need no letter. -/
  numeric : List (Char × DigitRun)
  /-- The unit that a number stands for. -/
  unit? : Nat → Option Nat
  /-- The units of a backslash and a character that begin no escape. -/
  other? : Char → Option (List Nat)
  quote_apart : quote ≠ '\\' ∧ quote.isAlphanum = false
  leads_apart : ∀ lead ∈ leads, ∀ c ∈ lead.toList, c ≠ quote ∧ c ≠ '\\' ∧ isPrintable c = true

namespace LiteralKind

def number? (k : LiteralKind) (d : DigitRun) (text : List Char) : Option (List Nat × List Char) :=
  (d.read? text).bind fun p => (k.unit? p.1).map fun unit => ([unit], p.2)

def escape? (k : LiteralKind) : List Char → Option (List Nat × List Char)
  | [] => none
  | c :: rest =>
    match k.letters.lookup c with
    | some unit => some ([unit], rest)
    | none =>
      match k.numeric.lookup c with
      | some run => k.number? run rest
      | none =>
        if isDigitOf 8 c then k.number? ⟨8, 1, some 3⟩ (c :: rest)
        else (k.other? c).map fun units => (units, rest)

def item? (k : LiteralKind) : List Char → Option (List Nat × List Char)
  | [] => none
  | c :: rest => if c = '\\' then k.escape? rest else (k.bare? c).map fun units => (units, rest)

/-- What stands between the quotes, at most so many items; the closing quote ends the text. -/
def body? (k : LiteralKind) : Nat → List Char → Option (List Nat)
  | 0, _ => none
  | _ + 1, [] => none
  | n + 1, c :: rest =>
    if c = k.quote then if rest = [] then some [] else none
    else (k.item? (c :: rest)).bind fun p => (k.body? n p.2).map (p.1 ++ ·)

def read? (k : LiteralKind) (text : List Char) : Option (List Nat) :=
  let prepared := k.prepare text
  let lead := prepared.takeWhile (· != k.quote)
  if String.ofList lead ∈ k.leads then k.body? text.length (prepared.drop (lead.length + 1))
  else none

end LiteralKind

def bareQuotes (quote : Char) : Nat → List Char → List Nat
  | _, [] => []
  | place, '\\' :: _ :: rest => bareQuotes quote (place + 2) rest
  | place, c :: rest =>
    if c = quote then place :: bareQuotes quote (place + 1) rest
    else bareQuotes quote (place + 1) rest

def commonLetters : List (Char × Nat) :=
  [('\\', 92), ('\'', 39), ('"', 34), ('a', 7), ('b', 8), ('f', 12), ('n', 10), ('r', 13),
    ('t', 9), ('v', 11)]

def characterBytes (c : Char) : List Nat := (String.utf8EncodeChar c).map UInt8.toNat

/-- Characters for which two question marks and another character can be written. -/
def trigraphs : List (Char × Char) :=
  [('=', '#'), ('/', '\\'), ('\'', '^'), ('(', '['), (')', ']'), ('!', '|'), ('<', '\x7b'),
    ('>', '\x7d'), ('-', '~')]

def trigraph? : List Char → Option Char
  | '?' :: '?' :: c :: _ => trigraphs.lookup c
  | _ => none

/-- The text with every trigraph replaced, the first `skip` characters left out. -/
def replaceTrigraphs : Nat → List Char → List Char
  | _, [] => []
  | skip + 1, _ :: rest => replaceTrigraphs skip rest
  | 0, c :: rest =>
    match trigraph? (c :: rest) with
    | some d => d :: replaceTrigraphs 2 rest
    | none => c :: replaceTrigraphs 0 rest

def joinLines : List Char → List Char
  | [] => []
  | '\\' :: '\n' :: rest => joinLines rest
  | c :: rest => c :: joinLines rest

/-- Strings of the target. A hexadecimal escape takes all the digits there are, an octal one at most
three, and either has to fit a byte. Trigraphs come before escapes. -/
def targetStrings : LiteralKind where
  prepare text := joinLines (replaceTrigraphs 0 text)
  leads := [""]
  quote := '"'
  bare? c := if c = '\n' then none else some (characterBytes c)
  letters := ('?', 63) :: commonLetters
  numeric := [('x', ⟨16, 1, none⟩)]
  unit? n := if n < 256 then some n else none
  other? _ := none
  quote_apart := by decide
  leads_apart := by simp

/-- Byte strings in single quotes. A backslash that begins no escape stands for itself. -/
def byteStrings : LiteralKind where
  prepare text := text
  leads := ["", "b", "B"]
  quote := '\''
  bare? c := if c = '\n' ∨ c = '\r' then none else some (characterBytes c)
  letters := commonLetters
  numeric := [('x', ⟨16, 2, some 2⟩)]
  unit? n := some (n % 256)
  other? c := some (if c = '\n' then [] else 92 :: characterBytes c)
  quote_apart := by decide
  leads_apart := by simp [isPrintable]

/-- Character strings in single quotes. Characters are not read by name. -/
def characterStrings : LiteralKind where
  prepare text := text
  leads := ["u", "U"]
  quote := '\''
  bare? c := if c = '\n' ∨ c = '\r' then none else some [c.toNat]
  letters := commonLetters
  numeric := [('x', ⟨16, 2, some 2⟩), ('u', ⟨16, 4, some 4⟩), ('U', ⟨16, 8, some 8⟩)]
  unit? n := if n < 0x110000 then some n else none
  other? c := if c = 'N' then none else some (if c = '\n' then [] else [92, c.toNat])
  quote_apart := by decide
  leads_apart := by simp [isPrintable]

/-! ## Reading digits -/

theorem isDigitOf_digitChar {b d : Nat} (hb : b ≤ 16) (h : d < b) :
    isDigitOf b (Nat.digitChar d) = true ∧ (Nat.digitChar d).toLower = Nat.digitChar d := by
  have hall : ∀ d < 16, (Nat.digitChar d).isAlphanum = true ∧
      (Nat.digitChar d).toLower = Nat.digitChar d := by
    decide
  obtain ⟨halnum, hlower⟩ := hall d (by omega)
  refine ⟨?_, hlower⟩
  rw [isDigitOf, halnum, hlower, digitValue_digitChar (by omega)]
  exact decide_eq_true h

/-- Padded digits are read as their number, whatever follows them. -/
theorem read_paddedDigits {b width n least : Nat} (h0 : 0 < b) (hb : b ≤ 16) (hn : n < b ^ width)
    (hleast : least ≤ width) (rest : List Char) :
    DigitRun.read? ⟨b, least, some width⟩ (paddedDigits b width n ++ rest) = some (n, rest) := by
  have hdigit : ∀ c ∈ paddedDigits b width n, isDigitOf b c = true ∧ c.toLower = c := by
    intro c hc
    obtain ⟨d, hd, rfl⟩ := mem_paddedDigits h0 hc
    exact isDigitOf_digitChar hb hd
  have hlength := length_paddedDigits b width n
  have htake : ((paddedDigits b width n ++ rest).take width).takeWhile (isDigitOf b) =
      paddedDigits b width n := by
    rw [List.take_left' hlength]
    exact List.takeWhile_eq_self_iff.mpr fun c hc => (hdigit c hc).1
  have hlower : (paddedDigits b width n).map Char.toLower = paddedDigits b width n := by
    rw [List.map_congr_left (g := id) fun c hc => (hdigit c hc).2, List.map_id]
  have hvalue : valueOf b (paddedDigits b width n).reverse = n := by
    rw [paddedDigits, List.reverse_reverse, valueOf_digitsFrom h0 hb, Nat.mod_eq_of_lt hn]
  simp only [DigitRun.read?, Option.elim_some, htake, hlower, hvalue, hlength,
    if_neg (Nat.not_lt.mpr hleast), List.drop_left' hlength]

/-! ## Forms of a unit -/

namespace LiteralKind

variable {k : LiteralKind} {units : List Nat} {form : List Char}

/-- The forms in which a unit can be written so that it does not matter what follows. -/
inductive Spells (k : LiteralKind) : List Nat → List Char → Prop
  | bare {c : Char} {units : List Nat} (ne_backslash : c ≠ '\\') (ne_quote : c ≠ k.quote)
      (stands : k.bare? c = some units) : Spells k units [c]
  | letter {c : Char} {unit : Nat} (stands : k.letters.lookup c = some unit) :
      Spells k [unit] ['\\', c]
  | octal {n unit : Nat} (fits : n < 8 ^ 3)
      (free : ∀ d < 8, k.letters.lookup (Nat.digitChar d) = none ∧
        k.numeric.lookup (Nat.digitChar d) = none)
      (stands : k.unit? n = some unit) : Spells k [unit] ('\\' :: paddedDigits 8 3 n)
  | hexadecimal {c : Char} {width n unit : Nat} (fits : n < 16 ^ width)
      (free : k.letters.lookup c = none)
      (announces : k.numeric.lookup c = some ⟨16, width, some width⟩)
      (stands : k.unit? n = some unit) : Spells k [unit] ('\\' :: c :: paddedDigits 16 width n)

namespace Spells

/-- A form is read as its units, and what follows is left. -/
theorem item (h : k.Spells units form) (rest : List Char) :
    k.item? (form ++ rest) = some (units, rest) := by
  cases h with
  | bare hbackslash _ hunits =>
      rw [List.singleton_append, item?, if_neg hbackslash, hunits]
      rfl
  | letter hunit =>
      show k.escape? (_ :: rest) = _
      rw [escape?, hunit]
  | @octal n unit hn hfree hunit =>
      have hread : DigitRun.read? ⟨8, 1, some 3⟩ (paddedDigits 8 3 n ++ rest) = some (n, rest) :=
        read_paddedDigits (by decide) (by decide) hn (by decide) rest
      obtain ⟨d, e, f, -, hdigits⟩ := paddedDigits_octal n
      have hmem : d ∈ paddedDigits 8 3 n := hdigits ▸ List.mem_cons_self
      obtain ⟨m, hm, rfl⟩ := mem_paddedDigits (by decide) hmem
      obtain ⟨hletter, hnumeric⟩ := hfree m hm
      rw [hdigits] at hread ⊢
      show k.escape? (Nat.digitChar m :: e :: f :: rest) = _
      rw [escape?, hletter]
      dsimp only
      rw [hnumeric]
      dsimp only
      rw [if_pos (isDigitOf_digitChar (by decide) hm).1, number?]
      exact (congrArg (Option.bind · _) hread).trans (by rw [Option.bind_some, hunit]; rfl)
  | @hexadecimal c width n unit hn hfree hnumeric hunit =>
      have hread := read_paddedDigits (by decide) (le_refl 16) hn (le_refl width) rest
      show k.escape? (c :: (paddedDigits 16 width n ++ rest)) = _
      rw [escape?, hfree]
      dsimp only
      rw [hnumeric]
      dsimp only
      rw [number?, hread, Option.bind_some, hunit]
      rfl

/-- A form begins with no quote. -/
theorem exists_cons (h : k.Spells units form) : ∃ c rest, form = c :: rest ∧ c ≠ k.quote := by
  cases h with
  | bare _ hquote _ => exact ⟨_, _, rfl, hquote⟩
  | letter _ => exact ⟨_, _, rfl, k.quote_apart.1.symm⟩
  | octal _ _ _ => exact ⟨_, _, rfl, k.quote_apart.1.symm⟩
  | hexadecimal _ _ _ _ => exact ⟨_, _, rfl, k.quote_apart.1.symm⟩

end Spells
end LiteralKind

/-! ## Quotes -/

section

variable {quote c : Char} {place : Nat} {rest : List Char}

theorem bareQuotes_of_ne (h : c ≠ '\\') : bareQuotes quote place (c :: rest) =
    if c = quote then place :: bareQuotes quote (place + 1) rest
    else bareQuotes quote (place + 1) rest := by
  conv_lhs => unfold bareQuotes
  split
  · exact absurd ‹_› (List.cons_ne_nil _ _)
  · exact absurd (List.cons.inj ‹_›).1 h
  · obtain ⟨rfl, rfl⟩ := List.cons.inj ‹_›
    rfl

/-- Characters that are neither quotes nor backslashes are passed over. -/
theorem bareQuotes_append {cs : List Char} (h : ∀ c ∈ cs, c ≠ '\\' ∧ c ≠ quote) (place : Nat)
    (rest : List Char) :
    bareQuotes quote place (cs ++ rest) = bareQuotes quote (place + cs.length) rest := by
  induction cs generalizing place with
  | nil => rfl
  | cons c cs ih =>
      obtain ⟨hbackslash, hquote⟩ := h c List.mem_cons_self
      rw [List.cons_append, bareQuotes_of_ne hbackslash, if_neg hquote,
        ih fun d hd => h d (List.mem_cons_of_mem c hd), List.length_cons, Nat.add_right_comm]
      rfl

end

namespace LiteralKind

variable {k : LiteralKind} {units : List Nat} {form : List Char}

/-- Digits are neither quotes nor backslashes. -/
theorem digits_apart (k : LiteralKind) {b width n : Nat} (h0 : 0 < b) (hb : b ≤ 16) {c : Char}
    (h : c ∈ paddedDigits b width n) : c ≠ '\\' ∧ c ≠ k.quote := by
  obtain ⟨d, hd, rfl⟩ := mem_paddedDigits h0 h
  have halnum : (Nat.digitChar d).isAlphanum = true :=
    (Bool.and_eq_true_iff.mp (isDigitOf_digitChar hb hd).1).1
  constructor
  · intro heq
    rw [heq] at halnum
    exact absurd halnum (by decide)
  · intro heq
    rw [heq, k.quote_apart.2] at halnum
    exact Bool.noConfusion halnum

/-- A form has no bare quote, whatever follows. -/
theorem Spells.bareQuotes (h : k.Spells units form) (place : Nat) (rest : List Char) :
    bareQuotes k.quote place (form ++ rest) = bareQuotes k.quote (place + form.length) rest := by
  cases h with
  | bare hbackslash hquote _ =>
      refine bareQuotes_append (fun d hd => ?_) place rest
      rw [List.mem_singleton.mp hd]
      exact ⟨hbackslash, hquote⟩
  | letter _ => rfl
  | @octal n _ _ _ _ =>
      obtain ⟨d, e, f, -, hdigits⟩ := paddedDigits_octal n
      have hapart : ∀ c ∈ [e, f], c ≠ '\\' ∧ c ≠ k.quote := by
        intro c hc
        have hmem : c ∈ paddedDigits 8 3 n := hdigits ▸ List.mem_cons_of_mem d hc
        exact k.digits_apart (by decide) (by decide) hmem
      rw [hdigits]
      exact bareQuotes_append hapart (place + 2) rest
  | @hexadecimal c width n _ _ _ _ _ =>
      have hapart : ∀ d ∈ paddedDigits 16 width n, d ≠ '\\' ∧ d ≠ k.quote := fun d hd =>
        k.digits_apart (by decide) (le_refl 16) hd
      have hlength : ('\\' :: c :: paddedDigits 16 width n).length =
          2 + (paddedDigits 16 width n).length := by
        rw [List.length_cons, List.length_cons]
        omega
      rw [hlength, ← Nat.add_assoc]
      exact bareQuotes_append hapart (place + 2) rest

/-! ## Whole literals -/

variable {α : Type} {l : List α} {f : α → List Char} {g : α → List Nat}

theorem body_flatMap (h : ∀ a ∈ l, k.Spells (g a) (f a)) {n : Nat} (hn : (l.flatMap f).length < n) :
    k.body? n (l.flatMap f ++ [k.quote]) = some (l.flatMap g) := by
  induction l generalizing n with
  | nil =>
      obtain ⟨n, rfl⟩ : ∃ m, n = m + 1 := ⟨n - 1, by omega⟩
      rw [List.flatMap_nil, List.nil_append, body?, if_pos rfl, if_pos rfl]
      rfl
  | cons a l ih =>
      obtain ⟨n, rfl⟩ : ∃ m, n = m + 1 := ⟨n - 1, by omega⟩
      have ha := h a List.mem_cons_self
      obtain ⟨c, rest, hform, hquote⟩ := ha.exists_cons
      have hitem := ha.item (l.flatMap f ++ [k.quote])
      rw [List.flatMap_cons, List.length_append, hform, List.length_cons] at hn
      rw [List.flatMap_cons, List.append_assoc]
      rw [hform, List.cons_append] at hitem ⊢
      rw [body?, if_neg hquote, hitem, Option.bind_some,
        ih (fun b hb => h b (List.mem_cons_of_mem a hb)) (by omega)]
      rfl

theorem bareQuotes_flatMap (h : ∀ a ∈ l, k.Spells (g a) (f a)) (place : Nat) (rest : List Char) :
    bareQuotes k.quote place (l.flatMap f ++ rest) =
      bareQuotes k.quote (place + (l.flatMap f).length) rest := by
  induction l generalizing place with
  | nil => rfl
  | cons a l ih =>
      rw [List.flatMap_cons, List.append_assoc, (h a List.mem_cons_self).bareQuotes,
        ih fun b hb => h b (List.mem_cons_of_mem a hb), List.length_append, Nat.add_assoc]

/-- The text is a literal of the units, in printable characters; its only bare quotes are the one
that opens it and the one at its end. -/
structure Writes (k : LiteralKind) (units : List Nat) (text : String) : Prop where
  read : k.read? text.toList = some units
  printable : Printable text
  quotes : bareQuotes k.quote 0 (k.prepare text.toList) =
    [((k.prepare text.toList).takeWhile (· != k.quote)).length, (k.prepare text.toList).length - 1]

/-- A quoted list of forms that are printable is a literal. -/
theorem writes (lead : String) {text : String} (hlead : lead ∈ k.leads)
    (hform : ∀ a ∈ l, k.Spells (g a) (f a)) (hprintable : ∀ a ∈ l, ∀ c ∈ f a, isPrintable c = true)
    (hquote : isPrintable k.quote = true)
    (htext : text.toList = lead.toList ++ k.quote :: (l.flatMap f ++ [k.quote]))
    (hprepare : k.prepare text.toList = text.toList) : k.Writes (l.flatMap g) text := by
  have hapart := k.leads_apart lead hlead
  have hopening : text.toList.takeWhile (· != k.quote) = lead.toList := by
    rw [htext, List.takeWhile_append_of_pos fun c hc => bne_iff_ne.mpr (hapart c hc).1,
      List.takeWhile_cons_of_neg (by simp), List.append_nil]
  refine ⟨?_, fun c hc => ?_, ?_⟩
  · have hbody : text.toList.drop (lead.toList.length + 1) = l.flatMap f ++ [k.quote] := by
      rw [htext, List.append_cons]
      exact List.drop_left' (by rw [List.length_append]; rfl)
    simp only [read?, hprepare, hopening, String.ofList_toList, if_pos hlead, hbody]
    refine body_flatMap hform ?_
    rw [htext, List.length_append, List.length_cons, List.length_append]
    omega
  · rw [htext, List.mem_append, List.mem_cons, List.mem_append, List.mem_singleton] at hc
    rcases hc with hc | rfl | hc | rfl
    · exact (hapart c hc).2.2
    · exact hquote
    · obtain ⟨a, ha, hc⟩ := List.mem_flatMap.mp hc
      exact hprintable a ha c hc
    · exact hquote
  · have hlength : text.toList.length - 1 = lead.toList.length + 1 + (l.flatMap f).length := by
      rw [htext, List.length_append, List.length_cons, List.length_append, List.length_singleton]
      omega
    have hnone : ∀ place, bareQuotes k.quote place [k.quote] = [place] := fun place => by
      rw [bareQuotes_of_ne k.quote_apart.1, if_pos rfl]
      rfl
    rw [hprepare, hopening, hlength, htext,
      bareQuotes_append (fun c hc => ⟨(hapart c hc).2.1, (hapart c hc).1⟩), Nat.zero_add,
      bareQuotes_of_ne k.quote_apart.1, if_pos rfl, bareQuotes_flatMap hform, hnone]

end LiteralKind

/-! ## Writers -/

theorem bytes_of_printable {c : Char} (h : isPrintable c = true) :
    characterBytes c = [c.toNat] := by
  obtain ⟨-, hle⟩ := isPrintable_eq_true.mp h
  have hsize : c.utf8Size = 1 := by
    rw [Char.utf8Size_eq_one_iff, UInt32.le_iff_toNat_le]
    exact hle.trans (by decide)
  rw [characterBytes, String.utf8EncodeChar_eq_singleton hsize, List.map_singleton,
    UInt32.toNat_toUInt8]
  exact congrArg (fun n => [n]) (Nat.mod_eq_of_lt (hle.trans_lt (by decide)))

theorem spells_targetStringChars (b : UInt8) :
    targetStrings.Spells [b.toNat] (targetStringChars b) := by
  have hlt : b.toNat < 256 := b.toNat_lt
  have hval := toNat_ofNat_byte b
  unfold targetStringChars
  split
  case h_4 hbackslash hquote _ =>
      split_ifs with hvisible
      · have hprintable : isPrintable (Char.ofNat b.toNat) = true :=
          isPrintable_eq_true.mpr (by rw [hval]; exact hvisible)
        refine .bare hbackslash hquote ?_
        show (if _ then _ else some (characterBytes _)) = _
        rw [bytes_of_printable hprintable, hval, if_neg]
        intro hline
        rw [hline] at hprintable
        exact absurd hprintable (by decide)
      · exact .octal (hlt.trans (by decide)) (by decide) (if_pos hlt)
  all_goals
    next hc =>
      rw [← hval, hc]
      exact .letter rfl

/-- The letter and the number of digits of the shortest escape for a code point. -/
def hexEscape (n : Nat) : Char × Nat :=
  if n < 0x100 then ('x', 2) else if n < 0x10000 then ('u', 4) else ('U', 8)

/-- A kind with the common escapes reads the escapes of a character, if it has the numeric one that
the character needs. -/
theorem spells_unicodeLiteralChars {k : LiteralKind} {c : Char} (hquote : k.quote = '\'')
    (hletters : k.letters = commonLetters)
    (hbare : isPrintable c = true → k.bare? c = some [c.toNat])
    (hnumeric : k.numeric.lookup (hexEscape c.toNat).1 =
      some ⟨16, (hexEscape c.toNat).2, some (hexEscape c.toNat).2⟩)
    (hunit : k.unit? c.toNat = some c.toNat) : k.Spells [c.toNat] (unicodeLiteralChars c) := by
  unfold unicodeLiteralChars
  split
  case h_6 hbackslash hquoted _ _ _ =>
      simp only
      split_ifs with hvisible hx hu
      · exact .bare hbackslash (hquote ▸ hquoted) (hbare (isPrintable_eq_true.mpr hvisible))
      · have hchoice : hexEscape c.toNat = ('x', 2) := if_pos hx
        rw [hchoice] at hnumeric
        exact .hexadecimal hx (hletters ▸ rfl) hnumeric hunit
      · have hchoice : hexEscape c.toNat = ('u', 4) := by rw [hexEscape, if_neg hx, if_pos hu]
        rw [hchoice] at hnumeric
        exact .hexadecimal hu (hletters ▸ rfl) hnumeric hunit
      · have hchoice : hexEscape c.toNat = ('U', 8) := by rw [hexEscape, if_neg hx, if_neg hu]
        rw [hchoice] at hnumeric
        exact .hexadecimal (char_lt c) (hletters ▸ rfl) hnumeric hunit
  all_goals exact .letter (hletters ▸ rfl)

theorem ne_lineEnd_of_printable {c : Char} (h : isPrintable c = true) :
    ¬ (c = '\n' ∨ c = '\r') := by
  rintro (rfl | rfl)
  · exact absurd h (by decide)
  · exact absurd h (by decide)

theorem spells_characterStrings (c : Char) :
    characterStrings.Spells [c.toNat] (unicodeLiteralChars c) := by
  refine spells_unicodeLiteralChars rfl rfl (fun hc => if_neg (ne_lineEnd_of_printable hc)) ?_ ?_
  · unfold hexEscape
    split_ifs <;> rfl
  · have hvalid := c.valid
    simp only [UInt32.isValidChar, Nat.isValidChar] at hvalid
    have hlt : c.toNat < 0x110000 := by
      show c.val.toNat < _
      omega
    exact if_pos hlt

theorem spells_byteStrings (b : UInt8) : byteStrings.Spells [b.toNat] (byteLiteralChars b) := by
  have hlt : b.toNat < 256 := b.toNat_lt
  have hval := toNat_ofNat_byte b
  have hspells : byteStrings.Spells [(Char.ofNat b.toNat).toNat]
      (unicodeLiteralChars (Char.ofNat b.toNat)) := by
    refine spells_unicodeLiteralChars rfl rfl (fun hc => ?_) ?_ ?_
    · show (if _ then _ else some (characterBytes _)) = _
      rw [if_neg (ne_lineEnd_of_printable hc), bytes_of_printable hc]
    · have hchoice : hexEscape b.toNat = ('x', 2) := if_pos hlt
      rw [hval, hchoice]
      rfl
    · rw [hval]
      exact congrArg some (Nat.mod_eq_of_lt hlt)
  rwa [hval, ← byteLiteralChars_eq] at hspells

/-! ## What is done before -/

theorem joinLines_of_flat {text : List Char} (h : '\n' ∉ text) : joinLines text = text := by
  fun_induction joinLines text with
  | case1 => rfl
  | case2 rest _ => exact absurd (List.mem_cons_of_mem _ List.mem_cons_self) h
  | case3 c rest _ ih => rw [ih fun hmem => h (List.mem_cons_of_mem c hmem)]

/-- A character starts no trigraph if it is no question mark, or none follows. -/
theorem replaceTrigraphs_cons {c : Char} {rest : List Char}
    (h : c = '?' → rest.head? ≠ some '?') :
    replaceTrigraphs 0 (c :: rest) = c :: replaceTrigraphs 0 rest := by
  have hnone : trigraph? (c :: rest) = none := by
    unfold trigraph?
    split
    case h_1 heq =>
        obtain ⟨rfl, rfl⟩ := List.cons.inj heq
        exact absurd rfl (h rfl)
    case h_2 => rfl
  rw [replaceTrigraphs, hnone]

theorem replaceTrigraphs_append {cs : List Char} (h : '?' ∉ cs) (rest : List Char) :
    replaceTrigraphs 0 (cs ++ rest) = cs ++ replaceTrigraphs 0 rest := by
  induction cs with
  | nil => rfl
  | cons c cs ih =>
      rw [List.cons_append, replaceTrigraphs_cons fun hc => absurd (hc ▸ List.mem_cons_self) h,
        ih fun hmem => h (List.mem_cons_of_mem c hmem), List.cons_append]

/-- A question mark is written behind a backslash. -/
theorem targetStringChars_question (b : UInt8) :
    targetStringChars b = ['\\', '?'] ∨ '?' ∉ targetStringChars b := by
  unfold targetStringChars
  split
  case h_1 => exact Or.inr (by decide)
  case h_2 => exact Or.inr (by decide)
  case h_3 => exact Or.inl rfl
  case h_4 hquestion =>
      right
      split_ifs with hvisible
      · exact fun hmem => hquestion (List.mem_singleton.mp hmem).symm
      · rw [List.mem_cons, not_or]
        refine ⟨by decide, fun hmem => ?_⟩
        obtain ⟨d, hd, heq⟩ := mem_paddedDigits (by decide) hmem
        have hall : ∀ d < 8, '?' ≠ Nat.digitChar d := by decide
        exact hall d hd heq

/-- A target string has no trigraph. -/
theorem replaceTrigraphs_flatMap (bytes : List UInt8) :
    replaceTrigraphs 0 (bytes.flatMap targetStringChars ++ ['"']) =
        bytes.flatMap targetStringChars ++ ['"'] ∧
      (bytes.flatMap targetStringChars ++ ['"']).head? ≠ some '?' := by
  induction bytes with
  | nil => exact ⟨rfl, by decide⟩
  | cons b bytes ih =>
      obtain ⟨hsame, hhead⟩ := ih
      rw [List.flatMap_cons, List.append_assoc]
      rcases targetStringChars_question b with hform | hform
      · rw [hform]
        refine ⟨?_, by simp⟩
        rw [List.cons_append, List.singleton_append,
          replaceTrigraphs_cons fun hc => absurd hc (by decide),
          replaceTrigraphs_cons fun _ => hhead, hsame]
      · obtain ⟨c, rest, hcons, -⟩ := (spells_targetStringChars b).exists_cons
        refine ⟨by rw [replaceTrigraphs_append hform, hsame], ?_⟩
        rw [hcons, List.cons_append, List.head?_cons]
        intro hc
        rw [hcons, Option.some.inj hc] at hform
        exact hform List.mem_cons_self

/-! ## All writers -/

theorem isPrintable_of_mem_unicodeLiteralChars {c d : Char} (h : d ∈ unicodeLiteralChars c) :
    isPrintable d = true := by
  have hdigits : ∀ letter width, isPrintable letter = true →
      d ∈ '\\' :: letter :: paddedDigits 16 width c.toNat → isPrintable d = true := by
    intro letter width hletter hmem
    rcases List.mem_cons.mp hmem with rfl | hmem
    · decide
    rcases List.mem_cons.mp hmem with rfl | hmem
    · exact hletter
    · exact isPrintable_of_mem_paddedDigits (by decide) (le_refl 16) hmem
  unfold unicodeLiteralChars at h
  split at h
  case h_6 =>
      simp only at h
      split_ifs at h with hvisible
      · rw [List.mem_singleton.mp h]
        exact isPrintable_eq_true.mpr hvisible
      · exact hdigits 'x' 2 (by decide) h
      · exact hdigits 'u' 4 (by decide) h
      · exact hdigits 'U' 8 (by decide) h
  all_goals
    simp only [List.mem_cons, List.not_mem_nil, or_false] at h
    rcases h with rfl | rfl <;> decide

theorem writes_targetString (bytes : List UInt8) :
    targetStrings.Writes (bytes.map UInt8.toNat) (targetString bytes) := by
  have htext : (targetString bytes).toList = '"' :: (bytes.flatMap targetStringChars ++ ['"']) := by
    simp [targetString]
  have hprepare :
      targetStrings.prepare (targetString bytes).toList = (targetString bytes).toList := by
    show joinLines (replaceTrigraphs 0 _) = _
    have hsame : replaceTrigraphs 0 (targetString bytes).toList = (targetString bytes).toList := by
      rw [htext, replaceTrigraphs_cons fun hc => absurd hc (by decide),
        (replaceTrigraphs_flatMap bytes).1]
    rw [hsame, joinLines_of_flat (printable_targetString bytes).isLine.flat]
  have hwrites := LiteralKind.writes (k := targetStrings) (l := bytes) "" List.mem_cons_self
    (fun b _ => spells_targetStringChars b)
    (fun b _ c hc => isPrintable_of_mem_targetStringChars hc) (by decide) htext hprepare
  rwa [← List.map_eq_flatMap] at hwrites

theorem writes_byteLiteral {letter : String} (hletter : letter ∈ byteStrings.leads)
    (bytes : List UInt8) :
    byteStrings.Writes (bytes.map UInt8.toNat) (byteLiteral letter bytes) := by
  have htext : (byteLiteral letter bytes).toList =
      letter.toList ++ '\'' :: (bytes.flatMap byteLiteralChars ++ ['\'']) := by
    simp [byteLiteral]
  have hprintable : ∀ b ∈ bytes, ∀ c ∈ byteLiteralChars b, isPrintable c = true := by
    intro b _ c hc
    rw [byteLiteralChars_eq] at hc
    exact isPrintable_of_mem_unicodeLiteralChars hc
  have hwrites := LiteralKind.writes (k := byteStrings) (l := bytes) letter hletter
    (fun b _ => spells_byteStrings b) hprintable (by decide) htext rfl
  rwa [← List.map_eq_flatMap] at hwrites

theorem writes_unicodeLiteral (s : String) :
    characterStrings.Writes (s.toList.map Char.toNat) (unicodeLiteral s) := by
  have htext : (unicodeLiteral s).toList =
      "u".toList ++ '\'' :: (s.toList.flatMap unicodeLiteralChars ++ ['\'']) := by
    simp [unicodeLiteral]
  have hwrites := LiteralKind.writes (k := characterStrings) (l := s.toList) "u"
    List.mem_cons_self (fun c _ => spells_characterStrings c)
    (fun c _ d hd => isPrintable_of_mem_unicodeLiteralChars hd) (by decide) htext rfl
  rwa [← List.map_eq_flatMap] at hwrites

/-- What is written as a literal is read back: bytes as a string of the target and as a byte string,
characters by their code points as a character string. All three are printable, and no quote in them
is bare but the one that opens the literal and the one that ends it. -/
theorem literals_read_back (bytes : List UInt8) (s : String) {letter : String}
    (hletter : letter ∈ byteStrings.leads) :
    targetStrings.Writes (bytes.map UInt8.toNat) (targetString bytes) ∧
      byteStrings.Writes (bytes.map UInt8.toNat) (byteLiteral letter bytes) ∧
        characterStrings.Writes (s.toList.map Char.toNat) (unicodeLiteral s) :=
  ⟨writes_targetString bytes, writes_byteLiteral hletter bytes, writes_unicodeLiteral s⟩

/-- Two question marks and a slash, a zero before a digit, a quote behind a backslash, and
characters of every width. -/
theorem literals_read_back_mixed : "b" ∈ byteStrings.leads ∧
    targetString [63, 63, 47, 0, 49, 92, 34] = "\"\\?\\?/\\0001\\\\\\\"\"" ∧
      targetStrings.read? "\"\\?\\?/\\0001\\\\\\\"\"".toList = some [63, 63, 47, 0, 49, 92, 34] ∧
        byteStrings.read? (byteLiteral "b" [63, 63, 47, 0, 49, 92, 34]).toList =
            some [63, 63, 47, 0, 49, 92, 34] ∧
          characterStrings.read? (unicodeLiteral "\x7fÿĀ😀0").toList =
            some [127, 255, 256, 128512, 48] := by
  have hletter : "b" ∈ byteStrings.leads := by decide
  have hform : targetString [63, 63, 47, 0, 49, 92, 34] = "\"\\?\\?/\\0001\\\\\\\"\"" := by
    decide +kernel
  obtain ⟨htarget, hbytes, hcharacters⟩ :=
    literals_read_back [63, 63, 47, 0, 49, 92, 34] "\x7fÿĀ😀0" hletter
  refine ⟨hletter, hform, ?_, hbytes.read, ?_⟩
  · rw [← hform]
    exact htarget.read
  · have hpoints : ("\x7fÿĀ😀0".toList.map Char.toNat) = [127, 255, 256, 128512, 48] := by
      decide +kernel
    rw [← hpoints]
    exact hcharacters.read

end CompilerBackend.Text
