import CompilerBackend.Proofs.Json.Grammar
import Mathlib
/-!
# Whatever the grammar writes is read

The reader takes the longest piece that it can off the front of a text. Strings and brackets close
themselves; a number does not, so what follows a value has to be something that no number goes on
with, and blanks, commas and closing brackets are. Reading goes a level deeper for each value and
for each comma, and each of them takes a character of the text, so that the levels that the length
of the text allows are enough.

- `pieceChars?_eq_some_iff`: pieces denote the text whose UTF-16 they spell.
- `Written.isRead`: phrases are read, by induction on how they are written.
- `followsGrammar_ofText?`: texts are read.
-/

namespace CompilerBackend.Json

/-! ## Code units -/

variable {ps : List Piece} {cs ds rest : List Char} {c : Char} {n m : Nat}

theorem utf16_of_lt (h : c.toNat < 0x10000) : utf16 c = [c.toNat] := if_pos h

theorem utf16_of_le (h : 0x10000 ≤ c.toNat) :
    utf16 c = [0xd800 + (c.toNat - 0x10000) / 0x400, 0xdc00 + (c.toNat - 0x10000) % 0x400] :=
  if_neg (Nat.not_lt.mpr h)

/-- No character is half of a surrogate pair. -/
theorem toNat_apart (c : Char) : c.toNat < 0xd800 ∨ 0xdfff < c.toNat ∧ c.toNat < 0x110000 :=
  c.valid

theorem isHighUnit_iff : isHighUnit n = true ↔ 0xd800 ≤ n ∧ n ≤ 0xdbff := by
  simp [isHighUnit]

theorem isLowUnit_iff : isLowUnit n = true ↔ 0xdc00 ≤ n ∧ n ≤ 0xdfff := by
  simp [isLowUnit]

theorem toNat_ofNat_of_unit (hn : n < 0x10000) (hhigh : ¬ isHighUnit n = true)
    (hlow : ¬ isLowUnit n = true) : (Char.ofNat n).toNat = n := by
  rw [isHighUnit_iff] at hhigh
  rw [isLowUnit_iff] at hlow
  rw [Char.toNat_ofNat, if_pos]
  unfold Nat.isValidChar
  omega

theorem utf16_pairChar (hn : isHighUnit n = true) (hm : isLowUnit m = true) :
    utf16 (pairChar n m) = [n, m] := by
  rw [isHighUnit_iff] at hn
  rw [isLowUnit_iff] at hm
  have hvalue : (pairChar n m).toNat = 0x10000 + (n - 0xd800) * 0x400 + (m - 0xdc00) := by
    rw [pairChar, Char.toNat_ofNat, if_pos]
    unfold Nat.isValidChar
    omega
  rw [utf16_of_le (by omega), hvalue]
  have hhigh : 0xd800 + (0x10000 + (n - 0xd800) * 0x400 + (m - 0xdc00) - 0x10000) / 0x400 = n := by
    omega
  have hlow : 0xdc00 + (0x10000 + (n - 0xd800) * 0x400 + (m - 0xdc00) - 0x10000) % 0x400 = m := by
    omega
  rw [hhigh, hlow]

/-- A character is one unit that is no half of a pair, or a pair. -/
theorem utf16_cases (c : Char) :
    (utf16 c = [c.toNat] ∧ ¬ isHighUnit c.toNat = true ∧ ¬ isLowUnit c.toNat = true) ∨
      ∃ high low, utf16 c = [high, low] ∧ isHighUnit high = true ∧ isLowUnit low = true ∧
        pairChar high low = c := by
  have hapart := toNat_apart c
  rcases Nat.lt_or_ge c.toNat 0x10000 with hlt | hle
  · left
    rw [isHighUnit_iff, isLowUnit_iff]
    exact ⟨utf16_of_lt hlt, by omega, by omega⟩
  · right
    refine ⟨_, _, utf16_of_le hle, isHighUnit_iff.mpr (by omega), isLowUnit_iff.mpr (by omega), ?_⟩
    rw [pairChar, show 0x10000 + (0xd800 + (c.toNat - 0x10000) / 0x400 - 0xd800) * 0x400 +
      (0xdc00 + (c.toNat - 0x10000) % 0x400 - 0xdc00) = c.toNat by omega]
    exact Char.ofNat_toNat c

theorem utf16_ne_nil (c : Char) : utf16 c ≠ [] := by
  rcases utf16_cases c with ⟨h, -⟩ | ⟨high, low, h, -⟩
  · rw [h]
    exact List.cons_ne_nil _ _
  · rw [h]
    exact List.cons_ne_nil _ _

theorem utf16_ofNat (hn : n < 0x10000) (hhigh : ¬ isHighUnit n = true)
    (hlow : ¬ isLowUnit n = true) : utf16 (Char.ofNat n) = [n] := by
  have hvalue := toNat_ofNat_of_unit hn hhigh hlow
  rw [utf16_of_lt (by rw [hvalue]; exact hn), hvalue]

/-- The units at the beginning of a text tell its first character. -/
theorem utf16_append_inj {d : Char} {xs ys : List Nat} (h : utf16 c ++ xs = utf16 d ++ ys) :
    c = d ∧ xs = ys := by
  rcases utf16_cases c with ⟨hc, hch, -⟩ | ⟨high, low, hc, hhigh, -, hpair⟩
  · rcases utf16_cases d with ⟨hd, -⟩ | ⟨high', low', hd, hhigh', -⟩
    · rw [hc, hd] at h
      obtain ⟨hcd, hrest⟩ := List.cons.inj h
      exact ⟨Char.toNat_inj.mp hcd, hrest⟩
    · rw [hc, hd] at h
      exact absurd ((List.cons.inj h).1 ▸ hhigh') hch
  · rcases utf16_cases d with ⟨hd, hdh, -⟩ | ⟨high', low', hd, -, -, hpair'⟩
    · rw [hc, hd] at h
      exact absurd ((List.cons.inj h).1 ▸ hhigh) hdh
    · rw [hc, hd] at h
      obtain ⟨rfl, htail⟩ := List.cons.inj h
      obtain ⟨rfl, hrest⟩ := List.cons.inj htail
      exact ⟨hpair.symm.trans hpair', hrest⟩

/-- A unit in front of a text is a character of its own or the first half of a pair. -/
theorem unit_cases {xs : List Nat} (h : n :: xs = cs.flatMap utf16) :
    (¬ isHighUnit n = true ∧ ¬ isLowUnit n = true) ∨
      isHighUnit n = true ∧ ∃ low ys, isLowUnit low = true ∧ xs = low :: ys := by
  cases cs with
  | nil => exact absurd h (List.cons_ne_nil _ _)
  | cons d ds =>
      rw [List.flatMap_cons] at h
      rcases utf16_cases d with ⟨hd, hhigh, hlow⟩ | ⟨high, low, hd, hhigh, hlow, -⟩
      · rw [hd] at h
        rw [(List.cons.inj h).1]
        exact Or.inl ⟨hhigh, hlow⟩
      · rw [hd] at h
        obtain ⟨rfl, hrest⟩ := List.cons.inj h
        exact Or.inr ⟨hhigh, low, _, hlow, hrest⟩

/-- One more character in front of what has been read. -/
theorem map_cons_eq_some_iff {read : Option (List Char)} {xs : List Nat} (c : Char)
    (cs : List Char) (ih : ∀ cs, read = some cs ↔ xs = cs.flatMap utf16) :
    read.map (c :: ·) = some cs ↔ utf16 c ++ xs = cs.flatMap utf16 := by
  rw [Option.map_eq_some_iff]
  constructor
  · rintro ⟨rest, hread, rfl⟩
    rw [List.flatMap_cons, (ih rest).mp hread]
  · intro h
    cases cs with
    | nil => exact absurd (List.append_eq_nil_iff.mp h).1 (utf16_ne_nil c)
    | cons d ds =>
        rw [List.flatMap_cons] at h
        obtain ⟨rfl, hrest⟩ := utf16_append_inj h
        exact ⟨ds, (ih ds).mpr hrest, rfl⟩

/-- No character begins with the second half of a pair. -/
theorem not_isLowUnit_of_append {xs ys : List Nat} (h : utf16 c ++ xs = n :: ys) :
    ¬ isLowUnit n = true := by
  rcases utf16_cases c with ⟨hc, -, hlow⟩ | ⟨high, low, hc, hhigh, -⟩
  · rw [hc] at h
    exact (List.cons.inj h).1 ▸ hlow
  · rw [hc] at h
    rw [← (List.cons.inj h).1, isLowUnit_iff]
    rw [isHighUnit_iff] at hhigh
    omega

/-- Pieces denote the text whose UTF-16 they spell. -/
theorem pieceChars?_eq_some_iff (hunits : ∀ n, .unit n ∈ ps → n < 0x10000) :
    pieceChars? ps = some cs ↔ ps.flatMap Piece.units = cs.flatMap utf16 := by
  fun_induction pieceChars? ps generalizing cs with
  | case1 =>
      cases cs with
      | nil => exact iff_of_true rfl rfl
      | cons c cs =>
          refine iff_of_false (fun h => List.cons_ne_nil c cs (Option.some.inj h).symm) fun h => ?_
          rw [List.flatMap_cons] at h
          exact utf16_ne_nil c (List.append_eq_nil_iff.mp h.symm).1
  | case2 c rest ih =>
      exact map_cons_eq_some_iff c _ fun cs => ih fun n hn => hunits n (List.mem_cons_of_mem _ hn)
  | case3 n m rest hhigh hlow ih =>
      have hmap := map_cons_eq_some_iff (pairChar n m) cs fun cs =>
        ih fun k hk => hunits k (List.mem_cons_of_mem _ (List.mem_cons_of_mem _ hk))
      rwa [utf16_pairChar hhigh hlow] at hmap
  | case4 n m rest hhigh hlow =>
      refine iff_of_false (Option.some_ne_none cs).symm fun h => ?_
      rcases unit_cases h with ⟨hnot, -⟩ | ⟨-, low, ys, hlow', hrest⟩
      · exact hnot hhigh
      · exact hlow ((List.cons.inj hrest).1 ▸ hlow')
  | case5 n m rest hhigh hlow =>
      refine iff_of_false (Option.some_ne_none cs).symm fun h => ?_
      rcases unit_cases h with ⟨-, hnot⟩ | ⟨hhigh', -⟩
      · exact hnot hlow
      · exact hhigh hhigh'
  | case6 n m rest hhigh hlow ih =>
      have hmap := map_cons_eq_some_iff (Char.ofNat n) cs fun cs =>
        ih fun k hk => hunits k (List.mem_cons_of_mem _ hk)
      rwa [utf16_ofNat (hunits n List.mem_cons_self) hhigh hlow] at hmap
  | case7 n rest hone hhalf =>
      refine iff_of_false (Option.some_ne_none cs).symm fun h => ?_
      rw [Bool.or_eq_true] at hhalf
      rcases unit_cases h with ⟨hhigh, hlow⟩ | ⟨-, low, ys, hlow, hrest⟩
      · exact hhalf.elim hhigh hlow
      · -- what follows a first half is no unit here, so no second half
        cases rest with
        | nil => exact absurd hrest.symm (List.cons_ne_nil low ys)
        | cons p rest =>
            cases p with
            | unit m => exact hone m rest rfl
            | char e => exact not_isLowUnit_of_append hrest hlow
  | case8 n rest hone hhalf ih =>
      rw [Bool.or_eq_true, not_or] at hhalf
      have hmap := map_cons_eq_some_iff (Char.ofNat n) cs fun cs =>
        ih fun k hk => hunits k (List.mem_cons_of_mem _ hk)
      rwa [utf16_ofNat (hunits n List.mem_cons_self) hhalf.1 hhalf.2] at hmap

/-! ## Strings -/

/-- The digits have their values, in either case. -/
theorem hexDigit?_getElem : ∀ x : Fin 16,
    ("0123456789abcdef".toList[x.val]?.bind hexDigit?) = some x.val ∧
      ("0123456789ABCDEF".toList[x.val]?.bind hexDigit?) = some x.val := by
  decide

theorem IsHexDigit.hexDigit? {x : Nat} (h : IsHexDigit c x) :
    Json.hexDigit? c = some x ∧ x < 16 := by
  have hx : x < 16 := by
    rcases h with h | h
    · exact (List.getElem?_eq_some_iff.mp h).1
    · exact (List.getElem?_eq_some_iff.mp h).1
  refine ⟨?_, hx⟩
  obtain ⟨hlower, hupper⟩ := hexDigit?_getElem ⟨x, hx⟩
  rcases h with h | h
  · rwa [h, Option.bind_some] at hlower
  · rwa [h, Option.bind_some] at hupper

theorem hexUnit?_of_isHexDigit {a b c d : Char} {w x y z : Nat} (ha : IsHexDigit a w)
    (hb : IsHexDigit b x) (hc : IsHexDigit c y) (hd : IsHexDigit d z) :
    hexUnit? a b c d = some (((w * 16 + x) * 16 + y) * 16 + z) ∧
      ((w * 16 + x) * 16 + y) * 16 + z < 0x10000 := by
  obtain ⟨ha, hw⟩ := ha.hexDigit?
  obtain ⟨hb, hx⟩ := hb.hexDigit?
  obtain ⟨hc, hy⟩ := hc.hexDigit?
  obtain ⟨hd, hz⟩ := hd.hexDigit?
  rw [hexUnit?, ha, hb, hc, hd]
  exact ⟨rfl, by omega⟩

theorem simpleEscape?_of_mem : ∀ p ∈ letterEscapes,
    simpleEscape? p.1 = some p.2 ∧ p.1 ≠ 'u' := by
  decide

theorem readPieces_plain (hcode : 0x20 ≤ c.toNat) (hquote : c ≠ '"') (hback : c ≠ '\\')
    (cs : List Char) :
    readPieces (c :: cs) = (readPieces cs).map fun r => (.char c :: r.1, r.2) := by
  rw [readPieces.eq_def]
  split
  next h => exact absurd h (List.cons_ne_nil c cs)
  next h => exact absurd (List.cons.inj h).1 hquote
  next h => exact absurd (List.cons.inj h).1 hback
  next h => exact absurd (List.cons.inj h).1 hback
  next h =>
    obtain ⟨rfl, rfl⟩ := List.cons.inj h
    rw [if_neg (by rintro (h | h); exacts [absurd h (Nat.not_lt.mpr hcode), hback h])]
    cases readPieces cs <;> rfl

theorem readPieces_letter {e : Char} (h : (e, c) ∈ letterEscapes) (cs : List Char) :
    readPieces ('\\' :: e :: cs) = (readPieces cs).map fun r => (.char c :: r.1, r.2) := by
  obtain ⟨hescape, hu⟩ := simpleEscape?_of_mem _ h
  rw [readPieces.eq_def]
  split
  next h => exact absurd h (List.cons_ne_nil _ _)
  next h => exact absurd (List.cons.inj h).1 (by decide)
  next h => exact absurd (List.cons.inj (List.cons.inj h).2).1 hu
  next h =>
    obtain ⟨rfl, rfl⟩ := List.cons.inj (List.cons.inj h).2
    rw [hescape]
    cases readPieces cs <;> rfl
  next hnot h =>
    obtain ⟨rfl, rfl⟩ := List.cons.inj h
    exact absurd rfl (hnot _ _ rfl)

theorem readPieces_unit {a b c d : Char} (h : hexUnit? a b c d = some n) (cs : List Char) :
    readPieces ('\\' :: 'u' :: a :: b :: c :: d :: cs) =
      (readPieces cs).map fun r => (.unit n :: r.1, r.2) := by
  rw [readPieces, h]
  cases readPieces cs <;> rfl

theorem PiecesWritten.readPieces (h : PiecesWritten ps cs) (rest : List Char) :
    Json.readPieces (cs ++ '"' :: rest) = some (ps, rest) ∧ ∀ n, .unit n ∈ ps → n < 0x10000 := by
  induction h with
  | nil => exact ⟨by rw [List.nil_append, Json.readPieces], by simp⟩
  | plain hcode hquote hback _ ih =>
      refine ⟨?_, ?_⟩
      · rw [List.cons_append, readPieces_plain hcode hquote hback, ih.1, Option.map_some]
      · simpa using ih.2
  | letter he _ ih =>
      refine ⟨?_, ?_⟩
      · rw [List.cons_append, List.cons_append, readPieces_letter he, ih.1, Option.map_some]
      · simpa using ih.2
  | unit ha hb hc hd _ ih =>
      obtain ⟨hunit, hlt⟩ := hexUnit?_of_isHexDigit ha hb hc hd
      refine ⟨?_, ?_⟩
      · simp only [List.cons_append]
        rw [readPieces_unit hunit, ih.1, Option.map_some]
      · intro n hn
        rcases List.mem_cons.mp hn with heq | hn
        · rw [Piece.unit.inj heq]
          exact hlt
        · exact ih.2 n hn

theorem readString_of_readPieces (h : readPieces cs = some (ps, rest)) :
    readString cs = some ((pieceChars? ps).map String.ofList, rest) := by
  rw [readString, h]
  rfl

/-- A string is read to its closing quote. -/
theorem TextWritten.readString {text : Option String} (h : TextWritten text cs)
    (rest : List Char) :
    ∃ ds, cs ++ rest = '"' :: ds ∧ Json.readString ds = some (text, rest) := by
  cases h with
  | @whole ps cs s hps hunits =>
      obtain ⟨hread, hlt⟩ := hps.readPieces rest
      refine ⟨cs ++ '"' :: rest, by simp, ?_⟩
      rw [readString_of_readPieces hread, (pieceChars?_eq_some_iff hlt).mpr hunits,
        Option.map_some, String.ofList_toList]
  | @broken ps cs hps hunits =>
      obtain ⟨hread, hlt⟩ := hps.readPieces rest
      have hnone : pieceChars? ps = none := by
        rw [Option.eq_none_iff_forall_ne_some]
        intro text htext
        refine hunits (String.ofList text) ?_
        rw [String.toList_ofList]
        exact (pieceChars?_eq_some_iff hlt).mp htext
      refine ⟨cs ++ '"' :: rest, by simp, ?_⟩
      rw [readString_of_readPieces hread, hnone, Option.map_none]

/-! ## Numbers -/

/-- The text goes on with nothing that a number could take. -/
def EndsNumber (rest : List Char) : Prop :=
  ∀ c ∈ rest.head?, isDigit c = false ∧ c ∉ ['.', 'e', 'E']

/-- Digits are read up to the first character that is none. -/
theorem IsDigits.readDigits (h : IsDigits ds) (hrest : ∀ c ∈ rest.head?, isDigit c = false) :
    Json.readDigits (ds ++ rest) = some (ds, rest) := by
  have htake : rest.takeWhile isDigit = [] := by
    cases rest with
    | nil => rfl
    | cons c rest => exact List.takeWhile_cons_of_neg (by simp [hrest c rfl])
  have hdrop : rest.dropWhile isDigit = rest := by
    cases rest with
    | nil => rfl
    | cons c rest => exact List.dropWhile_cons_of_neg (by simp [hrest c rfl])
  rw [Json.readDigits, List.takeWhile_append_of_pos h.2, List.dropWhile_append_of_pos h.2, htake,
    hdrop, List.append_nil]
  exact if_neg (by simpa using h.1)

theorem IsInteger.readInteger (h : IsInteger ds) (hrest : ∀ c ∈ rest.head?, isDigit c = false) :
    Json.readInteger (ds ++ rest) = some (ds, rest) := by
  rcases h with rfl | ⟨hdigits, hzero⟩
  · rfl
  · rw [Json.readInteger.eq_def]
    split
    next heq =>
      cases ds with
      | nil => exact absurd rfl hdigits.1
      | cons c ds => exact absurd (congrArg some (List.cons.inj heq).1) hzero
    next => exact hdigits.readDigits hrest

theorem FractionWritten.readFraction {b : Bool} (h : FractionWritten b cs)
    (hrest : ∀ c ∈ rest.head?, isDigit c = false ∧ c ≠ '.') :
    Json.readFraction (cs ++ rest) = some (b, rest) := by
  cases h with
  | absent =>
      rw [List.nil_append, Json.readFraction.eq_def]
      split
      next => exact absurd rfl (hrest '.' rfl).2
      next => rfl
  | present hds =>
      rw [List.cons_append, Json.readFraction, hds.readDigits fun c hc => (hrest c hc).1]
      rfl

theorem skipSign_append {sign : List Char} (hsign : sign ∈ [[], ['+'], ['-']]) (h : IsDigits ds) :
    skipSign (sign ++ (ds ++ rest)) = ds ++ rest := by
  obtain ⟨c, ds, rfl⟩ := List.exists_cons_of_ne_nil h.1
  have hc := h.2 c List.mem_cons_self
  fin_cases hsign
  · rw [List.nil_append, List.cons_append, skipSign.eq_def]
    split
    next heq =>
      rw [(List.cons.inj heq).1] at hc
      exact absurd hc (by decide)
    next heq =>
      rw [(List.cons.inj heq).1] at hc
      exact absurd hc (by decide)
    next => rfl
  · rfl
  · rfl

theorem ExponentWritten.readExponent {b : Bool} (h : ExponentWritten b cs)
    (hrest : EndsNumber rest) :
    Json.readExponent (cs ++ rest) = some (b, rest) := by
  cases h with
  | absent =>
      cases rest with
      | nil => rfl
      | cons c rest =>
          have hc := (hrest c rfl).2
          rw [List.nil_append, Json.readExponent, if_neg (by rintro (rfl | rfl) <;> simp at hc)]
  | present he hsign hds =>
      have he' := he
      rw [List.mem_pair] at he'
      rw [List.cons_append, List.append_assoc, Json.readExponent, if_pos he',
        skipSign_append hsign hds, hds.readDigits fun c hc => (hrest c hc).1]
      rfl

theorem ExponentWritten.head {b : Bool} (h : ExponentWritten b cs) (hrest : EndsNumber rest) :
    ∀ c ∈ (cs ++ rest).head?, isDigit c = false ∧ c ≠ '.' := by
  cases h with
  | absent =>
      intro c hc
      refine ⟨(hrest c hc).1, ?_⟩
      rintro rfl
      exact (hrest '.' hc).2 List.mem_cons_self
  | present he hsign hds =>
      rintro c hc
      obtain rfl := Option.some.inj hc
      revert he
      rw [List.mem_pair]
      rintro (rfl | rfl) <;> decide

theorem FractionWritten.head {b : Bool} (h : FractionWritten b cs)
    (hrest : ∀ c ∈ rest.head?, isDigit c = false ∧ c ≠ '.') :
    ∀ c ∈ (cs ++ rest).head?, isDigit c = false := by
  cases h with
  | absent => exact fun c hc => (hrest c hc).1
  | present hds =>
      rintro c hc
      obtain rfl := Option.some.inj hc
      decide

/-- A number without its sign is read whole. -/
theorem readMagnitude_written {noFraction noExponent : Bool} {fraction exponent : List Char}
    (negative : Bool) (hds : IsInteger ds) (hfraction : FractionWritten noFraction fraction)
    (hexponent : ExponentWritten noExponent exponent) (hrest : EndsNumber rest) :
    readMagnitude negative (ds ++ (fraction ++ (exponent ++ rest))) =
      some (.number negative ds (noFraction && noExponent), rest) := by
  have hpoint := hexponent.head hrest
  rw [readMagnitude, hds.readInteger (hfraction.head hpoint)]
  rw [Option.bind_eq_bind, Option.bind_some]
  dsimp only
  rw [hfraction.readFraction hpoint]
  rw [Option.bind_eq_bind, Option.bind_some]
  dsimp only
  rw [hexponent.readExponent hrest]
  rfl

/-- The first character of a number. -/
theorem IsInteger.exists_cons (h : IsInteger ds) : ∃ c cs, ds = c :: cs ∧ isDigit c = true := by
  rcases h with rfl | ⟨h, -⟩
  · exact ⟨'0', [], rfl, by decide⟩
  · obtain ⟨c, cs, rfl⟩ := List.exists_cons_of_ne_nil h.1
    exact ⟨c, cs, rfl, h.2 c List.mem_cons_self⟩

theorem readNumber_digit (h : isDigit c = true) (cs : List Char) :
    readNumber (c :: cs) = readMagnitude false (c :: cs) := by
  rw [readNumber.eq_def]
  split
  next heq =>
    rw [(List.cons.inj heq).1] at h
    exact absurd h (by decide)
  next => rfl

/-- Signs and digits begin numbers. -/
theorem readValue_number (h : c = '-' ∨ isDigit c = true) (cs : List Char) :
    readValue (n + 1) (c :: cs) = readNumber (c :: cs) := by
  have hne : ∀ d ∈ ['n', 't', 'f', '"', '[', '\x7b'], c ≠ d := by
    rintro d hd rfl
    revert h
    fin_cases hd <;> decide
  rw [readValue]
  all_goals exact fun _ heq => hne _ (by decide) (List.cons.inj heq).1

theorem readNumber_written {noFraction noExponent : Bool} {fraction exponent : List Char}
    (negative : Bool) (hds : IsInteger ds) (hfraction : FractionWritten noFraction fraction)
    (hexponent : ExponentWritten noExponent exponent) (hrest : EndsNumber rest) :
    readValue (n + 1)
        ((if negative then ['-'] else []) ++ (ds ++ (fraction ++ exponent)) ++ rest) =
      some (.number negative ds (noFraction && noExponent), rest) := by
  have hread := readMagnitude_written negative hds hfraction hexponent hrest
  cases negative with
  | true =>
      simp only [if_pos, List.cons_append, List.nil_append, List.append_assoc]
      rw [readValue_number (Or.inl rfl)]
      exact hread
  | false =>
      obtain ⟨c, cs, rfl, hc⟩ := hds.exists_cons
      simp only [Bool.false_eq_true, if_false, List.cons_append, List.nil_append,
        List.append_assoc] at hread ⊢
      rw [readValue_number (Or.inr hc), readNumber_digit hc]
      exact hread

/-! ## Blanks -/

theorem skipBlanks_append {w : List Char} (hw : IsBlanks w) (cs : List Char) :
    skipBlanks (w ++ cs) = skipBlanks cs :=
  List.dropWhile_append_of_pos hw

theorem skipBlanks_cons (hc : isBlank c = false) (cs : List Char) :
    skipBlanks (c :: cs) = c :: cs :=
  List.dropWhile_cons_of_neg (by simp [hc])

theorem skipBlanks_punctuation {w : List Char} (hw : IsBlanks w) (hc : isBlank c = false)
    (cs : List Char) : skipBlanks (w ++ c :: cs) = c :: cs := by
  rw [skipBlanks_append hw, skipBlanks_cons hc]

theorem isBlank_iff : isBlank c = true ↔ c = ' ' ∨ c = '\n' ∨ c = '\t' ∨ c = '\r' := by
  simp [isBlank, or_assoc]

theorem endsNumber_blanks {w : List Char} (hw : IsBlanks w) : EndsNumber w := by
  intro b hb
  have hblank := hw b (List.mem_of_mem_head? hb)
  rw [isBlank_iff] at hblank
  rcases hblank with rfl | rfl | rfl | rfl <;> decide

/-- Blanks and punctuation end a number. -/
theorem endsNumber_append {w : List Char} (hw : IsBlanks w) (hc : c ∈ [',', ']', '\x7d']) :
    EndsNumber (w ++ c :: rest) := by
  intro d hd
  cases w with
  | nil =>
      obtain rfl := Option.some.inj hd
      fin_cases hc <;> decide
  | cons b w => exact endsNumber_blanks hw d hd

/-! ## Values -/

/-- The first character of a value. -/
theorem Written.exists_cons {v : Json} (h : Written (.value v) cs) :
    ∃ c ds, cs = c :: ds ∧ isBlank c = false ∧ c ≠ ']' := by
  cases h with
  | null => exact ⟨_, _, rfl, by decide, by decide⟩
  | bool b => cases b <;> exact ⟨_, _, rfl, by decide, by decide⟩
  | number negative hds _ _ =>
      cases negative with
      | true => exact ⟨_, _, rfl, by decide, by decide⟩
      | false =>
          obtain ⟨c, cs, rfl, hc⟩ := hds.exists_cons
          refine ⟨c, _, rfl, ?_, ?_⟩
          · by_contra hblank
            rw [Bool.not_eq_false, isBlank_iff] at hblank
            rcases hblank with rfl | rfl | rfl | rfl <;> exact absurd hc (by decide)
          · rintro rfl
            exact absurd hc (by decide)
  | string htext => cases htext <;> exact ⟨_, _, rfl, by decide, by decide⟩
  | _ => exact ⟨_, _, rfl, by decide, by decide⟩

/-- A value takes a level of reading. -/
theorem Written.exists_level {v : Json} (h : Written (.value v) cs) (hn : cs.length ≤ n) :
    ∃ m, n = m + 1 := by
  obtain ⟨c, ds, rfl, -⟩ := h.exists_cons
  exact Nat.exists_eq_add_one.mpr (Nat.zero_lt_of_lt hn)

/-- Blanks in front of a value are skipped. -/
theorem Written.skipBlanks {v : Json} {w : List Char} (h : Written (.value v) cs)
    (hw : IsBlanks w) (rest : List Char) : Json.skipBlanks (w ++ (cs ++ rest)) = cs ++ rest := by
  obtain ⟨c, ds, rfl, hblank, -⟩ := h.exists_cons
  exact skipBlanks_punctuation hw hblank _

theorem TextWritten.skipBlanks {text : Option String} {w : List Char} (h : TextWritten text cs)
    (hw : IsBlanks w) (rest : List Char) : Json.skipBlanks (w ++ (cs ++ rest)) = cs ++ rest :=
  (Written.string h).skipBlanks hw rest

/-- What the reader makes of a phrase, with a level of reading for each character. A value can stand
in front of anything that does not go on with a number, the contents of brackets in front of the
closing one. -/
def Phrase.IsRead : Phrase → List Char → Prop
  | .value v, cs => ∀ n rest, cs.length ≤ n → EndsNumber rest →
      readValue n (cs ++ rest) = some (v, rest)
  | .elements vs, cs => ∀ n rest, cs.length < n →
      (∃ c ds, skipBlanks (cs ++ ']' :: rest) = c :: ds ∧ c ≠ ']') ∧
        readElements n (skipBlanks (cs ++ ']' :: rest)) = some (vs, rest)
  | .members ms, cs => ∀ n rest, cs.length < n →
      (∃ ds, skipBlanks (cs ++ '\x7d' :: rest) = '"' :: ds) ∧
        readMembers n (skipBlanks (cs ++ '\x7d' :: rest)) = some (ms, rest)

/-! ### One phrase in terms of its parts -/

section Parts

variable {v : Json} {vs : List Json} {key : Option String} {ms : List (Option String × Json)}
  {w ks w₁ w₂ w' : List Char}

theorem isRead_emptyArray (hw : IsBlanks w) :
    Phrase.IsRead (.value (.array [])) ('[' :: (w ++ [']'])) := by
  intro n rest hn _
  obtain ⟨n, rfl⟩ := Nat.exists_eq_add_one.mpr (Nat.zero_lt_of_lt hn)
  rw [List.cons_append, List.append_assoc, List.singleton_append, readValue,
    skipBlanks_punctuation hw (by decide)]
  rfl

theorem isRead_array (h : Phrase.IsRead (.elements vs) cs) :
    Phrase.IsRead (.value (.array vs)) ('[' :: (cs ++ [']'])) := by
  intro n rest hn _
  obtain ⟨n, rfl⟩ := Nat.exists_eq_add_one.mpr (Nat.zero_lt_of_lt hn)
  have hlevels : cs.length < n := by simpa using hn
  obtain ⟨⟨c, ds, hskip, hne⟩, hread⟩ := h n rest hlevels
  rw [hskip] at hread
  rw [List.cons_append, List.append_assoc, List.singleton_append, readValue, hskip]
  -- no value begins with the closing bracket, so the array is not taken for an empty one
  split
  next heq => exact absurd (List.cons.inj heq).1 hne
  next =>
    rw [hread]
    rfl

theorem isRead_emptyObject (hw : IsBlanks w) :
    Phrase.IsRead (.value (.object [])) ('\x7b' :: (w ++ ['\x7d'])) := by
  intro n rest hn _
  obtain ⟨n, rfl⟩ := Nat.exists_eq_add_one.mpr (Nat.zero_lt_of_lt hn)
  rw [List.cons_append, List.append_assoc, List.singleton_append, readValue,
    skipBlanks_punctuation hw (by decide)]
  rfl

theorem isRead_object (h : Phrase.IsRead (.members ms) cs) :
    Phrase.IsRead (.value (.object ms)) ('\x7b' :: (cs ++ ['\x7d'])) := by
  intro n rest hn _
  obtain ⟨n, rfl⟩ := Nat.exists_eq_add_one.mpr (Nat.zero_lt_of_lt hn)
  have hlevels : cs.length < n := by simpa using hn
  obtain ⟨⟨ds, hskip⟩, hread⟩ := h n rest hlevels
  rw [hskip] at hread
  rw [List.cons_append, List.append_assoc, List.singleton_append, readValue, hskip]
  split
  next heq => exact absurd (List.cons.inj heq).1 (by decide)
  next =>
    rw [hread]
    rfl

theorem isRead_element (hw : IsBlanks w) (hv : Written (.value v) cs) (hw' : IsBlanks w')
    (h : Phrase.IsRead (.value v) cs) : Phrase.IsRead (.elements [v]) (w ++ (cs ++ w')) := by
  intro n rest hn
  obtain ⟨n, rfl⟩ := Nat.exists_eq_add_one.mpr (Nat.zero_lt_of_lt hn)
  have hlevels : cs.length ≤ n := by
    simp only [List.length_append] at hn
    omega
  simp only [List.append_assoc]
  rw [hv.skipBlanks hw]
  refine ⟨?_, ?_⟩
  · obtain ⟨c, ds, rfl, -, hne⟩ := hv.exists_cons
    exact ⟨c, _, rfl, hne⟩
  · rw [readElements, h n _ hlevels (endsNumber_append hw' (by decide)),
      Option.bind_eq_bind, Option.bind_some]
    simp only [skipBlanks_punctuation hw' (show isBlank ']' = false by decide)]
    rfl

theorem isRead_elements (hw : IsBlanks w) (hv : Written (.value v) cs) (hw' : IsBlanks w')
    (h : Phrase.IsRead (.value v) cs) (hs : Phrase.IsRead (.elements vs) ds) :
    Phrase.IsRead (.elements (v :: vs)) (w ++ (cs ++ (w' ++ ',' :: ds))) := by
  intro n rest hn
  obtain ⟨n, rfl⟩ := Nat.exists_eq_add_one.mpr (Nat.zero_lt_of_lt hn)
  have hlevels : cs.length ≤ n ∧ ds.length < n := by
    simp only [List.length_append, List.length_cons] at hn
    omega
  simp only [List.append_assoc, List.cons_append]
  rw [hv.skipBlanks hw]
  refine ⟨?_, ?_⟩
  · obtain ⟨c, ds, rfl, -, hne⟩ := hv.exists_cons
    exact ⟨c, _, rfl, hne⟩
  · rw [readElements, h n _ hlevels.1 (endsNumber_append hw' (by decide)),
      Option.bind_eq_bind, Option.bind_some]
    simp only [skipBlanks_punctuation hw' (show isBlank ',' = false by decide),
      (hs n rest hlevels.2).2]
    rfl

theorem isRead_member (hw : IsBlanks w) (hkey : TextWritten key ks) (hw₁ : IsBlanks w₁)
    (hw₂ : IsBlanks w₂) (hv : Written (.value v) cs) (hw' : IsBlanks w')
    (h : Phrase.IsRead (.value v) cs) :
    Phrase.IsRead (.members [(key, v)])
      (w ++ (ks ++ (w₁ ++ ':' :: (w₂ ++ (cs ++ w'))))) := by
  intro n rest hn
  obtain ⟨n, rfl⟩ := Nat.exists_eq_add_one.mpr (Nat.zero_lt_of_lt hn)
  have hlevels : cs.length ≤ n := by
    simp only [List.length_append, List.length_cons] at hn
    omega
  simp only [List.append_assoc, List.cons_append]
  rw [hkey.skipBlanks hw]
  obtain ⟨ds, heq, hread⟩ := hkey.readString (w₁ ++ ':' :: (w₂ ++ (cs ++ (w' ++ '\x7d' :: rest))))
  rw [heq]
  refine ⟨⟨ds, rfl⟩, ?_⟩
  rw [readMembers, hread, Option.bind_eq_bind, Option.bind_some]
  simp only [skipBlanks_punctuation hw₁ (show isBlank ':' = false by decide), hv.skipBlanks hw₂,
    h n _ hlevels (endsNumber_append hw' (show '\x7d' ∈ _ by decide)),
    Option.bind_eq_bind, Option.bind_some,
    skipBlanks_punctuation hw' (show isBlank '\x7d' = false by decide)]
  rfl

theorem isRead_members (hw : IsBlanks w) (hkey : TextWritten key ks) (hw₁ : IsBlanks w₁)
    (hw₂ : IsBlanks w₂) (hv : Written (.value v) cs) (hw' : IsBlanks w')
    (h : Phrase.IsRead (.value v) cs) (hs : Phrase.IsRead (.members ms) ds) :
    Phrase.IsRead (.members ((key, v) :: ms))
      (w ++ (ks ++ (w₁ ++ ':' :: (w₂ ++ (cs ++ (w' ++ ',' :: ds)))))) := by
  intro n rest hn
  obtain ⟨n, rfl⟩ := Nat.exists_eq_add_one.mpr (Nat.zero_lt_of_lt hn)
  have hlevels : cs.length ≤ n ∧ ds.length < n := by
    simp only [List.length_append, List.length_cons] at hn
    omega
  simp only [List.append_assoc, List.cons_append]
  rw [hkey.skipBlanks hw]
  obtain ⟨ds', heq, hread⟩ :=
    hkey.readString (w₁ ++ ':' :: (w₂ ++ (cs ++ (w' ++ ',' :: (ds ++ '\x7d' :: rest)))))
  rw [heq]
  refine ⟨⟨ds', rfl⟩, ?_⟩
  rw [readMembers, hread, Option.bind_eq_bind, Option.bind_some]
  simp only [skipBlanks_punctuation hw₁ (show isBlank ':' = false by decide), hv.skipBlanks hw₂,
    h n _ hlevels.1 (endsNumber_append hw' (show ',' ∈ _ by decide)),
    Option.bind_eq_bind, Option.bind_some,
    skipBlanks_punctuation hw' (show isBlank ',' = false by decide),
    (hs n rest hlevels.2).2]
  rfl

end Parts

/-- Whatever is written by the rules is read. -/
theorem Written.isRead {p : Phrase} (h : Written p cs) : p.IsRead cs := by
  induction h with
  | null =>
      intro n rest hn _
      obtain ⟨n, rfl⟩ := Written.null.exists_level hn
      rfl
  | bool b =>
      intro n rest hn _
      obtain ⟨n, rfl⟩ := (Written.bool b).exists_level hn
      cases b <;> rfl
  | number negative hds hfraction hexponent =>
      intro n rest hn hrest
      obtain ⟨n, rfl⟩ := (Written.number negative hds hfraction hexponent).exists_level hn
      exact readNumber_written negative hds hfraction hexponent hrest
  | string htext =>
      intro n rest hn _
      obtain ⟨ds, heq, hread⟩ := htext.readString rest
      obtain ⟨n, rfl⟩ := (Written.string htext).exists_level hn
      rw [heq, readValue, hread]
      rfl
  | emptyArray hw => exact isRead_emptyArray hw
  | array _ ih => exact isRead_array ih
  | emptyObject hw => exact isRead_emptyObject hw
  | object _ ih => exact isRead_object ih
  | element hw hv hw' ih => exact isRead_element hw hv hw' ih
  | elements hw hv hw' _ ih ihs => exact isRead_elements hw hv hw' ih ihs
  | member hw hkey hw₁ hw₂ hv hw' ih => exact isRead_member hw hkey hw₁ hw₂ hv hw' ih
  | members hw hkey hw₁ hw₂ hv hw' _ ih ihs =>
      exact isRead_members hw hkey hw₁ hw₂ hv hw' ih ihs

/-- A text written by the rules is read. -/
theorem followsGrammar_ofText? : FollowsGrammar ofText? := by
  rintro s v ⟨w, cs, w', hw, hv, hw', htext⟩
  have hread : readValue (2 * s.toList.length + 2) (cs ++ w') = some (v, w') :=
    hv.isRead _ w' (by simp [htext]; omega) (endsNumber_blanks hw')
  have hend : skipBlanks w' = [] := List.dropWhile_eq_nil_iff.mpr hw'
  rw [ofText?, htext, hv.skipBlanks hw, ← htext]
  simp only [hread, hend]
  rfl

end CompilerBackend.Json
