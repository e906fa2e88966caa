import CompilerBackend.Proofs.Constant.Key
import CompilerBackend.Proofs.Decimal.Double
import Mathlib
/-!
# What a literal is read as

Literals have no kind in front. Brackets and quotes say what follows; the words without them are
names, integers and doubles, and tell each other apart by a point, an exponent or a letter. A
literal therefore determines its constant, but for the doubles that are written as integers.

- `reread`: the constant that a literal is read as.
- `literal_reread`: it has the same literal.
- `literal_eq_iff`: constants with the same literal are read as the same constant.
-/

namespace CompilerBackend

open Text

namespace Constant

/-! ## The constant behind a literal -/

/-- The bits of a double as far as its text shows them: every not-a-number has the same text. -/
def shownBits (bits : UInt64) : UInt64 :=
  match Decimal.Double.ofBits bits with
  | .nan => 0x7ff8000000000000
  | _ => bits

mutual

/-- The constant that a literal is read as. A double with the literal of an integer is read as the
integer. -/
def reread : Constant → Constant
  | .float bits =>
      match (Decimal.Double.ofBits bits).asInteger? with
      | some value => .int value
      | Option.none => .float (shownBits bits)
  | .tuple elements => .tuple (rereads elements)
  | .list elements => .list (rereads elements)
  | .set elements => .set (rereads elements)
  | .dict pairs => .dict (pairRereads pairs)
  | c => c

def rereads : List Constant → List Constant
  | [] => []
  | c :: rest => reread c :: rereads rest

def pairRereads : List (Constant × Constant) → List (Constant × Constant)
  | [] => []
  | (k, v) :: rest => (reread k, reread v) :: pairRereads rest

end

theorem rereads_eq_map (l : List Constant) : rereads l = l.map reread := by
  induction l with
  | nil => rfl
  | cons c l ih => rw [rereads, ih]; rfl

theorem pairRereads_eq_map (l : List (Constant × Constant)) :
    pairRereads l = l.map (Prod.map reread reread) := by
  induction l with
  | nil => rfl
  | cons p l ih => rw [pairRereads, ih]; rfl

theorem pairLiterals_eq_map (l : List (Constant × Constant)) :
    pairLiterals l = l.map (pairText literal) := by
  induction l with
  | nil => rfl
  | cons p l ih => rw [pairLiterals, ih]; rfl

theorem ofBits_shownBits (bits : UInt64) :
    Decimal.Double.ofBits (shownBits bits) = Decimal.Double.ofBits bits := by
  unfold shownBits
  split
  next h =>
      rw [h]
      rfl
  next => rfl

theorem shownBits_eq_self {bits : UInt64} (h : Decimal.Double.ofBits bits ≠ .nan) :
    shownBits bits = bits := by
  unfold shownBits
  split
  next hnan => exact absurd hnan h
  next => rfl

theorem shownBits_inj {a b : UInt64} (h : Decimal.Double.ofBits a = Decimal.Double.ofBits b) :
    shownBits a = shownBits b := by
  by_cases hnan : Decimal.Double.ofBits a = .nan
  · unfold shownBits
    rw [hnan, ← h, hnan]
  · rw [Decimal.ofBits_inj h hnan]

theorem literal_reread (c : Constant) : c.reread.literal = c.literal := by
  induction c using bottomUp with
  | step c ih =>
  have hmap : ∀ l : List Constant, (∀ d ∈ l, d.reread.literal = d.literal) →
      (l.map reread).map literal = l.map literal := by
    intro l hl
    rw [List.map_map]
    exact List.map_congr_left hl
  cases c with
  | float bits =>
      rw [reread]
      split
      next value h => exact (Decimal.literal_of_asInteger? h).symm
      next => rw [literal, ofBits_shownBits, literal]
  | tuple l =>
      rw [reread, literal, literal, rereads_eq_map, literals_eq_map, literals_eq_map, hmap l ih]
  | list l =>
      rw [reread, literal, literal, rereads_eq_map, literals_eq_map, literals_eq_map, hmap l ih]
  | set l =>
      rw [reread, literal, literal, rereads_eq_map, literals_eq_map, literals_eq_map, hmap l ih]
  | dict l =>
      rw [reread, literal, literal, pairRereads_eq_map, pairLiterals_eq_map, pairLiterals_eq_map,
        List.map_map]
      congr 2
      apply List.map_congr_left
      intro p hp
      rw [Function.comp_apply, pairText, pairText, Prod.map_fst, Prod.map_snd,
        ih p.1 (List.mem_flatMap.mpr ⟨p, hp, List.mem_cons_self⟩),
        ih p.2 (List.mem_flatMap.mpr ⟨p, hp, List.mem_cons_of_mem _ List.mem_cons_self⟩)]
  | _ => rfl

/-- `d` is a constant or stands somewhere inside it. -/
inductive Inside (d : Constant) : Constant → Prop
  | itself : Inside d d
  | part {c e : Constant} (he : e ∈ c.parts) (h : Inside d e) : Inside d c

/-- Where every double is a number and none has the literal of an integer, a literal is read as the
constant itself. -/
theorem reread_eq_self {c : Constant}
    (hnum : ∀ bits, Inside (.float bits) c → Decimal.Double.ofBits bits ≠ .nan)
    (hint : ∀ bits, Inside (.float bits) c → (Decimal.Double.ofBits bits).asInteger? = Option.none) :
    c.reread = c := by
  induction c using bottomUp with
  | step c ih =>
  have hparts : ∀ d ∈ c.parts, d.reread = d := fun d hd =>
    ih d hd (fun bits h => hnum bits (h.part hd)) (fun bits h => hint bits (h.part hd))
  have hmap : ∀ l : List Constant, (∀ d ∈ l, d.reread = d) → l.map reread = l := by
    intro l hl
    exact (List.map_congr_left hl).trans (List.map_id' l)
  cases c with
  | float bits =>
      rw [reread, hint bits .itself]
      exact congrArg float (shownBits_eq_self (hnum bits .itself))
  | tuple l => rw [reread, rereads_eq_map, hmap l hparts]
  | list l => rw [reread, rereads_eq_map, hmap l hparts]
  | set l => rw [reread, rereads_eq_map, hmap l hparts]
  | dict l =>
      rw [reread, pairRereads_eq_map]
      congr 1
      refine (List.map_congr_left fun p hp => ?_).trans (List.map_id' l)
      exact Prod.ext (hparts p.1 (List.mem_flatMap.mpr ⟨p, hp, List.mem_cons_self⟩))
        (hparts p.2 (List.mem_flatMap.mpr ⟨p, hp, List.mem_cons_of_mem _ List.mem_cons_self⟩))
  | _ => rfl

/-! ## Words -/

def isWord : Constant → Bool
  | .none | .ellipsis | .bool _ | .int _ | .float _ => true
  | _ => false

inductive Reads (s : String) : Constant → Prop
  | none (h : s = "None") : Reads s .none
  | ellipsis (h : s = "Ellipsis") : Reads s .ellipsis
  | bool {value : Bool} (h : s = boolLiteral value) : Reads s (.bool value)
  | int {value : Int} (h : s = toString value) : Reads s (.int value)
  | float {bits : UInt64} (h : Decimal.Spells s (Decimal.Double.ofBits bits))
      (hshown : shownBits bits = bits) : Reads s (.float bits)

theorem reads_literal {a : Constant} (h : a.isWord = true) : Reads a.literal a.reread := by
  cases a with
  | none => exact .none rfl
  | ellipsis => exact .ellipsis rfl
  | bool value => exact .bool rfl
  | int value => exact .int rfl
  | float bits =>
      rw [reread]
      split
      next value hint => exact .int (Decimal.literal_of_asInteger? hint)
      next hspell =>
          refine .float ?_ (shownBits_inj (ofBits_shownBits bits))
          rw [ofBits_shownBits]
          exact Decimal.spells_literal hspell
  | _ => exact absurd h (by simp [isWord])

def isNumeral (c : Char) : Bool := c.isDigit || c == '-'

def wordKind (s : String) : String :=
  if s = "None" then "none"
  else if s = "Ellipsis" then "ellipsis"
  else if s = "True" ∨ s = "False" then "bool"
  else if s.toList.all isNumeral = true then "int"
  else "float"

theorem all_isNumeral (i : Int) : (toString i).toList.all isNumeral = true := by
  rw [List.all_eq_true]
  intro c hc
  rw [isNumeral, Bool.or_eq_true, beq_iff_eq]
  exact Decimal.mem_integer hc

theorem ne_of_isDigit {c d : Char} (hc : c.isDigit = true) (hd : d.isDigit = false) : c ≠ d := by
  rintro rfl
  rw [hc] at hd
  exact Bool.noConfusion hd

/-- No text of a double is a name with one of the other capitals. -/
theorem ne_of_spells {s t : String} {d : Decimal.Double} (h : Decimal.Spells s d)
    (hnan : t ≠ "NaN") {c : Char} (hc : t.toList.head? = some c) (hdigit : c.isDigit = false)
    (hsign : c ≠ '-') (hi : c ≠ 'i') : s ≠ t := by
  rintro rfl
  rcases h.head with h | ⟨c', hc', h⟩
  · exact hnan h
  · obtain rfl := Option.some.inj (hc.symm.trans hc')
    rcases h with h | h | h
    · exact ne_of_isDigit h hdigit rfl
    · exact hsign h
    · exact hi h

theorem Reads.wordKind_eq {s : String} {c : Constant} (h : Reads s c) :
    wordKind s = c.kindName := by
  cases h with
  | none h => rw [h]; rfl
  | ellipsis h => rw [h]; rfl
  | @bool value h => rw [h]; cases value <;> rfl
  | @int value h =>
      have hall := all_isNumeral value
      rw [← h] at hall
      have hname : ∀ t : String, t.toList.all isNumeral = false → s ≠ t := by
        rintro t ht rfl
        rw [ht] at hall
        exact Bool.noConfusion hall
      rw [wordKind, if_neg (hname _ (by decide)), if_neg (hname _ (by decide)),
        if_neg (not_or.mpr ⟨hname _ (by decide), hname _ (by decide)⟩), if_pos hall]
      rfl
  | float h _ =>
      have hname : ∀ t : String, t ∈ ["None", "Ellipsis", "True", "False"] → s ≠ t := by
        intro t ht
        simp only [List.mem_cons, List.not_mem_nil, or_false] at ht
        rcases ht with rfl | rfl | rfl | rfl
        all_goals exact ne_of_spells h (by decide) rfl rfl (by decide) (by decide)
      have hall : ¬ s.toList.all isNumeral = true := by
        obtain ⟨c, hc, hdigit, hsign⟩ := h.exists_notNumeral
        intro hall
        have hnum := List.all_eq_true.mp hall c hc
        rw [isNumeral, hdigit, Bool.false_or, beq_iff_eq] at hnum
        exact hsign hnum
      rw [wordKind, if_neg (hname _ (by simp)), if_neg (hname _ (by simp)),
        if_neg (not_or.mpr ⟨hname _ (by simp), hname _ (by simp)⟩), if_neg hall]
      rfl

/-- A word is read as one constant. -/
theorem Reads.unique {s : String} {c d : Constant} (hc : Reads s c) (hd : Reads s d) : c = d := by
  have hk := hc.wordKind_eq.symm.trans hd.wordKind_eq
  cases hc with
  | none h =>
      cases hd with
      | none => rfl
      | _ => simp [kindName] at hk
  | ellipsis h =>
      cases hd with
      | ellipsis => rfl
      | _ => simp [kindName] at hk
  | bool h =>
      cases hd with
      | bool h' => rw [boolLiteral_inj (h.symm.trans h')]
      | _ => simp [kindName] at hk
  | int h =>
      cases hd with
      | int h' => rw [Int.repr_inj.mp (h.symm.trans h')]
      | _ => simp [kindName] at hk
  | float h hs =>
      cases hd with
      | float h' hs' => rw [← hs, shownBits_inj (h.unique h'), hs']
      | _ => simp [kindName] at hk

theorem endsKey_of_isDigit {c : Char} (h : c.isDigit = true) : endsKey c = false := by
  simp only [endsKey, Bool.or_eq_false_iff, beq_eq_false_iff_ne]
  exact ⟨⟨⟨⟨ne_of_isDigit h rfl, ne_of_isDigit h rfl⟩, ne_of_isDigit h rfl⟩,
    ne_of_isDigit h rfl⟩, ne_of_isDigit h rfl⟩

theorem Reads.endsKey_of_mem {s : String} {c : Constant} (h : Reads s c) :
    ∀ ch ∈ s.toList, endsKey ch = false := by
  cases h with
  | none h => rw [h]; simp [endsKey]
  | ellipsis h => rw [h]; simp [endsKey]
  | @bool value h => rw [h]; exact endsKey_of_mem_boolLiteral value
  | int h => rw [h]; exact fun ch => endsKey_of_mem_integer
  | float h _ =>
      intro ch hch
      rcases h.mem hch with hdigit | hmark
      · exact endsKey_of_isDigit hdigit
      · have hall : Decimal.doubleMarks.all (!endsKey ·) = true := rfl
        exact Bool.not_eq_true' _ |>.mp (List.all_eq_true.mp hall ch hmark)

/-! ## What a literal begins with -/

def openings : List Char := ['\'', 'u', 'b', '(', '[', 's', '\x7b']

/-- What the first character of a literal says: which quotes or brackets follow, if any. -/
def frontOf (c : Char) : Option Char := if c ∈ openings then some c else Option.none

def front : Constant → Option Char
  | .str _ => some '\''
  | .unicode _ => some 'u'
  | .bytes _ => some 'b'
  | .tuple _ => some '('
  | .list _ => some '['
  | .set _ => some 's'
  | .dict _ => some '\x7b'
  | _ => Option.none

theorem front_eq_none_iff {a : Constant} : a.front = Option.none ↔ a.isWord = true := by
  cases a <;> simp [front, isWord]

theorem Reads.head {s : String} {c : Constant} (h : Reads s c) :
    ∃ ch, s.toList.head? = some ch ∧ frontOf ch = Option.none := by
  have hdigit : ∀ ch : Char, ch.isDigit = true → frontOf ch = Option.none := by
    intro ch hch
    apply if_neg
    simp only [openings, List.mem_cons, List.not_mem_nil, or_false, not_or]
    exact ⟨ne_of_isDigit hch rfl, ne_of_isDigit hch rfl, ne_of_isDigit hch rfl,
      ne_of_isDigit hch rfl, ne_of_isDigit hch rfl, ne_of_isDigit hch rfl, ne_of_isDigit hch rfl⟩
  cases h with
  | none h => exact ⟨'N', by rw [h]; rfl, rfl⟩
  | ellipsis h => exact ⟨'E', by rw [h]; rfl, rfl⟩
  | @bool value h =>
      cases value with
      | true => exact ⟨'T', by rw [h]; rfl, rfl⟩
      | false => exact ⟨'F', by rw [h]; rfl, rfl⟩
  | @int value h =>
      obtain ⟨ch, cs, hs⟩ := List.exists_cons_of_ne_nil (Decimal.toList_integer_ne_nil value)
      refine ⟨ch, by rw [h, hs]; rfl, ?_⟩
      rcases Decimal.mem_integer (hs ▸ List.mem_cons_self : ch ∈ (toString value).toList)
        with hd | rfl
      · exact hdigit ch hd
      · rfl
  | float h _ =>
      rcases h.head with h | ⟨ch, hch, hd | rfl | rfl⟩
      · exact ⟨'N', by rw [h]; rfl, rfl⟩
      · exact ⟨ch, hch, hdigit ch hd⟩
      · exact ⟨'-', hch, rfl⟩
      · exact ⟨'i', hch, rfl⟩

/-- What stands in front of a literal that is no word. -/
theorem head_literal_of_front {a : Constant} {opening : Char} (h : a.front = some opening) :
    a.literal.toList.head? = some opening ∧ frontOf opening = some opening := by
  have hstart : ∀ {s t : String} {c : Char}, s.toList.head? = some c →
      (s ++ t).toList.head? = some c := by
    intro s t c hs
    rw [String.toList_append, List.head?_append, hs, Option.some_or]
  cases a with
  | str x =>
      obtain rfl := Option.some.inj h
      exact ⟨hstart (hstart rfl), rfl⟩
  | unicode x =>
      obtain rfl := Option.some.inj h
      exact ⟨hstart (hstart rfl), rfl⟩
  | bytes x =>
      obtain rfl := Option.some.inj h
      exact ⟨hstart (hstart (hstart rfl)), rfl⟩
  | tuple l =>
      obtain rfl := Option.some.inj h
      refine ⟨?_, rfl⟩
      rw [literal]
      unfold tupleLiteral
      split <;> exact hstart (hstart rfl)
  | list l =>
      obtain rfl := Option.some.inj h
      exact ⟨hstart (hstart rfl), rfl⟩
  | set l =>
      obtain rfl := Option.some.inj h
      exact ⟨hstart (hstart rfl), rfl⟩
  | dict l =>
      obtain rfl := Option.some.inj h
      exact ⟨hstart (hstart rfl), rfl⟩
  | _ => exact absurd h.symm (Option.some_ne_none opening)

/-- The first character of a literal says what follows, and does not end a literal. -/
theorem head_literal (a : Constant) : ∃ ch, a.literal.toList.head? = some ch ∧
    frontOf ch = a.front ∧ endsKey ch = false := by
  cases h : a.front with
  | none =>
      have hreads := reads_literal (front_eq_none_iff.mp h)
      obtain ⟨ch, hch, hfront⟩ := hreads.head
      exact ⟨ch, hch, hfront, hreads.endsKey_of_mem ch (List.mem_of_head? hch)⟩
  | some opening =>
      obtain ⟨hhead, hfront⟩ := head_literal_of_front h
      refine ⟨opening, hhead, hfront, ?_⟩
      unfold frontOf at hfront
      split_ifs at hfront with hmem
      have hall : openings.all (!endsKey ·) = true := rfl
      exact Bool.not_eq_true' _ |>.mp (List.all_eq_true.mp hall opening hmem)

theorem literal_append_ne (a : Constant) {c : Char} (hc : endsKey c = true) (r r' : List Char) :
    a.literal.toList ++ r ≠ c :: r' := by
  intro h
  obtain ⟨ch, hch, -, hends⟩ := head_literal a
  have hhead : (a.literal.toList ++ r).head? = some ch := by
    rw [List.head?_append, hch, Option.some_or]
  rw [h, List.head?_cons] at hhead
  rw [← Option.some.inj hhead, hc] at hends
  exact Bool.noConfusion hends

/-- Texts that begin with literals begin with the same quotes or brackets. -/
theorem front_eq_of_literal {a b : Constant} {r r' : List Char}
    (h : a.literal.toList ++ r = b.literal.toList ++ r') : a.front = b.front := by
  obtain ⟨ch, hch, hfront, -⟩ := head_literal a
  obtain ⟨ch', hch', hfront', -⟩ := head_literal b
  have hhead := congrArg List.head? h
  rw [List.head?_append, List.head?_append, hch, hch', Option.some_or, Option.some_or] at hhead
  rw [← hfront, ← hfront', Option.some.inj hhead]

/-! ## Reading a literal -/

/-- What follows the first element of a tuple: a tuple of one element keeps a comma. -/
def tupleTail : List String → List Char
  | [] => [',', ')']
  | ts => tailText ts ++ [')']

theorem toList_tupleLiteral_cons (t : String) (ts : List String) :
    (tupleLiteral (t :: ts)).toList = '(' :: (t.toList ++ tupleTail ts) := by
  cases ts with
  | nil => simp [tupleLiteral, toList_inParens, tupleTail]
  | cons u ts =>
      rw [tupleLiteral, toList_inParens, toList_commaSeparated_cons, List.append_assoc]
      · rfl
      · simp

theorem followsKey_tupleTail (ts : List String) (r : List Char) :
    FollowsKey (tupleTail ts ++ r) := by
  cases ts with
  | nil => exact .cons rfl _
  | cons t ts => exact .cons rfl _

/-- A closing bracket right behind an element is told from another element. -/
theorem tupleTail_append_inj {l l' : List Constant} (hl : ∀ a ∈ l, Readable literal reread a)
    {r r' : List Char}
    (h : tupleTail (l.map literal) ++ r = tupleTail (l'.map literal) ++ r') :
    l.map reread = l'.map reread ∧ r = r' := by
  cases l with
  | nil =>
      cases l' with
      | nil => exact ⟨rfl, List.append_cancel_left h⟩
      | cons b l' =>
          have hsecond := (List.cons.inj (List.cons.inj h).2).1
          exact absurd hsecond (by decide)
  | cons a l =>
      cases l' with
      | nil =>
          have hsecond := (List.cons.inj (List.cons.inj h).2).1
          exact absurd hsecond (by decide)
      | cons b l' =>
          simp only [List.map_cons, tupleTail, List.append_assoc, List.singleton_append] at h
          rw [← List.map_cons, ← List.map_cons] at h
          exact tailText_append_inj rfl (by decide) hl h

theorem tupleLiteral_append_inj {l l' : List Constant} (hl : ∀ a ∈ l, Readable literal reread a)
    {r r' : List Char} (h : (tupleLiteral (l.map literal)).toList ++ r =
      (tupleLiteral (l'.map literal)).toList ++ r') :
    l.map reread = l'.map reread ∧ r = r' := by
  cases l with
  | nil =>
      cases l' with
      | nil => exact ⟨rfl, List.append_cancel_left h⟩
      | cons b l' =>
          rw [List.map_cons, toList_tupleLiteral_cons, List.cons_append, List.append_assoc] at h
          exact absurd (List.cons.inj h).2.symm (literal_append_ne b rfl _ _)
  | cons a l =>
      cases l' with
      | nil =>
          rw [List.map_cons, toList_tupleLiteral_cons, List.cons_append, List.append_assoc] at h
          exact absurd (List.cons.inj h).2 (literal_append_ne a rfl _ _)
      | cons b l' =>
          rw [List.map_cons, List.map_cons, toList_tupleLiteral_cons, toList_tupleLiteral_cons,
            List.cons_append, List.cons_append, List.append_assoc, List.append_assoc] at h
          obtain ⟨hab, hrest⟩ := hl a List.mem_cons_self b _ _ (followsKey_tupleTail _ r)
            (followsKey_tupleTail _ r') (List.cons.inj h).2
          obtain ⟨hll, hr⟩ := tupleTail_append_inj
            (fun c hm => hl c (List.mem_cons_of_mem a hm)) hrest
          exact ⟨by rw [List.map_cons, List.map_cons, hab, hll], hr⟩

theorem readable_word {a : Constant} (ha : a.isWord = true) : Readable literal reread a := by
  intro b r r' hr hr' h
  have hb : b.isWord = true := by
    rw [← front_eq_none_iff, ← front_eq_of_literal h, front_eq_none_iff]
    exact ha
  obtain ⟨hlit, hrr⟩ := unquoted_append_inj (reads_literal ha).endsKey_of_mem
    (reads_literal hb).endsKey_of_mem hr hr' h
  have hreads := reads_literal hb
  rw [← String.toList_inj.mp hlit] at hreads
  exact ⟨(reads_literal ha).unique hreads, hrr⟩

/-- Texts that begin with a literal begin with the literal of what is read as the same constant,
and go on alike. -/
theorem readable_literal (a : Constant) : Readable literal reread a := by
  induction a using bottomUp with
  | step a ih =>
  by_cases hword : a.isWord = true
  · exact readable_word hword
  · intro b r r' hr hr' h
    have hfront := front_eq_of_literal h
    cases a with
    | str x =>
        cases b with
        | str y =>
            obtain ⟨hxy, hrr⟩ := byteLiteral_append_inj "" h
            exact ⟨by rw [utf8_inj hxy], hrr⟩
        | _ => simp [front] at hfront
    | unicode x =>
        cases b with
        | unicode y =>
            obtain ⟨hxy, hrr⟩ := unicodeLiteral_append_inj h
            exact ⟨by rw [hxy], hrr⟩
        | _ => simp [front] at hfront
    | bytes x =>
        cases b with
        | bytes y =>
            obtain ⟨hxy, hrr⟩ := byteLiteral_append_inj "b" h
            exact ⟨by rw [hxy], hrr⟩
        | _ => simp [front] at hfront
    | tuple l =>
        cases b with
        | tuple l' =>
            rw [literal, literal, literals_eq_map, literals_eq_map] at h
            obtain ⟨hl, hrr⟩ := tupleLiteral_append_inj ih h
            rw [reread, reread, rereads_eq_map, rereads_eq_map]
            exact ⟨congrArg tuple hl, hrr⟩
        | _ => simp [front] at hfront
    | list l =>
        cases b with
        | list l' =>
            rw [literal, literal, literals_eq_map, literals_eq_map, toList_inBrackets,
              toList_inBrackets] at h
            obtain ⟨hl, hrr⟩ := bracketed_append_inj rfl (by decide)
              (fun a => literal_append_ne a rfl) ih h
            rw [reread, reread, rereads_eq_map, rereads_eq_map]
            exact ⟨congrArg list hl, hrr⟩
        | _ => simp [front] at hfront
    | set l =>
        cases b with
        | set l' =>
            rw [literal, literal, literals_eq_map, literals_eq_map] at h
            simp only [String.toList_append, List.append_assoc] at h
            have hinside := List.append_cancel_left h
            rw [toList_inBrackets, toList_inBrackets] at hinside
            obtain ⟨hl, hclose⟩ := bracketed_append_inj rfl (by decide)
              (fun a => literal_append_ne a rfl) ih hinside
            rw [reread, reread, rereads_eq_map, rereads_eq_map]
            exact ⟨congrArg set hl, List.append_cancel_left hclose⟩
        | _ => simp [front] at hfront
    | dict l =>
        cases b with
        | dict l' =>
            rw [literal, literal, pairLiterals_eq_map, pairLiterals_eq_map, toList_inBraces,
              toList_inBraces] at h
            have hpairs : ∀ p ∈ l, Readable (pairText literal) (Prod.map reread reread) p :=
              fun p hp => readable_pairText
                (ih p.1 (List.mem_flatMap.mpr ⟨p, hp, List.mem_cons_self⟩))
                (ih p.2 (List.mem_flatMap.mpr ⟨p, hp, List.mem_cons_of_mem _ List.mem_cons_self⟩))
            obtain ⟨hl, hrr⟩ := bracketed_append_inj rfl (by decide)
              (pairText_append_ne fun a => literal_append_ne a rfl) hpairs h
            rw [reread, reread, pairRereads_eq_map, pairRereads_eq_map]
            exact ⟨congrArg dict hl, hrr⟩
        | _ => simp [front] at hfront
    | _ => exact absurd rfl hword

/-- **A literal says what it is read as.** Two constants have the same literal exactly if they are
read as the same constant. -/
theorem literal_eq_iff (a b : Constant) : a.literal = b.literal ↔ a.reread = b.reread := by
  constructor
  · intro h
    have h' : a.literal.toList ++ [] = b.literal.toList ++ [] := by rw [h]
    exact (readable_literal a b [] [] .nil .nil h').1
  · intro h
    rw [← literal_reread a, h, literal_reread]

end Constant
end CompilerBackend
