import CompilerBackend.Proofs.Text.Arguments
/-!
# Nested brackets

Parentheses and braces of a text are nested if each closing one closes the latest that is open, and
none is left open. Nothing else in the text matters, so lines can be joined, cut and indented.

- `stillOpen`: the brackets to close behind a text, from those to close in front of it.
- `Nested.append`, `Nested.braces`: nested texts side by side and between braces.
- `nested_unlines`, `nestedLines_indented`: what the layout of lines leaves as it is.
- `Flat.nested`: text that can be one argument of a call is nested, and in one line.
-/

namespace CompilerBackend.Text

open Target

/-- The closing brackets that are still due behind some characters, the next one first, if
`closers` are due in front of them. There are none if a bracket closes what is not open. -/
def stillOpen (closers : List Char) : List Char → Option (List Char)
  | [] => some closers
  | c :: cs =>
    if c = '(' then stillOpen (')' :: closers) cs
    else if c = '\x7b' then stillOpen ('\x7d' :: closers) cs
    else if c = ')' ∨ c = '\x7d' then
      if closers.head? = some c then stillOpen closers.tail cs else none
    else stillOpen closers cs

/-- Each closing bracket closes the latest one that is open, and none is left open. -/
def Nested (cs : List Char) : Prop := stillOpen [] cs = some []

instance (cs : List Char) : Decidable (Nested cs) := inferInstanceAs (Decidable (_ = _))

def isBracket (c : Char) : Bool := c == '(' || c == ')' || c == '\x7b' || c == '\x7d'

variable {closers final a b : List Char}

theorem stillOpen_append (closers a b : List Char) :
    stillOpen closers (a ++ b) = (stillOpen closers a).bind fun final => stillOpen final b := by
  induction a generalizing closers with
  | nil => rfl
  | cons c cs ih =>
      rw [List.cons_append, stillOpen, stillOpen]
      split_ifs
      · exact ih _
      · exact ih _
      · exact ih _
      · rfl
      · exact ih _

/-- What is open around a text changes nothing inside it. -/
theorem stillOpen_under (h : stillOpen closers a = some final) (more : List Char) :
    stillOpen (closers ++ more) a = some (final ++ more) := by
  induction a generalizing closers with
  | nil =>
      obtain rfl : closers = final := Option.some.inj h
      rfl
  | cons c cs ih =>
      rw [stillOpen] at h ⊢
      split_ifs at h with hparen hbrace hclose hmatch
      · rw [if_pos hparen]
        exact ih h
      · rw [if_neg hparen, if_pos hbrace]
        exact ih h
      · cases closers with
        | nil => exact absurd hmatch (Option.some_ne_none c).symm
        | cons d rest =>
            have hfirst : (d :: rest ++ more).head? = some c := hmatch
            rw [if_neg hparen, if_neg hbrace, if_pos hclose, if_pos hfirst]
            exact ih h
      · rw [if_neg hparen, if_neg hbrace, if_neg hclose]
        exact ih h

/-- Only brackets count. -/
theorem stillOpen_filter (closers a : List Char) :
    stillOpen closers (a.filter isBracket) = stillOpen closers a := by
  induction a generalizing closers with
  | nil => rfl
  | cons c cs ih =>
      by_cases hc : isBracket c = true
      · rw [List.filter_cons_of_pos hc, stillOpen, stillOpen, ih, ih, ih, ih]
      · have hnot : ¬ (c = '(' ∨ c = ')' ∨ c = '\x7b' ∨ c = '\x7d') := by
          simpa [isBracket, or_assoc] using hc
        rw [List.filter_cons_of_neg hc, stillOpen, if_neg (by tauto), if_neg (by tauto),
          if_neg (by tauto), ih]

theorem nested_filter : Nested (a.filter isBracket) ↔ Nested a := by
  rw [Nested, stillOpen_filter, Nested]

theorem nested_congr (h : a.filter isBracket = b.filter isBracket) : Nested a ↔ Nested b := by
  rw [← nested_filter, h, nested_filter]

namespace Nested

theorem empty : Nested [] := rfl

theorem under (h : Nested a) (closers : List Char) : stillOpen closers a = some closers :=
  stillOpen_under h closers

theorem append (ha : Nested a) (hb : Nested b) : Nested (a ++ b) := by
  rw [Nested, stillOpen_append, ha]
  exact hb

/-- A nested text in braces. -/
theorem braces (h : Nested a) : Nested ('\x7b' :: (a ++ ['\x7d'])) := by
  have hinside := h.under ['\x7d']
  rw [Nested, stillOpen, if_neg (by decide), if_pos rfl, stillOpen_append, hinside]
  rfl

end Nested

/-! ## Lines -/

def NestedLines (ls : List String) : Prop := Nested (ls.flatMap String.toList)

theorem NestedLines.append {ls ms : List String} (hl : NestedLines ls) (hm : NestedLines ms) :
    NestedLines (ls ++ ms) := by
  rw [NestedLines, List.flatMap_append]
  exact Nested.append hl hm

theorem nestedLines_nil : NestedLines [] := Nested.empty

theorem nestedLines_singleton {l : String} : NestedLines [l] ↔ Nested l.toList := by
  rw [NestedLines, List.flatMap_singleton]

/-- Line feeds between lines are no brackets. -/
theorem nested_unlines {ls : List String} : Nested (unlines ls).toList ↔ NestedLines ls := by
  refine nested_congr ?_
  induction ls with
  | nil => rfl
  | cons l ls ih =>
      cases ls with
      | nil => rw [unlines_singleton, List.flatMap_singleton]
      | cons m ls =>
          rw [unlines_cons_cons, String.toList_append, String.toList_append, List.filter_append,
            List.filter_append, ih, List.flatMap_cons (x := l), List.filter_append]
          have hfeed : "\n".toList.filter isBracket = [] := by decide
          rw [hfeed, List.append_nil]

/-- Margins are no brackets either. -/
theorem nestedLines_indented {ls : List String} :
    NestedLines (ls.map indentLine) ↔ NestedLines ls := by
  refine nested_congr ?_
  induction ls with
  | nil => rfl
  | cons l ls ih =>
      rw [List.map_cons, List.flatMap_cons, List.flatMap_cons, List.filter_append,
        List.filter_append, ih, indentLine, String.toList_append, List.filter_append]
      have hmargin : "    ".toList.filter isBracket = [] := by decide
      rw [hmargin, List.nil_append]

/-- Lines between braces on lines of their own. -/
theorem NestedLines.braces {ls : List String} (h : NestedLines ls) :
    NestedLines ("\x7b" :: ls ++ ["\x7d"]) := by
  have heq : ("\x7b" :: ls ++ ["\x7d"]).flatMap String.toList =
      '\x7b' :: (ls.flatMap String.toList ++ ['\x7d']) := by simp
  rw [NestedLines, heq]
  exact Nested.braces h

/-! ## Arguments of calls -/

/-- While no brace is met, the closing brackets that are due are parentheses. -/
theorem stillOpen_of_balance {depth depth' : Nat} {cs : List Char}
    (h : balance depth (cs.map Char.toNat) = some depth') :
    stillOpen (List.replicate depth ')') cs = some (List.replicate depth' ')') := by
  induction cs generalizing depth with
  | nil => rw [stillOpen, Option.some.inj h]
  | cons c cs ih =>
      have hcode : ∀ d : Char, c.toNat = d.toNat ↔ c = d := fun d =>
        ⟨fun heq => Char.ext (UInt32.toNat_inj.mp heq), congrArg Char.toNat⟩
      rw [List.map_cons, balance, Char.ofNat_toNat] at h
      rw [stillOpen]
      split_ifs at h with hforeign hopen hclose hzero hcomma
      · rw [if_pos ((hcode '(').mp hopen)]
        exact ih h
      · have hparen := (hcode ')').mp hclose
        obtain ⟨outer, rfl⟩ := Nat.exists_eq_succ_of_ne_zero hzero
        rw [hparen, if_neg (by decide), if_neg (by decide), if_pos (Or.inl rfl),
          List.replicate_succ]
        exact (if_pos rfl).trans (ih h)
      · have hbraces : c ≠ '\x7b' ∧ c ≠ '\x7d' := by
          simp only [isForeign, Bool.or_eq_true, beq_iff_eq, not_or] at hforeign
          tauto
        rw [if_neg fun heq => hopen (congrArg Char.toNat heq), if_neg hbraces.1,
          if_neg fun hor => hor.elim (fun heq => hclose (congrArg Char.toNat heq)) hbraces.2]
        exact ih h

/-- Text that can be a part of an argument is nested. -/
theorem Flat.nested {s : String} (h : Flat s) : Nested s.toList := stillOpen_of_balance h

theorem not_isForeign_of_balance {depth final : Nat} {ns : List Nat}
    (h : balance depth ns = some final) : ∀ n ∈ ns, isForeign (Char.ofNat n) = false := by
  induction ns generalizing depth with
  | nil => exact List.forall_mem_nil _
  | cons n ns ih =>
      rw [balance] at h
      split at h
      · cases h
      next hforeign =>
        refine List.forall_mem_cons.mpr ⟨by simpa using hforeign, ?_⟩
        split_ifs at h
        · exact ih h
        · exact ih h
        · exact ih h

/-- Such text is in one line. -/
theorem Flat.not_mem_feed {s : String} (h : Flat s) : '\n' ∉ s.toList := fun hmem =>
  absurd (not_isForeign_of_balance h _ (List.mem_map_of_mem hmem)) (by decide)

end CompilerBackend.Text
