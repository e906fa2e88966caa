import CompilerBackend.Proofs.Lowering.Runs
import CompilerBackend.Proofs.Program.Table
import CompilerBackend.Proofs.Text.Literals
/-!
# Literals of trace lines

A trace line hands a literal to `puts`, in which only the double quotes of the message are escaped.
Read as a string of the target, it stands for the message exactly if the name of the file has no
backslash, no newline and no trigraph. That nothing else is read as the message is seen by weighing
characters: a bare one weighs two for each of its bytes, a quote and a backslash weigh one, so an
escaped quote weighs as much as the quote it stands for, and every other backslash makes a text too
light.

- `weight`: what a character of a literal counts for.
- `body_weighs`: what is read weighs no more than what is written.
- `weighs_replaceTrigraphs`: each trigraph makes a text lighter.
- `traceLiteral_read_iff`: when the literal of a message stands for the message.
- `sequence_traceLiterals`: the trace lines of a sequence.
-/

namespace CompilerBackend

open Lowering Target Text Program

namespace Text

variable {cs rest : List Char} {c : Char} {units : List Nat}

/-! ## Weights -/

/-- Twice the bytes that a character can give to a string, less one for a character that only an
escape gives. -/
def weight (c : Char) : Nat :=
  if c = '\n' then 0 else if c = '\\' ∨ c = '"' then 1 else 2 * (characterBytes c).length

def weighs (cs : List Char) : Nat := (cs.map weight).sum

@[simp] theorem weighs_nil : weighs [] = 0 := rfl

@[simp] theorem weighs_cons (c : Char) (cs : List Char) :
    weighs (c :: cs) = weight c + weighs cs := rfl

@[simp] theorem weighs_append (cs ds : List Char) : weighs (cs ++ ds) = weighs cs + weighs ds := by
  rw [weighs, weighs, weighs, List.map_append, List.sum_append]

theorem weighs_drop_le (n : Nat) (cs : List Char) : weighs (cs.drop n) ≤ weighs cs := by
  have h := weighs_append (cs.take n) (cs.drop n)
  rw [List.take_append_drop] at h
  omega

theorem length_characterBytes_pos (c : Char) : 0 < (characterBytes c).length := by
  rw [characterBytes, List.length_map]
  exact List.length_pos_iff.mpr String.utf8EncodeChar_ne_nil

theorem weight_pos (h : c ≠ '\n') : 0 < weight c := by
  have hbytes := length_characterBytes_pos c
  unfold weight
  rw [if_neg h]
  split_ifs <;> omega

/-! ## Reading by weight -/

theorem mem_of_lookup {α : Type} {table : List (Char × α)} {a : α}
    (h : table.lookup c = some a) : (c, a) ∈ table := by
  obtain ⟨before, after, rfl, -⟩ := List.lookup_eq_some_iff.mp h
  exact List.mem_append_right before List.mem_cons_self

/-- An escape stands for one byte, and what it begins with is no newline. -/
theorem escape_eq_some (h : targetStrings.escape? cs = some (units, rest)) :
    ∃ c more n, cs = c :: more ∧ c ≠ '\n' ∧ units.length = 1 ∧ rest = more.drop n := by
  have hnumber : ∀ {d : DigitRun} {text : List Char},
      targetStrings.number? d text = some (units, rest) → d.least = 1 →
        units.length = 1 ∧ ∃ n, 0 < n ∧ rest = text.drop n := by
    intro d text h hleast
    obtain ⟨p, hp, h⟩ := Option.bind_eq_some_iff.mp h
    obtain ⟨unit, -, h⟩ := Option.map_eq_some_iff.mp h
    obtain ⟨rfl, rfl⟩ := Prod.mk.inj h
    rw [DigitRun.read?] at hp
    split_ifs at hp with hshort
    rw [← Option.some.inj hp]
    exact ⟨rfl, _, by omega, rfl⟩
  cases cs with
  | nil => cases h
  | cons c more =>
      rw [LiteralKind.escape?] at h
      split at h
      next unit hletter =>
          obtain ⟨rfl, rfl⟩ := Prod.mk.inj (Option.some.inj h)
          refine ⟨c, more, 0, rfl, ?_, rfl, rfl⟩
          rintro rfl
          cases hletter
      next =>
          split at h
          next run hrun =>
              have hmem := mem_of_lookup hrun
              obtain ⟨rfl, rfl⟩ := Prod.mk.inj (List.mem_singleton.mp hmem)
              obtain ⟨hone, n, -, rfl⟩ := hnumber h rfl
              exact ⟨'x', more, n, rfl, by decide, hone, rfl⟩
          next =>
              split at h
              next hoctal =>
                  obtain ⟨hone, n, hn, rfl⟩ := hnumber h rfl
                  obtain ⟨n, rfl⟩ : ∃ m, n = m + 1 := ⟨n - 1, by omega⟩
                  refine ⟨c, more, n, rfl, ?_, hone, rfl⟩
                  rintro rfl
                  exact absurd hoctal (by decide)
              next => cases h

/-- What stands for an item weighs at least what the item gives. -/
theorem item_weighs (hquote : c ≠ '"')
    (h : targetStrings.item? (c :: cs) = some (units, rest)) :
    2 * units.length + weighs rest ≤ weighs (c :: cs) := by
  rw [LiteralKind.item?] at h
  split_ifs at h with hc
  · obtain ⟨d, more, n, rfl, hd, hone, rfl⟩ := escape_eq_some h
    have hdrop := weighs_drop_le n more
    have hpos := weight_pos hd
    have hbackslash : weight c = 1 := by rw [hc]; rfl
    rw [weighs_cons, weighs_cons]
    omega
  · obtain ⟨bytes, hbytes, h⟩ := Option.map_eq_some_iff.mp h
    obtain ⟨rfl, rfl⟩ := Prod.mk.inj h
    have hbare : (if c = '\n' then none else some (characterBytes c)) = some bytes := hbytes
    split_ifs at hbare with hline
    rw [← Option.some.inj hbare, weighs_cons, weight, if_neg hline, if_neg (by simp [hc, hquote])]

/-- A text that is read up to its closing quote weighs more than what is read. -/
theorem body_weighs {n : Nat} (h : targetStrings.body? n cs = some units) :
    2 * units.length + 1 ≤ weighs cs := by
  induction n generalizing cs units with
  | zero => exact nomatch h
  | succ n ih =>
      cases cs with
      | nil => exact nomatch h
      | cons c cs =>
          rw [LiteralKind.body?] at h
          split_ifs at h with hquote hend
          · rw [← Option.some.inj h, hquote, hend]
            decide
          · obtain ⟨⟨first, rest⟩, hitem, h⟩ := Option.bind_eq_some_iff.mp h
            obtain ⟨others, hothers, rfl⟩ := Option.map_eq_some_iff.mp h
            have hfirst := item_weighs hquote hitem
            have hrest : 2 * others.length + 1 ≤ weighs rest := ih hothers
            rw [List.length_append, Nat.mul_add, Nat.add_assoc]
            exact (Nat.add_le_add_left hrest _).trans hfirst

/-- A literal weighs more than what is read, by its two quotes. -/
theorem read_weighs {text : List Char} (h : targetStrings.read? text = some units) :
    2 * units.length + 2 ≤ weighs (targetStrings.prepare text) := by
  rw [LiteralKind.read?] at h
  split_ifs at h with hlead
  have hnil : (targetStrings.prepare text).takeWhile (· != '"') = [] :=
    String.ofList_injective (List.mem_singleton.mp hlead)
  generalize targetStrings.prepare text = prepared at h hnil ⊢
  cases prepared with
  | nil => exact absurd (body_weighs h) (by simp)
  | cons c rest =>
      have hquote : c = '"' := by
        by_contra hc
        rw [List.takeWhile_cons_of_pos (by simpa using hc)] at hnil
        exact List.cons_ne_nil _ _ hnil
      subst hquote
      have hbody : 2 * units.length + 1 ≤ weighs rest := body_weighs h
      have hweight : weight '"' = 1 := rfl
      rw [weighs_cons]
      omega

/-! ## Trigraphs -/

def HasTrigraph (cs : List Char) : Prop := ∃ p ∈ trigraphs, ['?', '?', p.1] <:+: cs

theorem weighs_joinLines_le (cs : List Char) : weighs (joinLines cs) ≤ weighs cs := by
  fun_induction joinLines cs with
  | case1 => exact le_refl _
  | case2 rest ih =>
      rw [weighs_cons, weighs_cons]
      omega
  | case3 c rest _ ih =>
      rw [weighs_cons, weighs_cons]
      omega

/-- The character that a trigraph stands for is light. -/
theorem trigraph_eq_some {d : Char} (h : trigraph? cs = some d) :
    ∃ p ∈ trigraphs, ∃ more, cs = '?' :: '?' :: p.1 :: more ∧ weight d ≤ 2 := by
  unfold trigraph? at h
  split at h
  next c more =>
      have hmem := mem_of_lookup h
      have hall : ∀ p ∈ trigraphs, weight p.2 ≤ 2 := by decide
      exact ⟨(c, d), hmem, more, rfl, hall _ hmem⟩
  next => exact nomatch h

theorem trigraph_isSome {p : Char × Char} (hp : p ∈ trigraphs) (h : ['?', '?', p.1] <+: cs) :
    (trigraph? cs).isSome = true := by
  obtain ⟨more, rfl⟩ := h
  have hall : ∀ p ∈ trigraphs, (trigraphs.lookup p.1).isSome = true := by decide
  exact hall p hp

theorem not_hasTrigraph_nil : ¬ HasTrigraph [] := by
  rintro ⟨p, -, h⟩
  exact nomatch List.infix_nil.mp h

theorem hasTrigraph_cons_iff : HasTrigraph (c :: cs) ↔
    (∃ p ∈ trigraphs, ['?', '?', p.1] <+: c :: cs) ∨ HasTrigraph cs := by
  constructor
  · rintro ⟨p, hp, h⟩
    exact (List.infix_cons_iff.mp h).imp (fun h => ⟨p, hp, h⟩) (fun h => ⟨p, hp, h⟩)
  · rintro (⟨p, hp, h⟩ | ⟨p, hp, h⟩)
    · exact ⟨p, hp, List.infix_cons_iff.mpr (Or.inl h)⟩
    · exact ⟨p, hp, List.infix_cons_iff.mpr (Or.inr h)⟩

/-- Replacing trigraphs makes a text lighter if there are any, and else leaves it. -/
theorem weighs_replaceTrigraphs (skip : Nat) (cs : List Char) :
    weighs (replaceTrigraphs skip cs) ≤ weighs (cs.drop skip) ∧
      (HasTrigraph (cs.drop skip) →
        weighs (replaceTrigraphs skip cs) < weighs (cs.drop skip)) ∧
      (¬ HasTrigraph (cs.drop skip) → replaceTrigraphs skip cs = cs.drop skip) := by
  fun_induction replaceTrigraphs skip cs with
  | case1 skip =>
      rw [List.drop_nil]
      exact ⟨le_refl _, fun h => absurd h not_hasTrigraph_nil, fun _ => rfl⟩
  | case2 skip _ rest ih => exact ih
  | case3 c rest d hd ih =>
      obtain ⟨p, hp, more, hcs, hlight⟩ := trigraph_eq_some hd
      obtain ⟨rfl, rfl⟩ := List.cons.inj hcs
      have hall : ∀ p ∈ trigraphs, weight p.1 = 2 := by decide
      have hlt : weighs (d :: replaceTrigraphs 2 ('?' :: p.1 :: more)) <
          weighs ('?' :: '?' :: p.1 :: more) := by
        have hmore : weighs (replaceTrigraphs 2 ('?' :: p.1 :: more)) ≤ weighs more := ih.1
        have hmark : weight '?' = 2 := by decide
        simp only [weighs_cons, hmark, hall p hp]
        omega
      refine ⟨hlt.le, fun _ => hlt, fun h => absurd ⟨p, hp, ?_⟩ h⟩
      exact (List.prefix_append ['?', '?', p.1] more).isInfix
  | case4 c rest hnone ih =>
      have hrest : HasTrigraph (c :: rest) ↔ HasTrigraph rest := by
        rw [hasTrigraph_cons_iff, or_iff_right]
        rintro ⟨p, hp, h⟩
        exact absurd hnone (Option.isSome_iff_ne_none.mp (trigraph_isSome hp h))
      obtain ⟨hle, hlt, heq⟩ := ih
      rw [List.drop_zero] at hle hlt heq ⊢
      rw [hrest, weighs_cons, weighs_cons]
      exact ⟨Nat.add_le_add_left hle _, fun h => Nat.add_lt_add_left (hlt h) _,
        fun h => by rw [heq h]⟩

/-- A text in front of which no question mark stands has the same trigraphs without it. -/
theorem hasTrigraph_append_iff {front : List Char} (h : '?' ∉ front) :
    HasTrigraph (front ++ cs) ↔ HasTrigraph cs := by
  induction front with
  | nil => exact Iff.rfl
  | cons d front ih =>
      rw [List.mem_cons, not_or] at h
      rw [List.cons_append, hasTrigraph_cons_iff, or_iff_right, ih h.2]
      rintro ⟨p, -, hpre⟩
      exact h.1 (List.cons_prefix_cons.mp hpre).1

theorem prefix_append_cons_iff {start : List Char} (h : c ∉ start) (cs rest : List Char) :
    start <+: cs ++ c :: rest ↔ start <+: cs := by
  induction start generalizing cs with
  | nil => exact iff_of_true (List.nil_prefix) (List.nil_prefix)
  | cons d start ih =>
      rw [List.mem_cons, not_or] at h
      cases cs with
      | nil =>
          refine iff_of_false (fun hpre => ?_) (fun hpre => nomatch List.prefix_nil.mp hpre)
          exact h.1 (List.cons_prefix_cons.mp hpre).1.symm
      | cons e cs => rw [List.cons_append, List.cons_prefix_cons, List.cons_prefix_cons, ih h.2]

/-- A text makes no trigraph with what is behind, if that begins with no character of one. -/
theorem hasTrigraph_append_cons_iff (hc : ∀ p ∈ trigraphs, c ≠ p.1) (h : '?' ∉ c :: rest)
    (cs : List Char) : HasTrigraph (cs ++ c :: rest) ↔ HasTrigraph cs := by
  have hapart : ∀ p ∈ trigraphs, c ∉ ['?', '?', p.1] := by
    intro p hp
    rw [List.mem_cons, not_or] at h
    simp [Ne.symm h.1, hc p hp]
  induction cs with
  | nil => rw [List.nil_append, ← List.append_nil (c :: rest), hasTrigraph_append_iff h]
  | cons d cs ih =>
      rw [List.cons_append, hasTrigraph_cons_iff, hasTrigraph_cons_iff]
      refine or_congr (exists_congr fun p => and_congr_right fun hp => ?_) ih
      exact prefix_append_cons_iff (hapart p hp) (d :: cs) rest

theorem prefix_flatMap_traceChars {start : List Char} (h : ∀ c ∈ start, c ≠ '"' ∧ c ≠ '\\')
    (cs : List Char) : start <+: cs.flatMap traceChars ↔ start <+: cs := by
  induction start generalizing cs with
  | nil => exact iff_of_true (List.nil_prefix) (List.nil_prefix)
  | cons d start ih =>
      obtain ⟨⟨hquote, hbackslash⟩, hmore⟩ := List.forall_mem_cons.mp h
      cases cs with
      | nil => exact Iff.rfl
      | cons c cs =>
          rw [List.flatMap_cons, traceChars, List.cons_prefix_cons]
          split_ifs with hc
          · rw [List.cons_append, List.cons_prefix_cons]
            exact iff_of_false (fun h => hbackslash h.1) (fun h => hquote (h.1.trans hc))
          · rw [List.singleton_append, List.cons_prefix_cons, ih hmore]

/-- Escaping quotes makes no trigraph and parts none. -/
theorem hasTrigraph_flatMap_traceChars (cs : List Char) :
    HasTrigraph (cs.flatMap traceChars) ↔ HasTrigraph cs := by
  have hends : ∀ p ∈ trigraphs, p.1 ≠ '"' ∧ p.1 ≠ '\\' := by decide
  have hapart : ∀ p ∈ trigraphs, ∀ c ∈ ['?', '?', p.1], c ≠ '"' ∧ c ≠ '\\' := by
    intro p hp
    exact List.forall_mem_cons.mpr ⟨by decide, List.forall_mem_cons.mpr ⟨by decide,
      List.forall_mem_singleton.mpr (hends p hp)⟩⟩
  induction cs with
  | nil => exact Iff.rfl
  | cons c cs ih =>
      have hstart := fun p hp => prefix_flatMap_traceChars (hapart p hp) (c :: cs)
      rw [hasTrigraph_cons_iff]
      rw [List.flatMap_cons] at hstart ⊢
      by_cases hc : c = '"'
      · rw [traceChars, if_pos hc, hasTrigraph_append_iff (by decide), or_iff_right]
        · exact ih
        · rintro ⟨p, hp, h⟩
          exact (hapart p hp '?' List.mem_cons_self).1 ((List.cons_prefix_cons.mp h).1.trans hc)
      · rw [traceChars, if_neg hc, List.singleton_append] at hstart ⊢
        rw [hasTrigraph_cons_iff]
        exact or_congr (exists_congr fun p => and_congr_right fun hp => hstart p hp) ih

/-! ## Literals of messages -/

theorem weighs_flatMap_traceChars (cs : List Char) :
    weighs (cs.flatMap traceChars) + cs.count '\\' + 2 * cs.count '\n' =
      2 * (cs.flatMap characterBytes).length := by
  induction cs with
  | nil => rfl
  | cons c cs ih =>
      have hone : weighs (traceChars c) + [c].count '\\' + 2 * [c].count '\n' =
          2 * (characterBytes c).length := by
        by_cases hspecial : c = '"' ∨ c = '\\' ∨ c = '\n'
        · rcases hspecial with rfl | rfl | rfl <;> decide
        · simp only [not_or] at hspecial
          obtain ⟨hquote, hbackslash, hline⟩ := hspecial
          rw [traceChars, if_neg hquote, weighs_cons, weighs_nil, weight, if_neg hline,
            if_neg (by simp [hquote, hbackslash]), List.count_singleton, List.count_singleton]
          simp [hbackslash, hline]
      rw [List.flatMap_cons, List.flatMap_cons, weighs_append, List.length_append,
        ← List.singleton_append, List.count_append, List.count_append]
      omega

theorem spells_traceChars (hline : c ≠ '\n') (hbackslash : c ≠ '\\') :
    targetStrings.Spells (characterBytes c) (traceChars c) := by
  unfold traceChars
  split_ifs with hquote
  · rw [hquote]
    exact .letter rfl
  · exact .bare hbackslash hquote (if_neg hline)

/-- A message between quotes, with its own quotes escaped, is read as the message exactly if no
escape, line or trigraph is in it. -/
theorem read_quoted_iff (cs : List Char) :
    targetStrings.read? ('"' :: (cs.flatMap traceChars ++ ['"'])) =
        some (cs.flatMap characterBytes) ↔
      '\n' ∉ cs ∧ '\\' ∉ cs ∧ ¬ HasTrigraph cs := by
  have hsame : HasTrigraph ('"' :: (cs.flatMap traceChars ++ ['"'])) ↔ HasTrigraph cs := by
    rw [← List.singleton_append, hasTrigraph_append_iff (by decide),
      hasTrigraph_append_cons_iff (by decide) (by decide), hasTrigraph_flatMap_traceChars]
  have hprepare := weighs_replaceTrigraphs 0 ('"' :: (cs.flatMap traceChars ++ ['"']))
  rw [List.drop_zero, hsame] at hprepare
  obtain ⟨hle, hlt, heq⟩ := hprepare
  constructor
  · intro h
    have hweight := weighs_flatMap_traceChars cs
    have hwhole : weighs ('"' :: (cs.flatMap traceChars ++ ['"'])) =
        weighs (cs.flatMap traceChars) + 2 := by
      have hquote : weight '"' = 1 := rfl
      simp only [weighs_cons, weighs_append, weighs_nil, hquote]
      omega
    have hread : 2 * (cs.flatMap characterBytes).length + 2 ≤
        weighs (replaceTrigraphs 0 ('"' :: (cs.flatMap traceChars ++ ['"']))) :=
      (read_weighs h).trans (weighs_joinLines_le _)
    refine ⟨fun hline => ?_, fun hbackslash => ?_, fun htrigraph => ?_⟩
    · have := List.count_pos_iff.mpr hline
      omega
    · have := List.count_pos_iff.mpr hbackslash
      omega
    · have := hlt htrigraph
      omega
  · rintro ⟨hline, hbackslash, htrigraph⟩
    have hflat : '\n' ∉ '"' :: (cs.flatMap traceChars ++ ['"']) := by
      simp only [List.mem_cons, List.mem_append, List.mem_flatMap, List.not_mem_nil, or_false]
      rintro (hquote | ⟨c, hc, hmem⟩ | hquote)
      · exact absurd hquote (by decide)
      · unfold traceChars at hmem
        split_ifs at hmem
        · exact absurd hmem (by decide)
        · exact hline (List.mem_singleton.mp hmem ▸ hc)
      · exact absurd hquote (by decide)
    have hplain : targetStrings.prepare ('"' :: (cs.flatMap traceChars ++ ['"'])) =
        '"' :: (cs.flatMap traceChars ++ ['"']) := by
      show joinLines (replaceTrigraphs 0 _) = _
      rw [heq htrigraph, joinLines_of_flat hflat]
    have hspells : ∀ c ∈ cs, targetStrings.Spells (characterBytes c) (traceChars c) := fun c hc =>
      spells_traceChars (fun h => hline (h ▸ hc)) (fun h => hbackslash (h ▸ hc))
    have hlead : ('"' :: (cs.flatMap traceChars ++ ['"'])).takeWhile
        (· != targetStrings.quote) = [] := rfl
    have hempty : String.ofList [] ∈ targetStrings.leads := List.mem_singleton.mpr rfl
    rw [LiteralKind.read?, hplain, hlead, if_pos hempty]
    refine LiteralKind.body_flatMap hspells ?_
    rw [List.length_cons, List.length_append]
    omega

end Text

/-! ## Trace lines -/

namespace Target

def traceLiteral (place kindName : String) : String :=
  "\"Execute: " ++ String.ofList (place.toList.flatMap traceChars) ++ " " ++ kindName ++ "\""

def traceMessage (place kindName : String) : String := "Execute: " ++ place ++ " " ++ kindName

theorem traceLine_eq_literal (place kindName : String) :
    traceLine place kindName = "puts( " ++ traceLiteral place kindName ++ " );" := by
  have hopen : "puts( \"Execute: " = "puts( " ++ "\"Execute: " := by decide
  have hclose : "\" );" = "\"" ++ " );" := by decide
  unfold traceLine traceLiteral
  simp only [hopen, hclose, String.append_assoc]

theorem flatMap_traceChars {cs : List Char} (h : '"' ∉ cs) : cs.flatMap traceChars = cs := by
  induction cs with
  | nil => rfl
  | cons c cs ih =>
      rw [List.mem_cons, not_or] at h
      rw [List.flatMap_cons, traceChars, if_neg (Ne.symm h.1), ih h.2, List.singleton_append]

theorem toList_traceLiteral {place kindName : String} (h : '"' ∉ kindName.toList) :
    (traceLiteral place kindName).toList =
      '"' :: ((traceMessage place kindName).toList.flatMap traceChars ++ ['"']) := by
  have hstart : "Execute: ".toList.flatMap traceChars = "Execute: ".toList :=
    flatMap_traceChars (by decide)
  have hopen : "\"Execute: ".toList = '"' :: "Execute: ".toList := by decide
  have hspace : " ".toList.flatMap traceChars = " ".toList := by decide
  have hclose : "\"".toList = ['"'] := by decide
  simp only [traceLiteral, traceMessage, String.toList_append, String.toList_ofList,
    List.flatMap_append, List.append_assoc, flatMap_traceChars h, hstart, hopen, hspace, hclose,
    List.cons_append]

theorem isNameChar_kindName (k : NodeKind) : ∀ c ∈ k.kindName.toList, isNameChar c = true := by
  apply List.all_eq_true.mp
  cases k with
  | module _ =>
      rw [NodeKind.kindName, String.toList_ofList]
      decide
  | sequence _ =>
      rw [NodeKind.kindName, String.toList_ofList]
      decide
  | handler _ =>
      rw [NodeKind.kindName, String.toList_ofList]
      decide
  | expr e => cases e <;> (rw [NodeKind.kindName, Expr.kindName, String.toList_ofList]; decide)
  | stmt s => cases s <;> (rw [NodeKind.kindName, Stmt.kindName, String.toList_ofList]; decide)

/-- What stands behind the name of the file in a message is a colon, digits, a blank and a name. -/
theorem traceMessage_eq (l : Location) (k : NodeKind) : ∃ behind : List Char,
    (traceMessage l.text k.kindName).toList =
      "Execute: ".toList ++ (l.file.toList ++ ':' :: behind) ∧
      ∀ c ∈ behind, c = ' ' ∨ isNameChar c = true := by
  refine ⟨(toString l.line).toList ++ ' ' :: k.kindName.toList, ?_, fun c hc => ?_⟩
  · simp only [traceMessage, Location.text, String.toList_append, List.append_assoc]
    rfl
  · rcases List.mem_append.mp hc with hc | hc
    · exact Or.inr (isNameChar_of_isDigit (isDigit_of_mem_natural hc))
    · exact (List.mem_cons.mp hc).imp_right (isNameChar_kindName k c)

/-- The string of a trace line, read by the rules for strings of the target, is the message exactly
if the name of the file has no newline, no backslash and no trigraph. -/
theorem traceLiteral_read_iff (l : Location) (k : NodeKind) :
    targetStrings.read? (traceLiteral l.text k.kindName).toList =
        some ((traceMessage l.text k.kindName).toList.flatMap characterBytes) ↔
      '\n' ∉ l.file.toList ∧ '\\' ∉ l.file.toList ∧ ¬ HasTrigraph l.file.toList := by
  have hname : '"' ∉ k.kindName.toList := fun h =>
    absurd (isNameChar_kindName k '"' h) (by decide)
  rw [toList_traceLiteral hname, read_quoted_iff]
  obtain ⟨behind, hmessage, hbehind⟩ := traceMessage_eq l k
  rw [hmessage]
  have hapart : ∀ {c : Char}, c ∉ "Execute: ".toList → isNameChar c = false → c ≠ ' ' → c ≠ ':' →
      (c ∈ "Execute: ".toList ++ (l.file.toList ++ ':' :: behind) ↔ c ∈ l.file.toList) := by
    intro c hstart hother hblank hcolon
    rw [List.mem_append, or_iff_right hstart, List.mem_append, or_iff_left]
    intro hc
    rcases List.mem_cons.mp hc with hc | hc
    · exact hcolon hc
    · rcases hbehind c hc with hc | hc
      · exact hblank hc
      · exact Bool.noConfusion (hother.symm.trans hc)
  have hmark : '?' ∉ ':' :: behind := by
    rw [List.mem_cons, not_or]
    refine ⟨by decide, fun h => ?_⟩
    exact absurd (hbehind '?' h) (by decide)
  rw [hapart (by decide) (by decide) (by decide) (by decide),
    hapart (by decide) (by decide) (by decide) (by decide),
    hasTrigraph_append_iff (by decide),
    hasTrigraph_append_cons_iff (by decide) hmark]

end Target

/-! ## Sequences -/

section

variable {s : Setting} {self : Lowerer} {g g' : Progress} {id : NodeId} {ids : List NodeId}
  {ls : List String}

def Setting.message (s : Setting) (id : NodeId) : String :=
  traceMessage (s.tree.location id).text (s.tree.kind id).kindName

def Setting.literal (s : Setting) (id : NodeId) : String :=
  traceLiteral (s.tree.location id).text (s.tree.kind id).kindName

/-- The lines of a statement behind its trace line. -/
def announced (s : Setting) (id : NodeId) (own : List String) : List String :=
  ("puts( " ++ s.literal id ++ " );") :: own

theorem traceLines_append (htrace : s.options.traceExecution = true) (id : NodeId)
    (own : List String) : traceLines s id ++ own = announced s id own := by
  rw [traceLines, if_pos htrace, traceLine_eq_literal, List.singleton_append, announced,
    Setting.literal]

/-- With a trace, the lines of each statement come behind its trace line. -/
theorem announced_of_runsTo (htrace : s.options.traceExecution = true) {last : Option Location}
    (h : RunsTo (statementLines s self last ids) g ls g') : ∃ codes owns,
      RunsTo (ids.mapM (Lowering.statement s self)) g codes g' ∧
        List.Forall₂ (fun code own => Text.lines code <:+ own) codes owns ∧
          ls = (List.zipWith (announced s) ids owns).flatten := by
  induction ids generalizing g ls last with
  | nil =>
      obtain ⟨rfl, rfl⟩ := runsTo_pure_iff.mp h
      exact ⟨[], [], runsTo_pure_iff.mpr ⟨rfl, rfl⟩, .nil, rfl⟩
  | cons id ids ih =>
      obtain ⟨code, g₁, hcode, h⟩ := runsTo_bind_iff.mp h
      have hcode := runsTo_within_iff.mp hcode
      -- whatever the code is, its lines end those that the statement has of its own
      suffices hrest : ∃ own others last', Text.lines code <:+ own ∧
          RunsTo (statementLines s self last' ids) g₁ others g' ∧
            ls = announced s id own ++ others by
        obtain ⟨own, others, last', hown, hothers, rfl⟩ := hrest
        obtain ⟨codes, owns, hcodes, howns, rfl⟩ := ih hothers
        exact ⟨code :: codes, own :: owns,
          runsTo_mapM_cons_iff.mpr ⟨code, codes, g₁, rfl, hcode, hcodes⟩, .cons hown howns, rfl⟩
      dsimp only at h
      split at h
      next hempty =>
          obtain ⟨others, g₂, hothers, h⟩ := runsTo_bind_iff.mp h
          obtain ⟨rfl, rfl⟩ := runsTo_pure_iff.mp h
          refine ⟨[], others, last, ?_, hothers, ?_⟩
          · rw [String.isEmpty_iff.mp hempty]
            exact List.suffix_refl []
          · rw [traceLines_append htrace, announced, announced]
            rfl
      next =>
          split at h
          next =>
              obtain ⟨_, _, hfail, -⟩ := runsTo_bind_iff.mp h
              exact absurd hfail not_runsTo_fail
          next =>
              obtain ⟨others, g₂, hothers, h⟩ := runsTo_bind_iff.mp h
              obtain ⟨rfl, rfl⟩ := runsTo_pure_iff.mp h
              refine ⟨markerLines last (s.tree.location id) ++ Text.lines code, others, _,
                List.suffix_append _ _, hothers, ?_⟩
              rw [List.append_assoc (traceLines s id), traceLines_append htrace]

theorem map_utf8 (text : String) :
    (utf8 text).map UInt8.toNat = text.toList.flatMap characterBytes := by
  rw [utf8, List.map_flatMap]
  rfl

/-- With a trace, a sequence has the lines of each of its statements behind a line that hands a
literal to `puts`. The literal stands for the message that names the file, the line and the kind of
the statement exactly if the name of the file has no newline, no backslash and no trigraph. -/
theorem sequence_traceLiterals (htrace : s.options.traceExecution = true)
    (h : RunsTo (Lowering.sequence s self id) g ls g') :
    ∃ ids codes owns, s.tree.sequence? id = some ids ∧
      RunsTo (ids.mapM (Lowering.statement s self)) g codes g' ∧
      List.Forall₂ (fun code own => Text.lines code <:+ own) codes owns ∧
      ls = (List.zipWith (announced s) ids owns).flatten ∧
      ∀ n ∈ ids,
        (targetStrings.read? (s.literal n).toList = some ((utf8 (s.message n)).map UInt8.toNat) ↔
          '\n' ∉ (s.tree.location n).file.toList ∧ '\\' ∉ (s.tree.location n).file.toList ∧
            ¬ HasTrigraph (s.tree.location n).file.toList) := by
  unfold Lowering.sequence at h
  split at h
  next => exact absurd h not_runsTo_fail
  next ids hids =>
      obtain ⟨codes, owns, hcodes, howns, hlines⟩ := announced_of_runsTo htrace h
      refine ⟨ids, codes, owns, hids, hcodes, howns, hlines, fun n _ => ?_⟩
      rw [map_utf8]
      exact traceLiteral_read_iff (s.tree.location n) (s.tree.kind n)

/-- Two `continue`, of which the second comes from a file with a backslash in its name. -/
def foreign : Tree where
  nodes :=
    let entry (file : String) (kind : NodeKind) (parent : Option NodeId) : Node :=
      ⟨kind, parent, { file, line := 1 }⟩
    #[entry "spam.py" (.sequence [⟨1⟩, ⟨2⟩]) none,
      entry "\"spam\".py" (.stmt (.continueLoop false)) (some ⟨0⟩),
      entry "C:\\new.py" (.stmt (.continueLoop false)) (some ⟨0⟩)]

def foreignSetting : Setting :=
  { tree := foreign, options := { traceExecution := true }, moduleName := "spam",
    codeName := moduleIdentifier "spam" }

def foreignLines : List String :=
  ["puts( \"Execute: \\\"spam\\\".py:1 StatementContinueLoop\" );",
   "frame_guard.setLineNumber( 1 );",
   "continue;",
   "puts( \"Execute: C:\\new.py:1 StatementContinueLoop\" );",
   "frame_guard.setLineNumber( 1 );",
   "continue;"]

theorem runsTo_foreign : ∃ g', RunsTo
    (Lowering.sequence foreignSetting (Lowerer.ofDepth foreignSetting 1) ⟨0⟩) {} foreignLines g' :=
  exists_runsTo_of_value (by decide)

/-- Quotes in the name of a file are read back, a backslash is not. -/
theorem sequence_traceLiterals_foreign :
    foreignSetting.options.traceExecution = true ∧
    (∃ g', RunsTo (Lowering.sequence foreignSetting (Lowerer.ofDepth foreignSetting 1) ⟨0⟩) {}
      foreignLines g') ∧
    (∃ owns, foreignLines = (List.zipWith (announced foreignSetting) [⟨1⟩, ⟨2⟩] owns).flatten) ∧
    targetStrings.read? (foreignSetting.literal ⟨1⟩).toList =
      some ((utf8 "Execute: \"spam\".py:1 StatementContinueLoop").map UInt8.toNat) ∧
    targetStrings.read? (foreignSetting.literal ⟨2⟩).toList ≠
      some ((utf8 "Execute: C:\\new.py:1 StatementContinueLoop").map UInt8.toNat) := by
  obtain ⟨g', hrun⟩ := runsTo_foreign
  obtain ⟨ids, codes, owns, hids, -, -, hlines, hread⟩ := sequence_traceLiterals (by rfl) hrun
  obtain rfl : [⟨1⟩, ⟨2⟩] = ids := Option.some.inj hids
  have hfirst : foreignSetting.message ⟨1⟩ = "Execute: \"spam\".py:1 StatementContinueLoop" := by
    decide
  have hsecond : foreignSetting.message ⟨2⟩ = "Execute: C:\\new.py:1 StatementContinueLoop" := by
    decide
  rw [← hfirst, ← hsecond]
  refine ⟨rfl, ⟨g', hrun⟩, ⟨owns, hlines⟩, (hread ⟨1⟩ (by decide)).mpr ?_, fun h => ?_⟩
  · refine ⟨by decide, by decide, fun htrigraph => ?_⟩
    refine absurd ?_ not_hasTrigraph_nil
    rw [← List.append_nil (foreignSetting.tree.location ⟨1⟩).file.toList] at htrigraph
    exact (hasTrigraph_append_iff (by decide)).mp htrigraph
  · exact absurd ((hread ⟨2⟩ (by decide)).mp h).2.1 (by decide)

end

end CompilerBackend
