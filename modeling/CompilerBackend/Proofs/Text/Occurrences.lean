import CompilerBackend.Target.Storage
import CompilerBackend.Proofs.Text.Code
import CompilerBackend.Proofs.Text.Lines
import CompilerBackend.Proofs.Text.Token
/-!
# How often a text is accessed

Target text reads a variable that a function or class stores itself by one piece of code, which is
a name in front of a call without arguments. How often that code stands in a text is counted with
multiplicity. Texts are put together at characters that the code does not contain, so the count of
a whole is the sum of the counts of its parts, however the lines are cut and joined.

- `occurrences`: how often a code stands in a text; `occurrencesFrom_append`: a cut at a character
  that the code does not contain.
- `occurrencesIn`: the count on the codes of characters; `occurrences_eq_of_ascii`.
- `LocalAccess`: the access to a variable; `LocalAccess.count`, `LocalAccess.total`: how often it
  stands in one text and in several.
- `count_lead`, `count_tail`, `count_gap`: fixed texts in front, behind and between.
- `count_name_append`: a name in front of a text that begins apart.
- `total_lines`, `count_intercalate`: texts cut into lines, and joined ones.
-/

namespace CompilerBackend

open Text Target

namespace Text

/-! ## Counting -/

/-- How often a code stands in a text where no name runs into it. Whether a name does at the
beginning is said by `glued`. -/
def occurrencesFrom (code : List Char) : Bool → List Char → Nat
  | _, [] => 0
  | glued, c :: cs =>
    (if !glued && code.isPrefixOf (c :: cs) then 1 else 0) + occurrencesFrom code (isNameChar c) cs

def occurrences (code text : String) : Nat := occurrencesFrom code.toList false text.toList

variable {code cs ds : List Char} {c d : Char} {glued : Bool}

/-- A text that misses a character of the code does not contain it. -/
theorem occurrencesFrom_of_not_mem (hc : c ∈ code) (h : c ∉ cs) :
    occurrencesFrom code glued cs = 0 := by
  induction cs generalizing glued with
  | nil => rfl
  | cons e cs ih =>
      have hprefix : code.isPrefixOf (e :: cs) = false := by
        rw [Bool.eq_false_iff]
        exact fun hprefix => h ((List.isPrefixOf_iff_prefix.mp hprefix).subset hc)
      rw [occurrencesFrom, hprefix, Bool.and_false, if_neg Bool.false_ne_true,
        ih fun hmem => h (List.mem_cons_of_mem e hmem)]

theorem isPrefixOf_append_cons (cs ds : List Char) (hd : d ∉ code) :
    code.isPrefixOf (cs ++ d :: ds) = code.isPrefixOf cs := by
  rw [Bool.eq_iff_iff, List.isPrefixOf_iff_prefix, List.isPrefixOf_iff_prefix]
  refine ⟨fun h => ?_, fun h => h.trans (List.prefix_append cs (d :: ds))⟩
  rcases List.prefix_or_prefix_of_prefix h (List.prefix_append cs (d :: ds)) with hle | hle
  · exact hle
  · -- the code would go on behind the seam, with the character there
    obtain ⟨more, rfl⟩ := hle
    cases more with
    | nil => rw [List.append_nil]
    | cons e more =>
        rw [List.prefix_append_right_inj, List.cons_prefix_cons] at h
        exact absurd (h.1 ▸ List.mem_append_right cs List.mem_cons_self) hd

/-- No occurrence crosses a character that the code does not contain. -/
theorem occurrencesFrom_append (hne : code ≠ []) (hd : d ∉ code) :
    occurrencesFrom code glued (cs ++ d :: ds) =
      occurrencesFrom code glued cs + occurrencesFrom code (isNameChar d) ds := by
  induction cs generalizing glued with
  | nil =>
      have hprefix : code.isPrefixOf (d :: ds) = false := by
        rw [← List.nil_append (d :: ds), isPrefixOf_append_cons [] ds hd]
        cases code with
        | nil => exact absurd rfl hne
        | cons e code => rfl
      rw [List.nil_append, occurrencesFrom, occurrencesFrom, hprefix, Bool.and_false,
        if_neg Bool.false_ne_true]
  | cons c cs ih =>
      have hprefix := isPrefixOf_append_cons (c :: cs) ds hd
      rw [List.cons_append] at hprefix ⊢
      rw [occurrencesFrom, occurrencesFrom, hprefix, ih, Nat.add_assoc]

theorem occurrencesFrom_cons_of_not_mem (hne : code ≠ []) (hd : d ∉ code) :
    occurrencesFrom code glued (d :: ds) = occurrencesFrom code (isNameChar d) ds := by
  rw [← List.nil_append (d :: ds), occurrencesFrom_append hne hd, occurrencesFrom, Nat.zero_add]

/-- It does not matter what stands in front of a text that no name begins. -/
theorem occurrencesFrom_of_startsApart (hcode : ∀ c ∈ code.head?, isNameChar c = true)
    (hne : code ≠ []) (h : StartsApart cs) :
    occurrencesFrom code glued cs = occurrencesFrom code false cs := by
  cases cs with
  | nil => rfl
  | cons e cs =>
      have hprefix : code.isPrefixOf (e :: cs) = false := by
        obtain ⟨f, code, rfl⟩ := List.exists_cons_of_ne_nil hne
        rw [Bool.eq_false_iff]
        intro hprefix
        obtain ⟨rfl, -⟩ := List.cons_prefix_cons.mp (List.isPrefixOf_iff_prefix.mp hprefix)
        have hname := hcode f rfl
        rw [h f rfl] at hname
        exact Bool.noConfusion hname
      rw [occurrencesFrom, occurrencesFrom, hprefix, Bool.and_false, Bool.and_false]

/-- A name has no occurrence inside of it. -/
theorem occurrencesFrom_name_append (hcode : ∀ c ∈ code.head?, isNameChar c = true)
    (hne : code ≠ []) (hcs : ∀ c ∈ cs, isNameChar c = true) (hds : StartsApart ds) :
    occurrencesFrom code true (cs ++ ds) = occurrencesFrom code false ds := by
  induction cs with
  | nil => exact occurrencesFrom_of_startsApart hcode hne hds
  | cons c cs ih =>
      rw [List.cons_append, occurrencesFrom, hcs c List.mem_cons_self,
        ih fun e he => hcs e (List.mem_cons_of_mem c he), Bool.not_true, Bool.false_and,
        if_neg Bool.false_ne_true, Nat.zero_add]

/-- A name and what follows it begin with a name and what follows that, if both parts do. -/
theorem name_append_prefix_iff {w v behind text : List Char}
    (hw : ∀ c ∈ w, isNameChar c = true) (hv : ∀ c ∈ v, isNameChar c = true)
    (hbehind : StartsApart behind) (hne : behind ≠ []) (htext : StartsApart text) :
    w ++ behind <+: v ++ text ↔ v = w ∧ behind <+: text := by
  have hrun : ∀ {u more : List Char}, (∀ c ∈ u, isNameChar c = true) → StartsApart more →
      (u ++ more).takeWhile isNameChar = u := by
    intro u more hu hmore
    rw [List.takeWhile_append_of_pos hu]
    cases more with
    | nil => exact List.append_nil u
    | cons e more => rw [List.takeWhile_cons_of_neg (by simp [hmore e rfl]), List.append_nil]
  constructor
  · rintro ⟨more, hmore⟩
    have hsame : w = v := by
      rw [← hrun hv htext, ← hmore, List.append_assoc, hrun hw (hbehind.append hne)]
    subst hsame
    rw [List.append_assoc, List.append_cancel_left_eq] at hmore
    exact ⟨rfl, more, hmore⟩
  · rintro ⟨rfl, hprefix⟩
    exact (List.prefix_append_right_inj v).mpr hprefix

/-! ## Counting on codes -/

def occurrencesIn (code : List Nat) : Bool → List Nat → Nat
  | _, [] => 0
  | glued, n :: ns =>
    (if !glued && code.isPrefixOf (n :: ns) then 1 else 0) + occurrencesIn code (isNameCode n) ns

theorem occurrencesIn_map : occurrencesIn (code.map Char.toNat) glued (cs.map Char.toNat) =
    occurrencesFrom code glued cs := by
  induction cs generalizing glued with
  | nil => rfl
  | cons c cs ih =>
      have hprefix : (code.map Char.toNat).isPrefixOf ((c :: cs).map Char.toNat) =
          code.isPrefixOf (c :: cs) := by
        rw [Bool.eq_iff_iff, List.isPrefixOf_iff_prefix, List.isPrefixOf_iff_prefix]
        exact List.prefix_map_iff_of_injective fun _ _ => Char.toNat_inj.mp
      rw [List.map_cons] at hprefix ⊢
      rw [occurrencesIn, occurrencesFrom, hprefix, ih, isNameChar_eq_isNameCode]

theorem occurrences_eq_of_ascii {code text : String}
    (h : (codes text).all (· < 128) = true) :
    occurrences code text = occurrencesIn (code.toList.map Char.toNat) false (codes text) := by
  rw [codes_eq_of_ascii fun n hn => by simpa using List.all_eq_true.mp h n hn, occurrencesIn_map,
    occurrences]

end Text

/-! ## Accesses -/

/-- The access to a variable that a function or class stores itself. -/
structure LocalAccess where
  name : String
  plain : ∀ c ∈ name.toList, isNameChar c = true

namespace LocalAccess

def code (a : LocalAccess) : String := localStorage a.name ++ ".asObject()"

def count (a : LocalAccess) (text : String) : Nat := occurrences a.code text

def total (a : LocalAccess) (texts : List String) : Nat := (texts.map a.count).sum

/-- The codes of characters at which texts are put together: no access contains one. -/
def isBreakCode (n : Nat) : Bool := !isNameCode n && n != 0x28 && n != 0x29 && n != 0x2e

def isBreak (c : Char) : Bool := isBreakCode c.toNat

/-- Some characters of every access, of which fixed texts miss one or the other. -/
def frame : List Char := ['.', ')', '_', 'v', 'y']

variable {a : LocalAccess} {s b w : String} {c : Char}

theorem isNameChar_localStorage (a : LocalAccess) :
    ∀ c ∈ (localStorage a.name).toList, isNameChar c = true := by
  have hstart : "_python_var_".toList.all isNameChar = true := by decide
  intro c hc
  rw [localStorage, String.toList_append, List.mem_append] at hc
  exact hc.elim (List.all_eq_true.mp hstart c) (a.plain c)

theorem toList_code (a : LocalAccess) :
    a.code.toList = (localStorage a.name).toList ++ ".asObject()".toList := String.toList_append

theorem code_ne_nil (a : LocalAccess) : a.code.toList ≠ [] := by
  rw [toList_code]
  simp

theorem head?_code (a : LocalAccess) : ∀ c ∈ a.code.toList.head?, isNameChar c = true := by
  intro c hc
  rw [toList_code, localStorage, String.toList_append, List.append_assoc, List.head?_append] at hc
  rw [← Option.some.inj hc]
  decide

theorem mem_code_of_mem_frame (hc : c ∈ frame) : c ∈ a.code.toList := by
  have hall : (frame.all fun c => ("_python_var_".toList ++ ".asObject()".toList).contains c) =
      true := by decide
  have hmem := List.all_eq_true.mp hall c hc
  rw [List.contains_eq_mem, decide_eq_true_eq, List.mem_append] at hmem
  rw [toList_code, localStorage, String.toList_append, List.mem_append, List.mem_append]
  exact hmem.imp_left Or.inl

theorem isBreak_of_mem_code (hc : c ∈ a.code.toList) : isBreak c = false := by
  rw [toList_code, List.mem_append] at hc
  rcases hc with hc | hc
  · have hname := a.isNameChar_localStorage c hc
    rw [isNameChar_eq_isNameCode] at hname
    rw [isBreak, isBreakCode, hname]
    rfl
  · have hall : (".asObject()".toList.all fun c => !isBreak c) = true := by decide
    simpa using List.all_eq_true.mp hall c hc

theorem not_mem_code (hc : isBreak c = true) : c ∉ a.code.toList := by
  intro hmem
  rw [isBreak_of_mem_code hmem] at hc
  exact Bool.noConfusion hc

theorem isNameChar_of_isBreak (hc : isBreak c = true) : isNameChar c = false := by
  rw [isBreak, isBreakCode, Bool.and_eq_true, Bool.and_eq_true, Bool.and_eq_true,
    Bool.not_eq_true'] at hc
  rw [isNameChar_eq_isNameCode]
  exact hc.1.1.1

/-! ## Counts of one text -/

@[simp] theorem count_empty : a.count "" = 0 := rfl

theorem count_of_not_mem (hc : c ∈ frame) (h : c ∉ s.toList) : a.count s = 0 :=
  occurrencesFrom_of_not_mem (mem_code_of_mem_frame hc) h

/-- A name alone is no access. -/
theorem count_name (h : ∀ c ∈ s.toList, isNameChar c = true) : a.count s = 0 :=
  count_of_not_mem (c := '.') (by decide) fun hmem => absurd (h '.' hmem) (by decide)

/-- No access crosses a break that stands behind a seam. -/
theorem count_append_of_opens (h : ∀ c ∈ b.toList.head?, isBreak c = true) :
    a.count (s ++ b) = a.count s + a.count b := by
  rw [count, count, count, occurrences, occurrences, occurrences, String.toList_append]
  cases hb : b.toList with
  | nil => rw [List.append_nil]; rfl
  | cons d ds =>
      have hd : d ∉ a.code.toList := not_mem_code (h d (by rw [hb]; rfl))
      rw [occurrencesFrom_append a.code_ne_nil hd,
        occurrencesFrom_cons_of_not_mem a.code_ne_nil hd]

/-- No access crosses a break that stands in front of a seam. -/
theorem count_append_of_closes (h : ∀ c ∈ s.toList.getLast?, isBreak c = true) :
    a.count (s ++ b) = a.count s + a.count b := by
  rw [count, count, count, occurrences, occurrences, occurrences, String.toList_append]
  rcases List.eq_nil_or_concat s.toList with hs | ⟨cs, d, hs⟩
  · rw [hs, List.nil_append]
    exact (Nat.zero_add _).symm
  · rw [List.concat_eq_append] at hs
    have hd := h d (by rw [hs, List.getLast?_concat]; rfl)
    rw [hs, List.append_assoc, List.singleton_append,
      occurrencesFrom_append a.code_ne_nil (not_mem_code hd),
      occurrencesFrom_append a.code_ne_nil (not_mem_code hd), isNameChar_of_isBreak hd]
    rfl

/-! ## Fixed texts -/

def isMute (s : String) : Bool :=
  (codes s).all (· < 128) && frame.any fun c => !(codes s).contains c.toNat

/-- Fixed text that can stand in front: it ends with a break. -/
def isFront (s : String) : Bool := isMute s && (codes s).getLast?.any isBreakCode

/-- Fixed text that can stand behind: it begins with a break. -/
def isBack (s : String) : Bool := isMute s && (codes s).head?.any isBreakCode

theorem codes_of_isMute (h : isMute s = true) : codes s = s.toList.map Char.toNat := by
  rw [isMute, Bool.and_eq_true, List.all_eq_true] at h
  exact codes_eq_of_ascii fun n hn => by simpa using h.1 n hn

theorem count_of_isMute (h : isMute s = true) : a.count s = 0 := by
  have hcodes := codes_of_isMute h
  rw [isMute, Bool.and_eq_true, List.any_eq_true] at h
  obtain ⟨-, c, hc, hmiss⟩ := h
  refine count_of_not_mem hc fun hmem => ?_
  rw [hcodes, Bool.not_eq_true', List.contains_eq_mem, decide_eq_false_iff_not] at hmiss
  exact hmiss (List.mem_map_of_mem hmem)

theorem isBreak_getLast?_of_isFront (h : isFront s = true) :
    (∀ c ∈ s.toList.getLast?, isBreak c = true) ∧ s.toList ≠ [] := by
  rw [isFront, Bool.and_eq_true, Option.any_eq_true] at h
  obtain ⟨hmute, n, hn, hbreak⟩ := h
  rw [codes_of_isMute hmute, List.getLast?_map, Option.map_eq_some_iff] at hn
  obtain ⟨c, hc, rfl⟩ := hn
  refine ⟨fun d hd => ?_, fun hnil => ?_⟩
  · rw [Option.mem_def.mp hd] at hc
    rwa [Option.some.inj hc]
  · rw [hnil] at hc
    exact nomatch hc

theorem isBreak_head?_of_isBack (h : isBack s = true) :
    ∀ c ∈ s.toList.head?, isBreak c = true := by
  rw [isBack, Bool.and_eq_true, Option.any_eq_true] at h
  obtain ⟨hmute, n, hn, hbreak⟩ := h
  rw [codes_of_isMute hmute, List.head?_map, Option.map_eq_some_iff] at hn
  obtain ⟨c, hc, rfl⟩ := hn
  intro d hd
  rw [Option.mem_def.mp hd] at hc
  rwa [Option.some.inj hc]

theorem count_lead (h : isFront s = true) : a.count (s ++ b) = a.count b := by
  have hmute : isMute s = true := (Bool.and_eq_true _ _ ▸ h).1
  rw [count_append_of_closes (isBreak_getLast?_of_isFront h).1, count_of_isMute hmute, Nat.zero_add]

theorem count_tail (h : isBack b = true) : a.count (s ++ b) = a.count s := by
  have hmute : isMute b = true := (Bool.and_eq_true _ _ ▸ h).1
  rw [count_append_of_opens (isBreak_head?_of_isBack h), count_of_isMute hmute, Nat.add_zero]

/-- Fixed text at an end shields from what follows. -/
theorem count_front_append {m : String} (h : isFront m = true) :
    a.count (s ++ m ++ b) = a.count (s ++ m) + a.count b := by
  obtain ⟨hbreak, hne⟩ := isBreak_getLast?_of_isFront h
  refine count_append_of_closes ?_
  rwa [String.toList_append, List.getLast?_append_of_ne_nil _ hne]

/-- Fixed text between. -/
theorem count_gap {m : String} (h : (isFront m && isBack m) = true) :
    a.count (s ++ m ++ b) = a.count s + a.count b := by
  rw [Bool.and_eq_true] at h
  rw [count_front_append h.1, count_tail h.2]

/-! ## Names -/

/-- A name in front of a text that no name begins is an access or none, with what follows it. -/
theorem count_name_append (hw : ∀ c ∈ w.toList, isNameChar c = true)
    (hs : StartsApart s.toList) :
    a.count (w ++ s) =
      (if w = localStorage a.name ∧ ".asObject()".toList <+: s.toList then 1 else 0) +
        a.count s := by
  have hapart : StartsApart ".asObject()".toList := fun c hc => by
    rw [← Option.some.inj hc]
    decide
  have hprefix := name_append_prefix_iff a.isNameChar_localStorage hw hapart (by simp) hs
  rw [count, count, occurrences, occurrences, String.toList_append]
  cases hname : w.toList with
  | nil =>
      have hne : w ≠ localStorage a.name := by
        rintro rfl
        simp [localStorage] at hname
      rw [if_neg fun h => hne h.1, Nat.zero_add, List.nil_append]
  | cons c cs =>
      rw [hname] at hw hprefix
      rw [List.cons_append] at hprefix ⊢
      rw [occurrencesFrom, hw c List.mem_cons_self, occurrencesFrom_name_append a.head?_code
        a.code_ne_nil (fun e he => hw e (List.mem_cons_of_mem c he)) hs, toList_code,
        Bool.not_false, Bool.true_and]
      simp only [List.isPrefixOf_iff_prefix, hprefix, ← hname, String.toList_inj]

/-- Fixed text that can stand behind a name: it begins apart, and not with what makes a name an
access. -/
def isMember (s : String) : Bool :=
  isMute s && (codes s).head?.any (!isNameCode ·) && !(codes ".asObject()").isPrefixOf (codes s)

/-- A name with fixed text behind it that makes it no access. -/
theorem count_member (hw : ∀ c ∈ w.toList, isNameChar c = true) (hs : isMember s = true) :
    a.count (w ++ s) = 0 := by
  rw [isMember, Bool.and_eq_true, Bool.and_eq_true, Option.any_eq_true, Bool.not_eq_true'] at hs
  obtain ⟨⟨hmute, n, hn, hapart⟩, hprefix⟩ := hs
  have hcodes := codes_of_isMute hmute
  have hcall : codes ".asObject()" = ".asObject()".toList.map Char.toNat := by decide
  have hstart : StartsApart s.toList := by
    intro c hc
    rw [hcodes, List.head?_map, Option.mem_def.mp hc, Option.map_some] at hn
    rw [isNameChar_eq_isNameCode, Option.some.inj hn]
    simpa using hapart
  have hother : ¬ ".asObject()".toList <+: s.toList := fun h => by
    rw [hcall, hcodes, List.isPrefixOf_iff_prefix.mpr (h.map _)] at hprefix
    exact Bool.noConfusion hprefix
  rw [count_name_append hw hstart, if_neg fun h => hother h.2, count_of_isMute hmute]

/-! ## Counts of several texts -/

variable {ls ms : List String}

@[simp] theorem total_nil : a.total [] = 0 := rfl

@[simp] theorem total_cons : a.total (s :: ls) = a.count s + a.total ls := rfl

@[simp] theorem total_append : a.total (ls ++ ms) = a.total ls + a.total ms := by
  rw [total, total, total, List.map_append, List.sum_append]

theorem total_eq_zero (h : ∀ l ∈ ls, a.count l = 0) : a.total ls = 0 := by
  rw [total, List.sum_eq_zero]
  intro n hn
  obtain ⟨l, hl, rfl⟩ := List.mem_map.mp hn
  exact h l hl

theorem total_map_eq_zero {α : Type} {f : α → String} {l : List α}
    (h : ∀ x ∈ l, a.count (f x) = 0) : a.total (l.map f) = 0 := by
  refine total_eq_zero fun s hs => ?_
  obtain ⟨x, hx, rfl⟩ := List.mem_map.mp hs
  exact h x hx

theorem total_flatMap {α : Type} (f : α → List String) (l : List α) :
    a.total (l.flatMap f) = (l.map fun x => a.total (f x)).sum := by
  induction l with
  | nil => rfl
  | cons x l ih => rw [List.flatMap_cons, total_append, ih, List.map_cons, List.sum_cons]

/-- Joining texts by fixed text keeps what they hold. -/
theorem count_intercalate {m : String} (h : (isFront m && isBack m) = true) :
    a.count (m.intercalate ls) = a.total ls := by
  induction ls with
  | nil => rfl
  | cons s ls ih =>
      cases ls with
      | nil => rw [String.intercalate_singleton, total_cons, total_nil, Nat.add_zero]
      | cons s' ls => rw [String.intercalate_cons_cons, count_gap h, ih, total_cons (s := s)]

@[simp] theorem count_unlines : a.count (unlines ls) = a.total ls := count_intercalate (by decide)

@[simp] theorem count_commaSeparated : a.count (commaSeparated ls) = a.total ls :=
  count_intercalate (by decide)

theorem count_closeLine (line : List Char) :
    a.count (String.ofList (closeLine line)) = a.count (String.ofList line.reverse) := by
  unfold closeLine
  split
  next line =>
      have hsplit : String.ofList ('\r' :: line).reverse = String.ofList line.reverse ++ "\r" := by
        apply String.toList_inj.mp
        simp
      rw [hsplit, count_tail (by decide)]
  next => rfl

/-- The lines of a text hold what the text holds. -/
@[simp] theorem total_lines (s : String) : a.total (lines s) = a.count s := by
  have hfrom : ∀ cs line : List Char, a.total ((linesFrom line cs).map String.ofList) =
      a.count (String.ofList (line.reverse ++ cs)) := by
    -- by induction on the rest of the text, for any line that is read so far
    intro cs
    induction cs with
    | nil =>
        intro line
        rw [linesFrom, List.append_nil]
        split
        next hnil =>
            rw [List.isEmpty_iff.mp hnil]
            rfl
        next => rw [List.map_singleton, total_cons, total_nil, Nat.add_zero]
    | cons c cs ih =>
        intro line
        rw [linesFrom]
        split
        next hc =>
            have hsplit : String.ofList (line.reverse ++ c :: cs) =
                String.ofList line.reverse ++ "\n" ++ String.ofList cs := by
              apply String.toList_inj.mp
              simp [hc]
            rw [hsplit, count_gap (by decide), List.map_cons, total_cons, count_closeLine, ih,
              List.reverse_nil, List.nil_append]
        next =>
            rw [ih, List.reverse_cons, List.append_assoc, List.singleton_append]
  rw [lines, hfrom, List.reverse_nil, List.nil_append, String.ofList_toList]

theorem total_flatMap_lines (ls : List String) : a.total (ls.flatMap lines) = a.total ls := by
  rw [total_flatMap]
  exact congrArg List.sum (List.map_congr_left fun s _ => total_lines s)

end LocalAccess
end CompilerBackend
