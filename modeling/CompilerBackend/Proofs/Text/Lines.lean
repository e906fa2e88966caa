import CompilerBackend.Target.Operand
import Mathlib.Data.List.Basic
/-!
# Lines, joined lines and blocks

- `lines_append_newline`, `lines_of_flat`: what the cut at line feeds does to a text, one line at
  a time.
- `lines_unlines`: lines that hold no line end of their own come back from the joined text.
- `braced_eq_unlines`: a block is its contents, indented, between lines for the braces.
- `lines_braced_of_lines`: its lines, where each of the contents is a line.
-/

namespace CompilerBackend.Text

/-- A text that can stand as one line of a larger text: no line feed in it, and no carriage
return at its end, which would pass for a part of the line end. -/
structure IsLine (l : String) : Prop where
  flat : '\n' ∉ l.toList
  open_end : l.toList.getLast? ≠ some '\r'

theorem linesFrom_append {cs : List Char} (h : '\n' ∉ cs) (line ds : List Char) :
    linesFrom line (cs ++ ds) = linesFrom (cs.reverse ++ line) ds := by
  induction cs generalizing line with
  | nil => rfl
  | cons c cs ih =>
      have hc : c ≠ '\n' := fun hc => h (hc ▸ List.mem_cons_self)
      have hcs : '\n' ∉ cs := fun hm => h (List.mem_cons_of_mem c hm)
      rw [List.cons_append, linesFrom, if_neg hc, ih hcs, List.reverse_cons, List.append_assoc]
      rfl

theorem closeLine_reverse {cs : List Char} (h : cs.getLast? ≠ some '\r') :
    closeLine cs.reverse = cs := by
  unfold closeLine
  split
  next tail heq =>
      have hcs : cs = tail.reverse ++ ['\r'] := by
        rw [← List.reverse_reverse cs, heq, List.reverse_cons]
      rw [hcs, List.getLast?_concat] at h
      exact absurd rfl h
  next => exact List.reverse_reverse cs

theorem lines_append_newline {l : String} (h : IsLine l) (s : String) :
    lines (l ++ "\n" ++ s) = l :: lines s := by
  have hchars : (l ++ "\n" ++ s).toList = l.toList ++ '\n' :: s.toList := by
    rw [String.toList_append, String.toList_append, List.append_assoc]
    rfl
  rw [lines, hchars, linesFrom_append h.flat, List.append_nil, linesFrom, if_pos rfl,
    closeLine_reverse h.open_end, List.map_cons, String.ofList_toList]
  rfl

theorem lines_of_flat {s : String} (h : '\n' ∉ s.toList) (hne : s ≠ "") : lines s = [s] := by
  have hchars : s.toList ≠ [] := fun hnil => hne (String.toList_eq_nil_iff.mp hnil)
  have hfrom : linesFrom [] s.toList = [s.toList] := by
    have happ := linesFrom_append h [] []
    rw [List.append_nil, List.append_nil, linesFrom,
      if_neg (by simpa using hchars), List.reverse_reverse] at happ
    exact happ
  rw [lines, hfrom, List.map_singleton, String.ofList_toList]

@[simp] theorem lines_empty : lines "" = [] := rfl

theorem linesFrom_ne_nil {cs line : List Char} (h : line ≠ [] ∨ cs ≠ []) :
    linesFrom line cs ≠ [] := by
  induction cs generalizing line with
  | nil =>
      rw [linesFrom]
      split
      next hnil =>
        rcases h with hline | hcs
        · exact absurd (List.isEmpty_iff.mp hnil) hline
        · exact absurd rfl hcs
      next => simp
  | cons c cs ih =>
      rw [linesFrom]
      split
      next => simp
      next => exact ih (Or.inl (by simp))

theorem eq_empty_of_lines_eq_nil {s : String} (h : lines s = []) : s = "" := by
  by_contra hne
  refine linesFrom_ne_nil (Or.inr ?_) (List.map_eq_nil_iff.mp h)
  intro hnil
  exact hne (String.toList_eq_nil_iff.mp hnil)

theorem newline_not_mem_closeLine {line : List Char} (h : '\n' ∉ line) : '\n' ∉ closeLine line := by
  unfold closeLine
  split
  next => simpa using h
  next => simpa using h

/-- No line holds a line feed. -/
theorem flat_of_mem_lines {l s : String} (h : l ∈ lines s) : '\n' ∉ l.toList := by
  have hfrom : ∀ (cs line : List Char), '\n' ∉ line → ∀ l ∈ linesFrom line cs, '\n' ∉ l := by
    intro cs
    induction cs with
    | nil =>
        intro line hline l hl
        rw [linesFrom] at hl
        split at hl
        next => exact absurd hl List.not_mem_nil
        next =>
          rw [List.mem_singleton.mp hl]
          simpa using hline
    | cons c cs ih =>
        intro line hline l hl
        rw [linesFrom] at hl
        split at hl
        next =>
          rcases List.mem_cons.mp hl with rfl | hl
          · exact newline_not_mem_closeLine hline
          · exact ih [] List.not_mem_nil l hl
        next hc =>
          refine ih (c :: line) ?_ l hl
          rintro (_ | ⟨_, hmem⟩)
          · exact hc rfl
          · exact hline hmem
  obtain ⟨cs, hcs, rfl⟩ := List.mem_map.mp h
  rw [String.toList_ofList]
  exact hfrom s.toList [] List.not_mem_nil cs hcs

@[simp] theorem unlines_nil : unlines [] = "" := rfl

@[simp] theorem unlines_singleton (l : String) : unlines [l] = l :=
  String.intercalate_singleton

theorem unlines_cons_cons (a b : String) (ls : List String) :
    unlines (a :: b :: ls) = a ++ "\n" ++ unlines (b :: ls) := String.intercalate_cons_cons

theorem unlines_cons {ls : List String} (hne : ls ≠ []) (a : String) :
    unlines (a :: ls) = a ++ "\n" ++ unlines ls := String.intercalate_cons_of_ne_nil hne

theorem unlines_append {ls ms : List String} (hl : ls ≠ []) (hm : ms ≠ []) :
    unlines (ls ++ ms) = unlines ls ++ "\n" ++ unlines ms :=
  String.intercalate_append_of_ne_nil hl hm

/-- Lines come back from the joined text, unless the last one is empty. -/
theorem lines_unlines {ls : List String} (h : ∀ l ∈ ls, IsLine l)
    (hlast : ∀ l ∈ ls.getLast?, l ≠ "") : lines (unlines ls) = ls := by
  induction ls with
  | nil => rfl
  | cons a ls ih =>
      cases ls with
      | nil =>
          rw [unlines_singleton]
          exact lines_of_flat (h a List.mem_cons_self).flat (hlast a rfl)
      | cons b ls =>
          rw [unlines_cons_cons, lines_append_newline (h a List.mem_cons_self),
            ih (fun l hl => h l (List.mem_cons_of_mem a hl)) hlast]

/-- Texts that are one line each are their own lines. -/
theorem flatMap_lines {ls : List String} (h : ∀ l ∈ ls, '\n' ∉ l.toList ∧ l ≠ "") :
    ls.flatMap lines = ls := by
  induction ls with
  | nil => rfl
  | cons a ls ih =>
      obtain ⟨hflat, hne⟩ := h a List.mem_cons_self
      rw [List.flatMap_cons, lines_of_flat hflat hne,
        ih fun l hl => h l (List.mem_cons_of_mem a hl), List.singleton_append]

end CompilerBackend.Text

/-! ## Blocks -/

namespace CompilerBackend.Target

open Text

theorem applied_pair (f a b : String) :
    applied f [a, b] = f ++ "( " ++ a ++ ", " ++ b ++ " )" := by
  simp only [applied, commaSeparated, String.intercalate_cons_cons, String.intercalate_singleton,
    String.append_assoc]

theorem applied_pair_of {f start : String} (h : f ++ "( " = start) (a b : String) :
    applied f [a, b] = start ++ a ++ ", " ++ b ++ " )" := by
  rw [applied_pair, h]

theorem toList_indentLine (l : String) : (indentLine l).toList = ' ' :: ' ' :: ' ' :: ' ' :: l.toList := by
  rw [indentLine, String.toList_append]
  rfl

theorem isLine_indentLine {l : String} (h : IsLine l) : IsLine (indentLine l) where
  flat := by
    rw [toList_indentLine]
    simpa using h.flat
  open_end := by
    rw [toList_indentLine]
    cases hl : l.toList with
    | nil => simp
    | cons c cs => simpa [hl] using h.open_end

/-- The last one of joined texts ones may have any number of lines. -/
theorem lines_unlines_concat {ls : List String} (h : ∀ l ∈ ls, IsLine l) (s : String) :
    lines (unlines (ls ++ [s])) = ls ++ lines s := by
  induction ls with
  | nil => rw [List.nil_append, unlines_singleton, List.nil_append]
  | cons a ls ih =>
      rw [List.cons_append, unlines_cons (by simp), lines_append_newline (h a List.mem_cons_self),
        ih fun l hl => h l (List.mem_cons_of_mem a hl), List.cons_append]

theorem isLine_brace : IsLine "\x7b" ∧ IsLine "\x7d" :=
  ⟨⟨by simp, by simp⟩, ⟨by simp, by simp⟩⟩

/-- A block as joined lines. Codes without any line would leave a blank one. -/
theorem braced_eq_unlines {codes : List String} (hne : codes ≠ [] → codes.flatMap lines ≠ []) :
    braced codes = unlines ("\x7b" :: indentedLines codes ++ ["\x7d"]) := by
  unfold braced
  split
  next hnil =>
      rw [List.isEmpty_iff.mp hnil]
      rfl
  next hcons =>
      have hcodes : codes ≠ [] := fun h => hcons (List.isEmpty_iff.mpr h)
      have hindented : indentedLines codes ≠ [] := fun h =>
        hne hcodes (List.map_eq_nil_iff.mp h)
      rw [List.cons_append, unlines_cons (by simp), unlines_append hindented (by simp),
        unlines_singleton, indented]
      apply String.toList_inj.mp
      simp

/-- The lines of a block whose contents have lines that can stand in other texts. -/
theorem lines_braced {codes : List String} (hne : codes ≠ [] → codes.flatMap lines ≠ [])
    (h : ∀ l ∈ codes.flatMap lines, IsLine l) :
    lines (braced codes) = "\x7b" :: (codes.flatMap lines).map indentLine ++ ["\x7d"] := by
  rw [braced_eq_unlines hne, indentedLines]
  refine lines_unlines ?_ ?_
  · intro l hl
    rcases List.mem_append.mp hl with hl | hl
    · rcases List.mem_cons.mp hl with rfl | hl
      · exact isLine_brace.1
      · obtain ⟨c, hc, rfl⟩ := List.mem_map.mp hl
        exact isLine_indentLine (h c hc)
    · rw [List.mem_singleton.mp hl]
      exact isLine_brace.2
  · rw [List.getLast?_concat]
    simp

/-- The lines of a block of codes that are one line each. -/
theorem lines_braced_of_lines {codes : List String} (h : ∀ c ∈ codes, IsLine c ∧ c ≠ "") :
    lines (braced codes) = "\x7b" :: codes.map indentLine ++ ["\x7d"] := by
  have hcodes : codes.flatMap lines = codes :=
    flatMap_lines fun c hc => ⟨(h c hc).1.flat, (h c hc).2⟩
  rw [lines_braced (by rw [hcodes]; exact id) (by rw [hcodes]; exact fun c hc => (h c hc).1), hcodes]

end CompilerBackend.Target
