import CompilerBackend.Program
import CompilerBackend.Proofs.Text.Lines
import Mathlib
/-!
# Tokens of a text

A token is a maximal run of name characters. What follows says where the tokens of a text put
together come from.

- `IsRunBefore.append_cases`: a token of `a ++ b` begins in `a`, or it is a token of `b`.
- `IsRunBefore.append_apart`: nothing is glued where one side has no name character at the seam.
- `IsTokenBefore.of_mem_lines`, `IsTokenBefore.of_unlines`: lines have the tokens of the text.
- `IsRun`, `IsToken`: the same where it does not matter what follows the token.
-/

namespace CompilerBackend

/-- No token of a text before can go on into this one. -/
def StartsApart (cs : List Char) : Prop := ∀ c ∈ cs.head?, isNameChar c = false

/-- No token at the end of this text can go on into a text behind it. -/
def EndsApart (cs : List Char) : Prop := ∀ c ∈ cs.getLast?, isNameChar c = false

def IsRun (w cs : List Char) : Prop :=
  ∃ before behind, cs = before ++ (w ++ behind) ∧ w ≠ [] ∧ (∀ c ∈ w, isNameChar c = true) ∧
    EndsApart before ∧ StartsApart behind

def IsToken (word text : String) : Prop := IsRun word.toList text.toList

/-! ## Seams -/

theorem startsApart_nil : StartsApart [] := fun _ hc => nomatch hc

theorem endsApart_nil : EndsApart [] := fun _ hc => nomatch hc

theorem EndsApart.of_append {a b : List Char} (h : EndsApart (a ++ b)) : EndsApart b := by
  intro c hc
  refine h c ?_
  rw [List.getLast?_append, Option.mem_def.mp hc]
  rfl

theorem StartsApart.of_append {a b : List Char} (h : StartsApart (a ++ b)) : StartsApart a := by
  intro c hc
  refine h c ?_
  rw [List.head?_append, Option.mem_def.mp hc]
  rfl

theorem EndsApart.append {a b : List Char} (h : EndsApart b) (hne : b ≠ []) :
    EndsApart (a ++ b) := by
  intro c hc
  refine h c ?_
  rw [List.getLast?_append, List.getLast?_eq_some_getLast hne, Option.some_or] at hc
  rw [List.getLast?_eq_some_getLast hne]
  exact hc

theorem StartsApart.append {a b : List Char} (h : StartsApart a) (hne : a ≠ []) :
    StartsApart (a ++ b) := by
  obtain ⟨c, cs, rfl⟩ := List.exists_cons_of_ne_nil hne
  exact h

/-- A maximal run of name characters right in front of the last part of the text. -/
def IsRunBefore (w behind cs : List Char) : Prop :=
  ∃ before, cs = before ++ (w ++ behind) ∧ w ≠ [] ∧ (∀ c ∈ w, isNameChar c = true) ∧
    EndsApart before ∧ StartsApart behind

/-- A token of a text right in front of its last part. -/
def IsTokenBefore (word : String) (behind : List Char) (text : String) : Prop :=
  IsRunBefore word.toList behind text.toList

theorem isRun_iff_before {w cs : List Char} : IsRun w cs ↔ ∃ behind, IsRunBefore w behind cs :=
  exists_comm

namespace IsRunBefore

variable {w a b behind : List Char}

theorem isRun (h : IsRunBefore w behind a) : IsRun w a := isRun_iff_before.mpr ⟨behind, h⟩

/-- A token that does not begin in the first text is one of the second. -/
theorem append_cases (h : IsRunBefore w behind (a ++ b)) :
    (∃ before rest, rest ≠ [] ∧ a = before ++ rest ∧ EndsApart before ∧ w <+: rest ++ b) ∨
      IsRunBefore w behind b := by
  obtain ⟨x, hsplit, hne, hw, hx, hy⟩ := h
  rcases List.append_eq_append_iff.mp hsplit with ⟨rest, hrest, hb⟩ | ⟨rest, hrest, hb⟩
  · right
    exact ⟨rest, hb, hne, hw, EndsApart.of_append (hrest ▸ hx), hy⟩
  · by_cases hnil : rest = []
    · right
      refine ⟨[], ?_, hne, hw, endsApart_nil, hy⟩
      rw [List.nil_append, hb, hnil, List.nil_append]
    · left
      refine ⟨x, rest, hnil, hrest, hx, ?_⟩
      rw [← hb]
      exact List.prefix_append w behind

/-- Nothing is glued at a seam that a name does not cross. -/
theorem append_apart (hseam : EndsApart a ∨ StartsApart b) (h : IsRunBefore w behind (a ++ b)) :
    (∃ near, IsRunBefore w near a ∧ behind = near ++ b) ∨ IsRunBefore w behind b := by
  obtain ⟨x, hsplit, hne, hw, hx, hy⟩ := h
  rcases List.append_eq_append_iff.mp hsplit with ⟨rest, hrest, hb⟩ | ⟨rest, hrest, hb⟩
  · right
    exact ⟨rest, hb, hne, hw, EndsApart.of_append (hrest ▸ hx), hy⟩
  · rcases List.append_eq_append_iff.mp hb with ⟨more, hmore, hy'⟩ | ⟨more, hmore, hb'⟩
    · left
      refine ⟨more, ⟨x, ?_, hne, hw, hx, StartsApart.of_append (hy' ▸ hy)⟩, hy'⟩
      rw [hrest, hmore]
    · -- the run lies on both sides of the seam, unless one part of it is empty
      by_cases hrestnil : rest = []
      · right
        refine ⟨[], ?_, hne, hw, endsApart_nil, hy⟩
        rw [hb', hmore, hrestnil]
        rfl
      · by_cases hmorenil : more = []
        · left
          refine ⟨[], ⟨x, ?_, hne, hw, hx, startsApart_nil⟩, ?_⟩
          · rw [hrest, hmore, hmorenil, List.append_nil, List.append_nil]
          · rw [hb', hmorenil]
            rfl
        · exfalso
          rcases hseam with hend | hstart
          · have hlast := List.getLast_mem hrestnil
            have hname := hw _ (by rw [hmore]; exact List.mem_append_left _ hlast)
            have hapart := EndsApart.of_append (hrest ▸ hend) _
              (Option.mem_def.mpr (List.getLast?_eq_some_getLast hrestnil))
            rw [hapart] at hname
            exact Bool.noConfusion hname
          · have hhead := List.head_mem hmorenil
            have hname := hw _ (by rw [hmore]; exact List.mem_append_right _ hhead)
            have hapart := StartsApart.of_append (hb' ▸ hstart) _
              (Option.mem_def.mpr (List.head?_eq_some_head hmorenil))
            rw [hapart] at hname
            exact Bool.noConfusion hname

/-- A token of a part that is cut out at seams is one of the whole. -/
theorem of_part {x y m : List Char} (h : IsRunBefore w behind m) (hx : EndsApart x)
    (hy : StartsApart y) : IsRunBefore w (behind ++ y) (x ++ (m ++ y)) := by
  obtain ⟨before, rfl, hne, hw, hb, hb'⟩ := h
  refine ⟨x ++ before, by simp, hne, hw, ?_, ?_⟩
  · by_cases hnil : before = []
    · rw [hnil, List.append_nil]
      exact hx
    · exact hb.append hnil
  · by_cases hnil : behind = []
    · rw [hnil, List.nil_append]
      exact hy
    · exact hb'.append hnil

end IsRunBefore

namespace IsRun

variable {w a b : List Char}

/-- A token that does not begin in the first text is one of the second. -/
theorem append_cases (h : IsRun w (a ++ b)) :
    (∃ before rest, rest ≠ [] ∧ a = before ++ rest ∧ EndsApart before ∧ w <+: rest ++ b) ∨
      IsRun w b := by
  obtain ⟨behind, h⟩ := isRun_iff_before.mp h
  exact h.append_cases.imp_right IsRunBefore.isRun

/-- Nothing is glued at a seam that a name does not cross. -/
theorem append_apart (hseam : EndsApart a ∨ StartsApart b) (h : IsRun w (a ++ b)) :
    IsRun w a ∨ IsRun w b := by
  obtain ⟨behind, h⟩ := isRun_iff_before.mp h
  exact (h.append_apart hseam).imp (fun ⟨_, ha, _⟩ => ha.isRun) IsRunBefore.isRun

/-- A token of a part that is cut out at seams is one of the whole. -/
theorem of_part {x y m : List Char} (h : IsRun w m) (hx : EndsApart x) (hy : StartsApart y) :
    IsRun w (x ++ (m ++ y)) := by
  obtain ⟨behind, h⟩ := isRun_iff_before.mp h
  exact (h.of_part hx hy).isRun

theorem eq_of_name (hw : ∀ c ∈ a, isNameChar c = true) (h : IsRun w a) : w = a := by
  obtain ⟨x, y, rfl, -, -, hx, hy⟩ := h
  have hxnil : x = [] := by
    by_contra hne
    have hname := hw _ (List.mem_append_left _ (List.getLast_mem hne))
    rw [hx _ (Option.mem_def.mpr (List.getLast?_eq_some_getLast hne))] at hname
    exact Bool.noConfusion hname
  have hynil : y = [] := by
    by_contra hne
    have hmem := List.mem_append_right x (List.mem_append_right w (List.head_mem hne))
    have hname := hw _ hmem
    rw [hy _ (Option.mem_def.mpr (List.head?_eq_some_head hne))] at hname
    exact Bool.noConfusion hname
  rw [hxnil, hynil, List.nil_append, List.append_nil]

/-- A text without name characters has no token. -/
theorem exists_name (h : IsRun w a) : ∃ c ∈ a, isNameChar c = true := by
  obtain ⟨x, y, rfl, hne, hw, -⟩ := h
  obtain ⟨c, hc⟩ := List.exists_mem_of_ne_nil w hne
  exact ⟨c, List.mem_append_right x (List.mem_append_left y hc), hw c hc⟩

end IsRun

/-! ## Lines -/

namespace Text

/-- A line stands between the start or a line feed and the end, a line feed or a carriage
return. -/
theorem mem_linesFrom {cs : List Char} {line l : List Char} (h : l ∈ linesFrom line cs) :
    ∃ before behind, line.reverse ++ cs = before ++ (l ++ behind) ∧
      (before ≠ [] → before.getLast? = some '\n') ∧
      (behind ≠ [] → behind.head? = some '\n' ∨ behind.head? = some '\r') := by
  induction cs generalizing line with
  | nil =>
      rw [linesFrom] at h
      split at h
      next => exact absurd h List.not_mem_nil
      next =>
        rw [List.mem_singleton.mp h]
        exact ⟨[], [], by simp, fun hne => absurd rfl hne, fun hne => absurd rfl hne⟩
  | cons c cs ih =>
      rw [linesFrom] at h
      split at h
      next hc =>
        subst hc
        rcases List.mem_cons.mp h with rfl | h
        · unfold closeLine
          split
          next tail =>
            exact ⟨[], '\r' :: '\n' :: cs, by simp, fun hne => absurd rfl hne, fun _ => Or.inr rfl⟩
          next =>
            exact ⟨[], '\n' :: cs, by simp, fun hne => absurd rfl hne, fun _ => Or.inl rfl⟩
        · obtain ⟨before, behind, hsplit, hbefore, hbehind⟩ := ih h
          refine ⟨line.reverse ++ '\n' :: before, behind, ?_, fun _ => ?_, hbehind⟩
          · rw [List.append_assoc, List.cons_append, ← hsplit]
            rfl
          · by_cases hnil : before = []
            · rw [hnil, List.getLast?_concat]
            · rw [← hbefore hnil, ← List.singleton_append, ← List.append_assoc,
                List.getLast?_append_of_ne_nil _ hnil]
      next =>
        obtain ⟨before, behind, hsplit, hends⟩ := ih h
        refine ⟨before, behind, ?_, hends⟩
        rw [← hsplit, List.reverse_cons, List.append_assoc]
        rfl

/-- The characters of a line are characters of the text. -/
theorem subset_of_mem_lines {l s : String} (h : l ∈ lines s) : l.toList ⊆ s.toList := by
  obtain ⟨cs, hcs, rfl⟩ := List.mem_map.mp h
  obtain ⟨before, behind, hsplit, -⟩ := mem_linesFrom hcs
  rw [String.toList_ofList, ← List.nil_append s.toList, ← List.reverse_nil, hsplit]
  exact fun c hc => List.mem_append_right before (List.mem_append_left behind hc)

end Text

namespace IsTokenBefore

open Text

variable {word : String} {behind : List Char}

theorem isToken {s : String} (h : IsTokenBefore word behind s) : IsToken word s := h.isRun

/-- What follows a line of a text is empty or begins with a line end. -/
theorem of_mem_lines {l s : String} (hl : l ∈ lines s) (h : IsTokenBefore word behind l) :
    ∃ more, (∀ c ∈ more.head?, c = '\n' ∨ c = '\r') ∧ IsTokenBefore word (behind ++ more) s := by
  obtain ⟨cs, hcs, rfl⟩ := List.mem_map.mp hl
  obtain ⟨before, more, hsplit, hbefore, hmore⟩ := mem_linesFrom hcs
  rw [List.reverse_nil, List.nil_append] at hsplit
  have hends : ∀ c ∈ more.head?, c = '\n' ∨ c = '\r' := by
    intro c hc
    have hhead := hmore (List.ne_nil_of_mem (List.mem_of_head? hc))
    rw [Option.mem_def.mp hc] at hhead
    exact hhead.imp Option.some.inj Option.some.inj
  refine ⟨more, hends, ?_⟩
  rw [IsTokenBefore, hsplit]
  rw [IsTokenBefore, String.toList_ofList] at h
  refine h.of_part ?_ ?_
  · intro c hc
    have hlast := hbefore (List.ne_nil_of_mem (List.mem_of_getLast? hc))
    rw [Option.mem_def.mp hc] at hlast
    rw [Option.some.inj hlast]
    rfl
  · intro c hc
    rcases hends c hc with rfl | rfl <;> rfl

theorem of_unlines {ls : List String} (h : IsTokenBefore word behind (unlines ls)) :
    ∃ l ∈ ls, ∃ near, IsTokenBefore word near l ∧ near <+: behind := by
  induction ls generalizing behind with
  | nil =>
      obtain ⟨c, hc, -⟩ := h.isToken.exists_name
      simp at hc
  | cons a ls ih =>
      cases ls with
      | nil =>
          rw [unlines_singleton] at h
          exact ⟨a, List.mem_cons_self, behind, h, List.prefix_refl behind⟩
      | cons b ls =>
          have hend : EndsApart (a.toList ++ "\n".toList) := by simp [EndsApart]; decide
          have hstart : StartsApart "\n".toList := by simp [StartsApart]; decide
          rw [unlines_cons_cons, IsTokenBefore, String.toList_append, String.toList_append] at h
          rcases h.append_apart (Or.inl hend) with ⟨near, h, hnear⟩ | h
          · rcases h.append_apart (Or.inr hstart) with ⟨first, h, hfirst⟩ | h
            · refine ⟨a, List.mem_cons_self, first, h, ?_⟩
              rw [hnear, hfirst, List.append_assoc]
              exact List.prefix_append _ _
            · obtain ⟨c, hc, hname⟩ := h.isRun.exists_name
              have hfeed : c = '\n' := by simpa using hc
              rw [hfeed] at hname
              exact absurd hname (by decide)
          · obtain ⟨l, hl, ht⟩ := ih h
            exact ⟨l, List.mem_cons_of_mem a hl, ht⟩

end IsTokenBefore

theorem isToken_iff_before {word s : String} :
    IsToken word s ↔ ∃ behind, IsTokenBefore word behind s := isRun_iff_before

end CompilerBackend
