import CompilerBackend.Constant.Literal
import CompilerBackend.Proofs.Text.Quoted
import Mathlib
/-!
# Keys identify constants

The key of a constant can be read off the front of any text in which a separator or a closing
bracket follows it. Brackets and separators inside quoted texts do no harm, because a literal
ends where its escapes say; the kind in front tells how to read on, at every level.

- `readable_key`: two texts that begin with keys begin with the same constant and go on alike.
- `key_eq_iff`: a key determines its constant.
-/

namespace CompilerBackend.Constant

open Text

/-! ## Where a key ends -/

/-- The characters that can follow a key inside the key of a container. -/
def endsKey (c : Char) : Bool :=
  c == ',' || c == ')' || c == ']' || c == '\x7d' || c == ':'

/-- What can follow a key: nothing, or a text that begins with such a character. -/
def FollowsKey (r : List Char) : Prop := ∀ c ∈ r.head?, endsKey c = true

theorem FollowsKey.nil : FollowsKey [] := fun c hc => absurd hc (Option.not_mem_none c)

theorem FollowsKey.cons {c : Char} (hc : endsKey c = true) (r : List Char) :
    FollowsKey (c :: r) := by
  intro d hd
  rw [List.head?_cons, Option.mem_some] at hd
  exact hd ▸ hc

/-- Text without such characters can be cancelled from the front of two texts. -/
theorem unquoted_append_inj {x y r r' : List Char} (hx : ∀ c ∈ x, endsKey c = false)
    (hy : ∀ c ∈ y, endsKey c = false) (hr : FollowsKey r) (hr' : FollowsKey r')
    (h : x ++ r = y ++ r') : x = y ∧ r = r' := by
  have front : ∀ {z s : List Char}, (∀ c ∈ z, endsKey c = false) → FollowsKey s →
      (z ++ s).takeWhile (!endsKey ·) = z := by
    intro z s hz hs
    rw [List.takeWhile_append_of_pos fun c hc => by rw [hz c hc]; rfl]
    cases s with
    | nil => rw [List.takeWhile_nil, List.append_nil]
    | cons c s =>
        have hc : ¬ (!endsKey c) = true := by
          rw [hs c rfl]
          decide
        rw [List.takeWhile_cons, if_neg hc, List.append_nil]
  have hxy : x = y := by rw [← front hx hr, h, front hy hr']
  subst hxy
  exact ⟨rfl, List.append_cancel_left h⟩

theorem endsKey_digitChar {d : Nat} (h : d < 16) : endsKey (Nat.digitChar d) = false := by
  revert d
  decide

theorem endsKey_of_mem_natural {n : Nat} {c : Char} (h : c ∈ (toString n).toList) :
    endsKey c = false := by
  rw [Nat.toString_eq_ofList_toDigits, String.toList_ofList] at h
  obtain ⟨d, hd, rfl⟩ := mem_toDigits (by decide) h
  exact endsKey_digitChar (by omega)

theorem endsKey_of_mem_integer {i : Int} {c : Char} (h : c ∈ (toString i).toList) :
    endsKey c = false := by
  change c ∈ i.repr.toList at h
  rw [Int.repr_eq_if] at h
  split_ifs at h with hi
  · exact endsKey_of_mem_natural h
  · rw [String.toList_append] at h
    rcases List.mem_append.mp h with hm | hn
    · rw [List.mem_singleton.mp hm]
      rfl
    · exact endsKey_of_mem_natural hn

theorem endsKey_of_mem_hexText {n : Nat} {c : Char} (h : c ∈ (hexText n).toList) :
    endsKey c = false := by
  rw [hexText, String.toList_ofList] at h
  obtain ⟨d, hd, rfl⟩ := mem_toDigits (by decide) h
  exact endsKey_digitChar hd

/-! ## The kind in front -/

def keyBody : Constant → String
  | .float bits => hexText bits.toNat
  | .tuple elements => inParens (commaSeparated (keys elements))
  | .list elements => inBrackets (commaSeparated (keys elements))
  | .set elements => inBraces (commaSeparated (keys elements))
  | .dict pairs => inBraces (commaSeparated (pairKeys pairs))
  | c => c.literal

theorem key_eq (c : Constant) : c.key = c.kindName ++ ":" ++ c.keyBody := by
  cases c <;> rfl

theorem endsKey_of_mem_kindName (a : Constant) : ∀ c ∈ a.kindName.toList, endsKey c = false := by
  cases a <;> simp [kindName, endsKey]

theorem kindName_ne_nil (a : Constant) : a.kindName.toList ≠ [] := by
  cases a <;> simp [kindName]

theorem toList_key (a : Constant) :
    a.key.toList = a.kindName.toList ++ ':' :: a.keyBody.toList := by
  rw [key_eq, String.toList_append, String.toList_append, List.append_assoc]
  rfl

/-- Texts that begin with keys begin with the same kind. -/
theorem kindName_eq_of_key {a b : Constant} {r r' : List Char}
    (h : a.key.toList ++ r = b.key.toList ++ r') :
    a.kindName = b.kindName ∧ a.keyBody.toList ++ r = b.keyBody.toList ++ r' := by
  rw [toList_key, toList_key, List.append_assoc, List.append_assoc] at h
  obtain ⟨hk, hrest⟩ := unquoted_append_inj (endsKey_of_mem_kindName a)
    (endsKey_of_mem_kindName b) (.cons rfl _) (.cons rfl _) h
  exact ⟨String.toList_inj.mp hk, (List.cons.inj hrest).2⟩

/-- A key does not begin with a character that ends one. -/
theorem key_append_ne (a : Constant) {c : Char} (hc : endsKey c = true) (r r' : List Char) :
    a.key.toList ++ r ≠ c :: r' := by
  intro h
  rw [toList_key, List.append_assoc] at h
  have hmem : c ∈ a.kindName.toList := by
    cases hk : a.kindName.toList with
    | nil => exact absurd hk (kindName_ne_nil a)
    | cons d ds =>
        rw [hk, List.cons_append] at h
        rw [(List.cons.inj h).1]
        exact List.mem_cons_self
  rw [endsKey_of_mem_kindName a c hmem] at hc
  exact Bool.noConfusion hc

/-! ## Elements and pairs -/

def tailText : List String → List Char
  | [] => []
  | k :: ks => ',' :: ' ' :: (k.toList ++ tailText ks)

theorem toList_commaSeparated_cons (k : String) (ks : List String) :
    (commaSeparated (k :: ks)).toList = k.toList ++ tailText ks := by
  induction ks generalizing k with
  | nil => simp [commaSeparated, tailText]
  | cons k' ks ih =>
      have hsplit : (commaSeparated (k :: k' :: ks)).toList =
          k.toList ++ ',' :: ' ' :: (commaSeparated (k' :: ks)).toList := by
        simp [commaSeparated, String.toList_intercalate]
      rw [hsplit, ih, tailText]

theorem followsKey_tailText {close : Char} (hc : endsKey close = true) (ks : List String)
    (r : List Char) : FollowsKey (tailText ks ++ close :: r) := by
  cases ks with
  | nil => exact .cons hc r
  | cons k ks => exact .cons rfl _

/-- Two texts that begin with the text of `a` and of some `b` begin with what is read in the same
way and go on alike, as far as keys can be followed. -/
def Readable {α β : Type} (text : α → String) (read : α → β) (a : α) : Prop :=
  ∀ (b : α) (r r' : List Char), FollowsKey r → FollowsKey r' →
    (text a).toList ++ r = (text b).toList ++ r' → read a = read b ∧ r = r'

/-- The texts of readable elements behind their separators, up to a closing bracket. -/
theorem tailText_append_inj {α β : Type} {text : α → String} {read : α → β} {close : Char}
    (hc : endsKey close = true) (hne : close ≠ ',') {l l' : List α}
    (hl : ∀ a ∈ l, Readable text read a) {r r' : List Char}
    (h : tailText (l.map text) ++ close :: r = tailText (l'.map text) ++ close :: r') :
    l.map read = l'.map read ∧ r = r' := by
  induction l generalizing l' with
  | nil =>
      cases l' with
      | nil => exact ⟨rfl, List.tail_eq_of_cons_eq h⟩
      | cons b l' => exact absurd (List.cons.inj h).1 hne
  | cons a l ih =>
      cases l' with
      | nil => exact absurd (List.cons.inj h).1.symm hne
      | cons b l' =>
          simp only [List.map_cons, tailText, List.cons_append, List.append_assoc] at h
          obtain ⟨hab, hrest⟩ := hl a List.mem_cons_self b _ _ (followsKey_tailText hc _ r)
            (followsKey_tailText hc _ r') (List.cons.inj (List.cons.inj h).2).2
          obtain ⟨hll, hr⟩ := ih (fun c hm => hl c (List.mem_cons_of_mem a hm)) hrest
          exact ⟨by rw [List.map_cons, List.map_cons, hab, hll], hr⟩

/-- The texts of readable elements up to a closing bracket. No text begins with the bracket, so
an empty list is told from a list of one element. -/
theorem commaSeparated_append_inj {α β : Type} {text : α → String} {read : α → β} {close : Char}
    (hc : endsKey close = true) (hne : close ≠ ',')
    (begins : ∀ a r r', (text a).toList ++ r ≠ close :: r') {l l' : List α}
    (hl : ∀ a ∈ l, Readable text read a) {r r' : List Char}
    (h : (commaSeparated (l.map text)).toList ++ close :: r =
      (commaSeparated (l'.map text)).toList ++ close :: r') :
    l.map read = l'.map read ∧ r = r' := by
  cases l with
  | nil =>
      cases l' with
      | nil => exact ⟨rfl, (List.cons.inj (List.append_cancel_left h)).2⟩
      | cons b l' =>
          rw [List.map_cons, toList_commaSeparated_cons, List.append_assoc] at h
          exact absurd h.symm (begins b _ r)
  | cons a l =>
      cases l' with
      | nil =>
          rw [List.map_cons, toList_commaSeparated_cons, List.append_assoc] at h
          exact absurd h (begins a _ r')
      | cons b l' =>
          rw [List.map_cons, List.map_cons, toList_commaSeparated_cons,
            toList_commaSeparated_cons, List.append_assoc, List.append_assoc] at h
          obtain ⟨hab, hrest⟩ := hl a List.mem_cons_self b _ _ (followsKey_tailText hc _ r)
            (followsKey_tailText hc _ r') h
          obtain ⟨hll, hr⟩ := tailText_append_inj hc hne
            (fun c hm => hl c (List.mem_cons_of_mem a hm)) hrest
          exact ⟨by rw [List.map_cons, List.map_cons, hab, hll], hr⟩

def pairText (text : Constant → String) (p : Constant × Constant) : String :=
  text p.1 ++ ": " ++ text p.2

theorem pairKeys_eq_map (l : List (Constant × Constant)) : pairKeys l = l.map (pairText key) := by
  induction l with
  | nil => rfl
  | cons p l ih => rw [pairKeys, ih]; rfl

section Pairs

variable {text : Constant → String} {β : Type} {read : Constant → β} {p : Constant × Constant}

theorem toList_pairText (text : Constant → String) (p : Constant × Constant) :
    (pairText text p).toList = (text p.1).toList ++ ':' :: ' ' :: (text p.2).toList := by
  rw [pairText, String.toList_append, String.toList_append, List.append_assoc]
  rfl

theorem readable_pairText (h1 : Readable text read p.1) (h2 : Readable text read p.2) :
    Readable (pairText text) (Prod.map read read) p := by
  intro q r r' hr hr' h
  rw [toList_pairText, toList_pairText, List.append_assoc, List.append_assoc] at h
  obtain ⟨hk, hrest⟩ := h1 q.1 _ _ (.cons rfl _) (.cons rfl _) h
  obtain ⟨hv, hrr⟩ := h2 q.2 r r' hr hr' (List.cons.inj (List.cons.inj hrest).2).2
  exact ⟨Prod.ext hk hv, hrr⟩

theorem pairText_append_ne {close : Char}
    (begins : ∀ a r r', (text a).toList ++ r ≠ close :: r') (p : Constant × Constant)
    (r r' : List Char) : (pairText text p).toList ++ r ≠ close :: r' := by
  rw [toList_pairText, List.append_assoc]
  exact begins p.1 _ r'

end Pairs

/-! ## Induction over constants -/

def parts : Constant → List Constant
  | .tuple elements => elements
  | .list elements => elements
  | .set elements => elements
  | .dict pairs => pairs.flatMap fun p => [p.1, p.2]
  | _ => []

theorem sizeOf_lt_of_mem_parts {c d : Constant} (h : d ∈ c.parts) : sizeOf d < sizeOf c := by
  cases c with
  | tuple l | list l | set l =>
      have hlt : sizeOf d < sizeOf l := List.sizeOf_lt_of_mem h
      simp only [tuple.sizeOf_spec, list.sizeOf_spec, set.sizeOf_spec]
      omega
  | dict l =>
      obtain ⟨p, hp, hd⟩ := List.mem_flatMap.mp h
      have hlt : sizeOf p < sizeOf l := List.sizeOf_lt_of_mem hp
      have hpair : sizeOf p = 1 + sizeOf p.1 + sizeOf p.2 := rfl
      rw [dict.sizeOf_spec]
      rcases List.mem_cons.mp hd with rfl | hd
      · omega
      · rw [List.mem_singleton.mp hd]
        omega
  | _ => exact absurd h List.not_mem_nil

/-- What passes to a constant from its parts holds of every constant. -/
theorem bottomUp {P : Constant → Prop} (step : ∀ c, (∀ d ∈ c.parts, P d) → P c) :
    ∀ c, P c := by
  intro c
  induction hn : sizeOf c using Nat.strongRecOn generalizing c with
  | ind n ih =>
      refine step c fun d hd => ih (sizeOf d) ?_ d rfl
      exact hn ▸ sizeOf_lt_of_mem_parts hd

/-! ## Reading a key -/

theorem toList_inParens (s : String) : (inParens s).toList = '(' :: (s.toList ++ [')']) := by
  simp [inParens]

theorem toList_inBrackets (s : String) : (inBrackets s).toList = '[' :: (s.toList ++ [']']) := by
  simp [inBrackets]

theorem toList_inBraces (s : String) :
    (inBraces s).toList = '\x7b' :: (s.toList ++ ['\x7d']) := by
  simp [inBraces]

theorem boolLiteral_inj {x y : Bool} (h : boolLiteral x = boolLiteral y) : x = y := by
  cases x <;> cases y <;> simp_all [boolLiteral]

theorem endsKey_of_mem_boolLiteral (x : Bool) :
    ∀ c ∈ (boolLiteral x).toList, endsKey c = false := by
  cases x <;> simp [boolLiteral, endsKey]

/-- Keys between brackets of their kind. -/
theorem bracketed_append_inj {α β : Type} {text : α → String} {read : α → β}
    {opening close : Char} (hc : endsKey close = true) (hne : close ≠ ',')
    (begins : ∀ a r r', (text a).toList ++ r ≠ close :: r') {l l' : List α}
    (hl : ∀ a ∈ l, Readable text read a) {r r' : List Char}
    (h : opening :: ((commaSeparated (l.map text)).toList ++ [close]) ++ r =
      opening :: ((commaSeparated (l'.map text)).toList ++ [close]) ++ r') :
    l.map read = l'.map read ∧ r = r' := by
  simp only [List.cons_append, List.append_assoc, List.nil_append] at h
  exact commaSeparated_append_inj hc hne begins hl (List.cons.inj h).2

/-- Texts that begin with a key begin with the same constant and go on alike. -/
theorem readable_key (a : Constant) : Readable key id a := by
  induction a using bottomUp with
  | step a ih =>
  intro b r r' hr hr' h
  obtain ⟨hk, hbody⟩ := kindName_eq_of_key h
  cases a with
  | none =>
      cases b with
      | none => exact ⟨rfl, List.append_cancel_left hbody⟩
      | _ => simp [kindName] at hk
  | ellipsis =>
      cases b with
      | ellipsis => exact ⟨rfl, List.append_cancel_left hbody⟩
      | _ => simp [kindName] at hk
  | bool x =>
      cases b with
      | bool y =>
          obtain ⟨hxy, hrr⟩ := unquoted_append_inj (endsKey_of_mem_boolLiteral x)
            (endsKey_of_mem_boolLiteral y) hr hr' hbody
          exact ⟨by rw [boolLiteral_inj (String.toList_inj.mp hxy)], hrr⟩
      | _ => simp [kindName] at hk
  | int x =>
      cases b with
      | int y =>
          obtain ⟨hxy, hrr⟩ := unquoted_append_inj (fun c => endsKey_of_mem_integer)
            (fun c => endsKey_of_mem_integer) hr hr' hbody
          exact ⟨by rw [Int.repr_inj.mp (String.toList_inj.mp hxy)], hrr⟩
      | _ => simp [kindName] at hk
  | float x =>
      cases b with
      | float y =>
          obtain ⟨hxy, hrr⟩ := unquoted_append_inj (fun c => endsKey_of_mem_hexText)
            (fun c => endsKey_of_mem_hexText) hr hr' hbody
          have hbits := UInt64.toNat_inj.mp (hexText_inj (String.toList_inj.mp hxy))
          exact ⟨by rw [hbits], hrr⟩
      | _ => simp [kindName] at hk
  | str x =>
      cases b with
      | str y =>
          obtain ⟨hxy, hrr⟩ := byteLiteral_append_inj "" hbody
          exact ⟨by rw [utf8_inj hxy], hrr⟩
      | _ => simp [kindName] at hk
  | unicode x =>
      cases b with
      | unicode y =>
          obtain ⟨hxy, hrr⟩ := unicodeLiteral_append_inj hbody
          exact ⟨by rw [hxy], hrr⟩
      | _ => simp [kindName] at hk
  | bytes x =>
      cases b with
      | bytes y =>
          obtain ⟨hxy, hrr⟩ := byteLiteral_append_inj "b" hbody
          exact ⟨by rw [hxy], hrr⟩
      | _ => simp [kindName] at hk
  | tuple l =>
      cases b with
      | tuple l' =>
          rw [keyBody, keyBody, keys_eq_map, keys_eq_map, toList_inParens, toList_inParens] at hbody
          obtain ⟨hl, hrr⟩ := bracketed_append_inj rfl (by decide)
            (fun a => key_append_ne a rfl) ih hbody
          rw [List.map_id, List.map_id] at hl
          exact ⟨congrArg tuple hl, hrr⟩
      | _ => simp [kindName] at hk
  | list l =>
      cases b with
      | list l' =>
          rw [keyBody, keyBody, keys_eq_map, keys_eq_map, toList_inBrackets,
            toList_inBrackets] at hbody
          obtain ⟨hl, hrr⟩ := bracketed_append_inj rfl (by decide)
            (fun a => key_append_ne a rfl) ih hbody
          rw [List.map_id, List.map_id] at hl
          exact ⟨congrArg list hl, hrr⟩
      | _ => simp [kindName] at hk
  | set l =>
      cases b with
      | set l' =>
          rw [keyBody, keyBody, keys_eq_map, keys_eq_map, toList_inBraces, toList_inBraces] at hbody
          obtain ⟨hl, hrr⟩ := bracketed_append_inj rfl (by decide)
            (fun a => key_append_ne a rfl) ih hbody
          rw [List.map_id, List.map_id] at hl
          exact ⟨congrArg set hl, hrr⟩
      | _ => simp [kindName] at hk
  | dict l =>
      cases b with
      | dict l' =>
          rw [keyBody, keyBody, pairKeys_eq_map, pairKeys_eq_map, toList_inBraces,
            toList_inBraces] at hbody
          have hpairs : ∀ p ∈ l, Readable (pairText key) (Prod.map id id) p := fun p hp =>
            readable_pairText (ih p.1 (List.mem_flatMap.mpr ⟨p, hp, List.mem_cons_self⟩))
              (ih p.2 (List.mem_flatMap.mpr ⟨p, hp, List.mem_cons_of_mem _ List.mem_cons_self⟩))
          obtain ⟨hl, hrr⟩ := bracketed_append_inj rfl (by decide)
            (pairText_append_ne fun a => key_append_ne a rfl) hpairs hbody
          rw [Prod.map_id, List.map_id, List.map_id] at hl
          exact ⟨congrArg dict hl, hrr⟩
      | _ => simp [kindName] at hk

theorem key_injective : Function.Injective key := by
  intro a b h
  have h' : a.key.toList ++ [] = b.key.toList ++ [] := by rw [h]
  exact (readable_key a b [] [] .nil .nil h').1

/-- **A key says which constant it is of.** Two constants have the same key exactly if they are the
same: of one kind, with doubles compared by their bits, texts by their characters and containers
element by element in order. -/
theorem key_eq_iff (a b : Constant) : a.key = b.key ↔ a = b :=
  ⟨fun h => key_injective h, congrArg key⟩

end CompilerBackend.Constant
