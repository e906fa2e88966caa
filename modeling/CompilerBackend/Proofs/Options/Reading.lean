import CompilerBackend.Options.Reader
import CompilerBackend.Proofs.Json.Reading
/-!
# Options as JSON

Options are what the members of an object give: a known key that stands there once with a value of
its kind gives its option, a known key that does not stand there leaves the default, and members of
other names say nothing. Every text of such an object is read so, the one that options are written
as among them.

- `Options.IsGivenBy`: the options that members give.
- `Options.ofJsonBy?_of_isText`: every text of the members is read as these options, by any reader
  that follows the grammar.
- `Options.isText_toJson`: options are written as an object that gives them.
-/

namespace CompilerBackend

namespace Json

def ofNat (n : Nat) : Json := .number false (Nat.toDigits 10 n) true

def ofMembers (ms : List (String × Json)) : Json := .object (ms.map fun m => (some m.1, m.2))

def Lacks (ms : List (String × Json)) (key : String) : Prop := ∀ m ∈ ms, m.1 ≠ key

/-- One member has the key, and its value is of a kind. -/
def HoldsOnce (ms : List (String × Json)) (key : String) (kind : Json → Prop) : Prop :=
  ∃ before j after, ms = before ++ (key, j) :: after ∧ Lacks before key ∧ Lacks after key ∧ kind j

end Json

/-- How a version is given: both numbers by their names among any others, or in order. -/
inductive LanguageVersion.IsGivenBy (v : LanguageVersion) : Json → Prop where
  | named {ms : List (String × Json)} : Json.HoldsOnce ms "major" (· = .ofNat v.major.toNat) →
      Json.HoldsOnce ms "minor" (· = .ofNat v.minor.toNat) → IsGivenBy v (.ofMembers ms)
  | inOrder : IsGivenBy v (.array [.ofNat v.major.toNat, .ofNat v.minor.toNat])

namespace Options

/-- An option is given by a member of its name, or it keeps its default. -/
def FieldGiven {α : Type} (ms : List (String × Json)) (key : String) (default : α)
    (kind : α → Json → Prop) (a : α) : Prop :=
  Json.HoldsOnce ms key (kind a) ∨ Json.Lacks ms key ∧ a = default

/-- The options that the members of an object give. -/
structure IsGivenBy (o : Options) (ms : List (String × Json)) : Prop where
  version : FieldGiven ms "python_version" { major := 2, minor := 7 } LanguageVersion.IsGivenBy
    o.version
  trace : FieldGiven ms "trace_execution" false (fun b j => j = .bool b) o.traceExecution
  passes : FieldGiven ms "max_optimization_passes" 64 (fun p j => j = .ofNat p.toNat) o.maxPasses

end Options

namespace Json

variable {ms : List (String × Json)} {key : String} {kind : Json → Prop}

/-! ## Members -/

theorem textKeys?_map (ms : List (String × Json)) :
    textKeys? (ms.map fun m => (some m.1, m.2)) = some ms := by
  induction ms with
  | nil => rfl
  | cons m ms ih =>
      rw [List.map_cons, textKeys?, ih]
      rfl

theorem fields?_ofMembers (ms : List (String × Json)) (names : List String) :
    (ofMembers ms).fields? names = names.mapM (member? ms) := by
  rw [ofMembers, fields?, textKeys?_map]
  rfl

theorem filter_of_lacks (h : Lacks ms key) : ms.filter (·.1 == key) = [] :=
  List.filter_eq_nil_iff.mpr fun m hm => by simpa using h m hm

theorem member?_of_lacks (h : Lacks ms key) : member? ms key = some none := by
  rw [member?, filter_of_lacks h]

theorem HoldsOnce.member? (h : HoldsOnce ms key kind) :
    ∃ j, Json.member? ms key = some (some j) ∧ kind j := by
  obtain ⟨before, j, after, rfl, hbefore, hafter, hj⟩ := h
  refine ⟨j, ?_, hj⟩
  rw [Json.member?, List.filter_append, filter_of_lacks hbefore, List.filter_cons,
    if_pos (beq_self_eq_true key), filter_of_lacks hafter, List.nil_append]

/-! ## Numbers -/

theorem digitsValue_toDigits (n : Nat) : digitsValue (Nat.toDigits 10 n) = n :=
  Nat.ofDigitChars_ten_toDigits

theorem naturalBelow?_ofNat {bound n : Nat} (h : n < bound) :
    (ofNat n).naturalBelow? bound = some n := by
  rw [naturalBelow?, ofNat, natural?, digitsValue_toDigits]
  exact Option.filter_some_pos (decide_eq_true h)

end Json

theorem LanguageVersion.ofJson?_of_isGivenBy {v : LanguageVersion} {j : Json}
    (h : v.IsGivenBy j) : LanguageVersion.ofJson? j = some v := by
  have hfields : j.fields? ["major", "minor"] =
      some [some (.ofNat v.major.toNat), some (.ofNat v.minor.toNat)] := by
    cases h with
    | named hmajor hminor =>
        obtain ⟨_, hmajor, rfl⟩ := hmajor.member?
        obtain ⟨_, hminor, rfl⟩ := hminor.member?
        rw [Json.fields?_ofMembers, List.mapM_cons, List.mapM_cons, List.mapM_nil, hmajor, hminor]
        rfl
    | inOrder => rfl
  rw [ofJson?, hfields, Option.bind_eq_bind, Option.bind_some]
  simp only [Json.naturalBelow?_ofNat v.major.toNat_lt, Json.naturalBelow?_ofNat v.minor.toNat_lt]
  exact congrArg some (congr_arg₂ _ UInt8.ofNat_toNat UInt8.ofNat_toNat)

namespace Options

/-- A field that is given is read. -/
theorem FieldGiven.fieldOr {α : Type} {ms : List (String × Json)} {key : String} {default a : α}
    {kind : α → Json → Prop} (read : Json → Option α) (h : FieldGiven ms key default kind a)
    (hread : ∀ j, kind a j → read j = some a) :
    ∃ field, Json.member? ms key = some field ∧ Options.fieldOr default read field = some a := by
  rcases h with h | ⟨h, rfl⟩
  · obtain ⟨j, hmember, hj⟩ := h.member?
    exact ⟨some j, hmember, hread j hj⟩
  · exact ⟨none, Json.member?_of_lacks h, rfl⟩

theorem ofJsonValue?_of_isGivenBy {o : Options} {ms : List (String × Json)} (h : o.IsGivenBy ms) :
    ofJsonValue? (.ofMembers ms) = some o := by
  obtain ⟨version, hversion, hv⟩ :=
    h.version.fieldOr LanguageVersion.ofJson? fun j => LanguageVersion.ofJson?_of_isGivenBy
  obtain ⟨trace, htrace, ht⟩ := h.trace.fieldOr Json.bool? fun j hj => by
    rw [hj]
    rfl
  obtain ⟨passes, hpasses, hp⟩ := h.passes.fieldOr
    (fun j => (j.naturalBelow? UInt64.size).map Nat.toUInt64) fun j hj => by
      rw [hj, Json.naturalBelow?_ofNat o.maxPasses.toNat_lt, Option.map_some]
      exact congrArg some UInt64.ofNat_toNat
  rw [ofJsonValue?, Json.fields?_ofMembers, List.mapM_cons, List.mapM_cons, List.mapM_cons,
    List.mapM_nil, hversion, htrace, hpasses]
  simp only [Option.pure_def, Option.bind_eq_bind, Option.bind_some, hv, ht, hp]

/-- Every text of an object is read as the options that its members give. -/
theorem ofJsonBy?_of_isText {read : String → Option Json} (hread : Json.FollowsGrammar read)
    {s : String} {o : Options} {ms : List (String × Json)}
    (hs : Json.IsText s (.ofMembers ms)) (h : o.IsGivenBy ms) : ofJsonBy? read s = some o := by
  rw [ofJsonBy?, hread s _ hs, Option.bind_some, ofJsonValue?_of_isGivenBy h]

end Options

namespace Json

/-! ## Writing -/

variable {cs ds ks : List Char} {v : Json} {n : Nat}

def isPlain (c : Char) : Bool := 0x20 ≤ c.toNat && c != '"' && c != '\\'

theorem PiecesWritten.of_isPlain (h : cs.all isPlain = true) :
    PiecesWritten (cs.map .char) cs := by
  induction cs with
  | nil => exact .nil
  | cons c cs ih =>
      rw [List.all_cons, Bool.and_eq_true] at h
      obtain ⟨⟨hcode, hquote⟩, hback⟩ :
          (0x20 ≤ c.toNat ∧ c ≠ '"') ∧ c ≠ '\\' := by simpa [isPlain] using h.1
      exact .plain hcode hquote hback (ih h.2)

theorem TextWritten.of_isPlain {s : String} (h : s.toList.all isPlain = true) :
    TextWritten (some s) ('"' :: (s.toList ++ ['"'])) :=
  .whole (.of_isPlain h) (List.flatMap_map Piece.char Piece.units s.toList)

theorem isDigits_toDigits (n : Nat) : IsDigits (Nat.toDigits 10 n) := by
  refine ⟨Nat.toDigits_ne_nil, fun c hc => ?_⟩
  have hdigit := Nat.isDigit_of_mem_toDigits (by decide) (by decide) hc
  rwa [Char.isDigit] at hdigit

/-- Decimal digits begin with a zero only for zero. -/
theorem head?_toDigits (hn : n ≠ 0) : (Nat.toDigits 10 n).head? ≠ some '0' := by
  induction n using Nat.strongRecOn with
  | ind n ih =>
      rcases Nat.lt_or_ge n 10 with hlt | hge
      · rw [Nat.toDigits_of_lt_base hlt]
        interval_cases n
        · exact absurd rfl hn
        all_goals decide
      · rw [Nat.toDigits_of_base_le (by decide) hge,
          List.head?_append_of_ne_nil _ Nat.toDigits_ne_nil]
        exact ih (n / 10) (by omega) (by omega)

theorem isInteger_toDigits (n : Nat) : IsInteger (Nat.toDigits 10 n) := by
  rcases eq_or_ne n 0 with rfl | hn
  · exact Or.inl rfl
  · exact Or.inr ⟨isDigits_toDigits n, head?_toDigits hn⟩

theorem written_ofNat (n : Nat) : Written (.value (ofNat n)) (Nat.toDigits 10 n) := by
  have hwritten := Written.number false (isInteger_toDigits n) .absent .absent
  simpa [ofNat] using hwritten

theorem isBlanks_nil : IsBlanks [] := fun _ hc => absurd hc List.not_mem_nil

/-- A member without blanks. -/
theorem Written.lastMember {key : Option String} (hkey : TextWritten key ks)
    (hv : Written (.value v) cs) : Written (.members [(key, v)]) (ks ++ ':' :: cs) := by
  have hwritten :=
    Written.member isBlanks_nil hkey isBlanks_nil isBlanks_nil hv isBlanks_nil
  simpa using hwritten

/-- A member without blanks in front of others. -/
theorem Written.nextMember {key : Option String} {ms : List (Option String × Json)}
    (hkey : TextWritten key ks) (hv : Written (.value v) cs) (hms : Written (.members ms) ds) :
    Written (.members ((key, v) :: ms)) (ks ++ ':' :: (cs ++ ',' :: ds)) := by
  have hwritten :=
    Written.members isBlanks_nil hkey isBlanks_nil isBlanks_nil hv isBlanks_nil hms
  simpa using hwritten

theorem Lacks.of_keys {ms : List (String × Json)} {key : String}
    (h : key ∉ ms.map Prod.fst) : Lacks ms key :=
  fun _ hm heq => h (heq ▸ List.mem_map_of_mem hm)

end Json

def LanguageVersion.members (v : LanguageVersion) : List (String × Json) :=
  [("major", .ofNat v.major.toNat), ("minor", .ofNat v.minor.toNat)]

theorem LanguageVersion.isGivenBy_members (v : LanguageVersion) :
    v.IsGivenBy (.ofMembers v.members) :=
  .named ⟨[], _, _, rfl, .of_keys (by simp), .of_keys (by simp), rfl⟩
    ⟨[_], _, [], rfl, .of_keys (by simp), .of_keys (by simp), rfl⟩

namespace Options

def members (o : Options) : List (String × Json) :=
  [("python_version", .ofMembers o.version.members), ("trace_execution", .bool o.traceExecution),
    ("max_optimization_passes", .ofNat o.maxPasses.toNat)]

theorem isGivenBy_members (o : Options) : o.IsGivenBy o.members where
  version := Or.inl ⟨[], _, _, rfl, .of_keys (by simp), .of_keys (by simp),
    o.version.isGivenBy_members⟩
  trace := Or.inl ⟨[_], _, [_], rfl, .of_keys (by simp), .of_keys (by simp), rfl⟩
  passes := Or.inl ⟨[_, _], _, [], rfl, .of_keys (by simp), .of_keys (by simp), rfl⟩

theorem isText_toJson (o : Options) : Json.IsText o.toJson (.ofMembers o.members) := by
  have hkey : ∀ s ∈ ["python_version", "major", "minor", "trace_execution",
      "max_optimization_passes"], Json.TextWritten (some s) ('"' :: (s.toList ++ ['"'])) := by
    intro s hs
    apply Json.TextWritten.of_isPlain
    revert s
    decide
  have hversion := Json.Written.object (.nextMember (hkey "major" (by decide))
    (Json.written_ofNat o.version.major.toNat)
    (.lastMember (hkey "minor" (by decide)) (Json.written_ofNat o.version.minor.toNat)))
  have hoptions := Json.Written.object (.nextMember (hkey "python_version" (by decide)) hversion
    (.nextMember (hkey "trace_execution" (by decide)) (.bool o.traceExecution)
      (.lastMember (hkey "max_optimization_passes" (by decide))
        (Json.written_ofNat o.maxPasses.toNat))))
  have hflag : (if o.traceExecution then "true" else "false").toList =
      if o.traceExecution then ['t', 'r', 'u', 'e'] else ['f', 'a', 'l', 's', 'e'] := by
    split <;> rfl
  have hdigits : ∀ n : Nat, (toString n).toList = Nat.toDigits 10 n := fun _ => Nat.toList_repr
  refine ⟨[], _, [], Json.isBlanks_nil, hoptions, Json.isBlanks_nil, ?_⟩
  unfold toJson
  simp only [String.toList_append, hflag, hdigits]
  simp

/-- Options are read as they were written, and every text of an object in which known keys stand
at most once, with values of their kinds, is read as what it gives: in any order, with any blanks
and escapes, among members of any other names. It takes no more than that texts are read by the
grammar. -/
theorem reads_what_is_given :
    (∀ o : Options, ofJson? o.toJson = some o) ∧
      (∀ (s : String) (ms : List (String × Json)) (o : Options),
        Json.IsText s (.ofMembers ms) → o.IsGivenBy ms → ofJson? s = some o) ∧
      ∀ read, Json.FollowsGrammar read →
        (∀ o : Options, ofJsonBy? read o.toJson = some o) ∧
          ∀ (s : String) (ms : List (String × Json)) (o : Options),
            Json.IsText s (.ofMembers ms) → o.IsGivenBy ms → ofJsonBy? read s = some o := by
  have hgiven : ∀ read, Json.FollowsGrammar read →
      (∀ o : Options, ofJsonBy? read o.toJson = some o) ∧
        ∀ (s : String) (ms : List (String × Json)) (o : Options),
          Json.IsText s (.ofMembers ms) → o.IsGivenBy ms → ofJsonBy? read s = some o := by
    intro read hread
    constructor
    · exact fun o => ofJsonBy?_of_isText hread o.isText_toJson o.isGivenBy_members
    · exact fun s ms o hs h => ofJsonBy?_of_isText hread hs h
  obtain ⟨hwritten, htexts⟩ := hgiven Json.ofText? Json.followsGrammar_ofText?
  exact ⟨hwritten, htexts, hgiven⟩

/-- A key behind an escape, numbers and a nested value that nobody asks for, a missing flag. -/
theorem reads_what_is_given_escapedKey :
    let s := "\x7b\"max_optimization_passes\" : 18446744073709551615,\n\"python_version\":" ++
      "\x7b\"x\":[-0.5e+3, null],\"\\u006dinor\":8,\"major\":3\x7d\x7d"
    let ms := [("max_optimization_passes", Json.ofNat 18446744073709551615),
      ("python_version", Json.ofMembers [("x", .array [.number true ['0'] false, .null]),
        ("minor", .ofNat 8), ("major", .ofNat 3)])]
    let o : Options := ⟨⟨3, 8⟩, false, 18446744073709551615⟩
    Json.IsText s (.ofMembers ms) ∧ o.IsGivenBy ms ∧ ofJson? s = some o ∧
      Json.FollowsGrammar Json.ofText? ∧ ofJsonBy? Json.ofText? s = some o := by
  intro s ms o
  have hplain : ∀ t ∈ ["inor", "x", "major", "python_version", "max_optimization_passes"],
      t.toList.all Json.isPlain = true := by
    decide
  have hdigits : Nat.toDigits 10 18446744073709551615 = "18446744073709551615".toList := by
    rw [← Nat.toList_repr]
    rfl
  have hpasses := hdigits ▸ Json.written_ofNat 18446744073709551615
  have hblank : Json.IsBlanks [' '] := by decide
  have hzero : Json.IsHexDigit '0' 0 := Or.inl rfl
  have hsix : Json.IsHexDigit '6' 6 := Or.inl rfl
  have hd : Json.IsHexDigit 'd' 13 := Or.inl rfl
  have hminor : Json.TextWritten (some "minor") ('"' :: (_ ++ ['"'])) :=
    .whole (.unit hzero hzero hsix hd (.of_isPlain (hplain "inor" (by decide)))) rfl
  have hnumber : Json.Written (.value (.number true ['0'] (false && false))) _ :=
    .number true (Or.inl rfl) (.present (show Json.IsDigits ['5'] by decide))
      (.present (show 'e' ∈ _ by decide) (show ['+'] ∈ _ by decide)
        (show Json.IsDigits ['3'] by decide))
  have harray : Json.Written (.value (.array [.number true ['0'] false, .null])) _ :=
    .array (.elements Json.isBlanks_nil hnumber Json.isBlanks_nil
      (.element hblank .null Json.isBlanks_nil))
  have hversion := Json.Written.object (.nextMember (.of_isPlain (hplain "x" (by decide))) harray
    (.nextMember hminor (Json.written_ofNat 8)
      (.lastMember (.of_isPlain (hplain "major" (by decide))) (Json.written_ofNat 3))))
  have htext : Json.IsText s (.ofMembers ms) := by
    refine ⟨[], _, [], Json.isBlanks_nil, .object (.members Json.isBlanks_nil
      (.of_isPlain (hplain "max_optimization_passes" (by decide)))
      hblank hblank hpasses Json.isBlanks_nil
      (.member (show Json.IsBlanks ['\n'] by decide)
        (.of_isPlain (hplain "python_version" (by decide)))
        Json.isBlanks_nil Json.isBlanks_nil hversion Json.isBlanks_nil)), Json.isBlanks_nil, ?_⟩
    exact String.toList_append
  have hgiven : o.IsGivenBy ms :=
    { version := Or.inl ⟨[_], _, [], rfl, .of_keys (by decide), .of_keys (by decide),
        .named ⟨[_, _], _, [], rfl, .of_keys (by decide), .of_keys (by decide), rfl⟩
          ⟨[_], _, [_], rfl, .of_keys (by decide), .of_keys (by decide), rfl⟩⟩
      trace := Or.inr ⟨.of_keys (by decide), rfl⟩
      passes := Or.inl ⟨[], _, [_], rfl, .of_keys (by decide), .of_keys (by decide), rfl⟩ }
  obtain ⟨-, hread, hreadBy⟩ := reads_what_is_given
  exact ⟨htext, hgiven, hread s ms o htext hgiven, Json.followsGrammar_ofText?,
    (hreadBy Json.ofText? Json.followsGrammar_ofText?).2 s ms o htext hgiven⟩

end Options
end CompilerBackend
