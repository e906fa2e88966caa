import CompilerBackend.Target.Assembly
import CompilerBackend.Proofs.Program.Table
import CompilerBackend.Proofs.Text.Lines
import CompilerBackend.Proofs.Text.Printable
import Mathlib
/-!
# The declarations of constants

Requests for handles from an empty table, and the two texts that declare what the table holds.

- `requests_table`: the invariant along a sequence of requests.
- `lines_constantDeclarations`, `lines_constantDefinitions`: the texts line by line.
- `requests_linked`: equal handles are equal keys, the table only grows, and every handle is
  declared, stored and initialised once.
-/

namespace CompilerBackend

open Text Target

/-! ## Requests -/

/-- The handles of some constants, one request after the other from an empty table, and the
program that the requests leave. -/
def requests (cs : List Constant) : List String × Program := (cs.mapM handleOf).run {}

theorem requests_concat (cs : List Constant) (c : Constant) :
    requests (cs ++ [c]) =
      ((requests cs).1 ++ [((requests cs).2.intern c).1], ((requests cs).2.intern c).2) := by
  rw [requests, List.mapM_append, List.mapM_cons, List.mapM_nil]
  rfl

/-- After any requests the table is well-formed, and each request was answered by the handle of
an entry for its constant. -/
theorem requests_table (cs : List Constant) :
    (requests cs).2.WellFormed ∧
      List.Forall₂ (fun c handle => ⟨c, handle⟩ ∈ (requests cs).2.table) cs (requests cs).1 := by
  induction cs using List.reverseRecOn with
  | nil => exact ⟨Program.wellFormed_empty, List.Forall₂.nil⟩
  | append_singleton cs c ih =>
      obtain ⟨hwf, hanswers⟩ := ih
      obtain ⟨hwf', hext, hmem⟩ := hwf.intern c
      rw [requests_concat]
      refine ⟨hwf', List.rel_append (hanswers.imp fun _ _ he => hext.mem he) ?_⟩
      exact List.Forall₂.cons hmem List.Forall₂.nil

theorem requests_prefix (cs ds : List Constant) :
    (requests cs).2.table <+: (requests (cs ++ ds)).2.table := by
  induction ds using List.reverseRecOn with
  | nil => rw [List.append_nil]
  | append_singleton ds d ih =>
      rw [← List.append_assoc, requests_concat]
      exact ih.trans ((requests_table (cs ++ ds)).1.intern d).2.1.table

/-- The table holds the constants in the order of their first requests. -/
theorem requests_keys (cs : List Constant) :
    (requests cs).2.table.map (·.constant.key) = (cs.map Constant.key).eraseDups := by
  induction cs using List.reverseRecOn with
  | nil => rfl
  | append_singleton cs c ih =>
      have hknown : (∃ e ∈ (requests cs).2.table, e.constant = c) ↔ c.key ∈ cs.map Constant.key := by
        rw [← List.mem_eraseDups, ← ih, List.mem_map]
        constructor
        · rintro ⟨e, he, rfl⟩
          exact ⟨e, he, rfl⟩
        · rintro ⟨e, he, hk⟩
          exact ⟨e, he, Constant.key_injective hk⟩
      rw [requests_concat, List.map_append, List.map_singleton, List.eraseDups_append, ← ih]
      rcases (requests_table cs).1.intern_cases c with ⟨e, he, hec, heq⟩ | ⟨hnew, constants, heq, hadd⟩
      · have hold : c.key ∈ cs.map Constant.key := hknown.mp ⟨e, he, hec⟩
        have hnone : [c.key].removeAll (cs.map Constant.key) = [] := by
          simpa [List.removeAll] using hold
        rw [heq, hnone, List.eraseDups_nil, List.append_nil]
      · have hfresh : c.key ∉ cs.map Constant.key := fun hk => by
          obtain ⟨e, he, hec⟩ := hknown.mpr hk
          exact hnew e he hec
        have hone : [c.key].removeAll (cs.map Constant.key) = [c.key] := by
          simpa [List.removeAll] using hfresh
        rw [heq, hone, Program.WellFormed.table_append hadd, List.map_append, List.map_singleton]
        rfl

/-! ## The texts of the table -/

theorem isPrintable_of_isNameChar {c : Char} (h : isNameChar c = true) : isPrintable c = true := by
  simp only [isNameChar, isNameStart, Bool.or_eq_true, Bool.and_eq_true, decide_eq_true_eq,
    beq_iff_eq] at h
  rcases h with ((⟨h1, h2⟩ | ⟨h1, h2⟩) | rfl) | ⟨h1, h2⟩
  · exact isPrintable_eq_true.mpr ⟨(by decide : 0x20 ≤ 'a'.toNat).trans h1,
      le_trans h2 (by decide : 'z'.toNat ≤ 0x7e)⟩
  · exact isPrintable_eq_true.mpr ⟨(by decide : 0x20 ≤ 'A'.toNat).trans h1,
      le_trans h2 (by decide : 'Z'.toNat ≤ 0x7e)⟩
  · decide
  · exact isPrintable_eq_true.mpr ⟨(by decide : 0x20 ≤ '0'.toNat).trans h1,
      le_trans h2 (by decide : '9'.toNat ≤ 0x7e)⟩

theorem printable_plainName {s : String} (h : isPlainName s = true) : Printable s := fun c hc =>
  isPrintable_of_isNameChar (Program.isNameChar_of_mem_plain h c hc)

theorem printable_signText (negative : Bool) : Printable (Decimal.signText negative) := by
  cases negative <;> simp [Decimal.signText, Printable, isPrintable]

theorem isPrintable_of_mem_digits {n : Nat} {ds : List Char} (hd : Nat.toDigits 10 n = ds) :
    ∀ c ∈ ds, isPrintable c = true := by
  intro c hc
  exact isPrintable_of_mem_toDigits (hd ▸ hc)

theorem isPrintable_of_mem_zeros {n : Nat} : ∀ c ∈ Decimal.zeros n, isPrintable c = true := by
  intro c hc
  rw [List.eq_of_mem_replicate hc]
  decide

theorem printable_positional (d : Decimal.Digits) {whole : String} (h : Printable whole) :
    Printable (d.positional whole) := by
  have hdigits := isPrintable_of_mem_digits (rfl : Nat.toDigits 10 d.digits = _)
  unfold Decimal.Digits.positional
  dsimp only
  split_ifs
  · refine (Printable.ofList fun c hc => ?_).append h
    exact (List.mem_append.mp hc).elim (hdigits c) (isPrintable_of_mem_zeros c)
  · refine Printable.ofList fun c hc => ?_
    rcases List.mem_append.mp hc with hc | hc
    · exact hdigits c (List.mem_of_mem_take hc)
    · rcases List.mem_cons.mp hc with rfl | hc
      · decide
      · exact hdigits c (List.mem_of_mem_drop hc)
  · refine Printable.ofList fun c hc => ?_
    simp only [List.cons_append, List.mem_cons, List.mem_append] at hc
    rcases hc with rfl | rfl | hc | hc
    · decide
    · decide
    · exact isPrintable_of_mem_zeros c hc
    · exact hdigits c hc

theorem printable_scientific (d : Decimal.Digits) : Printable d.scientific := by
  unfold Decimal.Digits.scientific
  have e : Printable "e" := by simp [Printable, isPrintable]
  split
  next => simp [Printable]
  next c hd =>
      exact ((Printable.ofList (isPrintable_of_mem_digits hd)).append e).append
        (printable_integer _)
  next c cs _ hd =>
      refine ((Printable.ofList fun a ha => ?_).append e).append (printable_integer _)
      rcases List.mem_cons.mp ha with rfl | ha
      · exact isPrintable_of_mem_digits hd _ List.mem_cons_self
      · rcases List.mem_cons.mp ha with rfl | ha
        · decide
        · exact isPrintable_of_mem_digits hd _ (List.mem_cons_of_mem c ha)

theorem printable_targetLiteral (d : Decimal.Double) : Printable d.targetLiteral := by
  cases d with
  | nan => simp [Decimal.Double.targetLiteral, Printable, isPrintable]
  | infinity negative =>
      exact (printable_signText negative).append (by simp [Printable, isPrintable])
  | finite negative m q =>
      simp only [Decimal.Double.targetLiteral]
      split_ifs
      · exact (printable_signText negative).append (by simp [Printable, isPrintable])
      · exact (printable_signText negative).append (printable_scientific _)
      · exact (printable_signText negative).append
          (printable_positional _ (by simp [Printable, isPrintable]))

theorem printable_applied {f : String} {arguments : List String} (hf : Printable f)
    (h : ∀ s ∈ arguments, Printable s) : Printable (applied f arguments) := by
  refine ((hf.append ?_).append (Printable.commaSeparated h)).append ?_
  all_goals simp [Printable, isPrintable]

/-- Texts that creations are made of, apart from the values. -/
theorem printable_creators : ∀ s ∈ ["INCREASE_REFCOUNT", "Py_None", "Py_Ellipsis", "Py_True",
    "Py_False", "PyInt_FromLong", "PyLong_FromString", "(char *)", "NULL", "10",
    "PyFloat_FromDouble", "PyString_FromStringAndSize", "PyUnicode_DecodeUTF8",
    "PyBytes_FromStringAndSize", "UNSTREAM_CONSTANT"], Printable s := by
  simp [Printable, isPrintable]

theorem printable_constantCreation (c : Constant) : Printable (constantCreation c) := by
  have named {s : String} := printable_creators s
  have reference {object : String} (h : Printable object) :
      Printable (applied "INCREASE_REFCOUNT" [object]) :=
    printable_applied (named (by simp)) (by simpa using h)
  have streamed (d : Constant) :
      Printable (applied "UNSTREAM_CONSTANT" [targetString (utf8 d.literal)]) :=
    printable_applied (named (by simp)) (by simpa using printable_targetString _)
  cases c with
  | none => exact reference (named (by simp))
  | ellipsis => exact reference (named (by simp))
  | bool value => cases value <;> exact reference (named (by simp))
  | int value =>
      simp only [constantCreation]
      split
      next => exact printable_applied (named (by simp)) (by simpa using printable_integer _)
      next =>
          refine printable_applied (named (by simp)) ?_
          simp only [List.mem_cons, List.not_mem_nil, or_false]
          rintro s (rfl | rfl | rfl)
          · exact (named (by simp)).append (printable_targetString _)
          · exact named (by simp)
          · exact named (by simp)
  | float bits =>
      exact printable_applied (named (by simp)) (by simpa using printable_targetLiteral _)
  | str value =>
      refine printable_applied (named (by simp)) ?_
      simpa using ⟨printable_targetString _, printable_natural _⟩
  | unicode value =>
      refine printable_applied (named (by simp)) ?_
      simpa using ⟨printable_targetString _, printable_natural _, named (by simp)⟩
  | bytes value =>
      refine printable_applied (named (by simp)) ?_
      simpa using ⟨printable_targetString _, printable_natural _⟩
  | tuple l => exact streamed (.tuple l)
  | list l => exact streamed (.list l)
  | set l => exact streamed (.set l)
  | dict l => exact streamed (.dict l)

/-- Each constant is declared on a line of its own. -/
theorem lines_constantDeclarations {p : Program} (h : p.WellFormed) :
    lines (constantDeclarations p) =
      p.table.map fun e => "extern PyObject *" ++ e.handle ++ ";" := by
  refine lines_unlines ?_ ?_
  · intro l hl
    obtain ⟨e, he, rfl⟩ := List.mem_map.mp hl
    refine Printable.isLine (Printable.append (Printable.append ?_
      (printable_plainName (h.isPlainName_handle he))) ?_)
    all_goals simp [Printable, isPrintable]
  · intro l hl
    obtain ⟨e, he, rfl⟩ := List.mem_map.mp (List.mem_of_getLast? hl)
    simp [terminated]

/-- Each constant is stored, and then made in the function that starts the program. -/
theorem lines_constantDefinitions {p : Program} (h : p.WellFormed) :
    lines (constantDefinitions p) =
      (p.table.map fun e => "PyObject *" ++ e.handle ++ ";") ++
      ["", "static void _initConstants()"] ++
      ("\x7b" :: (p.table.map fun e =>
        "    " ++ (e.handle ++ " = " ++ (constantCreation e.constant ++ ";"))) ++ ["\x7d"]) := by
  have ends : Printable "PyObject *" ∧ Printable ";" ∧ Printable " = " ∧
      Printable "static void _initConstants()" := by
    simp [Printable, isPrintable]
  obtain ⟨stored, semicolon, equals, entry⟩ := ends
  have made : ∀ l ∈ p.table.map fun e =>
      e.handle ++ " = " ++ terminated (constantCreation e.constant), IsLine l ∧ l ≠ "" := by
    intro l hl
    obtain ⟨e, he, rfl⟩ := List.mem_map.mp hl
    have handle := printable_plainName (h.isPlainName_handle he)
    refine ⟨Printable.isLine ((handle.append equals).append
      ((printable_constantCreation e.constant).append semicolon)), ?_⟩
    simp
  have hlead : ∀ l ∈ (p.table.map fun e => terminated ("PyObject *" ++ e.handle)) ++
      ["", "static void _initConstants()"], IsLine l := by
    intro l hl
    rcases List.mem_append.mp hl with hl | hl
    · obtain ⟨e, he, rfl⟩ := List.mem_map.mp hl
      exact Printable.isLine
        ((stored.append (printable_plainName (h.isPlainName_handle he))).append semicolon)
    · simp only [List.mem_cons, List.not_mem_nil, or_false] at hl
      rcases hl with rfl | rfl
      · exact ⟨by simp, by simp⟩
      · exact entry.isLine
  have hsplit : ∀ a b c : String, ∀ l : List String, l ++ [a, b, c] = l ++ [a, b] ++ [c] := by
    simp
  rw [constantDefinitions, hsplit, lines_unlines_concat hlead, lines_braced_of_lines made,
    List.map_map]
  rfl

/-! ## The names in the texts -/

/-- The plain name that a line holds between two fixed texts. -/
def nameBetween? (opening closing line : String) : Option String :=
  let cs := line.toList
  let rest := cs.drop opening.toList.length
  let name := String.ofList (rest.takeWhile isNameChar)
  if opening.toList <+: cs ∧ isPlainName name = true ∧
      closing.toList <+: rest.dropWhile isNameChar then some name
  else none

def namesBetween (opening closing text : String) : List String :=
  (lines text).filterMap (nameBetween? opening closing)

theorem takeWhile_name {name rest : List Char} (h : ∀ c ∈ name, isNameChar c = true)
    (hrest : ∀ c ∈ rest.head?, isNameChar c = false) :
    (name ++ rest).takeWhile isNameChar = name ∧ (name ++ rest).dropWhile isNameChar = rest := by
  rw [List.takeWhile_append_of_pos h, List.dropWhile_append_of_pos h]
  cases rest with
  | nil => simp
  | cons c rest =>
      have hc := hrest c rfl
      simp [hc]

theorem nameBetween?_of_plain {opening closing name line : String} {r : List Char}
    (h : isPlainName name = true)
    (hline : line.toList = opening.toList ++ (name.toList ++ (closing.toList ++ r)))
    (hclosing : ∃ c ∈ closing.toList.head?, isNameChar c = false) :
    nameBetween? opening closing line = some name := by
  obtain ⟨c, hc, hstop⟩ := hclosing
  have hhead : ∀ d ∈ (closing.toList ++ r).head?, isNameChar d = false := by
    intro d hd
    rw [List.head?_append, Option.mem_def.mp hc, Option.some_or] at hd
    rw [← Option.some.inj hd]
    exact hstop
  obtain ⟨htake, hdrop⟩ := takeWhile_name (Program.isNameChar_of_mem_plain h) hhead
  simp only [nameBetween?]
  rw [hline, List.drop_left, htake, hdrop, String.ofList_toList, if_pos]
  exact ⟨List.prefix_append _ _, h, List.prefix_append _ _⟩

theorem nameBetween?_of_not_prefix {opening closing line : String}
    (h : ¬ opening.toList <+: line.toList) : nameBetween? opening closing line = none :=
  if_neg fun hall => h hall.1

def announcedNames (declarations : String) : List String :=
  namesBetween "extern PyObject *" ";" declarations

def storedNames (definitions : String) : List String := namesBetween "PyObject *" ";" definitions

/-- The plain name that a line behind a margin assigns to, and what it is assigned. -/
def assignment? (line : String) : Option (String × String) := do
  let name ← nameBetween? "    " " = " line
  let value := line.toList.drop ("    " ++ name ++ " = ").length
  if value.getLast? = some ';' then some (name, String.ofList value.dropLast) else none

def initialisations (definitions : String) : List (String × String) :=
  (lines definitions).filterMap assignment?

def initialisedNames (definitions : String) : List String :=
  (initialisations definitions).map Prod.fst

theorem announcedNames_constantDeclarations {p : Program} (h : p.WellFormed) :
    announcedNames (constantDeclarations p) = p.table.map (·.handle) := by
  rw [announcedNames, namesBetween, lines_constantDeclarations h, List.filterMap_map,
    ← List.filterMap_eq_map]
  refine List.filterMap_congr fun e he => ?_
  refine nameBetween?_of_plain (r := []) (h.isPlainName_handle he) ?_ ⟨';', rfl, rfl⟩
  simp

theorem storedNames_constantDefinitions {p : Program} (h : p.WellFormed) :
    storedNames (constantDefinitions p) = p.table.map (·.handle) := by
  have hstored : (p.table.map fun e => "PyObject *" ++ e.handle ++ ";").filterMap
      (nameBetween? "PyObject *" ";") = p.table.map (·.handle) := by
    rw [List.filterMap_map, ← List.filterMap_eq_map]
    refine List.filterMap_congr fun e he => ?_
    refine nameBetween?_of_plain (r := []) (h.isPlainName_handle he) ?_ ⟨';', rfl, rfl⟩
    simp
  have hother : ∀ l : String, l.toList.head? ≠ some 'P' →
      nameBetween? "PyObject *" ";" l = none := by
    intro l hl
    refine nameBetween?_of_not_prefix fun hp => hl ?_
    obtain ⟨t, ht⟩ := hp
    rw [← ht]
    simp
  rw [storedNames, namesBetween, lines_constantDefinitions h, List.append_assoc,
    List.filterMap_append, hstored]
  refine (congrArg _ (List.filterMap_eq_nil_iff.mpr fun l hl => ?_)).trans (List.append_nil _)
  refine hother l ?_
  simp only [List.mem_append, List.mem_cons, List.mem_map, List.not_mem_nil, or_false] at hl
  rcases hl with (rfl | rfl) | (rfl | ⟨e, -, rfl⟩) | rfl
  all_goals simp

theorem assignment?_of_plain {name value : String} (h : isPlainName name = true) :
    assignment? ("    " ++ (name ++ " = " ++ (value ++ ";"))) = some (name, value) := by
  have hline : "    " ++ (name ++ " = " ++ (value ++ ";")) = "    " ++ name ++ " = " ++ (value ++ ";") := by
    simp only [String.append_assoc]
  have hname : nameBetween? "    " " = " ("    " ++ (name ++ " = " ++ (value ++ ";"))) = some name := by
    refine nameBetween?_of_plain (r := (value ++ ";").toList) h ?_ ⟨' ', rfl, rfl⟩
    simp only [String.toList_append, List.append_assoc]
  have hvalue : ("    " ++ (name ++ " = " ++ (value ++ ";"))).toList.drop
      ("    " ++ name ++ " = ").length = value.toList ++ [';'] := by
    rw [hline, String.toList_append, ← String.length_toList, List.drop_left, String.toList_append]
    rfl
  rw [assignment?, hname]
  change (if _ then _ else _) = _
  rw [hvalue, if_pos List.getLast?_concat, List.dropLast_concat, String.ofList_toList]

/-- Each constant is assigned what makes it, in the order of the table. -/
theorem initialisations_constantDefinitions {p : Program} (h : p.WellFormed) :
    initialisations (constantDefinitions p) =
      p.table.map fun e => (e.handle, constantCreation e.constant) := by
  have hmade : (p.table.map fun e =>
        "    " ++ (e.handle ++ " = " ++ (constantCreation e.constant ++ ";"))).filterMap assignment? =
      p.table.map fun e => (e.handle, constantCreation e.constant) := by
    rw [List.filterMap_map, ← List.filterMap_eq_map]
    exact List.filterMap_congr fun e he => assignment?_of_plain (h.isPlainName_handle he)
  have hother : ∀ l : String, l.toList.head? ≠ some ' ' → assignment? l = none := by
    intro l hl
    have hnone : nameBetween? "    " " = " l = none := by
      refine nameBetween?_of_not_prefix fun hp => hl ?_
      obtain ⟨t, ht⟩ := hp
      rw [← ht]
      simp
    rw [assignment?, hnone]
    rfl
  have hstored : ((p.table.map fun e => "PyObject *" ++ e.handle ++ ";") ++
      ["", "static void _initConstants()", "\x7b"]).filterMap assignment? = [] := by
    rw [List.filterMap_eq_nil_iff]
    intro l hl
    refine hother l ?_
    simp only [List.mem_append, List.mem_cons, List.mem_map, List.not_mem_nil, or_false] at hl
    rcases hl with ⟨e, -, rfl⟩ | rfl | rfl | rfl
    all_goals simp
  have hbrace : assignment? "\x7d" = none := hother _ (by simp)
  have hsplit : ∀ a b c d : String, ∀ l m : List String,
      l ++ [a, b] ++ (c :: m ++ [d]) = l ++ [a, b, c] ++ (m ++ [d]) := by
    simp
  rw [initialisations, lines_constantDefinitions h, hsplit, List.filterMap_append, hstored,
    List.nil_append, List.filterMap_append, hmade, List.filterMap_cons_none hbrace,
    List.filterMap_nil, List.append_nil]

theorem initialisedNames_constantDefinitions {p : Program} (h : p.WellFormed) :
    initialisedNames (constantDefinitions p) = p.table.map (·.handle) := by
  rw [initialisedNames, initialisations_constantDefinitions h, List.map_map]
  rfl

/-! ## Linked programs -/

theorem nodup_handles {p : Program} (h : p.WellFormed) : (p.table.map (·.handle)).Nodup := by
  refine (List.nodup_map_iff_inj_on ?_).mpr ?_
  · exact List.Nodup.of_map _ h.distinct
  · intro e he e' he' heq
    exact h.entry_unique he he' (Or.inr heq)

/-- Whatever constants are requested from an empty table, in whatever order: two requests get one
handle exactly for one key, every handle is a plain name, entries stay where they are in the
order of first use, and the two texts declare and store each handle once and assign to it once what
makes its constant. -/
theorem requests_linked (cs : List Constant) :
    (requests cs).1.length = cs.length ∧
    (∀ i j : Fin cs.length, (requests cs).1[i]? = (requests cs).1[j]? ↔ cs[i].key = cs[j].key) ∧
    (∀ handle ∈ (requests cs).1, isPlainName handle = true) ∧
    (∀ n, (requests (cs.take n)).2.table <+: (requests cs).2.table) ∧
    (requests cs).2.table.map (·.constant.key) = (cs.map Constant.key).eraseDups ∧
    (∀ i : Fin cs.length, ∃ e ∈ (requests cs).2.table,
      e.constant.key = cs[i].key ∧ (requests cs).1[i]? = some e.handle) ∧
    ((requests cs).2.table.map (·.handle)).Nodup ∧
    announcedNames (constantDeclarations (requests cs).2) = (requests cs).2.table.map (·.handle) ∧
    storedNames (constantDefinitions (requests cs).2) = (requests cs).2.table.map (·.handle) ∧
    initialisations (constantDefinitions (requests cs).2) =
      (requests cs).2.table.map fun e => (e.handle, constantCreation e.constant) := by
  obtain ⟨hwf, hanswers⟩ := requests_table cs
  have hlength : (requests cs).1.length = cs.length := hanswers.length_eq.symm
  have hanswer (i : Fin cs.length) : ∃ handle, (requests cs).1[i]? = some handle ∧
      ⟨cs[i], handle⟩ ∈ (requests cs).2.table := by
    have hi : i.val < (requests cs).1.length := i.isLt.trans_eq hlength.symm
    exact ⟨(requests cs).1[i.val], List.getElem?_eq_getElem hi, hanswers.get i.isLt hi⟩
  refine ⟨hlength, ?_, ?_, ?_, requests_keys cs, ?_, nodup_handles hwf,
    announcedNames_constantDeclarations hwf, storedNames_constantDefinitions hwf,
    initialisations_constantDefinitions hwf⟩
  · intro i j
    obtain ⟨handle, hi, hmem⟩ := hanswer i
    obtain ⟨handle', hj, hmem'⟩ := hanswer j
    rw [hi, hj, Option.some_inj]
    constructor
    · intro heq
      have hentry := hwf.entry_unique hmem hmem' (Or.inr heq)
      rw [(TableEntry.mk.inj hentry).1]
    · intro hkey
      have hentry := hwf.entry_unique hmem hmem' (Or.inl (Constant.key_injective hkey))
      exact (TableEntry.mk.inj hentry).2
  · intro handle hmem
    obtain ⟨i, hi, rfl⟩ := List.mem_iff_getElem.mp hmem
    exact hwf.isPlainName_handle (hanswers.get (hi.trans_eq hlength) hi)
  · intro n
    have hprefix := requests_prefix (cs.take n) (cs.drop n)
    rw [List.take_append_drop] at hprefix
    exact hprefix
  · intro i
    obtain ⟨handle, hi, hmem⟩ := hanswer i
    exact ⟨_, hmem, rfl, hi⟩

end CompilerBackend
