import CompilerBackend.Target.Builtin
import CompilerBackend.Target.Exception
import CompilerBackend.Proofs.Target.Operands
/-!
# The text of calls, builtins and raises

The writers of calls keep solid text solid as well, with one exception: a call with named
arguments alone writes the name of the empty tuple without asking the table for it
(`fine_functionCall`).
-/

namespace CompilerBackend.Target

open Text Program

variable {w : Wording} {H : Prop} {codeName name : String} {o p q r : Operand}
  {t d sl sd : Option Operand} {os : List Operand}

/-! ## Calls -/

/-- The name that stands in a call for an absent tuple of positional arguments. -/
def emptyTupleName : String := "const_tuple_empty"

/-- A call is fine, given that the name of the empty tuple is allowed where it stands for absent
positional arguments. -/
theorem fine_functionCall (ho : o.Fine w) (ht : ∀ o ∈ t, o.Fine w) (hd : ∀ o ∈ d, o.Fine w)
    (hsl : ∀ o ∈ sl, o.Fine w) (hsd : ∀ o ∈ sd, o.Fine w)
    (hempty : t = none → d ≠ none → sl = none → sd = none → w.Allows emptyTupleName) :
    (functionCall o t d sl sd).Fine w := by
  unfold functionCall
  dsimp only
  split
  · refine Term.call (by rfl) ?_
    simpa using ⟨ho.asArgument, orElse_phrase ht (by rfl), orElse_phrase hd (by rfl),
      orElse_phrase hsl (by rfl), orElse_phrase hsd (by rfl)⟩
  next hstars =>
    simp only [Bool.or_eq_true, Option.isSome_iff_ne_none, not_or, not_not] at hstars
    split
    · exact Term.call (by rfl) (by simpa using ho.asArgument)
    next t =>
      exact Term.call (by rfl) (by simpa using ⟨ho.asArgument, (ht t rfl).asArgument⟩)
    next d =>
      have htuple : Phrase w (orElse t "const_tuple_empty") := by
        cases t with
        | some t => exact (ht t rfl).asArgument
        | none =>
            have hname : isPlainName emptyTupleName = true := by decide +kernel
            have hstart : handleStart.toList <+: emptyTupleName.toList :=
              List.isPrefixOf_iff_prefix.mp (by decide +kernel)
            exact (Term.of_handle (isNameChar_of_mem_plain hname) hstart
              (hempty rfl (Option.some_ne_none d) hstars.1 hstars.2)).phrase
      exact Term.call (by rfl) (by simpa using ⟨ho.asArgument, htuple, (hd d rfl).asArgument⟩)

theorem fine_yielded (forReturn : Bool) (h : o.Fine w) : (yielded o forReturn).Fine w := by
  have hargs : ∀ s ∈ ["generator", o.handedOver], Phrase w s := by
    simpa using ⟨Phrase.text (by rfl), h.handedOver.phrase⟩
  cases forReturn <;> exact Term.call (by rfl) hargs

/-! ## Imports -/

theorem fine_importModule {name globals locals names level : Operand} (hn : name.Fine w)
    (hg : globals.Fine w) (hl : locals.Fine w) (hns : names.Fine w) (hlevel : level.Fine w) :
    (importModule name globals locals names level).Fine w :=
  Term.call (by rfl) (asArguments_phrases (by simpa using ⟨hn, hg, hl, hns, hlevel⟩))

theorem fine_importName (hp : p.Fine w) (hq : q.Fine w) : (importName p q).Fine w :=
  Term.call (by rfl) (by simpa using ⟨hq.asArgument, hp.asArgument⟩)

/-! ## Builtins -/

theorem interned_builtinReference (name : String) :
    Interned w H (builtinReference name) (Operand.Fine w) :=
  (interned_handleOfText name).bind fun _ => Interned.pure fun h =>
    Term.call (by rfl) (by simpa using h.2.phrase)

theorem fine_anonymousBuiltin (h : Named w name) (hglued : Worded w ("Py" ++ name ++ "_Type")) :
    (anonymousBuiltin name).Fine w := by
  have hsplit : "(PyObject *)&Py" ++ name ++ "_Type" =
      "(PyObject *)&" ++ ("Py" ++ name ++ "_Type") := by
    simp only [← String.append_assoc]
    rfl
  refine ⟨⟨⟨?_, fun ht => ?_, ?_⟩, ((starts_of_isHead (by rfl)).append _).append _,
    fun _ => (stops_of_code (by rfl) (by rfl)).append _⟩, fun hp => ?_⟩
  · show Worded w ("(PyObject *)&Py" ++ name ++ "_Type")
    rw [hsplit]
    exact Worded.lead (by rfl) hglued
  · exact ((inline_of_isLead (by rfl)).append (h.piece.inline ht)).append (inline_of_isLead (by rfl))
  · exact ((inline_of_isLead (by rfl)).spared.append h.spared).append
      (inline_of_isLead (by rfl)).spared
  · exact ((flat_of_isFlat (by rfl) (by rfl)).append (Flat.of_name (h.identifier hp))).append
      (flat_of_isFlat (by rfl) (by rfl))

theorem fine_exceptionReference (h : Named w name) : (exceptionReference name).Fine w :=
  h.lead (by rfl)

theorem interned_exceptionCreation (h : Named w name) (hos : H → ∀ o ∈ os, o.Fine w) :
    Interned w H (exceptionCreation name os) (Operand.Fine w) := by
  have htype : Term w ("PyExc_" ++ name) := h.lead (by rfl)
  unfold exceptionCreation
  dsimp only
  split
  · exact Interned.pure fun _ => Term.call (by rfl) (by simpa using htype.phrase)
  · refine (interned_tupleCreation hos).bind fun tuple => Interned.pure fun htuple => ?_
    exact Term.call (by rfl) (by simpa using ⟨htype.phrase, htuple.2.asArgument⟩)

theorem term_unaryBuiltinHelper (fn : UnaryBuiltin) : Term w (unaryBuiltinHelper fn) := by
  cases fn <;> exact Term.text (by rfl)

theorem fine_unaryBuiltin (fn : UnaryBuiltin) (h : o.Fine w) : (unaryBuiltin fn o).Fine w := by
  have hcode : Term w (applied (unaryBuiltinHelper fn) [o.asArgument]) :=
    (term_unaryBuiltinHelper fn).applied (by simpa using h.asArgument)
  unfold unaryBuiltin
  dsimp only
  split <;> exact hcode

theorem fine_range {high step : Option Operand} (ho : o.Fine w) (hh : ∀ o ∈ high, o.Fine w)
    (hs : ∀ o ∈ step, o.Fine w) : (range o high step).Fine w := by
  unfold range
  split
  · exact Term.call (by rfl) (by simpa using ho.asArgument)
  next h => exact Term.call (by rfl) (by simpa using ⟨ho.asArgument, (hh h rfl).asArgument⟩)
  next s =>
    refine Term.call (by rfl) ?_
    simpa using ⟨ho.asArgument, orElse_phrase hh (by rfl), (hs s rfl).asArgument⟩

theorem fine_iterWithSentinel (hp : p.Fine w) (hq : q.Fine w) : (iterWithSentinel p q).Fine w :=
  Term.call (by rfl) (by simpa using ⟨hp.asArgument, hq.asArgument⟩)

theorem fine_nextWithDefault (hp : p.Fine w) (hq : q.Fine w) : (nextWithDefault p q).Fine w :=
  Term.call (by rfl) (by simpa using ⟨hp.asArgument, hq.asArgument⟩)

theorem interned_typeOfThree (moduleName : String) (hp : H → p.Fine w) (hq : H → q.Fine w)
    (hr : H → r.Fine w) : Interned w H (typeOfThree moduleName p q r) (Operand.Fine w) := by
  refine (interned_handleOfText moduleName).bind fun handle => Interned.pure fun h => ?_
  refine Term.call (by rfl) (List.forall_mem_cons.mpr ⟨h.2.phrase, asArguments_phrases ?_⟩)
  simpa using ⟨hp h.1, hq h.1, hr h.1⟩

theorem fine_integer (kind : IntegerKind) {value base : Option Operand}
    (hv : ∀ o ∈ value, o.Fine w) (hb : ∀ o ∈ base, o.Fine w) : (integer kind value base).Fine w := by
  unfold integer
  dsimp only
  split
  · split <;> exact Term.call (by rfl) (by simpa using Phrase.text (by rfl))
  next v =>
    cases kind <;> exact Term.call (by rfl) (by simpa using (hv v rfl).asArgument)
  next b =>
    have hargs : ∀ s ∈ [orElse value "NULL", b.asArgument], Phrase w s := by
      simpa using ⟨orElse_phrase hv (by rfl), (hb b rfl).asArgument⟩
    cases kind <;> exact (Term.text (by rfl)).applied hargs

theorem fine_dict (ht : ∀ o ∈ t, o.Fine w) (hd : ∀ o ∈ d, o.Fine w) : (dict t d).Fine w :=
  Term.call (by rfl) (by simpa using ⟨orElse_phrase ht (by rfl), orElse_phrase hd (by rfl)⟩)

theorem fine_openFile (ht : ∀ o ∈ t, o.Fine w) (hd : ∀ o ∈ d, o.Fine w)
    (hsl : ∀ o ∈ sl, o.Fine w) : (openFile t d sl).Fine w :=
  Term.call (by rfl)
    (by simpa using ⟨orElse_phrase ht (by rfl), orElse_phrase hd (by rfl), orElse_phrase hsl (by rfl)⟩)

theorem phrase_futureFlags (f : FutureFlags) : Phrase w (futureFlags f) := by
  have hflags : ∀ s ∈ flagNames f, Phrase w s := by
    have hnames : Phrase w "CO_FUTURE_DIVISION" ∧ Phrase w "CO_FUTURE_UNICODE_LITERALS" ∧
        Phrase w "CO_FUTURE_ABSOLUTE_IMPORT" ∧ Phrase w "CO_FUTURE_PRINT_FUNCTION" :=
      ⟨Phrase.text (by rfl), Phrase.text (by rfl), Phrase.text (by rfl), Phrase.text (by rfl)⟩
    obtain ⟨h1, h2, h3, h4⟩ := hnames
    unfold flagNames
    intro s hs
    simp only [List.mem_append] at hs
    rcases hs with ((hs | hs) | hs) | hs
    all_goals
      split at hs
      next =>
        rw [List.mem_singleton.mp hs]
        assumption
      next => exact nomatch hs
  unfold futureFlags
  split
  · exact Phrase.text (by rfl)
  · exact Phrase.intercalate (by rfl) hflags

/-- What running source text needs, all of it fine. -/
structure EvalParts.Fine (w : Wording) (p : EvalParts) : Prop where
  source : p.source.Fine w
  globals : p.globals.Fine w
  locals : p.locals.Fine w
  filename : p.filename.Fine w
  mode : p.mode.Fine w
  flags : Phrase w p.flags

theorem fine_evaluation {p : EvalParts} (h : p.Fine w) : (evaluation p).Fine w := by
  have hcompiled : Phrase w (applied "COMPILE_CODE"
      [p.source.asArgument, p.filename.asArgument, p.mode.asArgument, p.flags]) :=
    (Term.call (by rfl) (by
      simpa using ⟨h.source.asArgument, h.filename.asArgument, h.mode.asArgument, h.flags⟩)).phrase
  exact Term.call (by rfl) (by simpa using ⟨hcompiled, h.globals.asArgument, h.locals.asArgument⟩)

theorem fine_listAppend (hp : p.Fine w) (hq : q.Fine w) : (listAppend p q).Fine w :=
  Term.call (by rfl) (by simpa using ⟨hp.asArgument, hq.asArgument⟩)

theorem fine_setAdd (hp : p.Fine w) (hq : q.Fine w) : (setAdd p q).Fine w :=
  Term.call (by rfl) (by simpa using ⟨hp.asArgument, hq.asArgument⟩)

theorem fine_dictSet (hp : p.Fine w) (hq : q.Fine w) (hr : r.Fine w) : (dictSet p q r).Fine w :=
  Term.call (by rfl) (by simpa using ⟨hp.asArgument, hq.asArgument, hr.asArgument⟩)

theorem fine_unpackNext (count : Nat) (h : o.Fine w) : (unpackNext o count).Fine w :=
  Term.call (by rfl) (by simpa using ⟨h.asArgument, (term_natural count).phrase⟩)

/-! ## Raising -/

theorem phrase_tracebackMaker (line : Nat) : Phrase w (tracebackMaker line) :=
  (Term.call (by rfl) (by simpa using ⟨Phrase.text (by rfl), (term_natural line).phrase⟩)).phrase

theorem handedOver_phrases {value : Option Operand} (h : ∀ o ∈ value, o.Fine w) :
    ∀ s ∈ (value.map Operand.handedOver).toList, Phrase w s := by
  cases value with
  | none => exact fun _ hs => nomatch hs
  | some v => simpa using (h v rfl).handedOver.phrase

theorem fine_raiseExpression {value : Option Operand} {maker : String}
    (hos : ∀ o ∈ os, o.Fine w) (ho : o.Fine w) (hv : ∀ o ∈ value, o.Fine w)
    (hm : Phrase w maker) : (raiseExpression os o value maker).Fine w := by
  have hraise : Term w (applied "THROW_EXCEPTION"
      (o.handedOver :: (value.map Operand.handedOver).toList ++ [maker])) := by
    refine Term.call (by rfl) fun s hs => ?_
    simp only [List.cons_append, List.mem_cons, List.mem_append, List.not_mem_nil, or_false] at hs
    rcases hs with rfl | hs | rfl
    · exact ho.handedOver.phrase
    · exact handedOver_phrases hv s hs
    · exact hm
  unfold raiseExpression
  dsimp only
  split
  · exact hraise
  · refine Term.between (by rfl) (Phrase.commaSeparated fun s hs => ?_) (by rfl)
    rcases List.mem_append.mp hs with hs | hs
    · obtain ⟨e, he, rfl⟩ := List.mem_map.mp hs
      exact (hos e he).dropped.phrase
    · rw [List.mem_singleton.mp hs]
      exact hraise.phrase

theorem fine_caughtPart (part : CaughtPart) : (caughtPart part).Fine w := by
  cases part <;> exact Term.text (by rfl)

theorem fine_fetchedItem (n : Nat) : (fetchedItem n).Fine w := (term_natural n).lead (by rfl)

end CompilerBackend.Target
