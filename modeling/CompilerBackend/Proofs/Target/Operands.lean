import CompilerBackend.Target.Access
import CompilerBackend.Target.Builtin
import CompilerBackend.Target.Exception
import CompilerBackend.Proofs.Target.Interned
/-!
# The text of operands

Every writer of operands makes solid text of solid text. There is one lemma for each writer; the
lowering of expressions uses them and nothing else about the text.
-/

namespace CompilerBackend

open Text Target Program

def Operand.Fine (w : Wording) (o : Operand) : Prop := Term w o.code

variable {w : Wording} {H : Prop} {o : Operand}

/-- Code without a blank margin passes the check that every expression makes. -/
theorem Operand.defect?_of_hasNoMargin (hblank : isBlankText o.code = false)
    (hmargin : hasNoMargin o.code = true) : o.defect? = none := by
  have hne : o.code.isEmpty = false := by
    rw [Bool.eq_false_iff, Ne, String.isEmpty_iff]
    intro hnil
    rw [hnil] at hblank
    exact Bool.noConfusion hblank
  rw [defect?, hne, hmargin]
  rfl

namespace Operand.Fine

theorem defect?_eq_none (h : o.Fine w) (ht : w.tight) : o.defect? = none :=
  defect?_of_hasNoMargin h.solid.starts.isBlankText_eq_false
    (hasNoMargin_of_solid h.solid.starts (h.solid.stops ht))

theorem term_asArgument (h : o.Fine w) : Term w o.asArgument := by
  unfold Operand.asArgument
  split
  · exact (Term.call (by rfl) (by simpa using h.phrase)).tail (by rfl)
  · exact h

theorem asArgument (h : o.Fine w) : Phrase w o.asArgument := h.term_asArgument.phrase

theorem handedOver (h : o.Fine w) : Term w o.handedOver := by
  unfold Operand.handedOver
  split
  · exact h
  · exact Term.call (by rfl) (by simpa using h.phrase)

theorem dropped (h : o.Fine w) : Term w o.dropped := by
  unfold Operand.dropped
  split
  · exact Term.call (by rfl) (by simpa using h.phrase)
  · exact h

end Operand.Fine

namespace Target

theorem asArguments_terms {os : List Operand} (h : ∀ o ∈ os, o.Fine w) :
    ∀ s ∈ asArguments os, Term w s := by
  intro s hs
  obtain ⟨o, ho, rfl⟩ := List.mem_map.mp hs
  exact (h o ho).term_asArgument

theorem asArguments_phrases {os : List Operand} (h : ∀ o ∈ os, o.Fine w) :
    ∀ s ∈ asArguments os, Phrase w s := fun s hs => (asArguments_terms h s hs).phrase

theorem orElse_phrase {o : Option Operand} (h : ∀ p ∈ o, p.Fine w) {absent : String}
    (ha : (isLead absent && isFlat absent) = true) : Phrase w (orElse o absent) := by
  cases o with
  | none => exact Phrase.text ha
  | some o => exact (h o rfl).asArgument

/-! ## Constants and variables -/

theorem fine_tableAccess (c : Constant) {handle : String} (h : Term w handle) :
    (tableAccess c handle).Fine w := by
  unfold tableAccess
  split
  · exact Term.call (by rfl) (by simpa using h.phrase)
  · exact Term.call (by rfl) (by simpa using h.phrase)
  · exact Term.call (by rfl) (by simpa using h.phrase)
  · split
    · exact Term.call (by rfl) (by simpa using h.phrase)
    · exact h
  · exact h

theorem interned_constantFromTable (c : Constant) :
    Interned w H (constantFromTable c) (Operand.Fine w) :=
  (interned_handleOf c).bind fun _ => Interned.pure fun h => fine_tableAccess c h.2

theorem interned_constantAccess (c : Constant) :
    Interned w H (constantAccess c) (Operand.Fine w) := by
  unfold constantAccess
  split
  · exact Interned.pure fun _ => Term.text (by rfl)
  · exact Interned.pure fun _ => Term.text (by rfl)
  · exact Interned.pure fun _ => Term.text (by rfl)
  · exact Interned.pure fun _ => Term.text (by rfl)
  · exact interned_constantFromTable c

/-- The name of a module as part of target names. -/
def IsIdentifier (codeName : String) : Prop := ∀ c ∈ codeName.toList, isNameChar c = true

variable {codeName name : String} {v : Variable}

/-- What is named after a module is a term. -/
structure CodeNamed (w : Wording) (codeName : String) : Prop where
  globalStorage : ∀ {name : String}, Named w name → Term w (globalStorage codeName name)
  moduleVariable : Term w (moduleVariable codeName)

theorem IsIdentifier.codeNamed (hc : IsIdentifier codeName) : CodeNamed w codeName where
  globalStorage h := by
    refine h.behindName (a := "_mvar_" ++ codeName ++ "_") (fun c hmem => ?_) (by simp)
    simp only [String.toList_append, List.mem_append] at hmem
    rcases hmem with (hmem | hmem) | hmem
    · exact isNameChar_of_mem_plain (s := "_mvar_") (by decide) c hmem
    · exact hc c hmem
    · exact isNameChar_of_mem_plain (s := "_") (by decide) c hmem
  moduleVariable := by
    rw [Target.moduleVariable, ← String.append_empty (s := "_module_" ++ codeName)]
    refine Named.empty.behindName (fun c hmem => ?_) (by simp)
    rw [String.toList_append, List.mem_append] at hmem
    rcases hmem with hmem | hmem
    · exact isNameChar_of_mem_plain (s := "_module_") (by decide) c hmem
    · exact hc c hmem

theorem term_localStorage (h : Named w name) : Term w (localStorage name) :=
  h.lead (by rfl)

theorem term_closureStorage (h : Named w name) : Term w (closureStorage name) :=
  h.lead (by rfl)

theorem term_temporaryStorage (h : Named w name) : Term w (temporaryStorage name) :=
  h.lead (by rfl)

theorem term_storage (hc : CodeNamed w codeName) (h : Named w v.name) :
    Term w (storage codeName v) := by
  unfold storage
  split
  · exact term_localStorage h
  · exact term_localStorage h
  · exact term_localStorage h
  · exact term_closureStorage h
  · exact hc.globalStorage h
  · exact term_temporaryStorage h

theorem fine_variableAccess (hc : CodeNamed w codeName) (h : Named w v.name) :
    (variableAccess codeName v).Fine w := (term_storage hc h).tail (by rfl)

theorem fine_assignmentExpression (hc : CodeNamed w codeName) (h : Named w v.name)
    (ho : o.Fine w) : (assignmentExpression codeName v o).Fine w :=
  ((term_storage hc h).tail (by rfl)).applied (by simpa using ho.handedOver.phrase)

theorem fine_defaultAccess (h : Named w v.name) : (defaultAccess v).Fine w :=
  h.lead (by rfl)

/-! ## Namespaces -/

theorem fine_globalsDict (hc : CodeNamed w codeName) : (globalsDict codeName).Fine w := by
  have h := hc.moduleVariable.phrase
  exact Term.between (a := "((PyModuleObject *)") (b := ")->md_dict") (by rfl) h
    (by rfl)

theorem fine_liveLocals : liveLocals.Fine w := Term.text (by rfl)

theorem interned_localEntry (h : H → Named w v.name) : Interned w H (localEntry v) (Phrase w) := by
  refine (interned_handleOfText v.name).bind fun handle => Interned.pure fun hhandle => ?_
  exact hhandle.2.phrase.sep (by rfl) (term_localStorage (h hhandle.1)).phrase

def localNames : Provider → List String
  | .function f => (f.parameters.all ++ f.userVariables).map (·.name)
  | _ => []

theorem interned_localsDict (hc : CodeNamed w codeName) {p : Provider} (mode : LocalsMode)
    (h : H → ∀ n ∈ localNames p, Named w n) :
    Interned w H (localsDict codeName p mode) (Operand.Fine w) := by
  unfold localsDict
  split
  · exact Interned.pure fun _ => fine_globalsDict hc
  · exact Interned.pure fun _ => fine_liveLocals
  · exact Interned.pure fun _ => fine_liveLocals
  next f =>
    refine Interned.bind (Interned.mapM fun v hv =>
      interned_localEntry fun hH => h hH v.name (List.mem_map_of_mem hv)) fun entries => ?_
    split
    · exact Interned.pure fun _ => Term.nullary (Term.text (by rfl))
    · refine Interned.pure fun h => Term.call (by rfl) ?_
      exact List.forall_mem_cons.mpr ⟨(term_natural _).phrase, h.2⟩

theorem interned_dirList (hc : CodeNamed w codeName) {p : Provider}
    (h : H → ∀ n ∈ localNames p, Named w n) :
    Interned w H (dirList codeName p) (Operand.Fine w) := by
  refine (interned_localsDict hc .copy h).bind fun o => Interned.pure fun ho => ?_
  exact Term.call (by rfl) (by simpa using ho.2.asArgument)

/-! ## Attributes, subscripts and slices -/

variable {p q r : Operand}

theorem fine_attributeLookup (hp : p.Fine w) (hq : q.Fine w) : (attributeLookup p q).Fine w :=
  Term.call (by rfl) (by simpa using ⟨hq.asArgument, hp.asArgument⟩)

theorem fine_specialAttributeLookup (hp : p.Fine w) (hq : q.Fine w) :
    (specialAttributeLookup p q).Fine w :=
  Term.call (by rfl) (by simpa using ⟨hq.asArgument, hp.asArgument⟩)

theorem fine_subscriptLookup (hp : p.Fine w) (hq : q.Fine w) : (subscriptLookup p q).Fine w :=
  Term.call (by rfl) (by simpa using ⟨hp.asArgument, hq.asArgument⟩)

theorem phrase_openLowerBound : Phrase w openLowerBound := Phrase.text (by rfl)

theorem phrase_openUpperBound : Phrase w openUpperBound := Phrase.text (by rfl)

theorem phrase_constantBound (value : Int) : Phrase w (constantBound value) :=
  (term_integer value).phrase

variable {l u st : Option Operand}

theorem fine_sliceObject (hl : ∀ o ∈ l, o.Fine w) (hu : ∀ o ∈ u, o.Fine w)
    (hst : ∀ o ∈ st, o.Fine w) : (sliceObject l u st).Fine w :=
  Term.call (by rfl)
    (by simpa using ⟨orElse_phrase hl (by rfl), orElse_phrase hu (by rfl), orElse_phrase hst (by rfl)⟩)

theorem fine_indexedSliceLookup (ho : o.Fine w) {lower upper : String} (hl : Phrase w lower)
    (hu : Phrase w upper) : (indexedSliceLookup o lower upper).Fine w :=
  Term.call (by rfl) (by simpa using ⟨ho.asArgument, hl, hu⟩)

theorem fine_sliceLookup (ho : o.Fine w) (hl : ∀ o ∈ l, o.Fine w) (hu : ∀ o ∈ u, o.Fine w) :
    (sliceLookup o l u).Fine w :=
  Term.call (by rfl)
    (by simpa using ⟨ho.asArgument, orElse_phrase hl (by rfl), orElse_phrase hu (by rfl)⟩)

/-! ## Containers -/

variable {os : List Operand}

/-- The names of helpers begin in one way only. -/
theorem helper_eq_of_begins {h h' : Helper} {n : Nat}
    (hpre : h'.start.toList <+: (h.name n).toList) : h' = h := by
  have hown : h.start.toList <+: (h.name n).toList := by
    rw [Helper.name, String.toList_append]
    exact List.prefix_append _ _
  have hstarts : ∀ h h' : Helper, h.start.toList <+: h'.start.toList → h = h' := by
    intro h h' hpre
    have hmatch := List.isPrefixOf_iff_prefix.mpr hpre
    cases h <;> cases h' <;> first | rfl | exact absurd hmatch (by decide)
  rcases List.prefix_or_prefix_of_prefix hpre hown with hle | hle
  · exact hstarts h' h hle
  · exact (hstarts h h' hle).symm

theorem isNameChar_of_mem_helperName (h : Helper) (n : Nat) :
    ∀ c ∈ (h.name n).toList, isNameChar c = true := by
  have hplain : isPlainName h.start = true := by cases h <;> decide
  intro c hc
  rw [Helper.name, String.toList_append, List.mem_append] at hc
  rcases hc with hc | hc
  · exact isNameChar_of_mem_plain hplain c hc
  · exact isNameChar_of_isDigit (isDigit_of_mem_natural hc)

/-- The name of a helper in front of what it is called with. -/
theorem worded_helper (h : Helper) (n : Nat) {s : String} (hs : Worded w s)
    (hstart : StartsApart s.toList) (hserves : w.serving → w.Serves h (h.name n) s.toList) :
    Worded w (h.name n ++ s) := by
  intro word behind hword
  rw [IsTokenBefore, String.toList_append] at hword
  rcases hword.append_apart (Or.inr hstart) with ⟨near, hnear, rfl⟩ | hword
  · have hwhole := IsRun.eq_of_name (isNameChar_of_mem_helperName h n) hnear.isRun
    obtain rfl : near = [] := by
      obtain ⟨before, hsplit, -⟩ := hnear
      have hlength := congrArg List.length hsplit
      rw [hwhole, List.length_append, List.length_append] at hlength
      exact List.length_eq_zero_iff.mp (by omega)
    rw [String.toList_inj.mp hwhole]
    -- a helper begins with another letter than a handle or the conversion to an index
    have hfirst : (h.name n).toList.head? = some 'M' := by
      rw [Helper.name, String.toList_append, List.head?_append]
      cases h <;> rfl
    refine ⟨⟨?_, ?_⟩, fun hp h' hpre => ?_⟩
    · rintro ⟨rest, hrest⟩
      rw [← hrest, handleStart] at hfirst
      exact absurd (Option.some.inj hfirst) (by decide)
    · rintro ⟨rest, hrest⟩
      rw [← hrest, indexStart] at hfirst
      exact absurd (Option.some.inj hfirst) (by decide)
    · rw [helper_eq_of_begins hpre]
      exact hserves hp
  · exact hs word behind hword

/-- The name of a helper is harmless apart from what it stands for. -/
theorem term_helper (h : Helper) (n : Nat) {s : String} (hs : Piece w s) (hstops : Stops s)
    (hflat : w.plain → Flat s) (hstart : StartsApart s.toList)
    (hserves : w.serving → w.Serves h (h.name n) s.toList) : Term w (h.name n ++ s) := by
  have hname : ∀ c ∈ (h.name n).toList, isBlank c = false := fun c hc =>
    isBlank_of_isNameChar (isNameChar_of_mem_helperName h n c hc)
  have hne : h.name n ≠ "" := by
    intro hnil
    exact natural_ne_empty n (String.append_eq_empty_iff.mp hnil).2
  have hstarts : Starts (h.name n) := starts_of_visible hname hne fun hfirst => by
    rw [Helper.name, String.toList_append, List.head?_append] at hfirst
    cases h <;> exact absurd (Option.some.inj hfirst) (by decide)
  exact ⟨⟨⟨worded_helper h n hs.worded hstart hserves, fun ht =>
    (inline_of_visible hname).append (hs.inline ht),
    (inline_of_visible hname).spared.append hs.spared⟩, hstarts.append s,
    fun _ => hstops.append _⟩, fun hp =>
    (Flat.of_name (isNameChar_of_mem_helperName h n)).append (hflat hp)⟩

/-- A helper of a recorded size, called with as many terms as it takes. -/
theorem term_helperCall (h : Helper) {n : Nat} (hn : n ∈ h.sizes w.program)
    {arguments : List String} (harguments : ∀ s ∈ arguments, Term w s)
    (hlength : arguments.length = h.arity n)
    (hpairs : w.serving → h = .dict → ∃ keys values, w.pairs keys values ∧
      arguments = dictArguments keys values) : Term w (applied (h.name n) arguments) := by
  have hpiece : Piece w ("( " ++ (commaSeparated arguments ++ " )")) :=
    ((Piece.commaSeparated fun s hs => (harguments s hs).piece).tail (by rfl)).lead (by rfl)
  have hflat (hp : w.plain) : Flat ("( " ++ (commaSeparated arguments ++ " )")) := by
    have hlevel := Level.intercalate level_comma fun s hs => ((harguments s hs).flat hp).level
    rw [← String.append_assoc]
    exact hlevel.between (by decide) (by decide +kernel)
  have hstops : Stops ("( " ++ (commaSeparated arguments ++ " )")) :=
    Stops.append _ (Stops.append _ (stops_of_code (by rfl) (by rfl)))
  have hserves (hp : w.serving) :
      w.Serves h (h.name n) ("( " ++ (commaSeparated arguments ++ " )")).toList := by
    have hread := callArguments?_applied (fun s hs => (harguments s hs).flat hp.1)
      (fun s hs => (harguments s hs).solid.starts.isBlankText_eq_false) []
    refine ⟨n, hn, rfl, arguments.map trim, ?_, ?_, fun hdict => ?_⟩
    · rw [← hread, String.toList_append, String.toList_append, List.append_nil, List.append_assoc]
    · rw [List.length_map]
      exact hlength
    · obtain ⟨keys, values, hkv, rfl⟩ := hpairs hp hdict
      exact ⟨keys, values, hkv, rfl⟩
  rw [applied, String.append_assoc, String.append_assoc]
  exact term_helper h n hpiece hstops hflat (startsApart_append_of_isTail (by rfl) _) hserves

/-- The helper of an empty container, without blanks in its parentheses. -/
theorem term_helperNullary (h : Helper) {n : Nat} (hn : n ∈ h.sizes w.program)
    (hzero : h.arity n = 0) (hpairs : w.serving → h = .dict → w.pairs [] []) :
    Term w (nullary (h.name n)) :=
  term_helper h n (Piece.text (by rfl)) (stops_of_code (by rfl) (by rfl))
    (fun _ => flat_of_isFlat (by rfl) (by rfl)) (startsApart_of_isTail (by rfl)) fun hp =>
      ⟨n, hn, rfl, [], rfl, hzero.symm, fun hdict => ⟨[], [], hpairs hp hdict, rfl⟩⟩

theorem interned_tupleCreation (h : H → ∀ o ∈ os, o.Fine w) :
    Interned w H (tupleCreation os) (Operand.Fine w) := by
  refine (interned_recordTuple os.length).bind fun _ => Interned.pure fun hH => ?_
  refine term_helperCall .tuple hH.2 (asArguments_terms (h hH.1)) ?_ fun _ hdict => nomatch hdict
  exact List.length_map _

theorem interned_listCreation (h : H → ∀ o ∈ os, o.Fine w) :
    Interned w H (listCreation os) (Operand.Fine w) := by
  refine (interned_recordList os.length).bind fun _ => Interned.pure fun hH => ?_
  have hlength : (asArguments os).length = os.length := List.length_map _
  change Term w (appliedIfAny (Helper.list.name os.length) (asArguments os))
  unfold appliedIfAny
  split
  next hnil =>
    rw [List.isEmpty_iff] at hnil
    rw [hnil] at hlength
    exact term_helperNullary .list hH.2 hlength.symm fun _ hdict => nomatch hdict
  next =>
    exact term_helperCall .list hH.2 (asArguments_terms (h hH.1)) hlength fun _ hdict => nomatch hdict

theorem fine_setCreation (h : ∀ o ∈ os, o.Fine w) : (setCreation os).Fine w := by
  unfold setCreation
  split
  · exact Term.call (by rfl) (by simpa using Phrase.text (by rfl))
  · exact Term.call (by rfl)
      (List.forall_mem_cons.mpr ⟨(term_natural _).phrase, asArguments_phrases h⟩)

theorem length_dictArguments {ks vs : List Operand} (h : ks.length = vs.length) :
    (dictArguments ks vs).length = 2 * ks.length := by
  rw [dictArguments, List.length_flatMap]
  simp [h, Nat.mul_comm]

theorem interned_dictCreation {ks vs : List Operand} (hk : H → ∀ o ∈ ks, o.Fine w)
    (hv : H → ∀ o ∈ vs, o.Fine w) (hlength : H → ks.length = vs.length)
    (hpairs : H → w.serving → w.pairs ks vs) :
    Interned w H (dictCreation ks vs) (Operand.Fine w) := by
  refine (interned_recordDict ks.length).bind fun _ => ?_
  dsimp only
  split
  next hnil =>
    refine Interned.pure fun hH => ?_
    rw [List.isEmpty_iff] at hnil
    subst hnil
    obtain rfl : vs = [] := List.length_eq_zero_iff.mp (hlength hH.1).symm
    exact term_helperNullary .dict hH.2 rfl fun hp _ => hpairs hH.1 hp
  next =>
    refine Interned.pure fun hH => ?_
    have hterms : ∀ s ∈ dictArguments ks vs, Term w s := by
      intro s hs
      obtain ⟨⟨k, v⟩, hkv, hs⟩ := List.mem_flatMap.mp hs
      have hmem := List.of_mem_zip hkv
      simp only [List.mem_cons, List.not_mem_nil, or_false] at hs
      rcases hs with rfl | rfl
      · exact (hv hH.1 v hmem.2).term_asArgument
      · exact (hk hH.1 k hmem.1).term_asArgument
    exact term_helperCall .dict hH.2 hterms (length_dictArguments (hlength hH.1)) fun hp _ =>
      ⟨ks, vs, hpairs hH.1 hp, rfl⟩

/-! ## Operators -/

theorem phrase_operatorHelper (operator : Operator) : Phrase w (operatorHelper operator) := by
  cases operator <;> exact Phrase.text (by rfl)

theorem fine_operation (operator : Operator) (h : ∀ o ∈ os, o.Fine w) :
    (operation operator os).Fine w := by
  have harguments := Phrase.commaSeparated (asArguments_phrases h)
  unfold operation
  dsimp only
  split
  · exact Term.call (by rfl) (by simpa using harguments)
  · exact Term.call (by rfl) (by simpa using harguments)
  · split
    · exact Term.call (by rfl) (by simpa using ⟨phrase_operatorHelper _, harguments⟩)
    · exact Term.call (by rfl) (by simpa using ⟨phrase_operatorHelper _, harguments⟩)

/-- Two phrases with a separator between them, in parentheses. -/
theorem term_separated {a m b : String} (hm : (isTail m && balance 1 (codes m) == some 1) = true)
    (ha : Phrase w a) (hb : Phrase w b) : Term w ("( " ++ a ++ m ++ b ++ " )") := by
  have hwhole := Term.between (a := "( ") (b := " )") (by rfl) (ha.sep hm hb) (by rfl)
  simpa only [String.append_assoc] using hwhole

theorem term_comparatorSuffix (comparator : Comparator) : Term w (comparatorSuffix comparator) := by
  cases comparator <;> exact Term.text (by rfl)

theorem fine_comparison (comparator : Comparator) (hp : p.Fine w) (hq : q.Fine w) :
    (comparison comparator p q).Fine w := by
  have hargs : ∀ s ∈ [p.asArgument, q.asArgument], Phrase w s := by
    simpa using ⟨hp.asArgument, hq.asArgument⟩
  have hswapped : ∀ s ∈ [q.asArgument, p.asArgument], Phrase w s := by
    simpa using ⟨hq.asArgument, hp.asArgument⟩
  have hmatch : Phrase w (applied "PyErr_GivenExceptionMatches" [p.asArgument, q.asArgument]) :=
    (Term.call (by rfl) hargs).phrase
  unfold comparison
  dsimp only
  split
  · exact Term.call (by rfl) (by simpa using hp.asArgument.sep (by rfl) hq.asArgument)
  · exact Term.call (by rfl) (by simpa using hp.asArgument.sep (by rfl) hq.asArgument)
  · exact Term.call (by rfl) hswapped
  · exact Term.call (by rfl) hswapped
  · exact Term.call (by rfl) (by simpa using hmatch)
  · exact ((term_comparatorSuffix _).lead (by rfl)).applied hargs

theorem term_selectionCode {helper : String} (hh : (isSolid helper && isFlat helper) = true)
    (ho : o.Fine w) (h : ∀ o ∈ os, o.Fine w) : Term w (selectionCode helper o os) := by
  induction os generalizing o with
  | nil => exact ho.handedOver
  | cons next rest ih =>
      have hrest := ih (h next List.mem_cons_self) fun o ho => h o (List.mem_cons_of_mem next ho)
      have hfirst : Term w (applied helper [o.handedOver]) :=
        Term.call hh (by simpa using ho.handedOver.phrase)
      exact term_separated (by rfl) hfirst.phrase hrest.phrase

theorem fine_selection {helper : String} (hh : (isSolid helper && isFlat helper) = true)
    (ho : o.Fine w) (h : ∀ o ∈ os, o.Fine w) : (selection helper o os).Fine w := by
  cases os with
  | nil => exact ho
  | cons first rest =>
      exact term_selectionCode hh (h first List.mem_cons_self)
        fun o ho => h o (List.mem_cons_of_mem first ho)

theorem fine_disjunction (h : ∀ o ∈ os, o.Fine w) : (Target.disjunction os).Fine w :=
  fine_selection (by rfl) (Term.text (by rfl)) h

theorem fine_conjunction (h : ∀ o ∈ os, o.Fine w) : (Target.conjunction os).Fine w :=
  fine_selection (by rfl) (Term.text (by rfl)) h

theorem fine_choice {condition : String} (hc : Phrase w condition) (hp : p.Fine w)
    (hq : q.Fine w) : (choice condition p q).Fine w := by
  have hparts := term_separated (m := " : ") (by rfl)
    (hc.sep (m := " ? ") (by rfl) hp.handedOver.phrase) hq.handedOver.phrase
  simpa only [Operand.Fine, choice, Operand.owned, String.append_assoc] using hparts

/-! ## Conditions -/

theorem term_truthCondition (value : Bool) : Term w (truthCondition value) := by
  cases value <;> exact Term.text (by rfl)

theorem term_comparisonCondition (comparator : Comparator) (hp : p.Fine w) (hq : q.Fine w) :
    Term w (comparisonCondition comparator p q) := by
  have hargs : ∀ s ∈ [p.asArgument, q.asArgument], Phrase w s := by
    simpa using ⟨hp.asArgument, hq.asArgument⟩
  have hswapped : ∀ s ∈ [q.asArgument, p.asArgument], Phrase w s := by
    simpa using ⟨hq.asArgument, hp.asArgument⟩
  unfold comparisonCondition
  dsimp only
  split
  · exact term_separated (by rfl) hp.asArgument hq.asArgument
  · exact term_separated (by rfl) hp.asArgument hq.asArgument
  · exact Term.call (by rfl) hswapped
  · exact Term.call (by rfl) hswapped
  · exact Term.call (by rfl) hargs
  · exact ((term_comparatorSuffix _).lead (by rfl)).applied hargs

theorem term_negation {condition : String} (h : Term w condition) :
    Term w (negation condition) := Term.between (by rfl) h.phrase (by rfl)

theorem term_anyOf {parts : List String} (h : ∀ s ∈ parts, Term w s) : Term w (anyOf parts) :=
  Term.between (by rfl) (Phrase.intercalate (by rfl) fun s hs => (h s hs).phrase) (by rfl)

theorem term_allOf {parts : List String} (h : ∀ s ∈ parts, Term w s) : Term w (allOf parts) :=
  Term.between (by rfl) (Phrase.intercalate (by rfl) fun s hs => (h s hs).phrase) (by rfl)

theorem term_truthTest (inverted : Bool) (h : o.Fine w) : Term w (truthTest inverted o) := by
  have hargs : ∀ s ∈ [o.asArgument], Phrase w s := by simpa using h.asArgument
  cases inverted <;> exact Term.call (by rfl) hargs

end Target
end CompilerBackend
