import CompilerBackend.Target.Operation
import CompilerBackend.Tree.Kind
import CompilerBackend.Proofs.Text.Lines
/-!
# Conditions of target text

A condition is made of tests of objects, truth values, negations and selections with parentheses.
It is read here by the grammar of the target language, in which a negation binds more tightly than
`&&` and that more tightly than `||`, and run with the short circuit of the two.

- `Parses`: the grammar, as a reader that goes from left to right; `Parses.unique`: it reads one
  formula at most.
- `Formula.run`: the tests that a condition makes, in order, and its value.
- `Clause`: tokens that are read alike whatever stands around them; `Clause.negation` and
  `Clause.selection` put such parts together.
-/

namespace CompilerBackend.Target

/-! ## Tokens -/

/-- A test of one node of a program tree. -/
structure Atom where
  node : NodeId
  /-- Whether the test holds if the node is true. -/
  positive : Bool
  code : String
  deriving DecidableEq

/-- What a condition is written with. A selection ends at an operand with the value `stop`. -/
inductive Token where
  | opening
  | closing
  | not
  | select (stop : Bool)
  | literal (value : Bool)
  | atom (a : Atom)
  deriving DecidableEq

namespace Token

def text : Token → String
  | .opening => "( "
  | .closing => " )"
  | .not => "!"
  | .select true => " || "
  | .select false => " && "
  | .literal true => "true"
  | .literal false => "false"
  | .atom a => a.code

theorem text_literal (value : Bool) : (literal value).text = truthCondition value := by
  cases value <;> rfl

end Token

/-- The comparison of two objects, of which the texts are given, as a truth value. -/
def comparisonText (left right : String) : Comparator → String
  | .lt => "RICH_COMPARE_BOOL_LT( " ++ left ++ ", " ++ right ++ " )"
  | .ltE => "RICH_COMPARE_BOOL_LE( " ++ left ++ ", " ++ right ++ " )"
  | .eq => "RICH_COMPARE_BOOL_EQ( " ++ left ++ ", " ++ right ++ " )"
  | .notEq => "RICH_COMPARE_BOOL_NE( " ++ left ++ ", " ++ right ++ " )"
  | .gt => "RICH_COMPARE_BOOL_GT( " ++ left ++ ", " ++ right ++ " )"
  | .gtE => "RICH_COMPARE_BOOL_GE( " ++ left ++ ", " ++ right ++ " )"
  | .is => "( " ++ left ++ " == " ++ right ++ " )"
  | .isNot => "( " ++ left ++ " != " ++ right ++ " )"
  | .isIn => "SEQUENCE_CONTAINS_BOOL( " ++ right ++ ", " ++ left ++ " )"
  | .notIn => "SEQUENCE_CONTAINS_NOT_BOOL( " ++ right ++ ", " ++ left ++ " )"
  | .exceptionMatch => "PyErr_GivenExceptionMatches( " ++ left ++ ", " ++ right ++ " )"

theorem comparisonCondition_eq (comparator : Comparator) (left right : Operand) :
    comparisonCondition comparator left right =
      comparisonText left.asArgument right.asArgument comparator := by
  cases comparator with
  | is | isNot => rfl
  | _ => exact applied_pair_of (by decide) _ _

theorem truthTest_eq (inverted : Bool) (o : Operand) : truthTest inverted o =
    (if inverted then "CHECK_IF_FALSE( " else "CHECK_IF_TRUE( ") ++ o.asArgument ++ " )" := by
  have hstart : (if inverted then "CHECK_IF_FALSE" else "CHECK_IF_TRUE") ++ "( " =
      if inverted then "CHECK_IF_FALSE( " else "CHECK_IF_TRUE( " := by
    cases inverted <;> decide
  rw [truthTest, applied, hstart]
  rfl

def spelled : List Token → String
  | [] => ""
  | t :: ts => t.text ++ spelled ts

theorem spelled_append (ts us : List Token) : spelled (ts ++ us) = spelled ts ++ spelled us := by
  induction ts with
  | nil => exact String.empty_append.symm
  | cons t ts ih => rw [List.cons_append, spelled, spelled, ih, String.append_assoc]

@[simp] theorem spelled_singleton (t : Token) : spelled [t] = t.text := String.append_empty

def continued (stop : Bool) (parts : List (List Token)) : List Token :=
  parts.flatMap (.select stop :: ·)

theorem spelled_continued (stop : Bool) (ts : List Token) (parts : List (List Token)) :
    spelled (ts ++ continued stop parts) =
      (Token.select stop).text.intercalate (spelled ts :: parts.map spelled) := by
  induction parts generalizing ts with
  | nil => rw [continued, List.flatMap_nil, List.append_nil, List.map_nil, String.intercalate_singleton]
  | cons us parts ih =>
      rw [continued, List.flatMap_cons, ← continued, List.map_cons, String.intercalate_cons_cons,
        ← ih, List.cons_append, spelled_append, spelled, String.append_assoc]

/-! ## Formulas -/

inductive Formula where
  | literal (value : Bool)
  | atom (a : Atom)
  | not (f : Formula)
  /-- With `stop` the first operand that is true decides, without it the first one that is false. -/
  | select (stop : Bool) (f g : Formula)
  deriving DecidableEq

namespace Formula

/-- The nodes that are tested, in order, and the value, if `v` are the truth values of nodes. -/
def run (v : NodeId → Bool) : Formula → List NodeId × Bool
  | .literal value => ([], value)
  | .atom a => ([a.node], v a.node == a.positive)
  | .not f => ((f.run v).1, !(f.run v).2)
  | .select stop f g =>
    if (f.run v).2 = stop then f.run v else ((f.run v).1 ++ (g.run v).1, (g.run v).2)

def selection (stop : Bool) (f : Formula) (fs : List Formula) : Formula := fs.foldl (.select stop) f

variable {v : NodeId → Bool} {stop : Bool} {f g : Formula}

theorem run_select_of_eq (h : (f.run v).2 = stop) : (select stop f g).run v = f.run v := by
  rw [run, if_pos h]

theorem run_select_of_ne (h : (f.run v).2 ≠ stop) :
    (select stop f g).run v = ((f.run v).1 ++ (g.run v).1, (g.run v).2) := by
  rw [run, if_neg h]

/-- Behind an operand that decides nothing is run. -/
theorem run_selection_of_eq (h : (f.run v).2 = stop) (fs : List Formula) :
    (selection stop f fs).run v = f.run v := by
  induction fs generalizing f with
  | nil => rfl
  | cons g fs ih =>
      have hselect := run_select_of_eq (g := g) h
      rw [selection, List.foldl_cons, ← selection, ih (by rw [hselect, h]), hselect]

/-- Behind an operand that does not decide the others are run. -/
theorem run_selection_of_ne (h : (f.run v).2 ≠ stop) (fs : List Formula) :
    (selection stop f (g :: fs)).run v =
      ((f.run v).1 ++ ((selection stop g fs).run v).1, ((selection stop g fs).run v).2) := by
  induction fs generalizing f g with
  | nil => exact run_select_of_ne h
  | cons k fs ih =>
      have hselect := run_select_of_ne (g := g) h
      by_cases hg : (g.run v).2 = stop
      · have hboth : ((select stop f g).run v).2 = stop := by
          rw [hselect]
          exact hg
        rw [selection, List.foldl_cons, ← selection, run_selection_of_eq hboth, hselect,
          run_selection_of_eq hg]
      · have hboth : ((select stop f g).run v).2 ≠ stop := by
          rw [hselect]
          exact hg
        rw [selection, List.foldl_cons, ← selection, ih hboth, ih hg, hselect, List.append_assoc]

end Formula

/-! ## The grammar -/

inductive Nonterminal where
  | primary
  | unary
  /-- Operands with operators between them. -/
  | chain (stop : Bool)
  /-- Further operands behind a formula. -/
  | more (stop : Bool) (f : Formula)

/-- The operands of `||` are chains of `&&`, and the operands of those are unary. -/
def Nonterminal.operand : Bool → Nonterminal
  | true => .chain false
  | false => .unary

/-- A phrase is read from the start of a list of tokens, as far as it goes; the tokens behind it
come last. -/
inductive Parses : Nonterminal → List Token → Formula → List Token → Prop
  | literal {value : Bool} {r : List Token} :
      Parses .primary (.literal value :: r) (.literal value) r
  | atom {a : Atom} {r : List Token} : Parses .primary (.atom a :: r) (.atom a) r
  | group {ts r : List Token} {f : Formula} (h : Parses (.chain true) ts f (.closing :: r)) :
      Parses .primary (.opening :: ts) f r
  | primary {ts r : List Token} {f : Formula} (h : Parses .primary ts f r) : Parses .unary ts f r
  | not {ts r : List Token} {f : Formula} (h : Parses .unary ts f r) :
      Parses .unary (.not :: ts) (.not f) r
  | chain {stop : Bool} {ts r r' : List Token} {f g : Formula}
      (h : Parses (Nonterminal.operand stop) ts f r) (h' : Parses (.more stop f) r g r') :
      Parses (.chain stop) ts g r'
  | done {stop : Bool} {f : Formula} {r : List Token} (h : r.head? ≠ some (.select stop)) :
      Parses (.more stop f) r f r
  | next {stop : Bool} {ts r r' : List Token} {f g k : Formula}
      (h : Parses (Nonterminal.operand stop) ts g r) (h' : Parses (.more stop (.select stop f g)) r k r') :
      Parses (.more stop f) (.select stop :: ts) k r'

/-- The grammar is unambiguous: what a phrase reads, and how far it goes, is determined. -/
theorem Parses.unique {p : Nonterminal} {ts r r' : List Token} {f f' : Formula} (h : Parses p ts f r)
    (h' : Parses p ts f' r') : f = f' ∧ r = r' := by
  induction h generalizing f' r' with
  | literal =>
      cases h'
      exact ⟨rfl, rfl⟩
  | atom =>
      cases h'
      exact ⟨rfl, rfl⟩
  | group _ ih =>
      cases h' with
      | group h =>
          obtain ⟨hf, hr⟩ := ih h
          exact ⟨hf, (List.cons.inj hr).2⟩
  | primary h ih =>
      cases h' with
      | primary h' => exact ih h'
      | not => cases h
  | not h ih =>
      cases h' with
      | primary h' => cases h'
      | not h' =>
          obtain ⟨rfl, hr⟩ := ih h'
          exact ⟨rfl, hr⟩
  | chain _ _ ih ih' =>
      cases h' with
      | chain h h' =>
          obtain ⟨rfl, rfl⟩ := ih h
          exact ih' h'
  | done h =>
      cases h' with
      | done => exact ⟨rfl, rfl⟩
      | next => exact absurd rfl h
  | next _ _ ih ih' =>
      cases h' with
      | done h => exact absurd rfl h
      | next h h' =>
          obtain ⟨rfl, rfl⟩ := ih h
          exact ih' h'

/-! ## Clauses -/

def Clause (ts : List Token) (f : Formula) : Prop := ∀ r, Parses .primary (ts ++ r) f r

variable {ts : List Token} {f : Formula} {stop : Bool}

theorem Clause.literal (value : Bool) : Clause [.literal value] (.literal value) :=
  fun _ => .literal

theorem Clause.atom (a : Atom) : Clause [.atom a] (.atom a) := fun _ => .atom

/-- A clause is read as an operand, since what follows it does not go on with a tighter operator. -/
theorem Clause.operand (h : Clause ts f) {r : List Token}
    (hr : stop = true → r.head? ≠ some (.select false)) :
    Parses (Nonterminal.operand stop) (ts ++ r) f r := by
  cases stop with
  | false => exact .primary (h r)
  | true => exact .chain (.primary (h r)) (.done (hr rfl))

/-- A clause by itself is a whole condition. -/
theorem Clause.parses (h : Clause ts f) : Parses (.chain true) ts f [] := by
  have hoperand : Parses (.operand true) (ts ++ []) f [] := h.operand (by simp)
  rw [List.append_nil] at hoperand
  exact .chain hoperand (.done (by simp))

theorem head?_continued_ne (parts : List (List Token)) (r : List Token) (hstop : stop = true) :
    (continued stop parts ++ .closing :: r).head? ≠ some (.select false) := by
  cases parts with
  | nil => exact fun h => nomatch h
  | cons us parts =>
      subst hstop
      exact fun h => nomatch h

/-- Further operands in parentheses are read one by one. -/
theorem parses_continued {parts : List (List Token)} {fs : List Formula}
    (h : List.Forall₂ Clause parts fs) (f : Formula) (r : List Token) :
    Parses (.more stop f) (continued stop parts ++ .closing :: r) (Formula.selection stop f fs)
      (.closing :: r) := by
  induction h generalizing f with
  | nil => exact .done fun h => nomatch h
  | @cons us g parts fs hg _ ih =>
      have hshape : continued stop (us :: parts) ++ Token.closing :: r =
          .select stop :: (us ++ (continued stop parts ++ .closing :: r)) := by
        rw [continued, List.flatMap_cons, ← continued, List.append_assoc, List.cons_append]
      rw [hshape]
      exact .next (hg.operand (head?_continued_ne parts r)) (ih (.select stop f g))

/-- A selection in parentheses is a clause. -/
theorem Clause.selection (h : Clause ts f) {parts : List (List Token)} {fs : List Formula}
    (hparts : List.Forall₂ Clause parts fs) :
    Clause (.opening :: (ts ++ continued stop parts) ++ [.closing])
      (Formula.selection stop f fs) := by
  intro r
  have hchain : Parses (.chain stop) (ts ++ (continued stop parts ++ .closing :: r))
      (Formula.selection stop f fs) (.closing :: r) :=
    .chain (h.operand (head?_continued_ne parts r)) (parses_continued hparts f r)
  have hgroup : Parses (.chain true) (ts ++ (continued stop parts ++ .closing :: r))
      (Formula.selection stop f fs) (.closing :: r) := by
    cases stop with
    | true => exact hchain
    | false => exact .chain hchain (.done fun h => nomatch h)
  have hshape : .opening :: (ts ++ continued stop parts) ++ [.closing] ++ r =
      Token.opening :: (ts ++ (continued stop parts ++ .closing :: r)) := by
    simp
  rw [hshape]
  exact .group hgroup

/-- A negation in parentheses is a clause. -/
theorem Clause.negation (h : Clause ts f) :
    Clause (.opening :: .not :: ts ++ [.closing]) (.not f) := by
  intro r
  have hshape : .opening :: .not :: ts ++ [.closing] ++ r =
      Token.opening :: (.not :: (ts ++ .closing :: r)) := by
    simp
  rw [hshape]
  have hunary : Parses .unary (.not :: (ts ++ .closing :: r)) (.not f) (.closing :: r) :=
    .not (.primary (h _))
  exact .group (.chain (.chain hunary (.done fun h => nomatch h)) (.done fun h => nomatch h))

theorem spelled_negation (ts : List Token) :
    spelled (.opening :: .not :: ts ++ [.closing]) = negation (spelled ts) := by
  have hopening : Token.opening.text ++ Token.not.text = "( !" := by rfl
  rw [spelled_append, spelled, spelled, spelled_singleton, ← String.append_assoc, hopening]
  rfl

theorem spelled_selection (stop : Bool) (ts : List Token) (parts : List (List Token)) :
    spelled (.opening :: (ts ++ continued stop parts) ++ [.closing]) =
      (if stop then anyOf (spelled ts :: parts.map spelled)
        else allOf (spelled ts :: parts.map spelled)) := by
  rw [spelled_append, spelled, spelled_continued, spelled_singleton]
  cases stop <;> rfl

-- without parentheses `!` binds more tightly than `&&`, and `&&` more tightly than `||`
example (a b c : Atom) :
    Parses (.chain true) [.atom a, .select true, .not, .atom b, .select false, .atom c]
      (.select true (.atom a) (.select false (.not (.atom b)) (.atom c))) [] := by
  refine .chain (.chain (.primary .atom) (.done (by simp))) (.next ?_ (.done (by simp)))
  exact .chain (.not (.primary .atom)) (.next (.primary .atom) (.done (by simp)))

end CompilerBackend.Target
