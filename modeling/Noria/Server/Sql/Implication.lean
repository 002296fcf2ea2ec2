import Mathlib.Data.String.Basic
import Mathlib.Data.Sum.Order
import Mathlib.Tactic.Order
import Noria.Server.Sql.Negation

/-! # Implication between predicates

  An existing query is reused for a new one if the predicates of the new query imply its predicates.
  The test is a direct elimination on pairs of comparisons, lifted through AND and OR
  (`server/src/controller/sql/reuse/helpers/predicate_implication.rs`).

  The rules of the elimination are stated on their own (`Eliminates`), with
  the pairs of comparisons that count as a parameter. The code takes any two
  comparisons of a column with NULL for one another, whatever their
  operators are: its answer can be trusted if the same follows without that.
-/

namespace Noria.Server.Sql

open Option

/-! ## The test -/

/-- The operator that follows from `op1` if the new literal is related to the
    existing one by `op2`, if there is one; `none` is `unimplemented!`. -/
def direct_elimination (op1 op2 : Operator) : Option (Option Operator) :=
  match op1, op2 with
  | .equal, .equal => some (some .equal)
  | .equal, .less => some (some .less)
  | .equal, .greater => some (some .greater)
  | .equal, _ => none
  | .notEqual, .equal => some (some .notEqual)
  | .notEqual, .less | .notEqual, .greater => some none
  | .notEqual, _ => none
  | .less, .equal | .less, .less => some (some .less)
  | .less, .greater => some none
  | .less, _ => none
  | .lessOrEqual, .equal | .lessOrEqual, .less => some (some .lessOrEqual)
  | .lessOrEqual, .greater => some none
  | .lessOrEqual, _ => none
  | .greater, .equal => some (some .greater)
  | .greater, .less => some none
  | .greater, .greater => some (some .greater)
  | .greater, _ => none
  | .greaterOrEqual, .equal => some (some .greaterOrEqual)
  | .greaterOrEqual, .less => some none
  | .greaterOrEqual, .greater => some (some .greater)
  | .greaterOrEqual, _ => none
  | _, _ => some none

/-- The literals are integers or strings, so they are equal, or one of them is less. -/
def check_op_elimination {T : Type} [LinearOrder T] (nv ev : T) (nop eop : Operator) :
    Option Bool := do
  let needed ← direct_elimination nop
    (if nv = ev then .equal else if nv < ev then .less else .greater)
  some (needed == some eop)

def predicate_implies (nop : Operator) (nright : ConditionExpression) (eop : Operator)
    (eright : ConditionExpression) : Option Bool :=
  match nright, eright with
  | .base (.literal (.string nv)), .base (.literal (.string ev)) =>
    check_op_elimination nv ev nop eop
  | .base (.literal (.string _)), .base (.literal _) => some false
  | .base (.literal (.integer nv)), .base (.literal (.integer ev)) =>
    check_op_elimination nv.toInt ev.toInt nop eop
  | .base (.literal (.integer _)), .base (.literal _) => some false
  | .base (.literal .null), .base (.literal .null) => some true
  | .base (.literal .null), .base (.literal _) => some false
  | _, _ => none

/-- `&&`, whose right side may not be evaluated. -/
def andAlso (a b : Option Bool) : Option Bool := a.bind fun a => if a then b else some false

/-- `||`. -/
def orAlso (a b : Option Bool) : Option Bool := a.bind fun a => if a then some true else b

/-- The branch of `complex_predicate_implies` for an existing comparison. -/
def impliesComparison (eop : Operator) (eleft eright : ConditionExpression) :
    ConditionExpression → Option Bool
  | .logicalOp .and left right =>
    orAlso (impliesComparison eop eleft eright left) (impliesComparison eop eleft eright right)
  | .logicalOp .or left right =>
    andAlso (impliesComparison eop eleft eright left) (impliesComparison eop eleft eright right)
  | .comparisonOp nop left right =>
    if left = eleft then predicate_implies nop right eop eright else some false
  | _ => none

/-- The two sides of an existing AND or OR. -/
def bySides : Operator → Option Bool → Option Bool → Option Bool
  | .and, a, b => andAlso a b
  | .or, a, b => orAlso a b
  | _, _, _ => none

def complex_predicate_implies : ConditionExpression → ConditionExpression → Option Bool
  | np, .logicalOp op left right =>
    let each := bySides op (complex_predicate_implies np left) (complex_predicate_implies np right)
    match np with
    | .logicalOp nop nleft nright =>
      if nop = op then
        orAlso
          (andAlso (complex_predicate_implies nleft left) (complex_predicate_implies nright right))
          (andAlso (complex_predicate_implies nleft right) (complex_predicate_implies nright left))
      else each
    | _ => each
  | np, .comparisonOp op left right => impliesComparison op left right np
  | _, _ => none

/-! ## Meaning -/

/-- An assignment that orders integers and strings as the test does. -/
structure Ordered (V : Type) [LinearOrder V] extends Assignment V where
  integer : Int → V
  string : String → V
  integer_mono : ∀ ⦃m n⦄, m < n → integer m < integer n
  string_mono : StrictMono string
  literal_integer : ∀ n, literal (.integer n) = some (integer n.toInt)
  literal_string : ∀ s, literal (.string s) = some (string s)

section Meaning

variable {V : Type} [LinearOrder V] (row : Assignment V)

/-- A comparison with a literal; `= NULL` and `!= NULL` ask for NULL. -/
def Assignment.Meets (op : Operator) (v : Option V) : Literal → Prop
  | .null => op = .equal ∧ v = none ∨ op = .notEqual ∧ v ≠ none
  | l => row.compare op v (row.literal l) = some true

def Assignment.Satisfies : ConditionExpression → Prop
  | .logicalOp .and left right => Satisfies left ∧ Satisfies right
  | .logicalOp .or left right => Satisfies left ∨ Satisfies right
  | .comparisonOp op (.base (.field c)) (.base (.literal l)) => row.Meets op (row.column c) l
  | _ => False

end Meaning

namespace ConditionExpression

/-- Every row that satisfies the one predicate satisfies the other. -/
def Implies (np ep : ConditionExpression) : Prop :=
  ∀ (V : Type) [LinearOrder V] (row : Ordered V), row.Satisfies np → row.Satisfies ep

/-- A predicate of AND and OR over comparisons of a column with an integer, a string or NULL. -/
def IsPredicate : ConditionExpression → Prop
  | .logicalOp op left right => (op = .and ∨ op = .or) ∧ left.IsPredicate ∧ right.IsPredicate
  | .comparisonOp _ left right => ∃ c l, left = .base (.field c) ∧ right = .base (.literal l) ∧
      (l = .null ∨ (∃ n, l = .integer n) ∨ ∃ s, l = .string s)
  | _ => False

end ConditionExpression

open ConditionExpression

/-! ## The rules -/

/-- Elimination between two literals. `nulls` says which comparisons with NULL
    are taken for one another. -/
def EliminatesLiteral (nulls : Operator → Operator → Prop) (nop : Operator)
    (nright : ConditionExpression) (eop : Operator) (eright : ConditionExpression) : Prop :=
  match nright, eright with
  | .base (.literal (.string nv)), .base (.literal (.string ev)) =>
    check_op_elimination nv ev nop eop = some true
  | .base (.literal (.integer nv)), .base (.literal (.integer ev)) =>
    check_op_elimination nv.toInt ev.toInt nop eop = some true
  | .base (.literal .null), .base (.literal .null) => nulls nop eop
  | _, _ => False

/-- Two comparisons for which there is an elimination at all. -/
def Comparable (nright eright : ConditionExpression) : Prop :=
  ∃ nl el, nright = .base (.literal nl) ∧ eright = .base (.literal el) ∧
    (nl = .null ∨ (∃ n, nl = .integer n) ∨ ∃ s, nl = .string s)

section Rules

variable (nulls : Operator → Operator → Prop)

/-- One comparison of the existing predicate. -/
def EliminatesComparison (eop : Operator) (eleft eright : ConditionExpression) :
    ConditionExpression → Prop
  | .logicalOp .and left right =>
    EliminatesComparison eop eleft eright left ∨ EliminatesComparison eop eleft eright right
  | .logicalOp .or left right =>
    EliminatesComparison eop eleft eright left ∧ EliminatesComparison eop eleft eright right
  | .comparisonOp nop left right => left = eleft ∧ EliminatesLiteral nulls nop right eop eright
  | _ => False

/-- An AND or OR of the existing predicate, from what is known of its sides. -/
def Combined : Operator → Prop → Prop → Prop
  | .and, P, Q => P ∧ Q
  | .or, P, Q => P ∨ Q
  | _, _, _ => False

/-- The existing predicate follows from the new one by direct elimination. -/
def Eliminates : ConditionExpression → ConditionExpression → Prop
  | np, .logicalOp op left right =>
    let each := Combined op (Eliminates np left) (Eliminates np right)
    match np with
    | .logicalOp nop nleft nright =>
      if nop = op then
        (Eliminates nleft left ∧ Eliminates nright right) ∨
          (Eliminates nleft right ∧ Eliminates nright left)
      else each
    | _ => each
  | np, .comparisonOp op left right => EliminatesComparison nulls op left right np
  | _, _ => False

end Rules

/-- NULL comparisons as the code has them. -/
def anyNull : Operator → Operator → Prop := fun _ _ => True

/-- NULL comparisons that ask the same. No row satisfies one with another operator than these. -/
def sameNull : Operator → Operator → Prop := fun nop eop =>
  nop = .equal ∨ nop = .notEqual → eop = nop

/-- What follows by taking NULL comparisons for one another also follows without that. -/
def NullsAgree (np ep : ConditionExpression) : Prop :=
  Eliminates anyNull np ep → Eliminates sameNull np ep

/-! ### Where the test returns

    `&&` and `||` leave their right side out: it has to return only after a
    left side that did not decide.
-/

def AnswersComparison (eop : Operator) (eleft eright : ConditionExpression) :
    ConditionExpression → Prop
  | .logicalOp .and left right => AnswersComparison eop eleft eright left ∧
      (¬ EliminatesComparison anyNull eop eleft eright left →
        AnswersComparison eop eleft eright right)
  | .logicalOp .or left right => AnswersComparison eop eleft eright left ∧
      (EliminatesComparison anyNull eop eleft eright left →
        AnswersComparison eop eleft eright right)
  | .comparisonOp _ left right => left = eleft → Comparable right eright
  | _ => False

/-- The sides of an existing AND or OR; `G` says that the left one follows. -/
def AnswersSides : Operator → Prop → Prop → Prop → Prop
  | .and, A, G, B => A ∧ (G → B)
  | .or, A, G, B => A ∧ (¬ G → B)
  | _, _, _, _ => False

def Answers : ConditionExpression → ConditionExpression → Prop
  | np, .logicalOp op left right =>
    let each := AnswersSides op (Answers np left) (Eliminates anyNull np left) (Answers np right)
    match np with
    | .logicalOp nop nleft nright =>
      if nop = op then
        (Answers nleft left ∧ (Eliminates anyNull nleft left → Answers nright right)) ∧
          (¬ (Eliminates anyNull nleft left ∧ Eliminates anyNull nright right) →
            Answers nleft right ∧ (Eliminates anyNull nleft right → Answers nright left))
      else each
    | _ => each
  | np, .comparisonOp op left right => AnswersComparison op left right np
  | _, _ => False

/-! ## The test follows the rules -/

/-- The result of the test is there exactly if `A`, and then says whether `G`. -/
def Tests (r : Option Bool) (A G : Prop) : Prop := (r ≠ none ↔ A) ∧ (A → (r = some true ↔ G))

section Tests

variable {a b : Option Bool} {A B G H : Prop}

theorem Tests.of_some {x : Bool} (hA : A) (hG : x = true ↔ G) : Tests (some x) A G :=
  ⟨iff_of_true (some_ne_none x) hA, fun _ => by rw [some.injEq]; exact hG⟩

theorem Tests.of_none (hA : ¬ A) : Tests none A G :=
  ⟨iff_of_false (fun h => h rfl) hA, fun h => absurd h hA⟩

theorem Tests.andAlso (ha : Tests a A G) (hb : Tests b B H) :
    Tests (andAlso a b) (A ∧ (G → B)) (G ∧ H) := by
  rcases a with _ | _ | _
  · exact .of_none fun h => ha.1.mpr h.1 rfl
  · -- the left side is false, and the right one is left out
    have hA : A := ha.1.mp (some_ne_none _)
    have hG : ¬ G := fun hG => by cases (ha.2 hA).mpr hG
    exact .of_some ⟨hA, fun h => absurd h hG⟩ (iff_of_false Bool.false_ne_true fun h => hG h.1)
  · have hA : A := ha.1.mp (some_ne_none _)
    have hG : G := (ha.2 hA).mp rfl
    refine ⟨hb.1.trans ⟨fun hB => ⟨hA, fun _ => hB⟩, fun h => h.2 hG⟩, fun h => ?_⟩
    exact (hb.2 (h.2 hG)).trans (and_iff_right hG).symm

theorem Tests.orAlso (ha : Tests a A G) (hb : Tests b B H) :
    Tests (orAlso a b) (A ∧ (¬ G → B)) (G ∨ H) := by
  rcases a with _ | _ | _
  · exact .of_none fun h => ha.1.mpr h.1 rfl
  · have hA : A := ha.1.mp (some_ne_none _)
    have hG : ¬ G := fun hG => by cases (ha.2 hA).mpr hG
    refine ⟨hb.1.trans ⟨fun hB => ⟨hA, fun _ => hB⟩, fun h => h.2 hG⟩, fun h => ?_⟩
    exact (hb.2 (h.2 hG)).trans (or_iff_right hG).symm
  · -- the left side is true, and the right one is left out
    have hA : A := ha.1.mp (some_ne_none _)
    have hG : G := (ha.2 hA).mp rfl
    exact .of_some ⟨hA, fun h => absurd hG h⟩ (iff_of_true rfl (.inl hG))

theorem Tests.bySides (op : Operator) (ha : Tests a A G) (hb : Tests b B H) :
    Tests (bySides op a b) (AnswersSides op A G B) (Combined op G H) := by
  cases op with
  | and => exact ha.andAlso hb
  | or => exact ha.orAlso hb
  | _ => exact .of_none id

end Tests

/-- The table has an entry for each position of two literals. -/
theorem direct_elimination_some (nop : Operator) {op2 : Operator}
    (h : op2 = .equal ∨ op2 = .less ∨ op2 = .greater) :
    ∃ needed, direct_elimination nop op2 = some needed := by
  rcases h with rfl | rfl | rfl <;> cases nop <;> exact ⟨_, rfl⟩

section Literals

variable {T : Type} [LinearOrder T] (nv ev : T) (nop eop : Operator)

theorem check_op_elimination_some : ∃ b, check_op_elimination nv ev nop eop = some b := by
  have hposition (op2 : Operator)
      (h : op2 = if nv = ev then .equal else if nv < ev then .less else .greater) :
      op2 = .equal ∨ op2 = .less ∨ op2 = .greater := by
    split_ifs at h <;> simp [h]
  obtain ⟨needed, hneeded⟩ := direct_elimination_some nop (hposition _ rfl)
  exact ⟨needed == some eop, by simp [check_op_elimination, hneeded]⟩

theorem check_op_elimination_sound (h : check_op_elimination nv ev nop eop = some true)
    {V : Type} [LinearOrder V] (row : Assignment V) {f : T → V} (hf : StrictMono f) {x : V}
    (hx : row.test nop x (f nv) = true) : row.test eop x (f ev) = true := by
  obtain ⟨needed, hneeded, heop⟩ := bind_eq_some_iff.mp h
  rw [beq_iff_eq.mp (some.inj heop)] at hneeded
  -- the table, for each position of the two literals
  split_ifs at hneeded with heq hlt
  · subst heq
    cases nop <;> cases hneeded <;> exact hx
  · have hlt' := hf hlt
    cases nop <;> cases hneeded <;> simp only [Assignment.test, decide_eq_true_eq] at hx ⊢ <;> order
  · have hlt' := hf (lt_of_le_of_ne (not_lt.mp hlt) (Ne.symm heq))
    cases nop <;> cases hneeded <;> simp only [Assignment.test, decide_eq_true_eq] at hx ⊢ <;> order

end Literals

theorem predicate_implies_tests (nop : Operator) (nright : ConditionExpression) (eop : Operator)
    (eright : ConditionExpression) :
    Tests (predicate_implies nop nright eop eright) (Comparable nright eright)
      (EliminatesLiteral anyNull nop nright eop eright) := by
  by_cases h : Comparable nright eright
  · have hcheck : ∀ {T : Type} [LinearOrder T] (nv ev : T),
        Tests (check_op_elimination nv ev nop eop) (Comparable nright eright)
          (check_op_elimination nv ev nop eop = some true) := by
      intro T _ nv ev
      obtain ⟨b, hb⟩ := check_op_elimination_some nv ev nop eop
      rw [hb]
      exact .of_some h (some.injEq b true).symm.to_iff
    have hfalse : Tests (some false) (Comparable nright eright) False := .of_some h (by simp)
    obtain ⟨nl, el, rfl, rfl, rfl | ⟨nv, rfl⟩ | ⟨nv, rfl⟩⟩ := id h
    · cases el with
      | null => exact .of_some h (iff_of_true rfl trivial)
      | _ => exact hfalse
    · cases el with
      | integer ev => exact hcheck nv.toInt ev.toInt
      | _ => exact hfalse
    · cases el with
      | string ev => exact hcheck nv ev
      | _ => exact hfalse
  · have hnone : predicate_implies nop nright eop eright = none := by
      unfold predicate_implies
      split
      · exact absurd ⟨_, _, rfl, rfl, .inr (.inr ⟨_, rfl⟩)⟩ h
      · exact absurd ⟨_, _, rfl, rfl, .inr (.inr ⟨_, rfl⟩)⟩ h
      · exact absurd ⟨_, _, rfl, rfl, .inr (.inl ⟨_, rfl⟩)⟩ h
      · exact absurd ⟨_, _, rfl, rfl, .inr (.inl ⟨_, rfl⟩)⟩ h
      · exact absurd ⟨_, _, rfl, rfl, .inl rfl⟩ h
      · exact absurd ⟨_, _, rfl, rfl, .inl rfl⟩ h
      · rfl
    rw [hnone]
    exact .of_none h

theorem impliesComparison_tests (eop : Operator) (eleft eright np : ConditionExpression) :
    Tests (impliesComparison eop eleft eright np) (AnswersComparison eop eleft eright np)
      (EliminatesComparison anyNull eop eleft eright np) := by
  induction np with
  | logicalOp op left right ihl ihr =>
    cases op with
    | and => exact ihl.orAlso ihr
    | or => exact ihl.andAlso ihr
    | _ => exact .of_none id
  | comparisonOp nop left right =>
    unfold impliesComparison AnswersComparison EliminatesComparison
    by_cases heq : left = eleft
    · have htests := predicate_implies_tests nop right eop eright
      rw [if_pos heq]
      exact ⟨htests.1.trans (imp_iff_right heq).symm,
        fun h => (htests.2 (h heq)).trans (and_iff_right heq).symm⟩
    · rw [if_neg heq]
      exact .of_some (fun h => absurd h heq) (iff_of_false Bool.false_ne_true fun h => heq h.1)
  | _ => exact .of_none id

/-- The test returns where the rules say so, and answers as the rules do. -/
theorem complex_predicate_implies_tests (np ep : ConditionExpression) :
    Tests (complex_predicate_implies np ep) (Answers np ep) (Eliminates anyNull np ep) := by
  induction ep generalizing np with
  | logicalOp op left right ihl ihr =>
    have heach := (ihl np).bySides op (ihr np)
    cases np with
    | logicalOp nop nleft nright =>
      unfold Eliminates
      unfold complex_predicate_implies Answers
      dsimp only
      split_ifs with heq
      · -- the same operator: side by side, or crosswise
        exact ((ihl nleft).andAlso (ihr nright)).orAlso ((ihr nleft).andAlso (ihl nright))
      · exact heach
    | _ => exact heach
  | comparisonOp op left right => exact impliesComparison_tests op left right np
  | _ => exact .of_none id

theorem ConditionExpression.IsPredicate.answersComparison {np : ConditionExpression}
    {eop : Operator} {eleft eright} (hn : np.IsPredicate) (he : (comparisonOp eop eleft eright).IsPredicate) :
    AnswersComparison eop eleft eright np := by
  induction np with
  | logicalOp op left right ihl ihr =>
    obtain ⟨rfl | rfl, hl, hr⟩ := hn
    · exact ⟨ihl hl, fun _ => ihr hr⟩
    · exact ⟨ihl hl, fun _ => ihr hr⟩
  | comparisonOp nop left right =>
    obtain ⟨_, nl, -, rfl, hnl⟩ := hn
    obtain ⟨_, el, -, rfl, -⟩ := he
    exact fun _ => ⟨nl, el, rfl, rfl, hnl⟩
  | _ => exact hn.elim

/-- On AND and OR over comparisons of columns with literals the test returns. -/
theorem ConditionExpression.IsPredicate.answers {np ep : ConditionExpression} (hn : np.IsPredicate)
    (he : ep.IsPredicate) : Answers np ep := by
  induction ep generalizing np with
  | logicalOp op left right ihl ihr =>
    obtain ⟨hop, hl, hr⟩ := he
    have heach : AnswersSides op (Answers np left) (Eliminates anyNull np left)
        (Answers np right) := by
      rcases hop with rfl | rfl
      · exact ⟨ihl hn hl, fun _ => ihr hn hr⟩
      · exact ⟨ihl hn hl, fun _ => ihr hn hr⟩
    cases np with
    | logicalOp nop nleft nright =>
      obtain ⟨-, hnl, hnr⟩ := id hn
      unfold Answers
      dsimp only
      split_ifs
      · exact ⟨⟨ihl hnl hl, fun _ => ihr hnr hr⟩, fun _ => ⟨ihr hnl hr, fun _ => ihl hnr hl⟩⟩
      · exact heach
    | _ => exact heach
  | comparisonOp op left right => exact hn.answersComparison he
  | _ => exact he.elim

/-! ## The rules are sound -/

/-- A comparison with a literal whose place in the order is known. -/
theorem Assignment.meets_iff {V : Type} [LinearOrder V] (row : Assignment V) (op : Operator)
    (v : Option V) {l : Literal} {y : V} (hl : row.literal l = some y) (hnull : l ≠ .null) :
    row.Meets op v l ↔ ∃ x, v = some x ∧ row.test op x y = true := by
  have hmeets : row.Meets op v l ↔ row.compare op v (row.literal l) = some true := by
    cases l with
    | null => exact absurd rfl hnull
    | _ => exact Iff.rfl
  rw [hmeets, hl]
  simp [Assignment.compare, bind_eq_some_iff]

theorem EliminatesLiteral.literals {nulls} {nop eop : Operator} {nright eright}
    (h : EliminatesLiteral nulls nop nright eop eright) :
    ∃ nl el, nright = .base (.literal nl) ∧ eright = .base (.literal el) := by
  cases nright with
  | base nb =>
    cases nb with
    | literal nl =>
      rcases eright with _ | _ | _ | _ | (_ | el | _) | _
      case base.literal => exact ⟨nl, el, rfl, rfl⟩
      all_goals cases nl <;> exact h.elim
    | _ => exact h.elim
  | _ => exact h.elim

theorem eliminatesLiteral_sound {c : Column} {nop eop : Operator} {nright eright}
    (h : EliminatesLiteral sameNull nop nright eop eright) :
    (comparisonOp nop (.base (.field c)) nright).Implies
      (.comparisonOp eop (.base (.field c)) eright) := by
  obtain ⟨nl, el, rfl, rfl⟩ := h.literals
  intro V _ row hrow
  cases nl with
  | string nv =>
    cases el with
    | string ev =>
      obtain ⟨x, hx, htest⟩ := (row.meets_iff nop _ (row.literal_string nv) nofun).mp hrow
      exact (row.meets_iff eop _ (row.literal_string ev) nofun).mpr
        ⟨x, hx, check_op_elimination_sound nv ev nop eop h row.toAssignment row.string_mono htest⟩
    | _ => exact h.elim
  | integer nv =>
    cases el with
    | integer ev =>
      obtain ⟨x, hx, htest⟩ := (row.meets_iff nop _ (row.literal_integer nv) nofun).mp hrow
      exact (row.meets_iff eop _ (row.literal_integer ev) nofun).mpr
        ⟨x, hx, check_op_elimination_sound _ _ nop eop h row.toAssignment row.integer_mono htest⟩
    | _ => exact h.elim
  | null =>
    cases el with
    | null =>
      -- a NULL comparison that a row satisfies is one of = and !=
      have hop : nop = .equal ∨ nop = .notEqual := hrow.imp And.left And.left
      rw [show eop = nop from h hop]
      exact hrow
    | _ => exact h.elim
  | _ => exact h.elim

theorem eliminatesComparison_sound {np : ConditionExpression} {eop : Operator} {eleft eright}
    (hn : np.IsPredicate) (h : EliminatesComparison sameNull eop eleft eright np) :
    np.Implies (.comparisonOp eop eleft eright) := by
  induction np with
  | logicalOp op left right ihl ihr =>
    obtain ⟨hop, hl, hr⟩ := hn
    intro V _ row hrow
    rcases hop with rfl | rfl
    · exact h.elim (fun h => ihl hl h V row hrow.1) fun h => ihr hr h V row hrow.2
    · exact hrow.elim (ihl hl h.1 V row) (ihr hr h.2 V row)
  | comparisonOp nop left right =>
    obtain ⟨rfl, h⟩ := h
    obtain ⟨c, _, rfl, -⟩ := hn
    exact eliminatesLiteral_sound h
  | _ => exact hn.elim

/-- What follows by the rules holds on every row on which the new predicate does. -/
theorem Eliminates.sound {np ep : ConditionExpression} (hn : np.IsPredicate)
    (he : ep.IsPredicate) (h : Eliminates sameNull np ep) : np.Implies ep := by
  induction ep generalizing np with
  | logicalOp op left right ihl ihr =>
    obtain ⟨hop, hl, hr⟩ := he
    -- the existing AND or OR, whatever the new predicate is
    have heach : Combined op (Eliminates sameNull np left) (Eliminates sameNull np right) →
        np.Implies (.logicalOp op left right) := by
      intro h V _ row hrow
      rcases hop with rfl | rfl
      · exact ⟨ihl hn hl h.1 V row hrow, ihr hn hr h.2 V row hrow⟩
      · exact h.imp (fun h => ihl hn hl h V row hrow) fun h => ihr hn hr h V row hrow
    cases np with
    | logicalOp nop nleft nright =>
      unfold Eliminates at h
      dsimp only at h
      split_ifs at h with heq
      · subst heq
        obtain ⟨-, hnl, hnr⟩ := hn
        intro V _ row hrow
        rcases h with ⟨h₁, h₂⟩ | ⟨h₁, h₂⟩
        · have hleft := ihl hnl hl h₁ V row
          have hright := ihr hnr hr h₂ V row
          rcases hop with rfl | rfl
          · exact hrow.imp hleft hright
          · exact hrow.imp hleft hright
        · have hright := ihr hnl hr h₁ V row
          have hleft := ihl hnr hl h₂ V row
          rcases hop with rfl | rfl
          · exact ⟨hleft hrow.2, hright hrow.1⟩
          · exact hrow.symm.imp hleft hright
      · exact heach h
    | comparisonOp => exact heach h
    | _ => exact hn.elim
  | comparisonOp op left right => exact eliminatesComparison_sound hn h
  | _ => exact he.elim

/-- **The test can be trusted**: on any two expressions it returns exactly
    where the rules say so. On predicates of AND and OR it does, and if it
    answers yes then every row that satisfies the new predicate satisfies the
    existing one, as long as the answer does not rest on taking NULL
    comparisons for one another. -/
theorem predicate_implication_sound (np ep : ConditionExpression) :
    (complex_predicate_implies np ep ≠ none ↔ Answers np ep) ∧
    (np.IsPredicate → ep.IsPredicate → Answers np ep ∧
      (NullsAgree np ep → complex_predicate_implies np ep = some true → np.Implies ep)) := by
  have htests := complex_predicate_implies_tests np ep
  refine ⟨htests.1, fun hn he => ?_⟩
  have hanswers := hn.answers he
  exact ⟨hanswers, fun hnull htrue => (hnull ((htests.2 hanswers).mp htrue)).sound hn he⟩

/-- A comparison of column `a`. -/
def compareA (op : Operator) (l : Literal) : ConditionExpression :=
  .comparisonOp op (.base (.field ⟨"a", none⟩)) (.base (.literal l))

/-- a < 3 OR a = NULL implies a < 5 OR a = NULL: the crosswise pairs with NULL do no harm. -/
theorem less_three_implies_less_five :
    complex_predicate_implies
        (.logicalOp .or (compareA .less (.integer 3)) (compareA .equal .null))
        (.logicalOp .or (compareA .less (.integer 5)) (compareA .equal .null)) = some true ∧
      ConditionExpression.Implies
        (.logicalOp .or (compareA .less (.integer 3)) (compareA .equal .null))
        (.logicalOp .or (compareA .less (.integer 5)) (compareA .equal .null)) := by
  have hless : ∀ n, (compareA .less (.integer n)).IsPredicate :=
    fun n => ⟨_, _, rfl, rfl, .inr (.inl ⟨n, rfl⟩)⟩
  have hnull : (compareA .equal .null).IsPredicate := ⟨_, _, rfl, rfl, .inl rfl⟩
  obtain ⟨-, hsound⟩ := predicate_implication_sound
    (.logicalOp .or (compareA .less (.integer 3)) (compareA .equal .null))
    (.logicalOp .or (compareA .less (.integer 5)) (compareA .equal .null))
  refine ⟨rfl, (hsound ⟨.inr rfl, hless 3, hnull⟩ ⟨.inr rfl, hless 5, hnull⟩).2 ?_ rfl⟩
  exact fun _ => .inl ⟨⟨rfl, rfl⟩, ⟨rfl, fun _ => rfl⟩⟩

/-- Integers before strings, and NULL in every column. -/
def nulls : Ordered (Int ⊕ₗ String) where
  column _ := none
  literal
    | .integer n => some (Sum.inlₗ n.toInt)
    | .string s => some (Sum.inrₗ s)
    | _ => none
  like _ _ := false
  integer := Sum.inlₗ
  string := Sum.inrₗ
  integer_mono _ _ h := Sum.Lex.inl_lt_inl_iff.mpr h
  string_mono _ _ h := Sum.Lex.inr_lt_inr_iff.mpr h
  literal_integer _ := rfl
  literal_string _ := rfl

/-- a = NULL is taken to imply a != NULL. -/
theorem null_taken_for_not_null :
    complex_predicate_implies (compareA .equal .null) (compareA .notEqual .null) = some true ∧
      ¬(compareA .equal .null).Implies (compareA .notEqual .null) := by
  refine ⟨rfl, fun h => ?_⟩
  have hrow : nulls.Satisfies (compareA .equal .null) := .inl ⟨rfl, rfl⟩
  rcases h _ nulls hrow with ⟨hop, -⟩ | ⟨-, hnot⟩
  · cases hop
  · exact hnot rfl

end Noria.Server.Sql
