import PegCompiler.Grammar.Reader
import PegCompiler.Proofs.Grammar.Nodes

/-!
The shape of the tree that a grammar text gives. `Expr.IsShaped` says of one node what later passes
rely on: no row stands directly in a row or below an operator, an auto label stands only in a row, a
group holds exactly what needs one, and bounds and ranges of code points are in order.
`Grammar.read_shaped` is the result: every grammar that was read has rules, and all nodes of all of
them are shaped so, whichever way through the productions they come from.
-/

namespace PegCompiler

namespace Boundary

/-- A least number of repetitions that a text can give. -/
def IsLeast : Boundary → Prop
  | count n => 0 ≤ n
  | label (.text _) => True
  | _ => False

/-- A greatest number of repetitions that a text can give. -/
def IsGreatest : Boundary → Prop
  | count n => 0 < n
  | unbounded => True
  | label (.text _) => True
  | _ => False

/-- Constant bounds are in order. -/
def Ordered : Boundary → Boundary → Prop
  | count m, count n => m ≤ n
  | _, _ => True

end Boundary

/-- A part of a class that a text can give: single code points, those of a range in order. -/
def ClassPart.IsOrdered : ClassPart → Prop
  | char _ => True
  | range lo hi => lo.toNat ≤ hi.toNat
  | loose _ => False

namespace Expr

def isRow : Expr → Bool
  | sequence .. => true
  | _ => false

def isLabeled : Expr → Bool
  | labeled .. => true
  | _ => false

/-- The label that an element gives to the elements behind it. -/
def label? : Expr → Option Text
  | labeled _ label _ _ _ => label
  | _ => none

/-- What may stand below an operator or a label, and what a range may repeat. -/
def IsOperand (e : Expr) : Prop := e.isRow = false ∧ e.isLabeled = false

/-- What a text says about a single node. A display name is no node of an expression at all: it only
stands around the whole expression of a rule. -/
def IsShaped : Expr → Prop
  | charClass _ members => ∀ part ∈ members.parts, part.IsOrdered
  | sequence _ elements =>
    elements ≠ [] ∧ (∀ e, elements = [e] → Scan.isAuto e = true) ∧ ∀ e ∈ elements, e.isRow = false
  | choice _ alternatives =>
    2 ≤ alternatives.length ∧ ∀ e ∈ alternatives, Scan.isAuto e = false
  | labeled _ label _ _ body => body.IsOperand ∧ ∀ name ∈ label, name ∉ Text.reservedWords
  | unary _ .group body => (body.isRow || body.isLabeled) = true ∧ Scan.isAuto body = false
  | unary _ _ body => body.IsOperand
  | range _ min max body delimiter =>
    body.IsOperand ∧ (∀ e ∈ delimiter, Scan.isAuto e = false) ∧
      min.IsLeast ∧ max.IsGreatest ∧ min.Ordered max
  | action _ _ _ body => Scan.isAuto body = false
  | named .. | foreign _ => False
  | _ => True

/-- Every node has the shape that a text gives it. -/
abbrev Shaped : Expr → Prop := Everywhere IsShaped

/-- What may stand outside a row: no auto label. -/
def Whole (e : Expr) : Prop := e.Shaped ∧ Scan.isAuto e = false

end Expr

/-- A rule as it is read: its expression may have a display name around it, and no later pass has
annotated it yet. -/
structure Rule.Shaped (rule : Rule) : Prop where
  body : ∃ e : Expr, (rule.body = e ∨ ∃ info name, rule.body = .named info name e) ∧ e.Whole
  verdict : rule.verdict = none
  words : rule.words = none

namespace Scan

/-- Whatever `scan` finds satisfies `P`. -/
def Gives {α : Type} (scan : Scan α) (P : α → Prop) : Prop :=
  ∀ cursor found after, scan cursor = .ok (found, after) → P found

section Gives

variable {α β : Type} {P : α → Prop} {Q : β → Prop}

theorem Gives.pure {a : α} (h : P a) : Gives (pure a) P := by
  intro cursor found after run
  cases run
  exact h

theorem Gives.bind {scan : Scan α} {next : α → Scan β} (first : Gives scan P)
    (second : ∀ a, P a → Gives (next a) Q) : Gives (scan >>= next) Q := by
  intro cursor found after run
  change (Except.bind (scan cursor) fun (a, c) => next a c) = _ at run
  cases h : scan cursor with
  | error fault => rw [h] at run; cases run
  | ok result =>
    obtain ⟨a, middle⟩ := result
    rw [h] at run
    exact second a (first cursor a middle h) middle found after run

/-- A scan about whose finding nothing is said. -/
theorem Gives.then {scan : Scan α} {next : α → Scan β} (second : ∀ a, Gives (next a) Q) :
    Gives (scan >>= next) Q :=
  Gives.bind (P := fun _ => True) (fun _ _ _ _ => trivial) fun a _ => second a

theorem Gives.fail {fault : SyntaxFault} {cursor : Cursor} : Gives (fail fault cursor) P := by
  intro _ _ _ run
  cases run

theorem Gives.map {scan : Scan α} {f : α → β} (h : Gives scan fun a => Q (f a)) :
    Gives (f <$> scan) Q := by
  rw [← bind_pure_comp]
  exact Gives.bind h fun a holds => Gives.pure holds

theorem Gives.mono {scan : Scan α} {P' : α → Prop} (h : Gives scan P) (imp : ∀ a, P a → P' a) :
    Gives scan P' := fun cursor found after run => imp found (h cursor found after run)

theorem Gives.ite {c : Prop} [Decidable c] {yes no : Scan α} (hyes : c → Gives yes P)
    (hno : ¬c → Gives no P) : Gives (if c then yes else no) P := by
  split
  · exact hyes ‹_›
  · exact hno ‹_›

end Gives

/-- What stands below an operator or a label. -/
def Operand (e : Expr) : Prop := e.Shaped ∧ e.IsOperand

/-- What stands in a row. -/
def Element (e : Expr) : Prop := e.Shaped ∧ e.isRow = false

theorem Operand.element {e : Expr} (h : Operand e) : Element e := ⟨h.1, h.2.1⟩

/-- A node without nodes below it. -/
theorem shaped_leaf {e : Expr} (here : e.IsShaped) (none : e.children = []) : e.Shaped :=
  .node here (by simp [none])

theorem shaped_wrap {e body : Expr} (here : e.IsShaped) (one : e.children = [body])
    (h : body.Shaped) : e.Shaped :=
  .node here (by simpa [one] using h)

/-- An operator other than that of a group, which needs one. -/
theorem operand_unary {info : Info} {operator : Operator} {body : Expr}
    (plain : operator ≠ .group) (h : Operand body) : Operand (.unary info operator body) := by
  refine ⟨shaped_wrap ?_ rfl h.1, rfl, rfl⟩
  cases operator with
  | group => exact absurd rfl plain
  | _ => exact h.2

/-- A row, which has a single element only for the sake of an auto label. -/
theorem shaped_row {info : Info} {es : List Expr} (nonempty : es ≠ [])
    (single : ∀ e, es = [e] → isAuto e = true) (each : ∀ e ∈ es, Element e) :
    (Expr.sequence info es).Whole :=
  ⟨.node ⟨nonempty, single, fun e he => (each e he).2⟩ fun e he => (each e he).1, rfl⟩

variable {nested : Nested} {inDelimiter : Bool}

theorem literal_gives : Gives literal Operand := by
  refine .then fun _ => .then fun _ => .then fun _ => .then fun _ => .pure ?_
  exact ⟨shaped_leaf trivial rfl, rfl, rfl⟩

theorem classPart_gives : Gives classPart ClassPart.IsOrdered := by
  refine .then fun _ => .then fun _ => .then fun _ => ?_
  refine .ite (fun _ => ?_) (fun _ => .pure trivial)
  refine .then fun _ => .then fun _ => .ite (fun _ => ?_) fun order => .pure (Nat.le_of_not_lt order)
  exact .bind (P := fun _ => False) .fail nofun

theorem classParts_gives (fuel : Nat) :
    Gives (classParts fuel) fun parts => ∀ part ∈ parts, part.IsOrdered := by
  induction fuel with
  | zero => exact .then fun _ => .fail
  | succ fuel ih =>
    refine .then fun _ => .ite (fun _ => ?_) (fun _ => ?_)
    · exact .then fun _ => .pure (by simp)
    · refine .bind classPart_gives fun part ordered => .bind ih fun parts others => .pure ?_
      simpa [ordered] using others

theorem charClass_gives : Gives charClass Operand := by
  refine .then fun first => .then fun _ => .then fun here => ?_
  have parts : Gives (do
      let parts ← classParts (first.after.length + 1)
      let ignoreCase ← ignoreCaseFlag
      return .charClass { location := ← locationFrom first }
        ⟨parts, here.peek? == some (CodePoint.scalar '^'), ignoreCase⟩) Operand :=
    .bind (classParts_gives _) fun parts ordered => .then fun _ => .then fun _ =>
      .pure ⟨shaped_leaf ordered rfl, rfl, rfl⟩
  exact .ite (fun _ => .then fun _ => parts) fun _ => parts

theorem bound_gives : Gives bound fun found => ∀ boundary ∈ found,
    boundary.IsLeast ∧ (boundary.IsGreatest ∨ boundary = .count 0) := by
  refine .then fun _ => .then fun cursor => .ite (fun _ => ?_) fun _ =>
    .ite (fun _ => .fail) fun _ => .then fun _ => .pure ?_
  · refine .then fun _ => .ite (fun _ => .then fun _ => .pure ?_) fun _ => .pure (by simp)
    simp [Boundary.IsLeast, Boundary.IsGreatest]
  · simp only [Option.mem_def, Option.some.injEq, forall_eq', Boundary.IsLeast,
      Boundary.IsGreatest, Boundary.constant.injEq, Limit.number.injEq]
    omega

/-- What stands between the bars of a range, but for what `checkBounds` refuses. -/
def Bounds (found : (Boundary × Cursor) × (Boundary × Cursor)) : Prop :=
  found.1.1.IsLeast ∧ (found.2.1.IsGreatest ∨ found.2.1 = .count 0)

theorem bounds_gives : Gives bounds Bounds := by
  refine .then fun _ => .then fun _ => .bind bound_gives fun low lowHolds =>
    .then fun _ => .ite (fun _ => ?_) fun _ => ?_
  · refine .then fun _ => .then fun _ => .bind bound_gives fun high highHolds => .pure ⟨?_, ?_⟩
    · cases low with
      | none => simp [Boundary.IsLeast]
      | some low => exact (lowHolds low rfl).1
    · cases high with
      | none => exact .inl trivial
      | some high => exact (highHolds high rfl).2
  · cases low with
    | none => exact .then fun _ => .fail
    | some low => exact .pure (lowHolds low rfl)

theorem checkBounds_gives {found : (Boundary × Cursor) × (Boundary × Cursor)} (h : Bounds found) :
    Gives (checkBounds found) fun _ => found.2.1.IsGreatest ∧ found.1.1.Ordered found.2.1 := by
  obtain ⟨⟨low, lowAt⟩, ⟨high, highAt⟩⟩ := found
  obtain ⟨-, greatest⟩ := h
  simp only [checkBounds]
  split
  · exact .fail
  · rename_i m n nonzero
    refine .ite (fun _ => .fail) fun ordered => .pure ⟨?_, by simpa [Boundary.Ordered] using ordered⟩
    exact greatest.resolve_right (by simpa using nonzero)
  · rename_i nonzero unordered
    refine .pure ⟨greatest.resolve_right nonzero, ?_⟩
    unfold Boundary.Ordered
    split
    · exact absurd rfl (unordered _ _ rfl)
    · trivial

theorem label_gives : Gives label fun found => found.1 ∉ Text.reservedWords := by
  refine .then fun _ => .then fun first => .then fun found => ?_
  have finish (free : found ∉ Text.reservedWords) : Gives (do
      let location ← locationFrom first
      eat ":"
      return (found, location)) fun found => found.1 ∉ Text.reservedWords :=
    .then fun _ => .then fun _ => .pure free
  refine .ite (fun _ => ?_) fun free => finish (by simpa using free)
  exact .bind (P := fun _ => False) .fail nofun

theorem ruleEnd_gives {first : Cursor} {found : Text} {nameLocation : Location} {body : Expr}
    (h : ∃ e : Expr, (body = e ∨ ∃ info name, body = .named info name e) ∧ e.Whole) :
    Gives (ruleEnd first found nameLocation body) Rule.Shaped :=
  .then fun _ => .then fun _ => .pure ⟨h, rfl, rfl⟩

section Nested

/-! Productions, given that what is nested inside them is whole. -/

variable (inner : ∀ inDelimiter, Gives (nested inDelimiter) Expr.Whole)

include inner

theorem primary_gives : Gives (primary nested) Operand := by
  refine .then fun _ => .then fun first => ?_
  split
  · exact literal_gives
  · exact literal_gives
  · exact charClass_gives
  · exact .then fun _ => .then fun _ => .pure ⟨shaped_leaf trivial rfl, rfl, rfl⟩
  · refine .then fun _ => .bind (inner false) fun body h => .then fun _ => ?_
    split
    · exact .then fun _ => .pure ⟨shaped_wrap ⟨rfl, h.2⟩ rfl h.1, rfl, rfl⟩
    · exact .then fun _ => .pure ⟨shaped_wrap ⟨rfl, h.2⟩ rfl h.1, rfl, rfl⟩
    · rename_i notRow notLabeled
      refine .pure ⟨h.1, ?_, ?_⟩
      · unfold Expr.isRow
        split
        · exact absurd rfl (notRow _ _)
        · rfl
      · unfold Expr.isLabeled
        split
        · exact absurd rfl (notLabeled _ _ _ _ _)
        · rfl
  · refine .then fun _ => .ite (fun _ => ?_) fun _ => .fail
    exact .then fun _ => .then fun _ => .pure ⟨shaped_leaf trivial rfl, rfl, rfl⟩

theorem range_gives (first : Cursor) {body : Expr} (h : Operand body) :
    Gives (range nested first body) Operand := by
  refine .then fun _ => .bind bounds_gives fun found bounds =>
    .bind (checkBounds_gives bounds) fun _ checked => .then fun _ => ?_
  have close : ∀ delimiter : Option Expr, (∀ d ∈ delimiter, d.Whole) → Gives (do
      eat "|"
      return .range { location := ← locationFrom first } found.1.1 found.2.1 body delimiter)
      Operand := by
    intro delimiter whole
    have here : (Expr.range {} found.1.1 found.2.1 body delimiter).IsShaped :=
      ⟨h.2, fun d hd => (whole d hd).2, bounds.1, checked⟩
    refine .then fun _ => .then fun _ => .pure ⟨.node here ?_, rfl, rfl⟩
    cases delimiter with
    | none => simpa [Expr.children] using h.1
    | some separator => simpa [Expr.children] using ⟨h.1, (whole separator rfl).1⟩
  refine .ite (fun _ => .bind (P := fun d => ∀ e ∈ d, e.Whole) (.map ?_) close) fun _ =>
    .bind (P := fun d => ∀ e ∈ d, e.Whole) (.pure (by simp)) close
  exact (inner true).mono fun e h => by simpa using h

theorem suffixed_gives : Gives (suffixed nested inDelimiter) Operand := by
  refine .then fun _ => .then fun first => .bind (primary_gives inner) fun body h => ?_
  have apply (operator : Operator) (plain : operator ≠ .group) : Gives (do
      modify Cursor.next
      return .unary { location := ← locationFrom first } operator body) Operand :=
    .then fun _ => .then fun _ => .pure (operand_unary plain h)
  refine .then fun _ => ?_
  split
  · exact apply .optional nofun
  · exact apply .zeroOrMore nofun
  · exact apply .oneOrMore nofun
  · exact .ite (fun _ => .pure h) fun _ => range_gives inner first h
  · exact .pure h

theorem operator_gives (first : Cursor) {operator : Operator} (plain : operator ≠ .group) : Gives (do
    let body ← suffixed nested inDelimiter
    return .unary { location := ← locationFrom first } operator body) Operand :=
  .bind (suffixed_gives inner) fun _ h => .then fun _ => .pure (operand_unary plain h)

theorem lookahead_gives (first : Cursor) (negative : Bool) : Gives (do
    set first.next
    if (← ahead) == some (CodePoint.scalar '\x7b') then
      let (code, _) ← code
      return .predicate { location := ← locationFrom first } negative code
    else
      let body ← suffixed nested inDelimiter
      let operator := if negative then Operator.notFollowedBy else .followedBy
      return .unary { location := ← locationFrom first } operator body) Operand := by
  refine .then fun _ => .then fun _ => .ite (fun _ => .then fun _ => ?_) fun _ => ?_
  · exact .then fun _ => .pure ⟨shaped_leaf trivial rfl, rfl, rfl⟩
  · exact operator_gives inner first (by cases negative <;> nofun)

theorem prefixed_gives : Gives (prefixed nested inDelimiter) Operand := by
  refine .then fun _ => .then fun first => ?_
  split
  · exact lookahead_gives inner first false
  · exact lookahead_gives inner first true
  · exact .then fun _ => operator_gives inner first nofun
  · exact suffixed_gives inner

/-- What may have a label in front of it. -/
theorem labelable_gives (first : Cursor) : Gives (do
    if ← labelAhead then
      let (found, location) ← label
      let body ← prefixed nested inDelimiter
      return .labeled { location := ← locationFrom first } (some found) (some location)
        (first.peek? == some (CodePoint.scalar '@')) body
    else
      let body ← prefixed nested inDelimiter
      if first.peek? == some (CodePoint.scalar '@') then
        return .labeled { location := ← locationFrom first } none none true body
      else return body) Element := by
  refine .then fun _ => .ite (fun _ => .bind label_gives fun found free => ?_) fun _ => ?_
  · exact .bind (prefixed_gives inner) fun body h => .then fun _ =>
      .pure ⟨shaped_wrap ⟨h.2, by simpa using free⟩ rfl h.1, rfl⟩
  · refine .bind (prefixed_gives inner) fun body h => .ite (fun _ => ?_) fun _ => .pure h.element
    exact .then fun _ => .pure ⟨shaped_wrap ⟨h.2, by simp⟩ rfl h.1, rfl⟩

theorem labeled_gives : Gives (labeled nested inDelimiter) Element := by
  refine .then fun _ => .then fun first => ?_
  exact .ite (fun _ => .then fun _ => labelable_gives inner first) fun _ => labelable_gives inner first

theorem elements_gives (fuel : Nat) :
    Gives (elements nested inDelimiter fuel) fun es => ∀ e ∈ es, Element e := by
  induction fuel with
  | zero => exact .then fun _ => .fail
  | succ fuel ih =>
    refine .then fun _ => .ite (fun _ => .pure (by simp)) fun _ => ?_
    refine .bind (labeled_gives inner) fun e h => .bind ih fun es others => .pure ?_
    simpa [h] using others

theorem sequence_gives : Gives (sequence nested inDelimiter) Expr.Whole := by
  refine .then fun _ => .then fun _ => .bind (elements_gives inner _) fun found each => ?_
  split
  · exact .then fun _ => .fail
  · rename_i only
    refine .ite (fun auto => .then fun _ => .pure ?_) fun plain => .pure ⟨(each only (by simp)).1, ?_⟩
    · exact shaped_row (by simp) (by simpa using auto) each
    · simpa using plain
  · rename_i notEmpty notSingle
    refine .then fun _ => .pure (shaped_row (by simpa using notEmpty) ?_ each)
    exact fun e single => absurd single (notSingle e)

theorem action_gives : Gives (action nested inDelimiter) Expr.Whole := by
  refine .then fun _ => .then fun _ => .bind (sequence_gives inner) fun body h => .then fun _ => ?_
  refine .ite (fun _ => .then fun _ => ?_) fun _ => .pure h
  exact .then fun _ => .pure ⟨shaped_wrap h.2 rfl h.1, rfl⟩

theorem alternatives_gives (fuel : Nat) :
    Gives (alternatives nested inDelimiter fuel) fun es => ∀ e ∈ es, e.Whole := by
  induction fuel with
  | zero => exact .then fun _ => .fail
  | succ fuel ih =>
    refine .then fun _ => .ite (fun _ => ?_) fun _ => .pure (by simp)
    refine .bind (action_gives inner) fun e h => .bind ih fun es others => .pure ?_
    simpa [h] using others

theorem choiceOf_gives : Gives (choiceOf nested inDelimiter) Expr.Whole := by
  refine .then fun _ => .then fun _ => .bind (action_gives inner) fun found h =>
    .bind (alternatives_gives inner _) fun others each => ?_
  split
  · exact .pure h
  · rename_i nonempty
    have all : ∀ e ∈ found :: others, e.Whole := by simpa [h] using each
    have two : 2 ≤ (found :: others).length := by
      have := List.length_pos_iff.mpr nonempty
      simp only [List.length_cons]
      omega
    exact .then fun _ => .pure ⟨.node ⟨two, fun e he => (all e he).2⟩ fun e he => (all e he).1, rfl⟩

theorem definition_gives (first displayFirst : Cursor) (found : Text) (nameLocation : Location)
    (display : Option Text) :
    Gives (definition nested first displayFirst found nameLocation display) Rule.Shaped := by
  refine .then fun _ => .bind (inner false) fun body h => ?_
  cases display with
  | none => exact .bind (.pure ⟨body, .inl rfl, h⟩) fun _ => ruleEnd_gives
  | some display => exact .then fun _ => .bind (.pure ⟨body, .inr ⟨_, _, rfl⟩, h⟩) fun _ => ruleEnd_gives

theorem rule_gives : Gives (rule nested) Rule.Shaped := by
  refine .then fun _ => .then fun first => .then fun found => .then fun nameLocation => .then fun _ =>
    .then fun displayFirst => ?_
  have defined := definition_gives inner first displayFirst found nameLocation
  exact .ite (fun _ => .then fun _ => defined _) fun _ => .then fun _ => defined _

theorem rules_gives (fuel : Nat) : Gives (rules nested fuel) fun rs => ∀ r ∈ rs, r.Shaped := by
  induction fuel with
  | zero => exact .then fun _ => .fail
  | succ fuel ih =>
    refine .then fun _ => .then fun _ => .ite (fun _ => .pure (by simp)) fun _ => ?_
    refine .bind (rule_gives inner) fun r h => .bind ih fun rs others => .pure ?_
    simpa [h] using others

end Nested

theorem choice_gives (depth : Nat) : Gives (choice depth inDelimiter) Expr.Whole := by
  induction depth generalizing inDelimiter with
  | zero => exact .then fun _ => .fail
  | succ depth ih => exact choiceOf_gives fun _ => ih

theorem grammar_gives (depth : Nat) :
    Gives (grammar depth) fun g => g.rules ≠ [] ∧ ∀ r ∈ g.rules, r.Shaped := by
  refine .then fun _ => .then fun _ => .then fun _ =>
    .bind (rules_gives (fun _ => choice_gives depth) _) fun found each =>
      .ite (fun _ => .then fun _ => .fail) fun nonempty => .then fun _ => .pure ⟨?_, each⟩
  simpa using nonempty

end Scan

namespace Grammar

variable {text : Text} {source : Option Text} {g : Grammar}

/-- What is found however deeply choices may nest is what a text is read to. -/
theorem read_gives {P : Grammar → Prop} (each : ∀ depth, Scan.Gives (Scan.grammar depth) P)
    (h : Grammar.read text source = .ok g) : P g := by
  unfold Grammar.read at h
  cases run : Scan.grammar (text.length + 1) (.start source text) with
  | error fault => rw [run] at h; cases h
  | ok result =>
    obtain ⟨found, after⟩ := result
    rw [run] at h
    cases h
    exact each _ _ _ _ run

/-- A text whose grammar passes a test has such a grammar. -/
theorem exists_of_read (test : Grammar → Bool)
    (holds : (Grammar.read text source).toOption.any test = true) :
    ∃ g, Grammar.read text source = .ok g ∧ test g = true := by
  cases read : Grammar.read text source with
  | error fault => simp [read, Except.toOption] at holds
  | ok g => exact ⟨g, rfl, by simpa [read, Except.toOption] using holds⟩

/-- A grammar that was read has a rule. The expression of each rule is whole, but for a display name
around it, and every node in it has the shape that a text gives it. -/
theorem read_shaped (h : Grammar.read text source = .ok g) :
    g.rules ≠ [] ∧ ∀ r ∈ g.rules, ∃ e : Expr,
      (r.body = e ∨ ∃ info name, r.body = .named info name e) ∧
        Scan.isAuto e = false ∧ e.Everywhere Expr.IsShaped := by
  obtain ⟨nonempty, shaped⟩ := read_gives Scan.grammar_gives h
  refine ⟨nonempty, fun r member => ?_⟩
  obtain ⟨e, displayed, everywhere, plain⟩ := (shaped r member).body
  exact ⟨e, displayed, plain, everywhere⟩

/-! A sample: parentheses around what needs a group and around what does not, an auto label on its own,
and a range with all its parts. -/

def parenthesesText : Text :=
  .ofString "s \"n\" = @a:('x' / 'y')|1..2, @'-' ','| / (b:'z')? ((('u' 'v'))) \x7b c \x7d\nt = (@[a-z])"

theorem parentheses_shaped : ∃ g, Grammar.read parenthesesText none = .ok g ∧ g.rules.length = 2 ∧
    g.rules ≠ [] ∧ ∀ r ∈ g.rules, ∃ e : Expr,
      (r.body = e ∨ ∃ info name, r.body = .named info name e) ∧
        Scan.isAuto e = false ∧ e.Everywhere Expr.IsShaped := by
  obtain ⟨g, read, two⟩ := exists_of_read (fun g => g.rules.length = 2)
    (show (Grammar.read parenthesesText none).toOption.any _ = true by decide +kernel)
  exact ⟨g, read, of_decide_eq_true two, read_shaped read⟩

end Grammar

end PegCompiler
