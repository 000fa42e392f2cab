import PegCompiler.Proofs.Code.Lowered

/-!
What code takes from the tables. The references of instructions, in the order of the code, denote
just the constants of the expression they were lowered from, in the order in which its nodes are
lowered (`Lowered.denotes`).
-/

namespace PegCompiler

/-- An operand that refers to an entry of a table. -/
inductive Reference
  | literal (place : Int)
  | charClass (place : Int)
  | expectation (place : Int)
  | function (place : Int)
  deriving DecidableEq, Repr

/-- An entry of a table. -/
inductive Datum
  | literal (value : Text)
  | charClass (members : CharClass)
  | expectation (entry : Expectation)
  | function (function : UserFunction)
  deriving DecidableEq, Repr

namespace Tables

/-- The entry at a place; negative places do not count from the end. -/
def item? {α : Type} (items : List α) (place : Int) : Option α :=
  if place < 0 then none else items[place.toNat]?

/-- The entry that a reference denotes, if its place is in the table. -/
def at? (tables : Tables) : Reference → Option Datum
  | .literal place => (item? tables.literals place).map .literal
  | .charClass place => (item? tables.classes place).map .charClass
  | .expectation place => (item? tables.expectations place).map .expectation
  | .function place => (item? tables.functions place).map .function

end Tables

theorem Tables.item?_natCast {α : Type} (items : List α) (n : Nat) :
    item? items (n : Int) = items[n]? := by
  rw [item?, if_neg (by omega), Int.toNat_natCast]

/-- The tables that the operands of an instruction refer to. -/
def Op.references : Op → List Reference
  | .matchLiteral place | .matchLowercase place | .acceptLiteral place => [.literal place]
  | .matchClass place => [.charClass place]
  | .expect place => [.expectation place]
  | .call place _ _ => [.function place]
  | _ => []

namespace Instr

mutual

def references : Instr → List Reference
  | op o => o.references
  | branch _ yes no => allReferences yes ++ allReferences no
  | loop _ body => allReferences body

/-- The references of instructions in a row, in order. -/
def allReferences : List Instr → List Reference
  | [] => []
  | i :: rest => references i ++ allReferences rest

end

@[simp] theorem allReferences_nil : allReferences [] = [] := rfl

@[simp] theorem allReferences_cons (i : Instr) (rest : List Instr) :
    allReferences (i :: rest) = references i ++ allReferences rest := rfl

@[simp] theorem references_op (o : Op) : references (.op o) = o.references := rfl

@[simp] theorem references_branch (test : Test) (yes no : List Instr) :
    references (.branch test yes no) = allReferences yes ++ allReferences no := rfl

@[simp] theorem references_loop (endless : Bool) (body : List Instr) :
    references (.loop endless body) = allReferences body := rfl

@[simp] theorem allReferences_append (first second : List Instr) :
    allReferences (first ++ second) = allReferences first ++ allReferences second := by
  induction first with
  | nil => rfl
  | cons i rest ih => simp [ih]

@[simp] theorem allReferences_ops (os : List Op) :
    allReferences (os.map .op) = os.flatMap Op.references := by
  induction os with
  | nil => rfl
  | cons o rest ih => simp [ih]

end Instr

/-! ### The constants of expressions -/

namespace Expr

/-- The labels in scope behind an element, each once. -/
def labelsBehind (e : Expr) (scope : List Text) : List Text :=
  match e.label? with
  | some name => if name ∈ scope then scope else scope ++ [name]
  | none => scope

/-- The expectation of what reports failures. -/
def expected (reports : Bool) (entry : Expectation) : List Datum :=
  if reports then [.expectation entry] else []

mutual

/-- The constants of an expression in the order in which its nodes are lowered. The code of an action
around a sequence belongs to the end of the sequence, with the labels of all of its elements. -/
def constants (reports : Bool) (finish : Option Text) (scope : List Text) : Expr → List Datum
  | .literal _ value ignoreCase =>
    if value = [] then []
    else expected reports (.literal value ignoreCase) ++
      [.literal (if ignoreCase then value.lowercase else value)]
  | .charClass _ members =>
    expected reports (.charClass members) ++ if members.parts = [] then [] else [.charClass members]
  | .any _ => expected reports .any
  | .ruleRef .. => []
  | .sequence _ elements => constantsInOrder reports finish scope elements
  | .choice info alternatives =>
    if info.verdict = some .never then [] else constantsKept reports scope alternatives
  | .labeled _ _ _ _ body => constants reports none scope body
  | .unary _ _ body => constants reports none scope body
  | .range _ _ _ body delimiter =>
    constants reports none scope body ++ (match delimiter with
      | none => []
      | some separator => constants reports none scope separator)
  | .named _ name body =>
    expected reports (.rule name) ++ constants false finish scope body
  | .action _ code _ body =>
    constants reports (some code) scope body ++
      if body.isSequence ∨ body.verdict = .never then []
      else [.function ⟨false, body.labelsBehind scope, code⟩]
  | .predicate _ _ code => [.function ⟨true, scope, code⟩]
  | .foreign _ => []

def constantsInOrder (reports : Bool) (finish : Option Text) (scope : List Text) :
    List Expr → List Datum
  | [] => finish.toList.map fun code => .function ⟨false, scope, code⟩
  | e :: rest =>
    constants reports none scope e ++ constantsInOrder reports finish (e.labelsBehind scope) rest

/-- The constants of the alternatives that can be reached. -/
def constantsKept (reports : Bool) (scope : List Text) : List Expr → List Datum
  | [] => []
  | e :: rest =>
    match e.verdict with
    | .never => constantsKept reports scope rest
    | .always => constants reports none scope e
    | .sometimes => constants reports none scope e ++ constantsKept reports scope rest

end

end Expr

theorem Lower.fst_define (name : Text) (place : Int) (labels : Environment) :
    (define name place labels).map Prod.fst =
      if name ∈ labels.map Prod.fst then labels.map Prod.fst else labels.map Prod.fst ++ [name] := by
  induction labels with
  | nil => rfl
  | cons label rest ih =>
    obtain ⟨other, old⟩ := label
    by_cases same : other = name
    · simp [define, same]
    · rw [define, if_neg same, List.map_cons, ih]
      by_cases known : name ∈ rest.map Prod.fst <;> simp [known, Ne.symm same]

theorem Expr.fst_define (e : Expr) (place : Int) (labels : Environment) :
    (e.define place labels).map Prod.fst = e.labelsBehind (labels.map Prod.fst) := by
  unfold define labelsBehind
  cases e.label? with
  | none => rfl
  | some name => exact Lower.fst_define name place labels

/-! ### References of pieces of code -/

section Pieces

open Instr

variable {verdict : Verdict} {test : Test} {yes no code : List Instr}

theorem references_condition (inYes : allReferences yes = []) (inNo : allReferences no = []) :
    allReferences (Build.condition verdict test yes no) = [] := by
  cases verdict <;> simp [Build.condition, Verdict.select, inYes, inNo]

theorem references_leaving (position : Nat) : allReferences (Lower.leaving verdict position) = [] := by
  cases verdict <;> simp [Lower.leaving, Build.leaveIf, Verdict.select, Verdict.neg,
    Op.references]

theorem references_firstMatch (codes : List (List Instr)) :
    allReferences (Lower.firstMatch codes) = allReferences codes.flatten := by
  induction codes with
  | nil => rfl
  | cons code rest ih =>
    cases rest with
    | nil => simp [Lower.firstMatch]
    | cons next rest =>
      simp [Lower.firstMatch, ih, Build.leaveIf, Verdict.select, Op.references]

theorem references_ofLookahead (negative : Bool) :
    allReferences (Lower.ofLookahead negative verdict code) = allReferences code := by
  cases negative <;> cases verdict <;>
    simp [Lower.ofLookahead, Build.condition, Verdict.select, Verdict.neg,
      Op.references]

theorem references_appendOrLeave (goBack : Bool) :
    allReferences (Build.appendOrLeave verdict code goBack) = allReferences code := by
  cases goBack <;> cases verdict <;>
    simp [Build.appendOrLeave, Build.condition, Verdict.select, Verdict.neg,
      Op.references]

theorem references_checkMax {max : Boundary} {top : Int} {labels : Environment}
    (checks : .ok code = Build.checkMax max top labels) : allReferences code = [] := by
  have leaves (test : Test) : allReferences (Build.condition .sometimes test
      (Assembly.op (.leave 0)) Assembly.nothing : List Instr) = [] :=
    references_condition rfl rfl
  unfold Build.checkMax at checks
  split at checks
  · cases checks
    rfl
  · cases checks
    rfl
  · cases checks
    exact leaves _
  · cases checks
    exact leaves _
  · cases found : Build.distance labels top ‹Limit› <;> rw [found] at checks <;> cases checks
    exact leaves _

theorem references_checkMin {min : Boundary} {top : Int} {labels : Environment} {body : List Instr}
    (checks : .ok code = Build.checkMin body min top labels) :
    allReferences code = allReferences body := by
  have fails (test : Test) : allReferences (Build.inOrder [
      Assembly.op .pushPosition,
      body,
      Build.condition .sometimes test (Build.ops [.loadPosition, .pop, .push .failed])
        Assembly.nothing,
      Assembly.op .popPosition]) = allReferences body := by
    simp [Build.condition, Verdict.select, Op.references]
  unfold Build.checkMin at checks
  split at checks
  · cases checks
    rfl
  · cases checks
    rfl
  · cases checks
    split
    · rfl
    · exact fails _
  · cases checks
  · cases found : Build.distance labels top ‹Limit› <;> rw [found] at checks <;> cases checks
    exact fails _

theorem references_ofRepetition {checkMax : List Instr} (checks : allReferences checkMax = [])
    (max : Boundary) (between : Option (Verdict × List Instr)) :
    allReferences (Lower.ofRepetition verdict code checkMax max between) =
      allReferences code ++ (between.map (allReferences ·.2)).getD [] := by
  match between with
  | none =>
    simp [Lower.ofRepetition, references_appendOrLeave, checks]
  | some (separator, separatorCode) =>
    have first : allReferences (Lower.firstCheck checkMax max) = [] := by
      cases max with
      | constant limit => simp [Lower.firstCheck, apply_ite allReferences, checks]
      | label => exact checks
    have separated : allReferences (Build.condition separator.neg .isFailed
        [.op .pop, .op (.leave 0)] [.op .pop]) = [] := references_condition rfl rfl
    rw [Lower.ofRepetition_separated]
    simp [Lower.separatedRound, Op.references, references_appendOrLeave, first, separated, checks]

end Pieces

/-! ### Code of expressions -/

/-- The references of code denote these data, in order. -/
def Denotes (tables : Tables) (code : List Instr) (data : List Datum) : Prop :=
  (Instr.allReferences code).map tables.at? = data.map some

namespace Denotes

variable {tables : Tables} {code first second : List Instr} {data others : List Datum}

theorem nil (none : Instr.allReferences code = []) : Denotes tables code [] := by
  rw [Denotes, none]
  rfl

theorem append (h : Denotes tables first data) (k : Denotes tables second others) :
    Denotes tables (first ++ second) (data ++ others) := by
  rw [Denotes, Instr.allReferences_append, List.map_append, List.map_append, h, k]

/-- Code with the same references denotes the same. -/
theorem congr (h : Denotes tables first data)
    (same : Instr.allReferences code = Instr.allReferences first) : Denotes tables code data := by
  rw [Denotes, same, h]

theorem noted {t : Target} {setting : Setting} {entry : Expectation}
    (h : Noted t setting entry code) :
    Denotes t.tables code (Expr.expected setting.reports entry) := by
  unfold Noted at h
  unfold Expr.expected
  split at h
  · obtain ⟨i, found, rfl⟩ := h
    simp [*, Denotes, Op.references, Tables.at?, Tables.item?_natCast]
  · subst h
    simp [*, Denotes]

theorem calling {t : Target} {predicate : Bool} {body : Text} {count top : Int}
    {labels : Environment} (h : Calling t predicate body count labels top code) :
    Denotes t.tables code [.function ⟨predicate, labels.map Prod.fst, body⟩] := by
  obtain ⟨i, found, rfl⟩ := h
  simp [Denotes, Build.call, Op.references, Tables.at?, Tables.item?_natCast, found]

theorem finishing {t : Target} {setting : Setting} {labels : Environment} {autos : List Int}
    {count : Nat} (h : Finishing t setting labels autos count code) :
    Denotes t.tables code (setting.finish.toList.map fun body =>
      .function ⟨false, labels.map Prod.fst, body⟩) := by
  unfold Finishing at h
  split at h
  · rename_i body found
    obtain ⟨call, calls, rfl⟩ := h
    rw [found]
    exact (calling calls).congr (by simp [Op.references])
  · rename_i found
    rw [found]
    refine nil ?_
    split at h <;> subst h <;> rfl

end Denotes

/-- Code that was lowered from an expression denotes the constants of the expression. -/
def DenotesConstants (t : Target) (e : Expr) : Prop :=
  ∀ setting labels code, Lowered t setting labels e code →
    Denotes t.tables code (e.constants setting.reports setting.finish (labels.map Prod.fst))

section Lowered

variable {t : Target} {setting : Setting} {labels : Environment}

theorem LoweredRow.denotes {es : List Expr} (each : ∀ e ∈ es, DenotesConstants t e)
    {autos : List Int} {position : Nat} {code : List Instr}
    (lowered : LoweredRow t setting labels autos position es code) :
    Denotes t.tables code
      (Expr.constantsInOrder setting.reports setting.finish (labels.map Prod.fst) es) := by
  induction es generalizing setting labels autos position code with
  | nil => exact .finishing lowered
  | cons e rest ih =>
    obtain ⟨first, others, here, behind, rfl⟩ := lowered
    have here := each e (by simp) setting.inner labels first here
    have behind := ih (fun c member => each c (by simp [member])) behind
    rw [Expr.fst_define] at behind
    refine (here.append behind).congr ?_
    simp [references_leaving]

theorem LoweredChoices.denotes {es : List Expr} (each : ∀ e ∈ es, DenotesConstants t e)
    {codes : List (List Instr)} (lowered : LoweredChoices t setting.inner labels es codes) :
    Denotes t.tables codes.flatten
      (Expr.constantsKept setting.reports (labels.map Prod.fst) es) := by
  induction es generalizing codes with
  | nil =>
    cases lowered
    rfl
  | cons e rest ih =>
    have first := fun code => each e (by simp) setting.inner labels code
    have ih := fun {codes} => @ih (fun c member => each c (by simp [member])) codes
    cases verdict : e.verdict with
    | never =>
      simp only [LoweredChoices, verdict] at lowered
      simpa only [Expr.constantsKept, verdict] using ih lowered
    | always =>
      simp only [LoweredChoices, verdict] at lowered
      obtain ⟨code, here, rfl⟩ := lowered
      simp only [Expr.constantsKept, verdict, List.flatten_cons, List.flatten_nil, List.append_nil]
      exact first code here
    | sometimes =>
      simp only [LoweredChoices, verdict] at lowered
      obtain ⟨code, others, here, behind, rfl⟩ := lowered
      simp only [Expr.constantsKept, verdict]
      exact (first code here).append (ih behind)

theorem Lowered.denotes (e : Expr) : DenotesConstants t e := by
  induction e using Expr.byChildren with
  | node e ih =>
    intro setting labels code lowered
    cases e with
    | literal info value ignoreCase =>
      by_cases empty : value = []
      · simp only [Lowered, empty, if_true] at lowered
        subst lowered
        simp only [Expr.constants, empty, if_true]
        exact .nil rfl
      · simp only [Lowered, empty, if_false] at lowered
        obtain ⟨noted, i, notes, found, rfl⟩ := lowered
        simp only [Expr.constants, empty, if_false]
        refine (Denotes.noted notes).append ?_
        cases ignoreCase <;>
          simpa [Denotes, Op.references, Tables.at?, Tables.item?_natCast] using found
    | charClass info members =>
      obtain ⟨noted, notes, code⟩ := lowered
      rw [Expr.constants]
      by_cases empty : members.parts = []
      · rw [if_pos empty] at code ⊢
        subst code
        exact (Denotes.noted notes).append (.nil rfl)
      · rw [if_neg empty] at code ⊢
        obtain ⟨i, found, rfl⟩ := code
        refine (Denotes.noted notes).append ?_
        simpa [Denotes, Op.references, Tables.at?, Tables.item?_natCast] using found
    | any info =>
      obtain ⟨noted, notes, rfl⟩ := lowered
      exact (Denotes.noted notes).congr (by simp [Op.references])
    | ruleRef info name =>
      subst lowered
      exact .nil rfl
    | sequence info es =>
      obtain ⟨body, row, rfl⟩ := lowered
      exact (LoweredRow.denotes ih row).congr (by simp [Op.references])
    | choice info es =>
      rw [Expr.constants]
      by_cases never : info.verdict = some .never
      · rw [if_pos never]
        rw [Lowered, if_pos never] at lowered
        subst lowered
        exact .nil rfl
      · rw [if_neg never]
        rw [Lowered, if_neg never] at lowered
        obtain ⟨codes, kept, -, rfl⟩ := lowered
        exact (LoweredChoices.denotes ih kept).congr (by simp [references_firstMatch])
    | labeled info label at? auto body =>
      exact ih body (by simp [Expr.children]) setting.inner labels code lowered
    | unary info operator body =>
      have below := ih body (by simp [Expr.children])
      cases operator with
      | group => exact below setting.inner labels code lowered
      | text =>
        obtain ⟨inner, lowered, rfl⟩ := lowered
        refine (below setting.inner labels inner lowered).congr ?_
        have ending : Instr.allReferences
            (Build.condition body.verdict .isMatched [.op .text] []) = [] :=
          references_condition rfl rfl
        split <;> simp [Op.references, ending]
      | followedBy | notFollowedBy =>
        obtain ⟨inner, lowered, rfl⟩ := lowered
        exact (below setting.inner labels inner lowered).congr (references_ofLookahead _)
      | optional =>
        obtain ⟨inner, lowered, rfl⟩ := lowered
        refine (below setting.inner labels inner lowered).congr ?_
        have ending : Instr.allReferences
            (Build.condition body.verdict.neg .isFailed [.op .pop, .op (.push .null)] []) = [] :=
          references_condition rfl rfl
        simp [ending]
      | zeroOrMore =>
        obtain ⟨inner, lowered, rfl⟩ := lowered
        refine (below setting.next.inner labels inner lowered).congr ?_
        simp [references_ofRepetition Instr.allReferences_nil, Op.references]
      | oneOrMore =>
        obtain ⟨inner, lowered, checked⟩ := lowered
        refine (below setting.next.inner labels inner lowered).congr ?_
        rw [references_checkMin checked]
        simp [references_ofRepetition Instr.allReferences_nil, Op.references]
    | range info min max body delimiter =>
      cases delimiter with
      | none =>
        obtain ⟨inner, checkMax, lowered, checks, checked⟩ := lowered
        have below := ih body (by simp [Expr.children]) setting.next.inner labels inner lowered
        rw [Expr.constants, List.append_nil]
        refine below.congr ?_
        rw [references_checkMin checked]
        simp [references_ofRepetition (references_checkMax checks), Op.references]
      | some separator =>
        obtain ⟨inner, checkMax, between, lowered, checks, lowered', checked⟩ := lowered
        have below := ih body (by simp [Expr.children]) setting.next.inner labels inner lowered
        have behind := ih separator (by simp [Expr.children]) setting.next.inner labels between
          lowered'
        refine (below.append behind).congr ?_
        rw [references_checkMin checked]
        simp [references_ofRepetition (references_checkMax checks), Op.references]
    | named info name body =>
      have below := ih body (by simp [Expr.children])
      rw [Expr.constants, Expr.expected]
      cases reports : setting.reports with
      | false =>
        rw [Lowered, reports] at lowered
        have below := below setting labels code lowered
        rwa [reports] at below
      | true =>
        rw [Lowered, if_pos reports] at lowered
        obtain ⟨i, inner, found, lowered, rfl⟩ := lowered
        have here : Denotes t.tables (Build.ops [.expect i, .silence])
            [.expectation (.rule name)] := by
          simp [Denotes, Op.references, Tables.at?, Tables.item?_natCast, found]
        exact (here.append (below { setting with reports := false } labels inner lowered)).congr
          (by simp [Op.references])
    | action info text at? body =>
      obtain ⟨inner, lowered, rest⟩ := lowered
      have below := ih body (by simp [Expr.children]) { setting with finish := some text } labels
        inner lowered
      rw [Expr.constants]
      by_cases isSequence : body.isSequence = true
      · rw [if_pos isSequence] at rest
        subst rest
        rw [if_pos (.inl isSequence), List.append_nil]
        exact below
      · rw [if_neg isSequence] at rest
        obtain ⟨calling, rfl, calls⟩ := rest
        by_cases never : body.verdict = .never
        · rw [if_pos (.inr never), List.append_nil]
          refine below.congr ?_
          simp [never, Build.condition, Verdict.select, Op.references]
        · rw [if_neg (by simp [isSequence, never])]
          obtain ⟨call, rfl, called⟩ := calls never
          have call := Denotes.calling called
          rw [Expr.fst_define] at call
          refine (below.append call).congr ?_
          cases verdict : body.verdict with
          | never => exact absurd verdict never
          | sometimes | always => simp [Build.condition, Verdict.select, Op.references]
    | predicate info negative text =>
      obtain ⟨call, calls, rfl⟩ := lowered
      refine (Denotes.calling calls).congr ?_
      cases negative <;> simp [Op.references]
    | foreign what => exact absurd lowered id

end Lowered

end PegCompiler
