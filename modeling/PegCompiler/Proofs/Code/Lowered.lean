import PegCompiler.Code.Lower
import PegCompiler.Proofs.Check.Scoping

/-!
What lowering gives. `Lowered` relates an expression to its code, given the final tables and the
places of the labels in scope; it says the same as the lowering functions without the workspace that
they hand on.
-/

namespace PegCompiler

/-- What code refers to: the rules by their places, everything else through the tables. -/
structure Target where
  placeOf : Text → Int
  tables : Tables

namespace Expr

/-- A single `@` stands before the element. -/
def isAuto : Expr → Bool
  | labeled _ _ _ auto _ => auto
  | _ => false

/-- The labels behind an element whose value is at `place`. -/
def define (e : Expr) (place : Int) (labels : Environment) : Environment :=
  match e.label? with
  | some name => Lower.define name place labels
  | none => labels

/-- The auto labels behind an element whose value is at `place`. -/
def collect {α : Type} (e : Expr) (place : α) (autos : List α) : List α :=
  if e.isAuto then autos ++ [place] else autos

end Expr

namespace Setting

/-- The setting of what stands below an expression. -/
def inner (setting : Setting) : Setting := { setting with finish := none }

/-- The setting behind one more result. -/
def next (setting : Setting) : Setting := { setting with top := setting.top + 1 }

end Setting

/-- A rule reports failures unless it is marked not to. -/
def Rule.reports (r : Rule) : Bool := r.reportsFailures != some false

/-- Nothing is on the stack of results where a rule begins. -/
def Rule.setting (r : Rule) : Setting := { top := -1, reports := r.reports }

/-- The code that records an expectation. -/
def Noted (t : Target) (setting : Setting) (entry : Expectation) (code : List Instr) : Prop :=
  if setting.reports then
    ∃ i : Nat, t.tables.expectations[i]? = some entry ∧ code = Build.ops [.expect i]
  else code = []

/-- The code that calls a user function. -/
def Calling (t : Target) (predicate : Bool) (body : Text) (count : Int) (labels : Environment)
    (top : Int) (code : List Instr) : Prop :=
  ∃ i : Nat, t.tables.functions[i]? = some ⟨predicate, labels.map Prod.fst, body⟩ ∧
    code = Build.call i count labels top

/-- The code at the end of a sequence of `count` elements. -/
def Finishing (t : Target) (setting : Setting) (labels : Environment) (autos : List Int)
    (count : Nat) (code : List Instr) : Prop :=
  match setting.finish with
  | some body => ∃ calling, Calling t false body count labels setting.top calling ∧
      code = Build.ops [.markTop] ++ calling
  | none =>
    match autos with
    | [] => code = Build.ops [.wrap count]
    | [place] => code = Build.ops [.get count (setting.top - place)]
    | places => code = Build.ops [.wrapSome count (places.map (setting.top - ·))]

/-- The code that leaves a sequence whose element in place `position` has failed. -/
def Lower.leaving (verdict : Verdict) (position : Nat) : List Instr :=
  Build.leaveIf verdict.neg Test.isFailed position (Build.ops [.loadPosition]) Assembly.nothing

mutual

/-- The code of an expression. -/
def Lowered (t : Target) (setting : Setting) (labels : Environment) : Expr → List Instr → Prop
  | .literal _ value ignoreCase, code =>
    if value = [] then code = Build.ops [.push .emptyText]
    else ∃ (noted : List Instr) (i : Nat), Noted t setting (.literal value ignoreCase) noted ∧
      t.tables.literals[i]? = some (if ignoreCase then value.lowercase else value) ∧
      code = noted ++ Build.ops [if ignoreCase then .matchLowercase i else .matchLiteral i]
  | .charClass _ members, code =>
    ∃ noted, Noted t setting (.charClass members) noted ∧
      if members.parts = [] then code = noted ++ Build.ops [.push .failed]
      else ∃ i : Nat, t.tables.classes[i]? = some members ∧ code = noted ++ Build.ops [.matchClass i]
  | .any _, code => ∃ noted, Noted t setting .any noted ∧ code = noted ++ Build.ops [.matchAny]
  | .ruleRef _ name, code => code = Build.ops [.rule (t.placeOf name)]
  | .sequence _ es, code =>
    ∃ body, LoweredRow t setting labels [] 1 es body ∧
      code = Build.ops [.pushPosition] ++
        Assembly.loop (Assembly.head (List Instr) false) body ++ Build.ops [.popPosition]
  | .choice info es, code =>
    if info.verdict = some .never then code = Build.ops [.push .failed]
    else ∃ codes, LoweredChoices t setting.inner labels es codes ∧ codes ≠ [] ∧
      code = Assembly.loop (Assembly.head (List Instr) false) (Lower.firstMatch codes)
  | .labeled _ _ _ _ body, code => Lowered t setting.inner labels body code
  | .unary _ operator body, code =>
    match operator with
    | .group => Lowered t setting.inner labels body code
    | .text => ∃ inner, Lowered t setting.inner labels body inner ∧
        code = if body.verdict = .never then inner
          else Build.ops [.pushPosition] ++ inner ++
            Build.condition body.verdict Test.isMatched (Build.ops [.text]) Assembly.nothing ++
            Build.ops [.popPosition]
    | .followedBy => ∃ inner, Lowered t setting.inner labels body inner ∧
        code = Lower.ofLookahead false body.verdict inner
    | .notFollowedBy => ∃ inner, Lowered t setting.inner labels body inner ∧
        code = Lower.ofLookahead true body.verdict inner
    | .optional => ∃ inner, Lowered t setting.inner labels body inner ∧
        code = inner ++ Build.condition body.verdict.neg Test.isFailed
          (Build.ops [.pop, .push .null]) Assembly.nothing
    | .zeroOrMore => ∃ inner, Lowered t setting.next.inner labels body inner ∧
        code = Build.ops [.push .emptyList] ++
          Lower.ofRepetition body.verdict inner [] .unbounded none
    | .oneOrMore => ∃ inner, Lowered t setting.next.inner labels body inner ∧
        .ok code = Build.checkMin (Build.ops [.push .emptyList] ++
          Lower.ofRepetition body.verdict inner [] .unbounded none) (.count 1) (setting.top + 1) labels
  | .range _ min max body none, code =>
    ∃ inner checkMax, Lowered t setting.next.inner labels body inner ∧
      .ok checkMax = Build.checkMax max (setting.top + 1) labels ∧
      .ok code = Build.checkMin (Build.ops [.push .emptyList] ++
        Lower.ofRepetition body.verdict inner checkMax max none) min (setting.top + 1) labels
  | .range _ min max body (some separator), code =>
    ∃ inner checkMax between, Lowered t setting.next.inner labels body inner ∧
      .ok checkMax = Build.checkMax max (setting.top + 1) labels ∧
      Lowered t setting.next.inner labels separator between ∧
      .ok code = Build.checkMin (Build.ops [.push .emptyList] ++
        Lower.ofRepetition body.verdict inner checkMax max (some (separator.verdict, between))) min
          (setting.top + 1) labels
  | .named _ name body, code =>
    if setting.reports then ∃ (i : Nat) (inner : List Instr),
      t.tables.expectations[i]? = some (.rule name) ∧
      Lowered t { setting with reports := false } labels body inner ∧
      code = Build.ops [.expect i, .silence] ++ inner ++ Build.ops [.unsilence]
    else Lowered t setting labels body code
  | .action _ text _ body, code =>
    ∃ inner, Lowered t { setting with finish := some text } labels body inner ∧
      if body.isSequence then code = inner
      else ∃ calling, code = Build.ops [.pushPosition] ++ inner ++
          Build.condition body.verdict Test.isMatched calling Assembly.nothing ++
          Build.ops [.popPosition] ∧
        (body.verdict ≠ .never → ∃ call, calling = Build.ops [.markTop] ++ call ∧
          Calling t false text 1 (body.define (setting.top + 1) labels) (setting.top + 1) call)
  | .predicate _ negative text, code =>
    ∃ call, Calling t true text 0 labels setting.top call ∧
      code = Build.ops [.markHere] ++ call ++ [.branch .isTrue
        (Build.ops [.pop, .push (if negative then .failed else .undefined)])
        (Build.ops [.pop, .push (if negative then .undefined else .failed)])]
  | .foreign _, _ => False

/-- The code of elements in a row and of the end of their sequence. The top result of the setting is
the one before the element in place `position`. -/
def LoweredRow (t : Target) (setting : Setting) (labels : Environment) (autos : List Int)
    (position : Nat) : List Expr → List Instr → Prop
  | [], code => Finishing t setting labels autos (position - 1) code
  | e :: rest, code =>
    ∃ first others, Lowered t setting.inner labels e first ∧
      LoweredRow t setting.next (e.define (setting.top + 1) labels)
        (e.collect (setting.top + 1) autos) (position + 1) rest others ∧
      code = first ++ Lower.leaving e.verdict position ++ others

/-- The codes of the alternatives that are kept. -/
def LoweredChoices (t : Target) (setting : Setting) (labels : Environment) :
    List Expr → List (List Instr) → Prop
  | [], codes => codes = []
  | e :: rest, codes =>
    match e.verdict with
    | .never => LoweredChoices t setting labels rest codes
    | .always => ∃ code, Lowered t setting labels e code ∧ codes = [code]
    | .sometimes => ∃ code others, Lowered t setting labels e code ∧
        LoweredChoices t setting labels rest others ∧ codes = code :: others

end

/-! Pieces of code as lists of instructions, and what their operands refer to. -/

theorem Index.at?_natCast {α : Type} {items : List α} {n : Nat} {a : α} (found : items[n]? = some a) :
    Index.at? items n = some a := by
  have bound := (List.getElem?_eq_some_iff.mp found).1
  rw [Index.at?, Index.place?_natCast bound, Option.bind_some, found]

section Assembling

@[simp] theorem Build.inOrder_eq (parts : List (List Instr)) :
    Build.inOrder parts = parts.flatten := by
  induction parts with
  | nil => rfl
  | cons part rest ih =>
    rw [List.flatten_cons, ← ih]
    rfl

@[simp] theorem Build.ops_eq (os : List Op) : (Build.ops os : List Instr) = os.map .op := by
  induction os with
  | nil => rfl
  | cons o rest ih =>
    rw [List.map_cons, ← ih]
    rfl

@[simp] theorem Assembly.loop_eq (endless : Bool) (body : List Instr) :
    Assembly.loop (Assembly.head (List Instr) endless) body = [.loop endless body] := rfl

@[simp] theorem Assembly.nothing_eq : (Assembly.nothing : List Instr) = [] := rfl

@[simp] theorem Assembly.op_eq (o : Op) : (Assembly.op o : List Instr) = [.op o] := rfl

@[simp] theorem Assembly.followedBy_eq (first second : List Instr) :
    Assembly.followedBy first second = first ++ second := rfl

@[simp] theorem Assembly.branch_eq (test : Test) (yes no : List Instr) :
    Assembly.branch test yes no = [.branch test yes no] := rfl

@[simp] theorem Assembly.test_eq (test : Test) : Assembly.test (List Instr) test = test := rfl

end Assembling

namespace Lower

/-- One round of a repetition with a delimiter. -/
def separatedRound (element separator : Verdict) (elementCode checkMax separatorCode : List Instr) :
    List Instr :=
  Build.appendOrLeave element elementCode true ++ checkMax ++ Build.inOrder [
    Build.ops [.popPosition, .pushPosition],
    separatorCode,
    Build.condition separator.neg Test.isFailed (Build.ops [.pop, .leave 0]) (Build.ops [.pop])]

/-- The check before the first round of a repetition with a delimiter. -/
def firstCheck (checkMax : List Instr) : Boundary → List Instr
  | .constant limit => if limit.isVoid then checkMax else []
  | .label _ => checkMax

theorem ofRepetition_separated (element separator : Verdict)
    (elementCode checkMax separatorCode : List Instr) (max : Boundary) :
    ofRepetition element elementCode checkMax max (some (separator, separatorCode)) =
      [.loop false (firstCheck checkMax max ++ (.op .pushPosition ::
        .loop true (separatedRound element separator elementCode checkMax separatorCode) ::
          [.op .popPosition]))] := by
  simp only [ofRepetition, Build.inOrder_eq, Build.ops_eq, Assembly.loop_eq]
  rfl

end Lower

end PegCompiler
