import PegCompiler.Code.Build
import PegCompiler.Grammar.Walk
import PegCompiler.Text.Lowercase

/-!
Lowering of expressions to instructions. The code of an expression leaves one result on the stack,
the value or the failure, and the input position where the match ends or where it began.

Labels are places on the stack of results. The elements of a sequence share one environment and add
to it; what stands apart works on a copy. Sub-expressions whose verdict is known lose the code that
cannot be reached.
-/

namespace PegCompiler

inductive LoweringFault
  | tree (fault : TreeFault)
  | unknownLabel (label : Limit)
  deriving DecidableEq, Repr

/-- What is collected on the way: the tables, the labels in scope, and the places of the auto
labels of the sequence being lowered. -/
structure Workspace where
  tables : Tables := {}
  labels : Environment := []
  autos : List Int := []

abbrev Lower := StateT Workspace (Except LoweringFault)

/-- How an expression is lowered: the place of the top result before it, whether it records what it
expects, and the code that a sequence in its place ends with. -/
structure Setting where
  top : Int
  reports : Bool
  finish : Option Text := none

namespace Lower

def fail {α : Type} (fault : LoweringFault) : Lower α := fun _ => .error fault

def liftBound {α : Type} : Except BoundFault α → Lower α
  | .ok a => return a
  | .error (.unknownLabel label) => fail (.unknownLabel label)
  | .error .incomparable => fail (.tree .incomparable)

/-- A new value for a label; a label that is there already keeps its place in the order. -/
def define (name : Text) (place : Int) : Environment → Environment
  | [] => [(name, place)]
  | (other, old) :: rest =>
    if other = name then (name, place) :: rest else (other, old) :: define name place rest

/-- `lower` with auto labels of its own, and with labels that are gone afterwards. -/
def apart {α : Type} (lower : Lower α) : Lower α := do
  let before ← get
  set { before with autos := [] }
  let result ← lower
  modify fun w => { w with labels := before.labels, autos := before.autos }
  return result

def literal (value : Text) : Lower Int := modifyGet fun w =>
  let (index, literals) := Tables.place w.tables.literals value
  (index, { w with tables := { w.tables with literals } })

def charClass (members : CharClass) : Lower Int := modifyGet fun w =>
  let (index, classes) := Tables.place w.tables.classes members
  (index, { w with tables := { w.tables with classes } })

def expectation (entry : Expectation) : Lower Int := modifyGet fun w =>
  let (index, expectations) := Tables.place w.tables.expectations entry
  (index, { w with tables := { w.tables with expectations } })

/-- A user function that sees the labels in scope. -/
def function (predicate : Bool) (body : Text) : Lower Int := modifyGet fun w =>
  let (index, functions) :=
    Tables.place w.tables.functions ⟨predicate, w.labels.map Prod.fst, body⟩
  (index, { w with tables := { w.tables with functions } })

/-- Records the expectation, if the setting asks for it. -/
def expect (setting : Setting) (entry : Expectation) : Lower (List Instr) := do
  if !setting.reports then return []
  return Build.ops [.expect (← expectation entry)]

/-- A literal that is known to match is taken without looking; an empty one needs no input. -/
def ofLiteral (setting : Setting) (verdict : Verdict) (value : Text) (ignoreCase : Bool) :
    Lower (List Instr) := do
  if value.isEmpty then return Build.ops [.push .emptyText]
  let code ← match verdict with
    | .never => pure (Build.ops [.push .failed])
    | .sometimes =>
      if ignoreCase then pure (Build.ops [.matchLowercase (← literal value.lowercase)])
      else pure (Build.ops [.matchLiteral (← literal value)])
    | .always =>
      if ignoreCase then pure (Build.ops [.acceptCount value.length])
      else pure (Build.ops [.acceptLiteral (← literal value)])
  return (← expect setting (.literal value ignoreCase)) ++ code

def ofCharClass (setting : Setting) (verdict : Verdict) (members : CharClass) :
    Lower (List Instr) := do
  let code ← match verdict with
    | .never => pure (Build.ops [.push .failed])
    | .sometimes => pure (Build.ops [.matchClass (← charClass members)])
    | .always => pure (Build.ops [.acceptCount 1])
  return (← expect setting (.charClass members)) ++ code

def ofAny (setting : Setting) (verdict : Verdict) : Lower (List Instr) := do
  return (← expect setting .any) ++
    Build.ops [verdict.select (.acceptCount 1) (.push .failed) .matchAny]

/-- A predicate in user code, called where the mark is the current position. -/
def ofPredicate (setting : Setting) (verdict : Verdict) (negative : Bool) (code : Text) :
    Lower (List Instr) := do
  let index ← function true code
  let labels := (← get).labels
  let pass : List Instr := Build.ops [.pop, .push .undefined]
  let fail : List Instr := Build.ops [.pop, .push .failed]
  return Build.inOrder [
    Build.ops [.markHere],
    Build.call index 0 labels setting.top,
    Build.condition verdict Test.isTrue (if negative then fail else pass)
      (if negative then pass else fail)]

/-- Looks ahead with `body`: what it expects is recorded apart, and the position stays. -/
def ofLookahead (negative : Bool) (verdict : Verdict) (body : List Instr) : List Instr :=
  let ending : List Instr :=
    if negative then Build.condition verdict.neg Test.isFailed
      (Build.ops [.pop, .push .undefined]) (Build.ops [.loadPosition, .pop, .push .failed])
    else Build.condition verdict Test.isMatched
      (Build.ops [.loadPosition, .pop, .push .undefined]) Assembly.nothing
  Build.inOrder [
    Build.ops [.pushPosition, .openRecord],
    body,
    Build.ops [.closeRecord (flagWord negative)],
    ending,
    Build.ops [.popPosition]]

/-- What is left of the alternatives: those that never match are dropped, and so is everything
behind one that always matches. -/
def reachable : List Expr → Except TreeFault (List Bool)
  | [] => .ok []
  | .foreign _ :: _ => .error .absentProperty
  | e :: rest =>
    match e.verdict with
    | .never => return false :: (← reachable rest)
    | .sometimes => return true :: (← reachable rest)
    | .always => .ok [true]

/-- Tries codes one after the other; a failure gives way to the next one. -/
def firstMatch : List (List Instr) → List Instr
  | [] => []
  | [code] => code
  | code :: rest =>
    code ++ Build.leaveIf .sometimes Test.isMatched 0 [] (Build.ops [.pop]) ++ firstMatch rest

/-- The result of a sequence: what its action gives, the value of its auto labels, or the list of
all values. -/
def ofEnding (setting : Setting) (count : Nat) : Lower (List Instr) := do
  let top := setting.top + count
  match setting.finish with
  | some code =>
    let index ← function false code
    return Build.ops [.markTop] ++ Build.call index count (← get).labels top
  | none =>
    match (← get).autos with
    | [] => return Build.ops [.wrap count]
    | [place] => return Build.ops [.get count (top - place)]
    | places => return Build.ops [.wrapSome count (places.map (top - ·))]

/-- Repeats `element`, with `between` before every further round if there is a delimiter. -/
def ofRepetition (verdict : Verdict) (element : List Instr) (checkMax : List Instr)
    (max : Boundary) (between : Option (Verdict × List Instr)) : List Instr :=
  let next := Build.appendOrLeave verdict element between.isSome
  match between with
  | none => Assembly.loop (Assembly.head (List Instr) true) (checkMax ++ next)
  | some (separatorVerdict, separator) =>
    let first : List Instr := match max with
      | .constant limit => if limit.isVoid then checkMax else []
      | .label _ => checkMax
    let separated := Build.inOrder [
      Build.ops [.popPosition, .pushPosition],
      separator,
      Build.condition separatorVerdict.neg Test.isFailed (Build.ops [.pop, .leave 0])
        (Build.ops [.pop])]
    Assembly.loop (Assembly.head (List Instr) false) (Build.inOrder [
      first,
      Build.ops [.pushPosition],
      Assembly.loop (Assembly.head (List Instr) true) (next ++ checkMax ++ separated),
      Build.ops [.popPosition]])

/-- There is no code for an initializer in the place of an expression, nor for what only hands on the
code of one. A rule can do without code; nothing else can. -/
def isCodeless (reports : Bool) : Expr → Bool
  | .foreign .initializer => true
  | .labeled _ _ _ _ body => isCodeless reports body
  | .unary _ .group body => isCodeless reports body
  | .named _ _ body => !reports && isCodeless false body
  | _ => false

/-- Code is needed of an expression. -/
def needCode (setting : Setting) (e : Expr) : Lower Unit :=
  if isCodeless setting.reports e then fail (.tree .noCode) else return

mutual

/-- The code of an expression; `placeOf` gives the place of the rule that a reference names. -/
def expr (placeOf : Text → Int) (setting : Setting) : Expr → Lower (List Instr)
  | .literal info value ignoreCase =>
    ofLiteral setting (info.verdict.getD .sometimes) value ignoreCase
  | .charClass info members => ofCharClass setting (info.verdict.getD .sometimes) members
  | .any info => ofAny setting (info.verdict.getD .sometimes)
  | .ruleRef _ name => return Build.ops [.rule (placeOf name)]
  | .sequence _ elements => do
    if elements.isEmpty then return Build.ops [.push .emptyList]
    let code ← sequence placeOf { setting with finish := none } 1 elements
    let ending ← ofEnding setting elements.length
    return Build.ops [.pushPosition] ++
      Assembly.loop (Assembly.head (List Instr) false) (code ++ ending) ++ Build.ops [.popPosition]
  | .choice info alternatives => do
    if info.verdict = some .never then return Build.ops [.push .failed]
    match reachable alternatives with
    | .error fault => fail (.tree fault)
    | .ok kept =>
      if kept.any id then
        let codes ← choices placeOf { setting with finish := none } kept alternatives
        return Assembly.loop (Assembly.head (List Instr) false) (firstMatch codes)
      return Build.ops [.push .emptyText]
  | .labeled _ label _ auto body => do
    needCode setting body
    let before ← get
    set { before with autos := [] }
    let code ← expr placeOf { setting with finish := none } body
    let place := setting.top + 1
    modify fun w => { w with
      labels := match label with
        | none => w.labels
        | some name => define name place before.labels
      autos := if auto then before.autos ++ [place] else before.autos }
    return code
  | .unary info operator body => do
    let inner := { setting with finish := none }
    match operator with
    | .group =>
      needCode inner body
      apart (expr placeOf inner body)
    | .text =>
      needCode inner body
      let verdict := info.verdict.getD .sometimes
      let code ← apart (expr placeOf inner body)
      let ending : List Instr :=
        Build.condition verdict Test.isMatched (Build.ops [.text]) Assembly.nothing
      if verdict = .never then return code ++ ending
      return Build.ops [.pushPosition] ++ code ++ ending ++ Build.ops [.popPosition]
    | .followedBy | .notFollowedBy =>
      if let .foreign _ := body then fail (.tree .absentProperty)
      let code ← apart (expr placeOf inner body)
      return ofLookahead (operator = .notFollowedBy) body.verdict code
    | .optional =>
      let code ← apart (expr placeOf inner body)
      return code ++ Build.condition body.verdict.neg Test.isFailed
        (Build.ops [.pop, .push .null]) Assembly.nothing
    | .zeroOrMore | .oneOrMore =>
      let top := setting.top + 1
      let element ← apart (expr placeOf { inner with top } body)
      let collected := Build.ops [.push .emptyList] ++
        ofRepetition body.verdict element [] .unbounded none
      if operator = .zeroOrMore then return collected
      liftBound (Build.checkMin collected (.count 1) top (← get).labels)
  | .range _ min max body delimiter => do
    let top := setting.top + 1
    let inner := { setting with top, finish := none }
    let checking := Build.checkMax max top (← get).labels
    if isCodeless setting.reports body then discard (liftBound checking)
    let element ← apart (expr placeOf inner body)
    let checkMax ← liftBound checking
    let between ← match delimiter with
      | none => pure none
      | some separator => do pure (some (separator.verdict, ← apart (expr placeOf inner separator)))
    let collected := Build.ops [.push .emptyList] ++
      ofRepetition body.verdict element checkMax max between
    liftBound (Build.checkMin collected min top (← get).labels)
  | .named _ name body => do
    needCode { setting with reports := false } body
    if !setting.reports then return (← expr placeOf setting body)
    let index ← expectation (.rule name)
    let code ← expr placeOf { setting with reports := false } body
    return Build.ops [.expect index, .silence] ++ code ++ Build.ops [.unsilence]
  | .action _ code _ body =>
    if let .foreign .nothing := body then fail (.tree .absentProperty)
    else apart do
      let matching ← expr placeOf { setting with finish := some code } body
      if body.isSequence then return matching
      let calling ← match body.verdict with
        | .never => pure []
        | _ => do
          let index ← function false code
          pure (Build.ops [.markTop] ++ Build.call index 1 (← get).labels (setting.top + 1))
      return Build.ops [.pushPosition] ++ matching ++
        Build.condition body.verdict Test.isMatched calling Assembly.nothing ++
        Build.ops [.popPosition]
  | .predicate info negative code =>
    ofPredicate setting (info.verdict.getD .sometimes) negative code
  | .foreign what => fail <| .tree <| match what with
    | .nothing => .absentNode
    | .initializer => .absentProperty
    | .rule | .grammar => .misplaced
    | .unknown kind => .unknownKind kind

/-- Elements in a row, the next one in place `position`. Where one fails, the sequence does, and
the input position goes back. -/
def sequence (placeOf : Text → Int) (setting : Setting) (position : Nat) :
    List Expr → Lower (List Instr)
  | [] => return []
  | e :: rest => do
    let code ← expr placeOf setting e
    let leaving : List Instr := Build.leaveIf e.verdict.neg Test.isFailed position
      (Build.ops [.loadPosition]) Assembly.nothing
    let others ← sequence placeOf { setting with top := setting.top + 1 } (position + 1) rest
    return code ++ leaving ++ others

/-- The codes of the alternatives that are kept. -/
def choices (placeOf : Text → Int) (setting : Setting) :
    (kept : List Bool) → List Expr → Lower (List (List Instr))
  | true :: kept, e :: rest => do
    let code ← apart (expr placeOf setting e)
    return code :: (← choices placeOf setting kept rest)
  | false :: kept, _ :: rest => choices placeOf setting kept rest
  | _, _ => return []

end

/-- The code of a rule, if there is any; nothing is on the stacks when it starts. -/
def rule (placeOf : Text → Int) (r : Rule) (tables : Tables) :
    Except LoweringFault (Option (List Instr) × Tables) := do
  let setting : Setting := { top := -1, reports := r.reportsFailures != some false }
  if isCodeless setting.reports r.body then return (none, tables)
  let (code, w) ← (expr placeOf setting r.body).run { tables }
  return (some code, w.tables)

/-- The rules with their words, up to one that cannot be lowered. -/
def rules (placeOf : Text → Int) : List Rule → Tables → List Rule × Except LoweringFault Tables
  | [], tables => ([], .ok tables)
  | r :: rest, tables =>
    match rule placeOf r tables with
    | .error fault => (r :: rest, .error fault)
    | .ok (code, tables) =>
      let (rest, outcome) := rules placeOf rest tables
      ({ r with words := code.map Instr.encode } :: rest, outcome)

end Lower

namespace Grammar

/-- The place of a rule as an operand; a rule that is not defined has the place -1. -/
def placeOf (g : Grammar) (name : Text) : Int :=
  match g.indexOf? name with
  | some index => index
  | none => -1

/-- Lowers all rules. The grammar takes the tables only if none of them fails. -/
def lower (g : Grammar) : Grammar × Option LoweringFault :=
  let (rules, outcome) := Lower.rules g.placeOf g.rules {}
  match outcome with
  | .ok tables => ({ g with rules, tables := some tables }, none)
  | .error fault => ({ g with rules }, some fault)

end Grammar

end PegCompiler
