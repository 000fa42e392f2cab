import PegCompiler.Code.Word
import PegCompiler.Grammar.Location

/-!
Grammars as trees. A grammar is a list of named rules and optional code; the expression of a rule
refers to other rules by name only, so the tree is finite however the rules recurse. Nodes carry
two annotations: where they stand in the text, and the verdict that match inference gives them.

A tree need not come from a text. `Expr.foreign` stands for what a tree built by hand may hold in
the place of an expression, and the bounds of a range may hold what no text gives.
-/

namespace PegCompiler

/-- What is known about the outcome of an expression, whatever the input is. -/
inductive Verdict
  | never
  | sometimes
  | always
  deriving DecidableEq, Repr, Inhabited

namespace Verdict

def neg : Verdict → Verdict
  | never => always
  | sometimes => sometimes
  | always => never

/-- The choice between the code for an outcome known in advance and the code that tests. -/
def select {α : Type} (verdict : Verdict) (ifAlways ifNever ifSometimes : α) : α :=
  match verdict with
  | always => ifAlways
  | never => ifNever
  | sometimes => ifSometimes

end Verdict

/-- A member of a character class. A class built by hand may also hold texts that are not single
code points: one text, or two as the ends of a range. -/
inductive ClassPart
  | char (c : CodePoint)
  | range (lo hi : CodePoint)
  | loose (texts : List Text)
  deriving DecidableEq, Repr

structure CharClass where
  parts : List ClassPart
  inverted : Bool
  ignoreCase : Bool
  deriving DecidableEq, Repr

/-- What a bound holds. -/
inductive Limit
  | absent
  | number (n : Int)
  | text (t : Text)
  deriving DecidableEq, Repr

namespace Limit

def value : Limit → Value
  | absent => .null
  | number n => .integer n
  | text t => .text t

/-- The label that a limit can name. -/
def name? : Limit → Option Text
  | text t => some t
  | _ => none

/-- A limit that is absent, zero or an empty text does not restrict anything. -/
def isVoid (limit : Limit) : Bool := !limit.value.isTrue

end Limit

/-- A bound of a repetition: the limit itself, or the label that holds it during a parse. A text of
a grammar gives numbers or none for the one, and names for the other. -/
inductive Boundary
  | constant (limit : Limit)
  | label (name : Limit)
  deriving DecidableEq, Repr

namespace Boundary

@[match_pattern]
abbrev count (n : Int) : Boundary := constant (.number n)

@[match_pattern]
abbrev unbounded : Boundary := constant .absent

def limit : Boundary → Limit
  | constant limit | label limit => limit

end Boundary

inductive Operator
  | text
  | followedBy
  | notFollowedBy
  | optional
  | zeroOrMore
  | oneOrMore
  | group
  deriving DecidableEq, Repr

namespace Operator

def all : List Operator :=
  [text, followedBy, notFollowedBy, optional, zeroOrMore, oneOrMore, group]

/-- The name of the kind of nodes that have the operator. -/
def kind : Operator → Text
  | text => "text"
  | followedBy => "simple_and"
  | notFollowedBy => "simple_not"
  | optional => "optional"
  | zeroOrMore => "zero_or_more"
  | oneOrMore => "one_or_more"
  | group => "group"

def ofKind? (kind : Text) : Option Operator := all.find? (·.kind = kind)

end Operator

/-- The annotations of a node. -/
structure Info where
  location : Option Location := none
  verdict : Option Verdict := none
  deriving DecidableEq, Repr, Inhabited

/-- What may stand in the place of an expression: nothing, a node of another level of a grammar but
without any parts, or a node of a kind that is not known. -/
inductive Stranger
  | nothing
  | initializer
  | rule
  | grammar
  | unknown (kind : Text)
  deriving DecidableEq, Repr, Inhabited

namespace Stranger

def kind : Stranger → Text
  | nothing => []
  | initializer => "initializer"
  | rule => "rule"
  | grammar => "grammar"
  | unknown kind => kind

/-- The stranger of a kind that is not the kind of an expression. -/
def ofKind (kind : Text) : Stranger :=
  ([initializer, rule, grammar].find? (·.kind = kind)).getD (unknown kind)

end Stranger

inductive Expr
  | literal (info : Info) (value : Text) (ignoreCase : Bool)
  | charClass (info : Info) (members : CharClass)
  | any (info : Info)
  | ruleRef (info : Info) (name : Text)
  | sequence (info : Info) (elements : List Expr)
  | choice (info : Info) (alternatives : List Expr)
  | labeled (info : Info) (label : Option Text) (labelLocation : Option Location) (auto : Bool)
      (body : Expr)
  | unary (info : Info) (operator : Operator) (body : Expr)
  | range (info : Info) (min max : Boundary) (body : Expr) (delimiter : Option Expr)
  | named (info : Info) (name : Text) (body : Expr)
  | action (info : Info) (code : Text) (codeLocation : Option Location) (body : Expr)
  | predicate (info : Info) (negative : Bool) (code : Text)
  | foreign (what : Stranger)
  deriving Repr, Inhabited

namespace Expr

def info : Expr → Info
  | literal info .. | charClass info .. | any info | ruleRef info .. | sequence info ..
  | choice info .. | labeled info .. | unary info .. | range info .. | named info ..
  | action info .. | predicate info .. => info
  | foreign _ => {}

def setInfo (info : Info) : Expr → Expr
  | literal _ value ignoreCase => literal info value ignoreCase
  | charClass _ members => charClass info members
  | any _ => any info
  | ruleRef _ name => ruleRef info name
  | sequence _ elements => sequence info elements
  | choice _ alternatives => choice info alternatives
  | labeled _ label labelLocation auto body => labeled info label labelLocation auto body
  | unary _ operator body => unary info operator body
  | range _ min max body delimiter => range info min max body delimiter
  | named _ name body => named info name body
  | action _ code codeLocation body => action info code codeLocation body
  | predicate _ negative code => predicate info negative code
  | foreign what => foreign what

def location (e : Expr) : Option Location := e.info.location

def setVerdict (verdict : Option Verdict) (e : Expr) : Expr :=
  e.setInfo { e.info with verdict }

/-- The verdict of a node; one that was not inferred counts as open. -/
def verdict (e : Expr) : Verdict := e.info.verdict.getD .sometimes

/-- A sequence that has elements. -/
def isSequence : Expr → Bool
  | sequence _ elements => !elements.isEmpty
  | _ => false

end Expr

structure Rule where
  name : Text
  body : Expr
  location : Option Location := none
  nameLocation : Option Location := none
  verdict : Option Verdict := none
  reportsFailures : Option Bool := none
  words : Option (List Word) := none
  deriving Repr, Inhabited

/-- User code with the labels it sees, in the order of their values. -/
structure UserFunction where
  predicate : Bool
  params : List Text
  body : Text
  deriving DecidableEq, Repr

/-- What a rule expected where it failed. A table built by hand may hold an entry of another kind,
which is kept in its written form. -/
inductive Expectation
  | rule (name : Text)
  | literal (value : Text) (ignoreCase : Bool)
  | charClass (members : CharClass)
  | any
  | unknown (entry : Text)
  deriving DecidableEq, Repr

/-- The constants that the words of the rules refer to by their place. -/
structure Tables where
  literals : List Text := []
  classes : List CharClass := []
  expectations : List Expectation := []
  functions : List UserFunction := []
  deriving Repr, Inhabited

structure Initializer where
  code : Text
  location : Option Location := none
  deriving Repr

structure Grammar where
  rules : List Rule
  initializer : Option Initializer := none
  location : Option Location := none
  tables : Option Tables := none
  code : Option Text := none
  deriving Repr, Inhabited

namespace Grammar

def ruleNames (grammar : Grammar) : List Text := grammar.rules.map Rule.name

/-- The place of the first rule called `name`. -/
def indexOf? (grammar : Grammar) (name : Text) : Option Nat :=
  grammar.rules.findIdx? (·.name = name)

/-- The first rule called `name`. -/
def find? (grammar : Grammar) (name : Text) : Option Rule := grammar.rules.find? (·.name = name)

end Grammar

end PegCompiler
