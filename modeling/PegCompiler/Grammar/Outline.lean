import PegCompiler.Grammar.Basic
import PegCompiler.Value.Basic

/-!
The outline of an expression: the whole tree on one line, every node with the names of its fields
and with the places it comes from. Verdicts are not part of it, so that an outline shows what was
read and not what was inferred.
-/

namespace PegCompiler

namespace Outline

def node (kind : String) (fields : List (String × Text)) : Text :=
  let shown : List Text := fields.map fun (name, value) => Text.ofString name ++ "=" ++ value
  Text.ofString kind ++ "(" ++ Text.join ", " shown ++ ")"

def list (items : List Text) : Text := "[" ++ Text.join ", " items ++ "]"

def truth (b : Bool) : Text := (Value.bool b).written

def text? (t : Option Text) : Text := ((t.map Value.text).getD .null).written

def position (p : Position) : Text :=
  node "Position" [("offset", Text.ofInt p.offset), ("line", Text.ofInt p.line),
    ("column", Text.ofInt p.column)]

def location : Option Location → Text
  | none => Value.null.written
  | some l => node "Location" [("source", text? l.source), ("start", position l.start),
      ("end", position l.stop)]

def part : ClassPart → Text
  | .char c => Text.quoted [c]
  | .range lo hi => Value.writtenRow [.text [lo], .text [hi]]
  | .loose [t] => Text.quoted t
  | .loose ts => Value.writtenRow (ts.map .text)

def boundary (b : Boundary) : Text :=
  let constant := match b with
    | .constant _ => true
    | .label _ => false
  node "Boundary" [("constant", truth constant), ("value", b.limit.value.written)]

def operatorName : Operator → String
  | .text => "Text"
  | .followedBy => "SimpleAnd"
  | .notFollowedBy => "SimpleNot"
  | .optional => "OptionalExpr"
  | .zeroOrMore => "ZeroOrMore"
  | .oneOrMore => "OneOrMore"
  | .group => "Group"

mutual

def expr : Expr → Text
  | .literal info value ignoreCase =>
    node "Literal" [("value", Text.quoted value), ("ignore_case", truth ignoreCase),
      ("location", location info.location)]
  | .charClass info members =>
    node "CharClass" [("parts", list (members.parts.map part)),
      ("inverted", truth members.inverted), ("ignore_case", truth members.ignoreCase),
      ("location", location info.location)]
  | .any info => node "AnyChar" [("location", location info.location)]
  | .ruleRef info name =>
    node "RuleRef" [("name", Text.quoted name), ("location", location info.location)]
  | .sequence info elements =>
    node "Sequence" [("elements", list (exprs elements)), ("location", location info.location)]
  | .choice info alternatives =>
    node "Choice" [("alternatives", list (exprs alternatives)),
      ("location", location info.location)]
  | .labeled info label labelLocation auto body =>
    node "Labeled" [("label", text? label), ("expression", expr body), ("auto", truth auto),
      ("label_location", location labelLocation), ("location", location info.location)]
  | .unary info operator body =>
    node (operatorName operator) [("expression", expr body), ("location", location info.location)]
  | .range info min max body delimiter =>
    let separator : Text := match delimiter with
      | none => Value.null.written
      | some separator => expr separator
    node "Range" [("expression", expr body), ("min", boundary min), ("max", boundary max),
      ("delimiter", separator), ("location", location info.location)]
  | .named info name body =>
    node "Named" [("name", Text.quoted name), ("expression", expr body),
      ("location", location info.location)]
  | .action info code codeLocation body =>
    node "Action" [("expression", expr body), ("code", Text.quoted code),
      ("code_location", location codeLocation), ("location", location info.location)]
  | .predicate info negative code =>
    node (if negative then "SemanticNot" else "SemanticAnd") [("code", Text.quoted code),
      ("location", location info.location)]
  | .foreign what => what.kind

def exprs : List Expr → List Text
  | [] => []
  | e :: rest => expr e :: exprs rest

end

end Outline

end PegCompiler
