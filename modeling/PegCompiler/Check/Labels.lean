import PegCompiler.Check.Names

/-!
Checks of labels. The elements of a sequence share one scope; each alternative of a choice has a
copy of the scope it stands in, and so has the body of an action, of a range, and of every operator.
A label may not be defined twice in its scope, and a bound of a range must name a label of its
scope. An auto label has no place in a sequence that an action finishes.
-/

namespace PegCompiler

/-- The labels of a scope, each with the place of its latest definition. -/
abbrev LabelScope := List (Text × Option Location)

namespace Check

/-- The labels that the bounds of a range name, each once. -/
def boundLabels : Boundary → Boundary → List Limit
  | .label a, .label b => if a = b then [a] else [a, b]
  | .label a, _ | _, .label a => [a]
  | _, _ => []

mutual

/-- The findings in an expression, and the scope behind it. -/
def labels (scope : LabelScope) : Expr → Trail Diagnostic × LabelScope
  | .labeled info label _ _ body =>
    match label with
    | none => labels scope body
    | some name =>
      let here : Trail Diagnostic := match scope.lookup name with
        | some first => [.ok ⟨.duplicateLabel name first, info.location⟩]
        | none => []
      let (found, inner) := labels scope body
      (here ++ found, (name, info.location) :: inner)
  | .sequence _ elements => labelsInOrder scope elements
  | .named _ _ body => labels scope body
  | .choice _ alternatives => (labelsApart scope alternatives, scope)
  | .action _ _ _ body => ((labels scope body).1, scope)
  | .unary _ _ body => ((labels scope body).1, scope)
  | .range info min max body delimiter =>
    let missing := (boundLabels min max).filter fun label =>
      (label.name?.bind (List.lookup · scope)).isNone
    let here : Trail Diagnostic := missing.map fun label =>
      .ok ⟨.undefinedLabel label.value, info.location⟩
    let between := match delimiter with
      | none => []
      | some separator => (labels scope separator).1
    (here ++ between ++ (labels scope body).1, scope)
  | .foreign .rule => ([.error .misplaced], scope)
  | .foreign what => (Trail.ofForeign what, scope)
  | _ => ([], scope)

def labelsInOrder (scope : LabelScope) : List Expr → Trail Diagnostic × LabelScope
  | [] => ([], scope)
  | e :: rest =>
    let (first, inner) := labels scope e
    let (others, behind) := labelsInOrder inner rest
    (first ++ others, behind)

def labelsApart (scope : LabelScope) : List Expr → Trail Diagnostic
  | [] => []
  | e :: rest => (labels scope e).1 ++ labelsApart scope rest

end

def duplicateLabels (g : Grammar) : Trail Diagnostic := g.trail fun body => (labels [] body).1

mutual

/-- `finished` says that an action finishes the sequence that `e` may be part of. -/
def autoLabels (finished : Bool) : Expr → Trail Diagnostic
  | .labeled info label _ auto body =>
    autoLabels false body ++
      if auto && finished then [.ok ⟨.ambiguousLabel label, info.location⟩] else []
  | .sequence _ elements => autoLabelsAll finished elements
  | .named _ _ body => autoLabels finished body
  | .choice _ alternatives => autoLabelsAll false alternatives
  | .action _ _ _ body => autoLabels true body
  | .unary _ _ body => autoLabels false body
  | .range _ _ _ body delimiter =>
    (match delimiter with
      | none => []
      | some separator => autoLabels false separator) ++ autoLabels false body
  | .foreign what => Trail.ofForeign what
  | _ => []

def autoLabelsAll (finished : Bool) : List Expr → Trail Diagnostic
  | [] => []
  | e :: rest => autoLabels finished e ++ autoLabelsAll finished rest

end

def ambiguousLabels (g : Grammar) : Trail Diagnostic := g.trail (autoLabels false)

end Check

end PegCompiler
