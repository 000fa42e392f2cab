import PegCompiler.Check.Labels
import PegCompiler.Proofs.Check.Acceptance
import PegCompiler.Proofs.Grammar.Textual

/-!
Scopes of labels. `Expr.Scoped` says that the bounds of all ranges below an expression name labels
that are in scope where they stand. The elements of a sequence see the labels of those before them;
nothing else hands labels on. An expression without findings is scoped (`Check.scoped_of_labels`).
-/

namespace PegCompiler

/-- A label in the place of a bound is in scope. -/
def Boundary.InScope (scope : List Text) : Boundary → Prop
  | .label (.text name) => name ∈ scope
  | _ => True

namespace Expr

mutual

/-- The bounds of ranges name labels in scope. -/
def Scoped (scope : List Text) : Expr → Prop
  | sequence _ elements => ScopedInOrder scope elements
  | choice _ alternatives => ScopedApart scope alternatives
  | labeled _ _ _ _ body => Scoped scope body
  | unary _ _ body => Scoped scope body
  | range _ min max body delimiter =>
    min.InScope scope ∧ max.InScope scope ∧ Scoped scope body ∧ (match delimiter with
      | none => True
      | some separator => Scoped scope separator)
  | named _ _ body => Scoped scope body
  | action _ _ _ body => Scoped scope body
  | _ => True

def ScopedInOrder (scope : List Text) : List Expr → Prop
  | [] => True
  | e :: rest => Scoped scope e ∧ ScopedInOrder (e.label?.toList ++ scope) rest

def ScopedApart (scope : List Text) : List Expr → Prop
  | [] => True
  | e :: rest => Scoped scope e ∧ ScopedApart scope rest

end

/-- The name and the location of a labeled node. -/
def entry? : Expr → Option (Text × Option Location)
  | labeled info (some name) _ _ _ => some (name, info.location)
  | _ => none

theorem fst_entry? (e : Expr) : e.entry?.map Prod.fst = e.label? := by
  cases e with
  | labeled info label => cases label <;> rfl
  | _ => rfl

theorem scopedApart_iff {scope : List Text} {es : List Expr} :
    ScopedApart scope es ↔ ∀ e ∈ es, Scoped scope e := by
  induction es with
  | nil => simp [ScopedApart]
  | cons e rest ih => simp [ScopedApart, ih]

end Expr

namespace Check

open Trail

variable {scope : LabelScope}

/-- The names of a scope. -/
def names (scope : LabelScope) : List Text := scope.map Prod.fst

theorem lookup_isSome {name : Text} : (scope.lookup name).isSome ↔ name ∈ names scope := by
  induction scope with
  | nil => simp [names]
  | cons entry rest ih =>
    obtain ⟨key, value⟩ := entry
    simp only [names, List.map_cons, List.mem_cons]
    by_cases same : name = key
    · simp [same]
    · simp [List.lookup_cons, beq_eq_false_iff_ne.mpr same, same, ih, names]

/-- A bound that is not missing is in scope. -/
theorem inScope_of_clear {info : Info} {min max : Boundary}
    (h : IsClear (((boundLabels min max).filter fun label =>
      (label.name?.bind (List.lookup · scope)).isNone).map fun label =>
        .ok ⟨.undefinedLabel label.value, info.location⟩)) :
    min.InScope (names scope) ∧ max.InScope (names scope) := by
  have present : ∀ name, Limit.text name ∈ boundLabels min max → name ∈ names scope := by
    intro name member
    refine Classical.byContradiction fun missing => h.not_severe
      ⟨.undefinedLabel (Limit.text name).value, info.location⟩ (.inr rfl)
      (List.mem_map.mpr ⟨.text name, List.mem_filter.mpr ⟨member, ?_⟩, rfl⟩)
    rw [← lookup_isSome] at missing
    simpa only [Limit.name?, Option.bind_some, Option.isNone_iff_eq_none,
      Option.not_isSome_iff_eq_none] using missing
  constructor
  · unfold Boundary.InScope
    split
    · refine present _ ?_
      cases max <;> simp only [boundLabels]
      · simp
      · split <;> simp_all
    · trivial
  · unfold Boundary.InScope
    split
    · refine present _ ?_
      cases min <;> simp only [boundLabels]
      · simp
      · split <;> simp_all
    · trivial

theorem labelsApart_clear {es : List Expr} (h : (labelsApart scope es).IsClear) :
    ∀ e ∈ es, (labels scope e).1.IsClear := by
  induction es with
  | nil => simp
  | cons e rest ih =>
    rw [labelsApart, isClear_append] at h
    simpa [h.1] using ih h.2

/-- An element of a sequence gives its label, if it has one, to what is behind it. -/
theorem labels_behind (scope : LabelScope) {e : Expr} (textual : e.Textual) (apart : e.isRow = false) :
    (labels scope e).2 = e.entry?.toList ++ scope := by
  have plain {c : Expr} (textual : c.IsTextual) (apart : c.isRow = false) (bare : c.isLabeled = false) :
      (labels scope c).2 = scope := by
    cases c with
    | sequence => cases apart
    | labeled => cases bare
    | named | foreign => exact absurd textual id
    | range info min max body delimiter => cases delimiter <;> rfl
    | _ => rfl
  cases e with
  | labeled info label at? auto body =>
    obtain ⟨notRow, bare⟩ := textual.here
    have inner := plain (textual.child (c := body) (by simp [Expr.children])).here notRow bare
    cases label with
    | none => exact inner
    | some name => exact congrArg ((name, info.location) :: ·) inner
  | _ => exact plain textual.here apart rfl

theorem names_behind (scope : LabelScope) {e : Expr} (textual : e.Textual) (apart : e.isRow = false) :
    names (labels scope e).2 = e.label?.toList ++ names scope := by
  rw [labels_behind scope textual apart, names, List.map_append, ← Expr.fst_entry?]
  cases e.entry? <;> rfl

/-- An expression without findings is scoped. -/
theorem scoped_of_labels (e : Expr) : ∀ scope : LabelScope, e.Textual →
    (labels scope e).1.IsClear → e.Scoped (names scope) := by
  induction e using Expr.byChildren with
  | node e ih =>
    intro scope textual h
    have below : ∀ c ∈ e.children, ∀ scope, (labels scope c).1.IsClear → c.Scoped (names scope) :=
      fun c hc scope => ih c hc scope (textual.child hc)
    cases e with
    | literal | charClass | any | ruleRef | predicate => trivial
    | sequence info elements =>
      have plain := textual.here.2
      change (labelsInOrder scope elements).1.IsClear at h
      change Expr.ScopedInOrder (names scope) elements
      have each := fun c hc => textual.child (c := c) hc
      simp only [Expr.children] at below each
      clear ih textual
      induction elements generalizing scope with
      | nil => trivial
      | cons e rest ihRest =>
        rw [labelsInOrder] at h
        obtain ⟨first, others⟩ := isClear_append.mp h
        refine ⟨below e (by simp) scope first, ?_⟩
        rw [← names_behind scope (each e (by simp)) (plain e (by simp))]
        exact ihRest _ (fun c hc => below c (by simp [hc])) (fun c hc => plain c (by simp [hc]))
          others (fun c hc => each c (by simp [hc]))
    | choice info alternatives =>
      exact Expr.scopedApart_iff.mpr fun e he => below e he scope (labelsApart_clear h e he)
    | labeled info label at? auto body =>
      cases label with
      | none => exact below body (by simp [Expr.children]) scope h
      | some name => exact below body (by simp [Expr.children]) scope (isClear_append.mp h).2
    | unary info operator body => exact below body (by simp [Expr.children]) scope h
    | range info min max body delimiter =>
      cases delimiter with
      | none =>
        simp only [labels, isClear_append] at h
        obtain ⟨⟨here, -⟩, inner⟩ := h
        obtain ⟨low, high⟩ := inScope_of_clear here
        exact ⟨low, high, below body (by simp [Expr.children]) scope inner, trivial⟩
      | some separator =>
        simp only [labels, isClear_append] at h
        obtain ⟨⟨here, between⟩, inner⟩ := h
        obtain ⟨low, high⟩ := inScope_of_clear here
        exact ⟨low, high, below body (by simp [Expr.children]) scope inner,
          below separator (by simp [Expr.children]) scope between⟩
    | named | foreign => exact absurd textual.here id
    | action info code at? body => exact below body (by simp [Expr.children]) scope h

theorem scoped_of_body {e : Expr} (body : Rule.Body e) (h : (labels [] e).1.IsClear) :
    e.Scoped [] := by
  cases body with
  | plain textual => exact scoped_of_labels e [] textual h
  | @displayed info name body textual =>
    have inner : body.Scoped [] := scoped_of_labels body [] textual h
    exact inner

end Check

end PegCompiler
