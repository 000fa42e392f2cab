import PegCompiler.Proofs.Grammar.Textual

/-!
Alike expressions: the same but for their annotations and the names of the rules that they refer to.
Passes that redirect references or annotate nodes give expressions like those they were given.
-/

namespace PegCompiler

namespace Expr

mutual

/-- The second expression is the first one with other annotations, its references renamed. -/
def Like (rename : Text → Text) : Expr → Expr → Prop
  | literal _ value ignoreCase, e => ∃ info, e = literal info value ignoreCase
  | charClass _ members, e => ∃ info, e = charClass info members
  | any _, e => ∃ info, e = any info
  | ruleRef _ name, e => ∃ info, e = ruleRef info (rename name)
  | sequence _ elements, e => ∃ info es, e = sequence info es ∧ LikeAll rename elements es
  | choice _ alternatives, e => ∃ info es, e = choice info es ∧ LikeAll rename alternatives es
  | labeled _ label labelLocation auto body, e =>
    ∃ info b, e = labeled info label labelLocation auto b ∧ Like rename body b
  | unary _ operator body, e => ∃ info b, e = unary info operator b ∧ Like rename body b
  | range _ min max body none, e => ∃ info b, e = range info min max b none ∧ Like rename body b
  | range _ min max body (some separator), e =>
    ∃ info b s, e = range info min max b (some s) ∧ Like rename body b ∧ Like rename separator s
  | named _ name body, e => ∃ info b, e = named info name b ∧ Like rename body b
  | action _ code codeLocation body, e =>
    ∃ info b, e = action info code codeLocation b ∧ Like rename body b
  | predicate _ negative code, e => ∃ info, e = predicate info negative code
  | foreign what, e => e = foreign what

def LikeAll (rename : Text → Text) : List Expr → List Expr → Prop
  | [], es => es = []
  | e :: rest, es => ∃ c others, es = c :: others ∧ Like rename e c ∧ LikeAll rename rest others

end

variable {rename : Text → Text}

namespace LikeAll

variable {es fs : List Expr}

theorem mem_left (h : LikeAll rename es fs) {e : Expr} (member : e ∈ es) :
    ∃ f ∈ fs, Like rename e f := by
  induction es generalizing fs with
  | nil => simp at member
  | cons first rest ih =>
    obtain ⟨c, others, rfl, here, below⟩ := h
    rcases List.mem_cons.mp member with rfl | member
    · exact ⟨c, by simp, here⟩
    · obtain ⟨f, found, like⟩ := ih below member
      exact ⟨f, by simp [found], like⟩

theorem mem_right (h : LikeAll rename es fs) {f : Expr} (member : f ∈ fs) :
    ∃ e ∈ es, Like rename e f := by
  induction es generalizing fs with
  | nil =>
    obtain rfl := h
    simp at member
  | cons first rest ih =>
    obtain ⟨c, others, rfl, here, below⟩ := h
    rcases List.mem_cons.mp member with rfl | member
    · exact ⟨first, by simp, here⟩
    · obtain ⟨e, found, like⟩ := ih below member
      exact ⟨e, by simp [found], like⟩

theorem eq_nil_iff (h : LikeAll rename es fs) : fs = [] ↔ es = [] := by
  cases es with
  | nil =>
    obtain rfl := h
    simp
  | cons e rest =>
    obtain ⟨c, others, rfl, -⟩ := h
    simp

/-- What stands before an expression is like what stands before the one that it is like. -/
theorem split {before after : List Expr} {f : Expr}
    (h : LikeAll rename es (before ++ f :: after)) :
    ∃ front e back, es = front ++ e :: back ∧ LikeAll rename front before ∧ Like rename e f := by
  induction before generalizing es with
  | nil =>
    cases es with
    | nil => cases h
    | cons e rest =>
      obtain ⟨c, others, same, here, -⟩ := h
      cases same
      exact ⟨[], e, rest, rfl, rfl, here⟩
  | cons b before ih =>
    cases es with
    | nil => cases h
    | cons first rest =>
      obtain ⟨c, others, same, here, below⟩ := h
      cases same
      obtain ⟨front, e, back, rfl, front', like⟩ := ih below
      exact ⟨first :: front, e, back, rfl, ⟨_, _, rfl, here, front'⟩, like⟩

end LikeAll

theorem LikeAll.refl {es : List Expr} (each : ∀ e ∈ es, Like id e e) : LikeAll id es es := by
  induction es with
  | nil => rfl
  | cons e rest ih => exact ⟨e, rest, rfl, each e (by simp), ih fun c hc => each c (by simp [hc])⟩

theorem Like.refl (e : Expr) : Like id e e := by
  induction e using byChildren with
  | node e ih =>
    cases e with
    | literal | charClass | any | ruleRef | predicate => exact ⟨_, rfl⟩
    | foreign => rfl
    | sequence | choice => exact ⟨_, _, rfl, .refl ih⟩
    | labeled | unary | named | action => exact ⟨_, _, rfl, ih _ (by simp [Expr.children])⟩
    | range info min max body delimiter =>
      cases delimiter with
      | none => exact ⟨_, _, rfl, ih _ (by simp [Expr.children])⟩
      | some separator =>
        exact ⟨_, _, _, rfl, ih _ (by simp [Expr.children]), ih _ (by simp [Expr.children])⟩

theorem LikeAll.trans {after : Text → Text} {es fs gs : List Expr} (h : LikeAll rename es fs)
    (k : LikeAll after fs gs)
    (each : ∀ e ∈ es, ∀ f g, Like rename e f → Like after f g → Like (after ∘ rename) e g) :
    LikeAll (after ∘ rename) es gs := by
  induction es generalizing fs gs with
  | nil =>
    obtain rfl := h
    exact k
  | cons e rest ih =>
    obtain ⟨f, fs, rfl, first, others⟩ := h
    obtain ⟨g, gs, rfl, second, further⟩ := k
    exact ⟨g, gs, rfl, each e (by simp) f g first second,
      ih others further fun c hc => each c (by simp [hc])⟩

theorem Like.trans {after : Text → Text} {e f g : Expr} (h : Like rename e f)
    (k : Like after f g) : Like (after ∘ rename) e g := by
  induction e using byChildren generalizing f g with
  | node e ih =>
    cases e with
    | literal | charClass | any | ruleRef | predicate =>
      obtain ⟨_, rfl⟩ := h
      exact k
    | foreign =>
      obtain rfl := h
      exact k
    | sequence | choice =>
      obtain ⟨_, _, rfl, h⟩ := h
      obtain ⟨_, _, rfl, k⟩ := k
      exact ⟨_, _, rfl, h.trans k fun e he f g h k => ih e he h k⟩
    | labeled | unary | named | action =>
      obtain ⟨_, _, rfl, h⟩ := h
      obtain ⟨_, _, rfl, k⟩ := k
      exact ⟨_, _, rfl, ih _ (by simp [Expr.children]) h k⟩
    | range info min max body delimiter =>
      cases delimiter with
      | none =>
        obtain ⟨_, _, rfl, h⟩ := h
        obtain ⟨_, _, rfl, k⟩ := k
        exact ⟨_, _, rfl, ih _ (by simp [Expr.children]) h k⟩
      | some separator =>
        obtain ⟨_, _, _, rfl, h, h'⟩ := h
        obtain ⟨_, _, _, rfl, k, k'⟩ := k
        exact ⟨_, _, _, rfl, ih _ (by simp [Expr.children]) h k,
          ih _ (by simp [Expr.children]) h' k'⟩

/-- The nodes below alike expressions are alike in turn. -/
theorem Like.below {e f : Expr} (h : Like rename e f) :
    LikeAll rename e.children f.children := by
  cases e with
  | literal | charClass | any | ruleRef | predicate =>
    obtain ⟨_, rfl⟩ := h
    rfl
  | foreign =>
    obtain rfl := h
    rfl
  | sequence | choice =>
    obtain ⟨_, _, rfl, below⟩ := h
    exact below
  | labeled | unary | named | action =>
    obtain ⟨_, _, rfl, below⟩ := h
    exact ⟨_, _, rfl, below, rfl⟩
  | range info min max body delimiter =>
    cases delimiter with
    | none =>
      obtain ⟨_, _, rfl, below⟩ := h
      exact ⟨_, _, rfl, below, rfl⟩
    | some separator =>
      obtain ⟨_, _, _, rfl, below, between⟩ := h
      exact ⟨_, _, rfl, below, _, _, rfl, between, rfl⟩

variable {e f : Expr}

/-- Alike expressions look the same at the root. -/
theorem Like.root (h : Like rename e f) :
    f.isRow = e.isRow ∧ f.isLabeled = e.isLabeled ∧ f.label? = e.label? := by
  cases e with
  | literal | charClass | any | ruleRef | predicate =>
    obtain ⟨_, rfl⟩ := h
    exact ⟨rfl, rfl, rfl⟩
  | foreign =>
    obtain rfl := h
    exact ⟨rfl, rfl, rfl⟩
  | sequence | choice | labeled | unary | named | action =>
    obtain ⟨_, _, rfl, -⟩ := h
    exact ⟨rfl, rfl, rfl⟩
  | range info min max body delimiter =>
    cases delimiter with
    | none =>
      obtain ⟨_, _, rfl, -⟩ := h
      exact ⟨rfl, rfl, rfl⟩
    | some separator =>
      obtain ⟨_, _, _, rfl, -⟩ := h
      exact ⟨rfl, rfl, rfl⟩

/-- Only a reference is like a reference. -/
theorem Like.of_ruleRef {info : Info} {name : Text} (h : Like rename e (.ruleRef info name)) :
    ∃ before at?, e = .ruleRef at? before ∧ name = rename before := by
  cases e with
  | ruleRef at? before =>
    obtain ⟨_, same⟩ := h
    cases same
    exact ⟨before, at?, rfl, rfl⟩
  | literal | charClass | any | predicate =>
    obtain ⟨_, same⟩ := h
    cases same
  | foreign => cases h
  | sequence | choice | labeled | unary | named | action =>
    obtain ⟨_, _, same, -⟩ := h
    cases same
  | range info min max body delimiter =>
    cases delimiter with
    | none =>
      obtain ⟨_, _, same, -⟩ := h
      cases same
    | some separator =>
      obtain ⟨_, _, _, same, -⟩ := h
      cases same

theorem Like.isTextual (h : Like rename e f) (here : e.IsTextual) : f.IsTextual := by
  cases e with
  | literal | any | ruleRef | predicate | charClass =>
    obtain ⟨_, rfl⟩ := h
    exact here
  | named | foreign => exact absurd here id
  | sequence info elements =>
    obtain ⟨_, es, rfl, below⟩ := h
    refine ⟨fun none => here.1 (below.eq_nil_iff.mp none), fun c hc => ?_⟩
    obtain ⟨e, member, like⟩ := below.mem_right hc
    exact like.root.1.trans (here.2 e member)
  | choice info alternatives =>
    obtain ⟨_, es, rfl, below⟩ := h
    exact fun none => here (below.eq_nil_iff.mp none)
  | labeled =>
    obtain ⟨_, _, rfl, below⟩ := h
    exact ⟨below.root.1.trans here.1, below.root.2.1.trans here.2⟩
  | unary | action =>
    obtain ⟨_, _, rfl, -⟩ := h
    trivial
  | range info min max body delimiter =>
    cases delimiter with
    | none =>
      obtain ⟨_, _, rfl, -⟩ := h
      exact here
    | some separator =>
      obtain ⟨_, _, _, rfl, -⟩ := h
      exact here

/-- What alike nodes share holds everywhere in an expression that is like another one. -/
theorem Like.everywhere {P Q : Expr → Prop} (share : ∀ e f, Like rename e f → P e → Q f)
    (h : Like rename e f) (each : e.Everywhere P) : f.Everywhere Q := by
  induction e using byChildren generalizing f with
  | node e ih =>
    refine .node (share e f h each.here) fun c hc => ?_
    obtain ⟨b, member, like⟩ := h.below.mem_right hc
    exact ih b member like (each.child member)

theorem Like.textual (h : Like rename e f) (here : e.Textual) : f.Textual :=
  h.everywhere (fun _ _ like here => like.isTextual here) here

theorem Like.body (h : Like rename e f) (body : Rule.Body e) : Rule.Body f := by
  cases body with
  | plain textual => exact .plain (h.textual textual)
  | displayed textual =>
    obtain ⟨_, _, rfl, below⟩ := h
    exact .displayed (below.textual textual)

end Expr

end PegCompiler
