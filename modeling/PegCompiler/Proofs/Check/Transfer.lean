import PegCompiler.Proofs.Check.Accepted
import PegCompiler.Proofs.Grammar.Likeness

/-!
What the checks establish survives the passes that follow. A grammar succeeds another one if each of
its rules is a rule of the other but for annotations and renamed references (`Grammar.Succeeds`);
a reference may be renamed where it stands for a rule that does nothing but refer to another one.
Successors of accepted grammars are accepted (`Grammar.Accepted.succeeds`).
-/

namespace PegCompiler

namespace Expr

variable {rename : Text → Text} {e f : Expr}

theorem Like.inScope (h : Like rename e f) (scope : List Text) (here : e.Scoped scope) :
    f.Scoped scope := by
  induction e using byChildren generalizing f scope with
  | node e ih =>
    cases e with
    | literal | charClass | any | ruleRef | predicate =>
      obtain ⟨_, rfl⟩ := h
      trivial
    | foreign =>
      obtain rfl := h
      trivial
    | sequence info elements =>
      obtain ⟨_, es, rfl, below⟩ := h
      change ScopedInOrder scope es
      change ScopedInOrder scope elements at here
      simp only [Expr.children] at ih
      induction elements generalizing es scope with
      | nil =>
        obtain rfl := below
        trivial
      | cons e rest ihRest =>
        obtain ⟨f, others, rfl, like, below⟩ := below
        refine ⟨ih e (by simp) like scope here.1, ?_⟩
        rw [like.root.2.2]
        exact ihRest _ (fun c hc => ih c (by simp [hc])) _ below here.2
    | choice info alternatives =>
      obtain ⟨_, es, rfl, below⟩ := h
      refine scopedApart_iff.mpr fun c hc => ?_
      obtain ⟨e, member, like⟩ := below.mem_right hc
      exact ih e member like scope (scopedApart_iff.mp here e member)
    | labeled | unary | named | action =>
      obtain ⟨_, b, rfl, below⟩ := h
      exact ih _ (by simp [Expr.children]) below scope here
    | range info min max body delimiter =>
      cases delimiter with
      | none =>
        obtain ⟨_, b, rfl, below⟩ := h
        exact ⟨here.1, here.2.1, ih _ (by simp [Expr.children]) below scope here.2.2.1, trivial⟩
      | some separator =>
        obtain ⟨_, b, s, rfl, below, between⟩ := h
        exact ⟨here.1, here.2.1, ih _ (by simp [Expr.children]) below scope here.2.2.1,
          ih _ (by simp [Expr.children]) between scope here.2.2.2⟩

end Expr

namespace Grammar

/-- `h` has rules of `g` with other annotations and renamed references, and those only. -/
structure Succeeds (rename : Text → Text) (g h : Grammar) : Prop where
  rule : ∀ s ∈ h.rules, ∃ r ∈ g.rules, r.name = s.name ∧ Expr.Like rename r.body s.body
  names : h.ruleNames.Nodup
  resolves : ∀ s ∈ h.rules, s.body.Everywhere h.Resolves
  /-- Where a name is replaced, its rule only refers to the new one. -/
  proxy : ∀ name, rename name = name ∨
    ∃ r info, g.find? name = some r ∧ r.body = .ruleRef info (rename name)
  stable : ∀ name, rename (rename name) = rename name

variable {g h : Grammar} {rename : Text → Text}

namespace Succeeds

variable (succeeds : Succeeds rename g h) (accepted : g.Accepted)

include succeeds accepted

/-- A rule of the successor is found in the grammar that it succeeds. -/
theorem find? {name : Text} {s : Rule} (found : h.find? name = some s) :
    ∃ r, g.find? name = some r ∧ r ∈ g.rules ∧ Expr.Like rename r.body s.body := by
  obtain ⟨r, member, same, like⟩ := succeeds.rule s (List.mem_of_find?_eq_some found)
  refine ⟨r, ?_, member, like⟩
  rw [← find?_name found, ← same]
  exact find?_of_mem accepted.names member

theorem consumes {e f : Expr} (consumes : g.Consumes e) (like : Expr.Like rename e f)
    (resolves : f.Everywhere h.Resolves) : h.Consumes f := by
  induction consumes generalizing f with
  | literal nonempty =>
    obtain ⟨_, rfl⟩ := like
    exact .literal nonempty
  | charClass nonempty =>
    obtain ⟨_, rfl⟩ := like
    exact .charClass nonempty
  | any =>
    obtain ⟨_, rfl⟩ := like
    exact .any
  | @ruleRef info name r found _ ih =>
    obtain ⟨_, rfl⟩ := like
    obtain ⟨s, target⟩ := Option.isSome_iff_exists.mp resolves.here
    obtain ⟨other, same, -, likeTarget⟩ := succeeds.find? accepted target
    have below := succeeds.resolves s (List.mem_of_find?_eq_some target)
    rcases succeeds.proxy name with unchanged | ⟨p, _, isProxy, only⟩
    · rw [unchanged, found] at same
      cases same
      exact .ruleRef target (ih likeTarget below)
    · -- The rule is a proxy: its own successor would refer to the same target.
      rw [found] at isProxy
      cases isProxy
      have likeProxy : Expr.Like rename r.body (.ruleRef {} (rename name)) := by
        rw [only]
        exact ⟨{}, by rw [succeeds.stable]⟩
      have here : Expr.Everywhere h.Resolves (.ruleRef {} (rename name)) :=
        .node resolves.here (by simp [Expr.children])
      cases ih likeProxy here with
      | ruleRef found body => exact .ruleRef found body
  | @sequence info elements e member _ ih =>
    obtain ⟨_, es, rfl, below⟩ := like
    obtain ⟨f, found, like⟩ := below.mem_left member
    exact .sequence found (ih like (resolves.child found))
  | @choice info alternatives _ ih =>
    obtain ⟨_, es, rfl, below⟩ := like
    refine .choice fun c hc => ?_
    obtain ⟨e, member, like⟩ := below.mem_right hc
    exact ih e member like (resolves.child hc)
  | labeled _ ih =>
    obtain ⟨_, _, rfl, below⟩ := like
    exact .labeled (ih below (resolves.child (by simp [Expr.children])))
  | unary hands _ ih =>
    obtain ⟨_, _, rfl, below⟩ := like
    exact .unary hands (ih below (resolves.child (by simp [Expr.children])))
  | @rangeBody info n max body delimiter positive _ ih =>
    cases delimiter with
    | none =>
      obtain ⟨_, _, rfl, below⟩ := like
      exact .rangeBody positive (ih below (resolves.child (by simp [Expr.children])))
    | some separator =>
      obtain ⟨_, _, _, rfl, below, -⟩ := like
      exact .rangeBody positive (ih below (resolves.child (by simp [Expr.children])))
  | rangeDelimiter several _ ih =>
    obtain ⟨_, _, _, rfl, -, between⟩ := like
    exact .rangeDelimiter several (ih between (resolves.child (by simp [Expr.children])))
  | named _ ih =>
    obtain ⟨_, _, rfl, below⟩ := like
    exact .named (ih below (resolves.child (by simp [Expr.children])))
  | action _ ih =>
    obtain ⟨_, _, rfl, below⟩ := like
    exact .action (ih below (resolves.child (by simp [Expr.children])))

/-- A left reference comes from one of the expression that is succeeded. -/
theorem leftRef {e f : Expr} {name : Text} (ref : h.LeftRef name f) (like : Expr.Like rename e f)
    (resolves : f.Everywhere h.Resolves) :
    ∃ before, name = rename before ∧ g.LeftRef before e := by
  induction e using Expr.byChildren generalizing f with
  | node e ih =>
    cases e with
    | literal | charClass | any | predicate =>
      obtain ⟨_, rfl⟩ := like
      cases ref
    | foreign =>
      obtain rfl := like
      cases ref
    | ruleRef info before =>
      obtain ⟨_, rfl⟩ := like
      cases ref
      exact ⟨before, rfl, .here⟩
    | sequence info elements =>
      obtain ⟨_, es, rfl, below⟩ := like
      cases ref with
      | @element _ before after c idle ref =>
        obtain ⟨front, e, back, rfl, alike, like⟩ := below.split
        obtain ⟨name, rfl, found⟩ := ih e (by simp [Expr.children]) ref like
          (resolves.child (by simp [Expr.children]))
        refine ⟨name, rfl, .element (fun b hb consumes => ?_) found⟩
        obtain ⟨f, member, like⟩ := alike.mem_left hb
        exact idle f member (succeeds.consumes accepted consumes like
          (resolves.child (by simp [Expr.children, member])))
    | choice info alternatives =>
      obtain ⟨_, es, rfl, below⟩ := like
      cases ref with
      | alternative member ref =>
        obtain ⟨e, here, like⟩ := below.mem_right member
        obtain ⟨before, rfl, found⟩ := ih e here ref like (resolves.child member)
        exact ⟨before, rfl, .alternative here found⟩
    | labeled =>
      obtain ⟨_, _, rfl, below⟩ := like
      cases ref with
      | labeled ref =>
        obtain ⟨before, rfl, found⟩ := ih _ (by simp [Expr.children]) ref below
          (resolves.child (by simp [Expr.children]))
        exact ⟨before, rfl, .labeled found⟩
    | unary =>
      obtain ⟨_, _, rfl, below⟩ := like
      cases ref with
      | unary ref =>
        obtain ⟨before, rfl, found⟩ := ih _ (by simp [Expr.children]) ref below
          (resolves.child (by simp [Expr.children]))
        exact ⟨before, rfl, .unary found⟩
    | named =>
      obtain ⟨_, _, rfl, below⟩ := like
      cases ref with
      | named ref =>
        obtain ⟨before, rfl, found⟩ := ih _ (by simp [Expr.children]) ref below
          (resolves.child (by simp [Expr.children]))
        exact ⟨before, rfl, .named found⟩
    | action =>
      obtain ⟨_, _, rfl, below⟩ := like
      cases ref with
      | action ref =>
        obtain ⟨before, rfl, found⟩ := ih _ (by simp [Expr.children]) ref below
          (resolves.child (by simp [Expr.children]))
        exact ⟨before, rfl, .action found⟩
    | range info min max body delimiter =>
      cases delimiter with
      | none =>
        obtain ⟨_, _, rfl, below⟩ := like
        cases ref with
        | rangeBody ref =>
          obtain ⟨before, rfl, found⟩ := ih _ (by simp [Expr.children]) ref below
            (resolves.child (by simp [Expr.children]))
          exact ⟨before, rfl, .rangeBody found⟩
      | some separator =>
        obtain ⟨_, _, _, rfl, below, between⟩ := like
        cases ref with
        | rangeBody ref =>
          obtain ⟨before, rfl, found⟩ := ih _ (by simp [Expr.children]) ref below
            (resolves.child (by simp [Expr.children]))
          exact ⟨before, rfl, .rangeBody found⟩
        | rangeDelimiter idle ref =>
          obtain ⟨before, rfl, found⟩ := ih _ (by simp [Expr.children]) ref between
            (resolves.child (by simp [Expr.children]))
          refine ⟨before, rfl, .rangeDelimiter (fun consumes => idle ?_) found⟩
          exact succeeds.consumes accepted consumes below (resolves.child (by simp [Expr.children]))

/-- A left call between rules of the successor is a chain of left calls. -/
theorem leftCall {callee caller : Text} (call : h.LeftCall callee caller) :
    Relation.TransGen g.LeftCall callee caller := by
  obtain ⟨s, found, ref⟩ := call
  obtain ⟨r, before, member, like⟩ := succeeds.find? accepted found
  have below := succeeds.resolves s (List.mem_of_find?_eq_some found)
  obtain ⟨name, rfl, inFront⟩ := succeeds.leftRef accepted ref like below
  have first : Relation.TransGen g.LeftCall name caller := .single ⟨r, before, inFront⟩
  rcases succeeds.proxy name with unchanged | ⟨p, info, isProxy, only⟩
  · rwa [unchanged]
  · refine .trans (.single ⟨p, isProxy, ?_⟩) first
    rw [only]
    exact .here

theorem advances {e f : Expr} (like : Expr.Like rename e f) (resolves : f.Everywhere h.Resolves)
    (here : g.Advances e) : h.Advances f := by
  have consumes {c d : Expr} (member : d ∈ f.children) (like : Expr.Like rename c d) :
      g.Consumes c → h.Consumes d :=
    fun consumes => succeeds.consumes accepted consumes like (resolves.child member)
  cases e with
  | literal | charClass | any | ruleRef | predicate =>
    obtain ⟨_, rfl⟩ := like
    trivial
  | foreign =>
    obtain rfl := like
    trivial
  | sequence | choice | labeled | named | action =>
    obtain ⟨_, _, rfl, -⟩ := like
    trivial
  | unary info operator body =>
    obtain ⟨_, b, rfl, below⟩ := like
    cases operator with
    | zeroOrMore | oneOrMore => exact consumes (by simp [Expr.children]) below here
    | text | followedBy | notFollowedBy | optional | group => trivial
  | range info min max body delimiter =>
    cases delimiter with
    | none =>
      obtain ⟨_, b, rfl, below⟩ := like
      refine here.imp_right (Or.imp (consumes (by simp [Expr.children]) below) ?_)
      simp
    | some separator =>
      obtain ⟨_, b, s, rfl, below, between⟩ := like
      refine here.imp_right (Or.imp (consumes (by simp [Expr.children]) below) ?_)
      simpa using consumes (by simp [Expr.children]) between

end Succeeds

/-- A grammar that succeeds an accepted one is accepted. -/
theorem Accepted.succeeds (accepted : g.Accepted) (succeeds : Succeeds rename g h) :
    h.Accepted where
  textual s hs := by
    obtain ⟨r, member, -, like⟩ := succeeds.rule s hs
    exact like.body (accepted.textual r member)
  names := succeeds.names
  resolves := succeeds.resolves
  acyclic name :=
    Subrelation.accessible (fun call => succeeds.leftCall accepted call)
      (accepted.acyclic name).transGen
  advances s hs := by
    obtain ⟨r, member, -, like⟩ := succeeds.rule s hs
    have each := like.everywhere (Q := fun f => f.Everywhere h.Resolves → h.Advances f)
      (fun _ _ like here below => succeeds.advances accepted like below here)
      (accepted.advances r member)
    exact (each.and (succeeds.resolves s hs).nested).mono fun _ both => both.1 both.2
  scopes s hs := by
    obtain ⟨r, member, -, like⟩ := succeeds.rule s hs
    exact like.inScope [] (accepted.scopes r member)

end Grammar

end PegCompiler
