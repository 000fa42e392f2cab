import Mathlib.Logic.Function.Basic
import Mathlib.Logic.Relation
import PegCompiler.Proofs.Analysis.Judging
import PegCompiler.Proofs.Check.Accepted

/-!
Match inference solves every rule. A round over an expression judges it by the verdicts that are stored
behind it (`Matching.expr_rounds`): a verdict that is stored stays, except that of a rule that is still
being solved, which is open. So the second round over a body finds no other verdict than the first one,
and no rule is ever given up (`Matching.annotate_infers`). What a rule took for the verdict of another
one is that verdict, unless the other one was being solved at that time; then it leads to the rule
(`Grammar.Infers`).
-/

namespace PegCompiler

namespace Grammar

/-- The rule `caller` refers to the rule `callee`. -/
def RefersTo (g : Grammar) (caller callee : Text) : Prop :=
  ∃ r ∈ g.rules, r.name = caller ∧ r.body.Mentions callee

/-- References lead from the rule `caller` to the rule `callee`. -/
abbrev Leads (g : Grammar) : Text → Text → Prop := Relation.TransGen g.RefersTo

/-- What match inference begins with: rules with different names and without verdicts, whose references
are all defined. -/
structure Inferable (g : Grammar) : Prop where
  native : ∀ r ∈ g.rules, r.body.Everywhere Expr.Native
  names : g.ruleNames.Nodup
  resolves : ∀ r ∈ g.rules, r.body.Refers fun name => g.defines name = true
  fresh : ∀ r ∈ g.rules, r.verdict = none

theorem Accepted.inferable {g : Grammar} (accepted : g.Accepted)
    (fresh : ∀ r ∈ g.rules, r.verdict = none) : g.Inferable where
  native r member := (accepted.textual r member).expressions
  names := accepted.names
  resolves r member := Resolves.refers (accepted.resolves r member)
  fresh := fresh

end Grammar

namespace Matching

/-- The verdict stored for the rule called `name`. -/
def known (s : Progress) : Text → Option Verdict := ({ rules := s.rules } : Grammar).known

/-- The same, open while there is none. -/
def value (s : Progress) : Text → Verdict := ({ rules := s.rules } : Grammar).verdictOf

theorem value_eq (s : Progress) (name : Text) : value s name = (known s name).getD .sometimes := rfl

theorem value_update {s t : Progress} {name : Text} {v : Verdict}
    (stored : known t = Function.update (known s) name (some v)) :
    value t = Function.update (value s) name v := by
  funext other
  simp only [value_eq, stored, Function.update_apply]
  split <;> rfl

/-- The verdict for `name` cannot change any more: it is stored, or there is no such rule. -/
def Settled (s : Progress) (name : Text) : Prop :=
  (known s name).isSome ∨ name ∉ s.rules.map Rule.name

theorem Settled.of_known {s : Progress} {name : Text} {v : Verdict} (stored : known s name = some v) :
    Settled s name := .inl (by simp [stored])

/-- What is settled stays as it is. -/
def Keeps (s t : Progress) : Prop :=
  ∀ name, Settled s name → Settled t name ∧ value t name = value s name

theorem Keeps.refl (s : Progress) : Keeps s s := fun _ settled => ⟨settled, rfl⟩

theorem Keeps.trans {s t u : Progress} (h : Keeps s t) (k : Keeps t u) : Keeps s u := fun name settled =>
  have middle := h name settled
  have last := k name middle.1
  ⟨last.1, last.2.trans middle.2⟩

/-- The verdicts of all rules that the expression refers to are settled. -/
abbrev Answered (s : Progress) (e : Expr) : Prop := e.Refers (Settled s)

theorem Keeps.answered {s t : Progress} {e : Expr} (keeps : Keeps s t) (answered : Answered s e) :
    Answered t e :=
  answered.imp fun name settled => (keeps name settled).1

theorem Keeps.judge {s t : Progress} {e : Expr} (keeps : Keeps s t) (answered : Answered s e) :
    e.judge (value t) = e.judge (value s) :=
  Expr.judge_congr (answered.imp fun name settled => (keeps name settled).2)

/-! ## Expressions -/

section Expressions

variable {ι : Type} {I : Progress → Prop} {ofRule : ι → Text → Infer Inferred}

/-- What a reference asks for: the verdict of its rule is settled afterwards, and that is the answer,
in whatever way of the given ones it is got. -/
def Answers (I : Progress → Prop) (ofRule : ι → Text → Infer Inferred) (name : Text) : Prop :=
  ∀ s, I s → ∃ s', (∀ j, ofRule j name s = (.ok (some (value s' name)), s')) ∧ Keeps s s' ∧ I s' ∧
    Settled s' name

/-- A round over an expression judges it by what is settled afterwards. -/
def Rounds (I : Progress → Prop) (ofRule : ι → Text → Infer Inferred) (e : Expr) : Prop :=
  ∀ s, I s → ∃ s', (∀ j, expr (ofRule j) e s =
      ((e.judge (value s'), .ok (some (e.judge (value s')).verdict)), s')) ∧
    Keeps s s' ∧ I s' ∧ Answered s' e

theorem exprs_rounds (es : List Expr) (each : ∀ e ∈ es, Rounds I ofRule e) (s : Progress) (h : I s) :
    ∃ s', (∀ j, exprs (ofRule j) es s = ((es.map (·.judge (value s')),
        .ok (((es.map (·.judge (value s'))).map Expr.verdict).map some)), s')) ∧
      Keeps s s' ∧ I s' ∧ ∀ e ∈ es, Answered s' e := by
  induction es generalizing s with
  | nil => exact ⟨s, fun _ => rfl, .refl s, h, by simp⟩
  | cons e rest ih =>
    obtain ⟨t, run, keeps, inv, answered⟩ := each e (by simp) s h
    obtain ⟨u, runs, keeps', inv', others⟩ := ih (fun c hc => each c (by simp [hc])) t inv
    refine ⟨u, ?_, keeps.trans keeps', inv', ?_⟩
    · intro j
      simp only [exprs, bind, StateT.bind, run, runs, List.map_cons, keeps'.judge answered]
      rfl
    · simpa [keeps'.answered answered] using others

theorem expr_rounds {e : Expr} (native : e.Everywhere Expr.Native)
    (answers : e.Refers (Answers I ofRule)) : Rounds I ofRule e := by
  induction e using Expr.byChildren with
  | node e ih =>
    have below : ∀ c ∈ e.children, Rounds I ofRule c :=
      fun c hc => ih c hc (native.child hc) (answers.child hc)
    intro s h
    cases e with
    | foreign => exact absurd native.here id
    | literal | charClass | any | predicate => exact ⟨s, fun _ => rfl, .refl s, h, .node trivial nofun⟩
    | ruleRef info name =>
      obtain ⟨t, run, keeps, inv, settled⟩ := answers.here s h
      refine ⟨t, fun j => ?_, keeps, inv, .node settled nofun⟩
      simp only [expr, bind, StateT.bind, run, Expr.judge]
      rfl
    | sequence info es =>
      obtain ⟨t, run, keeps, inv, answered⟩ := exprs_rounds es below s h
      refine ⟨t, fun j => ?_, keeps, inv, .node trivial answered⟩
      simp only [expr, bind, StateT.bind, run, Except.bind, ofSequence_some, Expr.judge,
        Expr.judgeAll_eq_map]
      rfl
    | choice info es =>
      obtain ⟨t, run, keeps, inv, answered⟩ := exprs_rounds es below s h
      refine ⟨t, fun j => ?_, keeps, inv, .node trivial answered⟩
      simp only [expr, bind, StateT.bind, run, Except.bind, ofChoice_some, Expr.judge,
        Expr.judgeAll_eq_map]
      rfl
    | labeled info label at? auto body | named info shown body | action info code at? body =>
      obtain ⟨t, run, keeps, inv, answered⟩ := below body (by simp [Expr.children]) s h
      refine ⟨t, fun j => ?_, keeps, inv, .node trivial (by simpa [Expr.children] using answered)⟩
      simp only [expr, bind, StateT.bind, run, Expr.judge]
      rfl
    | unary info operator body =>
      obtain ⟨t, run, keeps, inv, answered⟩ := below body (by simp [Expr.children]) s h
      refine ⟨t, fun j => ?_, keeps, inv, .node trivial (by simpa [Expr.children] using answered)⟩
      simp only [expr, bind, StateT.bind, run, Except.bind, ofOperator_some, Expr.judge]
      rfl
    | range info min max body delimiter =>
      cases delimiter with
      | none =>
        obtain ⟨t, run, keeps, inv, answered⟩ := below body (by simp [Expr.children]) s h
        refine ⟨t, fun j => ?_, keeps, inv, .node trivial (by simpa [Expr.children] using answered)⟩
        simp only [expr, bind, StateT.bind, run, Except.bind, ofRange_some, Expr.judge]
        rfl
      | some separator =>
        obtain ⟨t, run, keeps, inv, answered⟩ := below body (by simp [Expr.children]) s h
        obtain ⟨u, run', keeps', inv', answered'⟩ := below separator (by simp [Expr.children]) t inv
        refine ⟨u, ?_, keeps.trans keeps', inv', .node trivial ?_⟩
        · intro j
          have run := run j
          rw [← keeps'.judge answered] at run
          simp only [expr, bind, StateT.bind, run, run', Except.bind, ofRange_some, Expr.judge]
          rfl
        · simpa [Expr.children, keeps'.answered answered] using answered'

end Expressions

/-! ## Rules -/

section Known

variable {s : Progress} {q : Rule} {i : Nat} {name : Text}

theorem known_at (names : (s.rules.map Rule.name).Nodup) (at? : s.rules[i]? = some q) :
    known s q.name = q.verdict := by
  have found := Grammar.find?_of_mem (g := { rules := s.rules }) names (List.mem_of_getElem? at?)
  simp [known, Grammar.known, found]

theorem known_eq_none (undefined : name ∉ s.rules.map Rule.name) : known s name = none := by
  have missing : ({ rules := s.rules } : Grammar).find? name = none := by
    refine List.find?_eq_none.mpr fun q member same => undefined ?_
    exact List.mem_map.mpr ⟨q, member, by simpa using same⟩
  simp [known, Grammar.known, missing]

end Known

/-- The rule at `index` gets a body and a verdict. -/
def put (index : Nat) (body : Expr) (v : Verdict) (s : Progress) : Progress :=
  let rules := (s.rules.modify index fun r => { r with body }).modify index
    fun r => { r with verdict := some v }
  { s with rules }

section Put

variable {s : Progress} {i : Nat} {body other : Expr} {v w : Verdict} {q : Rule}

theorem put_of_ne {j : Nat} (apart : j ≠ i) : (put i body v s).rules[j]? = s.rules[j]? := by
  simp [put, Ne.symm apart]

theorem put_self (at? : s.rules[i]? = some q) :
    (put i body v s).rules[i]? = some { q with body, verdict := some v } := by
  simp [put, at?]

theorem put_length : (put i body v s).rules.length = s.rules.length := by simp [put]

theorem put_put : put i body v (put i other w s) = put i body v s := by
  refine congrArg (Progress.mk · s.found) (List.ext_getElem? fun j => ?_)
  change (put i body v (put i other w s)).rules[j]? = (put i body v s).rules[j]?
  by_cases same : j = i
  · subst same
    cases at? : s.rules[j]? with
    | none => simp [put, at?]
    | some q => rw [put_self (put_self at?), put_self at?]
  · rw [put_of_ne same, put_of_ne same, put_of_ne same]

theorem put_names : (put i body v s).rules.map Rule.name = s.rules.map Rule.name := by
  refine List.ext_getElem? fun j => ?_
  by_cases same : j = i
  · subst same
    cases at? : s.rules[j]? with
    | none => simp [put, at?]
    | some q => simp [put_self at?, at?]
  · simp [put_of_ne same]

theorem known_put (names : (s.rules.map Rule.name).Nodup) (at? : s.rules[i]? = some q) :
    known (put i body v s) = Function.update (known s) q.name (some v) := by
  have names' : ((put i body v s).rules.map Rule.name).Nodup := by rwa [put_names]
  funext name
  by_cases here : name = q.name
  · subst here
    rw [Function.update_self]
    exact known_at names' (put_self at?)
  · rw [Function.update_of_ne here]
    by_cases defined : name ∈ s.rules.map Rule.name
    · obtain ⟨p, member, rfl⟩ := List.mem_map.mp defined
      obtain ⟨j, place⟩ := List.mem_iff_getElem?.mp member
      have apart : j ≠ i := by
        rintro rfl
        exact here (congrArg Rule.name (Option.some.inj (place.symm.trans at?)))
      rw [known_at names place]
      exact known_at names' ((put_of_ne apart).trans place)
    · rw [known_eq_none defined]
      exact known_eq_none (by rwa [put_names])

end Put

/-- What a solved rule took the verdict of `name` for: what it is for good, or open, where it leads back
to the rule. -/
def Right (g : Grammar) (active : List Text) (s : Progress) (r : Rule) (ofRule : Text → Verdict)
    (name : Text) : Prop :=
  known s name = some (ofRule name) ∧ name ∉ active ∨
    ofRule name = .sometimes ∧ name ≠ r.name ∧ g.Leads name r.name

/-- What has become of a rule: nothing so far, or it is one of those being solved, or it is solved. -/
inductive Stage (g : Grammar) (active : List Text) (s : Progress) (r : Rule) : Rule → Prop
  | fresh : r.name ∉ active → Stage g active s r r
  | opened : r.name ∈ active → Stage g active s r { r with verdict := some .sometimes }
  | solved {ofRule : Text → Verdict} :
    r.name ∉ active → r.body.Refers (Right g active s r ofRule) → Stage g active s r (r.judged ofRule)

/-- What holds while the rules in `active` are being solved: every rule is at one of the stages, and no
finding has been made. -/
structure Inv (g : Grammar) (active : List Text) (s : Progress) : Prop where
  length : s.rules.length = g.rules.length
  found : s.found = []
  rule : ∀ (i : Nat) (r : Rule), g.rules[i]? = some r →
    ∃ q, s.rules[i]? = some q ∧ Stage g active s r q
  /-- No verdict says more than one that agrees with all bodies. -/
  least : ∀ ofRule, g.IsFixpoint ofRule → ∀ name v, known s name = some v → v.Below (ofRule name)

section Stages

variable {g : Grammar} {active after : List Text} {s t : Progress} {r q : Rule} {i : Nat}

theorem Stage.same (h : Stage g active s r q) : q = { r with body := q.body, verdict := q.verdict } := by
  cases h <;> rfl

/-- A stage stays as long as the verdicts of rules that are not being solved do. -/
theorem Stage.mono (h : Stage g active s r q) (same : r.name ∈ after ↔ r.name ∈ active)
    (final : ∀ name v, known s name = some v → name ∉ active → known t name = some v ∧ name ∉ after) :
    Stage g after t r q := by
  cases h with
  | fresh idle => exact .fresh (same.not.mpr idle)
  | opened member => exact .opened (same.mpr member)
  | solved idle right =>
    refine .solved (same.not.mpr idle) (right.imp fun name => Or.imp_left ?_)
    exact fun stored => final name _ stored.1 stored.2

theorem Inv.names (inv : Inv g active s) : s.rules.map Rule.name = g.ruleNames := by
  refine List.ext_getElem (by simp [inv.length, Grammar.ruleNames]) fun i bound bound' => ?_
  simp only [List.length_map] at bound
  have inside : i < g.rules.length := inv.length ▸ bound
  obtain ⟨q, at?, stage⟩ := inv.rule i _ (List.getElem?_eq_getElem inside)
  obtain ⟨_, same⟩ := List.getElem?_eq_some_iff.mp at?
  simp only [List.getElem_map, Grammar.ruleNames, same]
  rw [stage.same]

/-- Rules stay at their places. -/
theorem place (same : s.rules.map Rule.name = g.ruleNames) (names : g.ruleNames.Nodup)
    (at? : g.rules[i]? = some r) :
    ({ rules := s.rules } : Grammar).indexOf? r.name = some i ∧
      ∃ q, s.rules[i]? = some q ∧ q.name = r.name := by
  have named : (s.rules.map Rule.name)[i]? = some r.name := by simp [same, Grammar.ruleNames, at?]
  rw [List.getElem?_map] at named
  obtain ⟨q, here, name⟩ := Option.map_eq_some_iff.mp named
  have found := Grammar.indexOf?_name (g := { rules := s.rules })
    (show (s.rules.map Rule.name).Nodup from same ▸ names) here
  exact ⟨name ▸ found, q, here, name⟩

/-- What is stored for the rule at a place is what is known of it. -/
theorem known_place (same : s.rules.map Rule.name = g.ruleNames) (names : g.ruleNames.Nodup)
    (at? : g.rules[i]? = some r) (here : s.rules[i]? = some q) : known s r.name = q.verdict := by
  obtain ⟨-, p, there, name⟩ := place same names at?
  obtain rfl := Option.some.inj (here.symm.trans there)
  rw [← name]
  exact known_at (same ▸ names) here

theorem known_put_place (same : s.rules.map Rule.name = g.ruleNames) (names : g.ruleNames.Nodup)
    (at? : g.rules[i]? = some r) (body : Expr) (v : Verdict) :
    known (put i body v s) = Function.update (known s) r.name (some v) := by
  obtain ⟨-, p, here, name⟩ := place same names at?
  rw [known_put (same ▸ names) here, name]

/-- What is settled for a rule is stored. -/
theorem Settled.stored (settled : Settled s r.name) (same : s.rules.map Rule.name = g.ruleNames)
    (at? : g.rules[i]? = some r) : ∃ v, known s r.name = some v :=
  Option.isSome_iff_exists.mp <| settled.resolve_right fun undefined =>
    undefined (same ▸ List.mem_map_of_mem (List.mem_of_getElem? at?))

/-- What is settled while a rule is being solved is so already before that, and still afterwards. -/
theorem keeps_solving {b c : Expr} {v w : Verdict} (same : s.rules.map Rule.name = g.ruleNames)
    (same' : t.rules.map Rule.name = g.ruleNames) (names : g.ruleNames.Nodup)
    (at? : g.rules[i]? = some r) (unknown : known s r.name = none) (keeps : Keeps (put i b v s) t) :
    Keeps s (put i c w t) := by
  intro name settled
  have apart : name ≠ r.name := by
    rintro rfl
    obtain ⟨v, stored⟩ := settled.stored same at?
    cases unknown.symm.trans stored
  have kept := keeps name
  simp only [Settled, value_eq, known_put_place same names at?, known_put_place same' names at?,
    put_names, Function.update_of_ne apart] at kept settled ⊢
  exact kept settled

/-- A rule that is open or has no verdict yet gets one. -/
theorem put_inv {body : Expr} {v : Verdict} (inv : Inv g active s)
    (names : g.ruleNames.Nodup) (at? : g.rules[i]? = some r)
    (unsettled : ∀ w, known s r.name = some w → r.name ∈ active)
    (same : ∀ name, name ≠ r.name → (name ∈ after ↔ name ∈ active))
    (stage : Stage g after (put i body v s) r { r with body, verdict := some v })
    (least : ∀ ofRule, g.IsFixpoint ofRule → v.Below (ofRule r.name)) :
    Inv g after (put i body v s) := by
  obtain ⟨p, here, before⟩ := inv.rule i r at?
  have stored := known_put_place inv.names names at? body v
  refine ⟨put_length.trans inv.length, inv.found, fun j q place => ?_, fun ofRule fixed other w => ?_⟩
  · by_cases apart : j = i
    · subst apart
      obtain rfl := Option.some.inj (at?.symm.trans place)
      refine ⟨_, put_self here, ?_⟩
      rw [before.same]
      exact stage
    · obtain ⟨q', there, other⟩ := inv.rule j q place
      have differ : q.name ≠ r.name := fun equal => apart <| by
        have first := Grammar.indexOf?_name names place
        rw [equal, Grammar.indexOf?_name names at?] at first
        exact (Option.some.inj first).symm
      refine ⟨q', (put_of_ne apart).trans there, other.mono (same _ differ) fun name w known idle => ?_⟩
      have elsewhere : name ≠ r.name := by
        rintro rfl
        exact idle (unsettled w known)
      rw [stored, Function.update_of_ne elsewhere]
      exact ⟨known, fun member => idle ((same name elsewhere).mp member)⟩
  · rw [stored]
    by_cases own : other = r.name
    · subst own
      rw [Function.update_self]
      rintro ⟨⟩
      exact least ofRule fixed
    · rw [Function.update_of_ne own]
      exact inv.least ofRule fixed other w

/-- The verdict stored for a rule that is being solved is open. -/
theorem Inv.opened (inv : Inv g active s) (names : g.ruleNames.Nodup)
    (at? : g.rules[i]? = some r) (member : r.name ∈ active) : known s r.name = some .sometimes := by
  obtain ⟨q, here, stage⟩ := inv.rule i r at?
  cases stage with
  | opened => exact known_place inv.names names at? here
  | fresh idle | solved idle => exact absurd member idle

theorem Inv.value_below {ofRule : Text → Verdict} (inv : Inv g active s) (fixed : g.IsFixpoint ofRule)
    (name : Text) : (value s name).Below (ofRule name) := by
  rw [value_eq]
  cases stored : known s name with
  | none => exact .inl rfl
  | some v => exact inv.least ofRule fixed name v stored

end Stages

/-! ## Solving -/

section Settle

variable {ofRule : Text → Infer Inferred} {index revisits : Nat} {rule : Rule} {body b : Expr}
  {previous : Option Verdict} {v : Verdict} {s u : Progress}

/-- The last round over a body. -/
theorem settle_done (run : expr ofRule body s = ((b, .ok (some v)), u)) :
    settle ofRule index rule revisits body (some v) s = (.ok (some v), put index b v u) := by
  unfold settle
  simp only [bind, StateT.bind, run, setRule, modify, modifyGet, MonadStateOf.modifyGet,
    StateT.modifyGet, ↓reduceIte]
  rfl

/-- A round over a body that is not the last one. -/
theorem settle_again (run : expr ofRule body s = ((b, .ok (some v)), u)) (other : some v ≠ previous) :
    settle ofRule index rule (revisits + 1) body previous s =
      settle ofRule index rule revisits b (some v) (put index b v u) := by
  conv => lhs; unfold settle
  simp only [bind, StateT.bind, run, setRule, modify, modifyGet, MonadStateOf.modifyGet,
    StateT.modifyGet, other, ↓reduceIte]
  rfl

end Settle

/-- The answer for a name comes from the rule at its place, which `below` solves. -/
def answer (g : Grammar) (below : Nat → Infer Inferred) (name : Text) : Infer Inferred :=
  match g.indexOf? name with
  | some target => below target
  | none => return .ok (some .sometimes)

/-- Solves the rule at `index`, which may change its verdict `revisits` times; `below` solves the rules
that it refers to. -/
def solve (revisits : Nat) (below : Nat → Infer Inferred) (index : Nat) : Infer Inferred := do
  let g : Grammar := { rules := (← get).rules }
  match g.rules[index]? with
  | none => return .ok (some .sometimes)
  | some rule =>
    match rule.verdict with
    | some v => return .ok (some v)
    | none =>
      setRule index fun r => { r with verdict := some .sometimes }
      settle (answer g below) index rule revisits rule.body (some .sometimes)

theorem ofIndex_succ (depth : Nat) : ofIndex (depth + 1) = solve maxRevisits (ofIndex depth) := rfl

section Index

variable {revisits i : Nat} {below : Nat → Infer Inferred} {s : Progress} {q : Rule}

theorem solve_stored {v : Verdict} (at? : s.rules[i]? = some q) (stored : q.verdict = some v) :
    solve revisits below i s = (.ok (some v), s) := by
  simp only [solve, bind, StateT.bind, get, getThe, MonadStateOf.get, StateT.get, pure, at?, stored]
  rfl

theorem solve_open (at? : s.rules[i]? = some q) (unsolved : q.verdict = none) :
    solve revisits below i s = settle (answer { rules := s.rules } below) i q revisits q.body
      (some .sometimes) (put i q.body .sometimes s) := by
  have opened : put i q.body .sometimes s =
      { s with rules := s.rules.modify i fun r => { r with verdict := some .sometimes } } := by
    refine congrArg (Progress.mk · s.found) (List.ext_getElem? fun j => ?_)
    change (put i q.body .sometimes s).rules[j]? = _
    by_cases same : j = i
    · subst same
      simp [put_self at?, at?]
    · simp [put_of_ne same, Ne.symm same]
  rw [opened]
  simp only [solve, bind, StateT.bind, get, getThe, MonadStateOf.get, StateT.get, pure, at?, unsolved]
  rfl

end Index

section Solving

variable {g : Grammar} {active : List Text} {depth i : Nat} {s t u : Progress} {r : Rule}

/-- What solving a rule that all rules being solved lead to does. -/
def Solves (g : Grammar) (depth : Nat) (active : List Text) : Prop :=
  ∀ (i : Nat) (r : Rule) (s : Progress), g.rules[i]? = some r → Inv g active s →
    (∀ a ∈ active, g.Leads a r.name) →
    ∃ v s', ofIndex depth i s = (.ok (some v), s') ∧ Keeps s s' ∧ Inv g active s' ∧
      known s' r.name = some v

theorem mentioned (inferable : g.Inferable) (member : r ∈ g.rules) :
    r.body.Refers fun name =>
      g.RefersTo r.name name ∧ ∃ (j : Nat) (q : Rule), g.rules[j]? = some q ∧ q.name = name := by
  refine Expr.refers_iff.mpr fun name mentions => ⟨⟨r, member, rfl, mentions⟩, ?_⟩
  have defined := Expr.refers_iff.mp (inferable.resolves r member) name mentions
  obtain ⟨q, found⟩ := Option.isSome_iff_exists.mp defined
  obtain ⟨j, at?⟩ := List.mem_iff_getElem?.mp (List.mem_of_find?_eq_some found)
  exact ⟨j, q, at?, Grammar.find?_name found⟩

/-- A rule with a verdict is not solved again. -/
theorem answer_stored (same : s.rules.map Rule.name = g.ruleNames)
    (same' : t.rules.map Rule.name = g.ruleNames) (names : g.ruleNames.Nodup)
    (at? : g.rules[i]? = some r) {v : Verdict} (stored : known t r.name = some v) :
    answer { rules := s.rules } (ofIndex (depth + 1)) r.name t = (.ok (some v), t) := by
  obtain ⟨found, -⟩ := place same names at?
  obtain ⟨-, q, here, name⟩ := place same' names at?
  rw [← name, known_at (same' ▸ names) here] at stored
  simp only [answer, found]
  exact solve_stored here stored

/-- Where the rules that are referred to can be solved, references are answered. -/
theorem answers (inferable : g.Inferable) (solves : Solves g depth (r.name :: active))
    (member : r ∈ g.rules) (leads : ∀ a ∈ active, g.Leads a r.name)
    (same : s.rules.map Rule.name = g.ruleNames) :
    r.body.Refers (Answers (Inv g (r.name :: active))
      fun _ : Unit => answer { rules := s.rules } (ofIndex depth)) := by
  refine (mentioned inferable member).imp fun name ⟨refers, j, q, at?, here⟩ t inv => ?_
  subst here
  obtain ⟨found, -⟩ := place same inferable.names at?
  obtain ⟨v, u, run, keeps, inv', stored⟩ := solves j q t at? inv fun a busy => by
    rcases List.mem_cons.mp busy with rfl | busy
    · exact .single refers
    · exact (leads a busy).tail refers
  refine ⟨u, fun _ => ?_, keeps, inv', .of_known stored⟩
  simp only [answer, found, run, value_eq, stored]
  rfl

/-- The rule that is being solved gets the verdict of its body, which is judged by that. -/
theorem close_inv (inferable : g.Inferable) (at? : g.rules[i]? = some r)
    (inv : Inv g (r.name :: active) u) (idle : r.name ∉ active)
    (leads : ∀ a ∈ active, g.Leads a r.name) (answered : Answered u r.body) {v : Verdict}
    (first : (r.body.judge (value u)).verdict = v)
    (last : (r.body.judge (Function.update (value u) r.name v)).verdict = v) :
    Inv g active (put i (r.body.judge (Function.update (value u) r.name v)) v u) := by
  have member := List.mem_of_getElem? at?
  have stored := known_put_place inv.names inferable.names at?
    (r.body.judge (Function.update (value u) r.name v)) v
  refine put_inv inv inferable.names at? (fun _ _ => by simp) (fun name other => by simp [other]) ?_ ?_
  · have judged : r.judged (Function.update (value u) r.name v) =
        { r with body := r.body.judge (Function.update (value u) r.name v), verdict := some v } := by
      rw [Rule.judged, last]
    rw [← judged]
    refine .solved idle (Expr.refers_iff.mpr fun name mentions => ?_)
    obtain ⟨-, j, q, place, rfl⟩ := Expr.refers_iff.mp (mentioned inferable member) name mentions
    obtain ⟨w, known⟩ := (Expr.refers_iff.mp answered q.name mentions).stored inv.names place
    unfold Right
    rw [stored]
    by_cases own : q.name = r.name
    · rw [own]
      exact .inl ⟨by simp, idle⟩
    · rw [Function.update_of_ne own, Function.update_of_ne own]
      have value : value u q.name = w := by simp [value_eq, known]
      rw [known, value]
      by_cases busy : q.name ∈ active
      · have opened := inv.opened inferable.names place (List.mem_cons_of_mem _ busy)
        exact .inr ⟨Option.some.inj (known.symm.trans opened), own, leads _ busy⟩
      · exact .inl ⟨rfl, busy⟩
  · intro ofRule fixed
    rw [← fixed r member, ← first]
    exact Expr.judge_below (inferable.native r member)
      (Expr.Refers.all (fun name => inv.value_below fixed name) _)

/-- A round that finds all verdicts stored changes none of them. -/
theorem expr_stored (depth : Nat) (inferable : g.Inferable) (member : r ∈ g.rules)
    (same : s.rules.map Rule.name = g.ruleNames) (same' : t.rules.map Rule.name = g.ruleNames)
    (answered : Answered t r.body) (ofRule : Text → Verdict) :
    expr (answer { rules := s.rules } (ofIndex (depth + 1))) (r.body.judge ofRule) t =
      ((r.body.judge (value t), .ok (some (r.body.judge (value t)).verdict)), t) := by
  have answers : r.body.Refers
      (Answers (· = t) fun _ : Unit => answer { rules := s.rules } (ofIndex (depth + 1))) := by
    refine Expr.refers_iff.mpr fun name mentions => ?_
    obtain ⟨-, j, q, at?, rfl⟩ := Expr.refers_iff.mp (mentioned inferable member) name mentions
    have settled := Expr.refers_iff.mp answered q.name mentions
    obtain ⟨w, stored⟩ := settled.stored same' at?
    rintro _ rfl
    refine ⟨_, fun _ => ?_, .refl _, rfl, settled⟩
    simp only [value_eq, stored]
    exact answer_stored same same' inferable.names at? stored
  obtain ⟨_, run, -, rfl, -⟩ := expr_rounds (Expr.judge_native (inferable.native r member))
    (Expr.judge_refers ofRule answers) t rfl
  have run := run ()
  rwa [Expr.judge_judge] at run

/-- After the first round there is a second one at most, since that finds no other verdict. -/
theorem settle_inv (inferable : g.Inferable) (at? : g.rules[i]? = some r)
    (same : s.rules.map Rule.name = g.ruleNames) (inv : Inv g (r.name :: active) u)
    (idle : r.name ∉ active) (leads : ∀ a ∈ active, g.Leads a r.name) (answered : Answered u r.body)
    {v : Verdict} (first : (r.body.judge (value u)).verdict = v)
    (run : expr (answer { rules := s.rules } (ofIndex (depth + 1))) r.body t =
      ((r.body.judge (value u), .ok (some v)), u)) :
    ∃ body, settle (answer { rules := s.rules } (ofIndex (depth + 1))) i r maxRevisits r.body (some .sometimes) t =
      (.ok (some v), put i body v u) ∧ Inv g active (put i body v u) := by
  have member := List.mem_of_getElem? at?
  have before : value u r.name = .sometimes := by
    simp [value_eq, inv.opened inferable.names at? (by simp)]
  by_cases unsure : v = .sometimes
  · subst unsure
    have still : Function.update (value u) r.name .sometimes = value u := by
      rw [← before, Function.update_eq_self]
    have closed := close_inv inferable at? inv idle leads answered first (by rwa [still])
    rw [still] at closed
    exact ⟨_, settle_done run, closed⟩
  · obtain ⟨w, after⟩ : ∃ w, put i (r.body.judge (value u)) v u = w := ⟨_, rfl⟩
    have names : w.rules.map Rule.name = g.ruleNames := by rw [← after, put_names, inv.names]
    have stored : known w = Function.update (known u) r.name (some v) := by
      rw [← after, known_put_place inv.names inferable.names at?]
    have values := value_update stored
    have still : Answered w r.body := answered.imp fun name settled => by
      unfold Settled
      rw [names, ← inv.names, stored, Function.update_apply]
      split
      · exact .inl rfl
      · exact settled
    have more (name : Text) : (value u name).Below (value w name) := by
      rw [values, Function.update_apply]
      split
      · rename_i own
        exact .inl (own ▸ before)
      · exact .refl _
    have last := Expr.judge_stays (inferable.native r member) more first unsure
    have again := expr_stored depth inferable member same names still (value u)
    rw [last, values] at again
    rw [values] at last
    refine ⟨_, (settle_again run (by simpa using unsure)).trans ?_,
      close_inv inferable at? inv idle leads answered first last⟩
    rw [after, settle_done again, ← after, put_put]

/-- A rule is solved where its references can be. -/
theorem solves (depth : Nat) (inferable : g.Inferable) (distinct : g.Distinct active)
    (deep : g.rules.length < depth + active.length) : Solves g depth active := by
  induction depth generalizing active with
  | zero =>
    have bound := distinct.length_le
    omega
  | succ depth ih =>
    intro i r s at? inv leads
    have names := inferable.names
    obtain ⟨q, here, stage⟩ := inv.rule i r at?
    have now := known_place inv.names names at? here
    cases stored : q.verdict with
    | some v => exact ⟨v, s, solve_stored here stored, .refl s, inv, now.trans stored⟩
    | none =>
      cases stage with
      | opened | solved => cases stored
      | fresh idle =>
        rw [stored] at now
        have member := List.mem_of_getElem? at?
        have further := distinct.cons (List.mem_map_of_mem member) idle
        have bound := further.length_le
        simp only [List.length_cons] at bound
        obtain ⟨depth, rfl⟩ := Nat.exists_eq_add_one.mpr (show 0 < depth by omega)
        have below := ih further (by simp only [List.length_cons]; omega)
        have opened : Inv g (r.name :: active) (put i r.body .sometimes s) :=
          put_inv inv names at? (fun w known => by simp [now] at known)
            (fun name other => by simp [other]) (.opened (by simp)) fun _ _ => .inl rfl
        obtain ⟨u, run, keeps, inv', answered⟩ := expr_rounds (inferable.native r member)
          (answers inferable below member leads inv.names) _ opened
        obtain ⟨body, settled, closed⟩ :=
          settle_inv inferable at? inv.names inv' idle leads answered rfl (run ())
        refine ⟨_, _, (solve_open here stored).trans settled,
          keeps_solving inv.names inv'.names names at? now keeps, closed, ?_⟩
        rw [known_put_place inv'.names names at?, Function.update_self]

end Solving

/-! ## The whole grammar -/

section Whole

variable {g : Grammar}

theorem start_inv (inferable : g.Inferable) : Inv g [] ⟨g.rules, []⟩ := by
  have unknown (name : Text) : known ⟨g.rules, []⟩ name = none := by
    change (g.find? name).bind Rule.verdict = none
    cases found : g.find? name with
    | none => rfl
    | some r => exact inferable.fresh r (List.mem_of_find?_eq_some found)
  refine ⟨rfl, rfl, fun i r at? => ⟨r, at?, .fresh (by simp)⟩, fun ofRule fixed name v stored => ?_⟩
  simp [unknown] at stored

theorem solveFrom_solves (inferable : g.Inferable) (count index : Nat) (s : Progress) (inv : Inv g [] s)
    (whole : index + count = g.rules.length)
    (before : ∀ i < index, ∀ r, g.rules[i]? = some r → Settled s r.name) :
    ∃ s', solveFrom (g.rules.length + 1) count index s = (none, s') ∧ Inv g [] s' ∧
      ∀ r ∈ g.rules, Settled s' r.name := by
  induction count generalizing index s with
  | zero =>
    refine ⟨s, rfl, inv, fun r member => ?_⟩
    obtain ⟨i, at?⟩ := List.mem_iff_getElem?.mp member
    exact before i (by have := (List.getElem?_eq_some_iff.mp at?).1; omega) r at?
  | succ count ih =>
    have at? : g.rules[index]? = some _ := List.getElem?_eq_getElem (by omega)
    obtain ⟨v, t, run, keeps, inv', stored⟩ :=
      solves (g.rules.length + 1) inferable .nil (by simp) index _ s at? inv (by simp)
    obtain ⟨s', runs, final⟩ := ih (index + 1) t inv' (by omega) fun i earlier r place => by
      rcases Nat.lt_succ_iff_lt_or_eq.mp earlier with earlier | rfl
      · exact (keeps _ (before i earlier r place)).1
      · obtain rfl := Option.some.inj (at?.symm.trans place)
        exact .of_known stored
    refine ⟨s', ?_, final⟩
    unfold solveFrom
    simp only [bind, StateT.bind, run]
    exact runs

end Whole

end Matching

/-- `rules` are those of the grammar with their verdicts. -/
structure Grammar.Infers (g : Grammar) (rules : List Rule) : Prop where
  length : rules.length = g.rules.length
  rule : ∀ (i : Nat) (r : Rule), g.rules[i]? = some r → ∃ ofRule, rules[i]? = some (r.judged ofRule) ∧
    r.body.Refers fun name => ({ g with rules } : Grammar).known name = some (ofRule name) ∨
      ofRule name = .sometimes ∧ name ≠ r.name ∧ g.Leads name r.name
  least : ∀ ofRule, g.IsFixpoint ofRule → ∀ name v, ({ g with rules } : Grammar).known name = some v →
    v.Below (ofRule name)

namespace Matching

variable {g : Grammar}

/-- Other annotations of the same rule. -/
def Annotates (r r' : Rule) : Prop :=
  r' = { r with body := r'.body, verdict := r'.verdict } ∧ Expr.Like id r.body r'.body

theorem annotates_judged (r : Rule) (ofRule : Text → Verdict) : Annotates r (r.judged ofRule) :=
  ⟨rfl, Expr.judge_like _⟩

/-- Inference solves all rules. It finds nothing and meets no fault. -/
theorem annotate_infers (inferable : g.Inferable) :
    ∃ rules, annotate g = ({ g with rules }, [], none) ∧ g.Infers rules := by
  obtain ⟨s, run, inv, all⟩ := solveFrom_solves inferable g.rules.length 0 _ (start_inv inferable)
    (by simp) (by simp)
  refine ⟨s.rules, ?_, inv.length, fun i r at? => ?_, inv.least⟩
  · unfold annotate
    simp only [StateT.run, run, inv.found]
  · obtain ⟨q, here, stage⟩ := inv.rule i r at?
    cases stage with
    | opened busy => simp at busy
    | fresh =>
      have member := List.mem_of_getElem? at?
      obtain ⟨v, stored⟩ := (all r member).stored inv.names at?
      rw [known_place inv.names inferable.names at? here, inferable.fresh r member] at stored
      cases stored
    | solved idle right => exact ⟨_, here, right.imp fun name => Or.imp_left And.left⟩

end Matching

namespace Grammar.Infers

variable {g : Grammar} {rules : List Rule} (inferred : g.Infers rules)

include inferred

theorem of_mem {r' : Rule} (member : r' ∈ rules) : ∃ r ∈ g.rules, ∃ ofRule, r' = r.judged ofRule ∧
    r.body.Refers fun name => ({ g with rules } : Grammar).known name = some (ofRule name) ∨
      ofRule name = .sometimes ∧ name ≠ r.name ∧ g.Leads name r.name := by
  obtain ⟨i, here⟩ := List.mem_iff_getElem?.mp member
  have bound : i < g.rules.length := inferred.length ▸ (List.getElem?_eq_some_iff.mp here).1
  obtain ⟨ofRule, there, refers⟩ := inferred.rule i _ (List.getElem?_eq_getElem bound)
  exact ⟨_, List.getElem_mem bound, ofRule, Option.some.inj (here.symm.trans there), refers⟩

theorem annotates : List.Forall₂ Matching.Annotates g.rules rules := by
  refine List.forall₂_iff_get.mpr ⟨inferred.length.symm, fun i bound bound' => ?_⟩
  obtain ⟨ofRule, here, -⟩ := inferred.rule i _ (List.getElem?_eq_getElem bound)
  obtain ⟨_, same⟩ := List.getElem?_eq_some_iff.mp here
  simp only [List.get_eq_getElem, same]
  exact Matching.annotates_judged _ _

/-- Every rule carries the verdict of its body, and all nodes carry what is concluded for them. -/
theorem carries (inferable : g.Inferable) {r : Rule} (member : r ∈ rules) :
    r.verdict = some r.body.verdict ∧ r.body.Everywhere (Expr.Carries fun name v =>
      ({ g with rules } : Grammar).known name = some v ∨
        v = .sometimes ∧ name ≠ r.name ∧ g.Leads name r.name) := by
  obtain ⟨q, before, ofRule, rfl, refers⟩ := inferred.of_mem member
  exact ⟨rfl, Expr.judge_carries (inferable.native q before) refers⟩

theorem judged (inferable : g.Inferable) : ({ g with rules } : Grammar).Judged := by
  intro r member
  obtain ⟨stored, carries⟩ := inferred.carries inferable member
  refine ⟨_, stored, .inr carries.here.info, carries.mono fun e here => ?_⟩
  cases e with
  | ruleRef info name =>
    obtain ⟨v, given, right⟩ := here
    exact ⟨v, given, right.symm.imp_left And.left⟩
  | _ => exact here

end Grammar.Infers

end PegCompiler
