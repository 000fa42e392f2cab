import PegCompiler.Proofs.Check.Transfer
import PegCompiler.Proxy

/-!
Redirecting references. In a tree that a text gives, `Proxy.redirect` renames the references to the
proxy and changes nothing else (`Proxy.redirect_textual`). Resolving all proxies of an accepted
grammar leads to it by steps of which each succeeds the one before (`Proxy.resolve_descends`), and
nothing is found on the way that a stage would not accept.
-/

namespace PegCompiler

namespace Grammar

/-- `h` comes from `g` by passes that keep what the checks established. -/
inductive Descends (g : Grammar) : Grammar → Prop
  | refl : Descends g g
  | step {h k : Grammar} {rename : Text → Text} :
    Descends g h → Succeeds rename h k → Descends g k

theorem Descends.accepted {g h : Grammar} (descends : Descends g h) (accepted : g.Accepted) :
    h.Accepted := by
  induction descends with
  | refl => exact accepted
  | step _ succeeds ih => exact ih.succeeds succeeds

end Grammar

namespace Proxy

open Trail

variable {proxy target : Text}

/-- The target in the place of the proxy. -/
def instead (proxy target name : Text) : Text := if name = proxy then target else name

/-- What a redirection does where it meets no fault. -/
def Redirects (proxy target : Text) (e : Expr) (result : Expr × Trail Diagnostic) : Prop :=
  Expr.Like (instead proxy target) e result.1 ∧ result.2.IsClear

theorem fault?_of_isClear {trail : Trail Diagnostic} (h : trail.IsClear) : trail.fault? = none := by
  have := (Pass.checked_isClear (g := { rules := [] })).mpr h
  simpa [Pass.checked, fault?] using this.failure

theorem redirectAll_textual {es : List Expr}
    (each : ∀ e ∈ es, Redirects proxy target e (redirect proxy target e)) :
    Expr.LikeAll (instead proxy target) es (redirectAll proxy target es).1 ∧
      (redirectAll proxy target es).2.IsClear := by
  induction es with
  | nil => exact ⟨rfl, isClear_nil⟩
  | cons e rest ih =>
    obtain ⟨like, clear⟩ := each e (by simp)
    obtain ⟨others, found⟩ := ih fun c hc => each c (by simp [hc])
    simp only [redirectAll, fault?_of_isClear clear, Option.isSome_none, Bool.false_eq_true,
      ↓reduceIte]
    exact ⟨⟨_, _, rfl, like, others⟩, isClear_append.mpr ⟨clear, found⟩⟩

variable (proxy target) in
theorem redirect_textual (e : Expr) (textual : e.Textual) :
    Redirects proxy target e (redirect proxy target e) := by
  induction e using Expr.byChildren with
  | node e ih =>
    have below : ∀ c ∈ e.children, Redirects proxy target c (redirect proxy target c) :=
      fun c hc => ih c hc (textual.child hc)
    cases e with
    | named | foreign => exact absurd textual.here id
    | literal | charClass | any | predicate => exact ⟨⟨_, rfl⟩, isClear_nil⟩
    | ruleRef info name =>
      unfold redirect
      by_cases same : name = proxy
      · simp only [same, ↓reduceIte]
        refine ⟨⟨info, by simp [instead]⟩, ?_⟩
        simp [IsClear, Diagnostic.IsSevere, Diagnostic.severity, Finding.severity]
      · simp only [same, ↓reduceIte]
        exact ⟨⟨info, by simp [instead, same]⟩, isClear_nil⟩
    | sequence info es | choice info es =>
      obtain ⟨like, clear⟩ := redirectAll_textual below
      exact ⟨⟨_, _, rfl, like⟩, clear⟩
    | labeled info label at? auto body | unary info operator body | action info code at? body =>
      obtain ⟨like, clear⟩ := below body (by simp [Expr.children])
      exact ⟨⟨_, _, rfl, like⟩, clear⟩
    | range info min max body delimiter =>
      cases delimiter with
      | none =>
        obtain ⟨like, clear⟩ := below body (by simp [Expr.children])
        exact ⟨⟨_, _, rfl, like⟩, clear⟩
      | some separator =>
        obtain ⟨like, clear⟩ := below body (by simp [Expr.children])
        obtain ⟨between, before⟩ := below separator (by simp [Expr.children])
        simp only [redirect, fault?_of_isClear before, Option.isSome_none, Bool.false_eq_true,
          ↓reduceIte]
        exact ⟨⟨_, _, _, rfl, like, between⟩, isClear_append.mpr ⟨before, clear⟩⟩

variable (proxy target) in
theorem redirect_body {e : Expr} (body : Rule.Body e) :
    Redirects proxy target e (redirect proxy target e) := by
  cases body with
  | plain textual => exact redirect_textual proxy target e textual
  | displayed textual =>
    obtain ⟨like, clear⟩ := redirect_textual proxy target _ textual
    exact ⟨⟨_, _, rfl, like⟩, clear⟩

/-- The rules with their bodies redirected, and nothing else changed. -/
def Redirected (proxy target : Text) (before after : List Rule) : Prop :=
  after.length = before.length ∧ ∀ (i : Nat) (r : Rule), before[i]? = some r → ∃ body,
    after[i]? = some { r with body } ∧ Expr.Like (instead proxy target) r.body body

variable (proxy target) in
theorem redirectRules_textual {rules : List Rule} (each : ∀ r ∈ rules, Rule.Body r.body) :
    Redirected proxy target rules (redirectRules proxy target rules).1 ∧
      (redirectRules proxy target rules).2.IsClear := by
  induction rules with
  | nil => exact ⟨⟨rfl, by simp⟩, isClear_nil⟩
  | cons r rest ih =>
    obtain ⟨like, clear⟩ := redirect_body proxy target (each r (by simp))
    obtain ⟨⟨same, others⟩, found⟩ := ih fun c hc => each c (by simp [hc])
    simp only [redirectRules, fault?_of_isClear clear, Option.isSome_none, Bool.false_eq_true,
      ↓reduceIte]
    refine ⟨⟨by simp [same], fun i s at? => ?_⟩, isClear_append.mpr ⟨clear, found⟩⟩
    cases i with
    | zero =>
      obtain rfl : r = s := by simpa using at?
      exact ⟨_, rfl, like⟩
    | succ i => exact others i s (by simpa using at?)

variable {g : Grammar} {rules after : List Rule}

namespace Redirected

theorem names (h : Redirected proxy target rules after) :
    after.map Rule.name = rules.map Rule.name := by
  refine List.ext_getElem? fun i => ?_
  rw [List.getElem?_map, List.getElem?_map]
  cases at? : rules[i]? with
  | none =>
    have : after[i]? = none := by
      rw [List.getElem?_eq_none_iff] at at? ⊢
      exact h.1 ▸ at?
    rw [this]
  | some r =>
    obtain ⟨body, found, -⟩ := h.2 i r at?
    rw [found]
    rfl

/-- Every rule is one of before with another body. -/
theorem at? (h : Redirected proxy target rules after) {i : Nat} {s : Rule}
    (found : after[i]? = some s) :
    ∃ r, rules[i]? = some r ∧ ∃ body, s = { r with body } ∧
      Expr.Like (instead proxy target) r.body body := by
  obtain ⟨hi, rfl⟩ := List.getElem?_eq_some_iff.mp found
  have hi' : i < rules.length := h.1 ▸ hi
  have at? : rules[i]? = some rules[i] := List.getElem?_eq_getElem hi'
  obtain ⟨body, same, like⟩ := h.2 i _ at?
  exact ⟨_, at?, body, Option.some.inj (found.symm.trans same), like⟩

theorem mem (h : Redirected proxy target rules after) {s : Rule} (member : s ∈ after) :
    ∃ r ∈ rules, ∃ body, s = { r with body } ∧ Expr.Like (instead proxy target) r.body body := by
  obtain ⟨i, found⟩ := List.mem_iff_getElem?.mp member
  obtain ⟨r, at?, rest⟩ := h.at? found
  exact ⟨r, List.mem_of_getElem? at?, rest⟩

end Redirected

/-- The expression refers to no rule called `name`. -/
def Avoids (name : Text) : Expr → Prop
  | .ruleRef _ other => other ≠ name
  | _ => True

/-- A proxy does not stand for itself. -/
theorem target_ne (accepted : g.Accepted) {r : Rule} (member : r ∈ g.rules) {info : Info}
    (only : r.body = .ruleRef info target) : target ≠ r.name := by
  have irrefl : ∀ name, Acc g.LeftCall name → ¬g.LeftCall name name := by
    intro name acc
    induction acc with
    | intro name _ ih => exact fun call => ih name call call
  rintro rfl
  refine irrefl r.name (accepted.acyclic r.name) ⟨r, Grammar.find?_of_mem accepted.names member, ?_⟩
  rw [only]
  exact .here

/-- Redirecting the references to a proxy leads to a successor. -/
theorem Redirected.succeeds (accepted : g.Accepted) {r : Rule} (member : r ∈ g.rules) {info : Info}
    (only : r.body = .ruleRef info target) (h : Redirected r.name target g.rules after) :
    Grammar.Succeeds (instead r.name target) g { g with rules := after } := by
  have found := Grammar.find?_of_mem accepted.names member
  have defined : ∀ name, g.defines name = true →
      ({ g with rules := after } : Grammar).defines name = true := by
    intro name defines
    obtain ⟨s, target⟩ := Option.isSome_iff_exists.mp defines
    have named : name ∈ after.map Rule.name := by
      rw [h.names, ← Grammar.find?_name target]
      exact List.mem_map_of_mem (List.mem_of_find?_eq_some target)
    obtain ⟨t, ht, rfl⟩ := List.mem_map.mp named
    simpa [Grammar.defines, Grammar.find?] using ⟨t, ht, rfl⟩
  have ofTarget : g.defines target = true := by
    have := (accepted.resolves r member).here
    rwa [only] at this
  constructor
  · intro s hs
    obtain ⟨r, hr, body, rfl, like⟩ := h.mem hs
    exact ⟨r, hr, rfl, like⟩
  · simpa [Grammar.ruleNames, h.names] using accepted.names
  · intro s hs
    obtain ⟨t, ht, body, rfl, like⟩ := h.mem hs
    refine like.everywhere (fun e f like here => ?_) (accepted.resolves t ht)
    cases f with
    | ruleRef info name =>
      obtain ⟨before, _, rfl, rfl⟩ := like.of_ruleRef
      refine defined _ ?_
      unfold instead
      split
      · exact ofTarget
      · exact here
    | _ => trivial
  · intro name
    by_cases same : name = r.name
    · subst same
      exact .inr ⟨r, info, found, by simpa [instead] using only⟩
    · exact .inl (by simp [instead, same])
  · intro name
    have apart := target_ne accepted member only
    unfold instead
    split <;> simp_all

/-- Behind a redirection nothing refers to the proxy, nor to what nothing referred to before. -/
theorem Redirected.avoids (accepted : g.Accepted) {r : Rule} (member : r ∈ g.rules) {info : Info}
    (only : r.body = .ruleRef info target) (h : Redirected r.name target g.rules after)
    {name : Text} (before : name = r.name ∨ ∀ s ∈ g.rules, s.body.Everywhere (Avoids name)) :
    ∀ s ∈ after, s.body.Everywhere (Avoids name) := by
  intro s hs
  obtain ⟨t, ht, body, rfl, like⟩ := h.mem hs
  have apart := target_ne accepted member only
  rcases before with rfl | before
  · refine like.everywhere (P := fun _ => True) (fun e f like _ => ?_) (.of_forall (by simp) _)
    cases f with
    | ruleRef info name =>
      obtain ⟨before, _, rfl, rfl⟩ := like.of_ruleRef
      change instead r.name target before ≠ r.name
      unfold instead
      split
      · exact apart
      · assumption
    | _ => trivial
  · have ofTarget : target ≠ name := by
      have := (before r member).here
      rwa [only] at this
    refine like.everywhere (fun e f like here => ?_) (before t ht)
    cases f with
    | ruleRef info other =>
      obtain ⟨before, _, rfl, rfl⟩ := like.of_ruleRef
      change instead r.name target before ≠ name
      unfold instead
      split
      · exact ofTarget
      · exact here
    | _ => trivial

/-- A rule that is a single reference. -/
def isProxy (r : Rule) : Bool :=
  match r.body with
  | .ruleRef .. => true
  | _ => false

theorem isProxy_iff {r : Rule} : isProxy r = true ↔ ∃ info name, r.body = .ruleRef info name := by
  unfold isProxy
  split
  · rename_i info name same
    simp [same]
  · rename_i other
    simpa using fun info name same => other info name same

/-- What is done where a rule is looked at: nothing, or its references are redirected. -/
theorem resolveFrom_step (startRules : List Value) (textual : ∀ r ∈ rules, Rule.Body r.body)
    {index : Nat} {r : Rule} (at? : rules[index]? = some r) (count : Nat) (removed : List Nat) :
    (isProxy r = false ∧ resolveFrom startRules (count + 1) index removed rules =
      resolveFrom startRules count (index + 1) removed rules) ∨
    ∃ info target after found rest, r.body = .ruleRef info target ∧
      redirectRules r.name target rules = (after, found) ∧
      Redirected r.name target rules after ∧ found.IsClear ∧
      rest = resolveFrom startRules count (index + 1)
        (if startRules.any (·.same (.text r.name)) then removed else index :: removed) after ∧
      resolveFrom startRules (count + 1) index removed rules =
        (rest.1, rest.2.1, found ++ rest.2.2) := by
  have body := textual r (List.mem_of_getElem? at?)
  rw [resolveFrom]
  simp only [at?]
  cases proxy : isProxy r with
  | false =>
    have none : target? r = .ok none := by
      unfold target?
      split
      · rename_i info name same
        rw [isProxy_iff.mpr ⟨info, name, same⟩] at proxy
        cases proxy
      · rename_i nothing
        rw [nothing] at body
        cases body with
        | plain textual => exact absurd textual.here id
      · rfl
    exact .inl ⟨rfl, by rw [none]⟩
  | true =>
    obtain ⟨info, target, only⟩ := isProxy_iff.mp proxy
    obtain ⟨redirected, clear⟩ := redirectRules_textual r.name target textual
    refine .inr ⟨info, target, _, _, _, only, rfl, redirected, clear, rfl, ?_⟩
    simp only [target?, only, fault?_of_isClear clear, Option.isSome_none, Bool.false_eq_true,
      ↓reduceIte]

/-- How far resolution has come: the grammar descends from the first one, nothing refers to the
rules that are to go, and no pass has annotated a rule. -/
structure Resolving (g : Grammar) (rules : List Rule) (removed : List Nat) : Prop where
  descends : g.Descends { g with rules }
  avoids : ∀ i ∈ removed, ∀ r, rules[i]? = some r →
    ∀ s ∈ rules, s.body.Everywhere (Avoids r.name)
  fresh : ∀ r ∈ rules, r.verdict = none ∧ r.words = none

theorem resolveFrom_resolving (accepted : g.Accepted) (startRules : List Value)
    (count index : Nat) (removed : List Nat) (h : Resolving g rules removed) :
    Resolving g (resolveFrom startRules count index removed rules).1
        (resolveFrom startRules count index removed rules).2.1 ∧
      (resolveFrom startRules count index removed rules).2.2.IsClear := by
  induction count generalizing index removed rules with
  | zero => exact ⟨h, isClear_nil⟩
  | succ count ih =>
    cases at? : rules[index]? with
    | none =>
      simp only [resolveFrom, at?]
      exact ⟨h, isClear_nil⟩
    | some r =>
      have here := h.descends.accepted accepted
      have member : r ∈ rules := List.mem_of_getElem? at?
      rcases resolveFrom_step startRules here.textual at? count removed with
        ⟨-, step⟩ | ⟨info, target, after, found, rest, only, -, redirected, clear, rfl, step⟩
      · rw [step]
        exact ih (index + 1) removed h
      · have next : Resolving g after
            (if startRules.any (·.same (.text r.name)) then removed else index :: removed) := by
          refine ⟨h.descends.step (redirected.succeeds here member only), fun i hi s hs => ?_,
            fun s hs => ?_⟩
          · obtain ⟨t, ht, body, rfl, -⟩ := redirected.at? hs
            refine redirected.avoids here member only ?_
            have either : i = index ∨ i ∈ removed := by
              split at hi
              · exact .inr hi
              · exact List.mem_cons.mp hi
            rcases either with rfl | hi
            · exact .inl (by simp_all)
            · exact .inr (h.avoids i hi t ht)
          · obtain ⟨t, ht, body, rfl, -⟩ := redirected.mem hs
            exact h.fresh t ht
        obtain ⟨further, others⟩ := ih (index + 1) _ next
        rw [step]
        exact ⟨further, isClear_append.mpr ⟨clear, others⟩⟩

theorem mem_drop {removed : List Nat} {r : Rule} :
    r ∈ drop removed rules ↔ ∃ i, rules[i]? = some r ∧ i ∉ removed := by
  simp [drop, List.mem_zipIdx_iff_getElem?]

/-- Rules to which nothing refers can go. -/
theorem Resolving.drop {removed : List Nat} (accepted : g.Accepted)
    (h : Resolving g rules removed) :
    Grammar.Succeeds id { g with rules } { g with rules := drop removed rules } := by
  have here := h.descends.accepted accepted
  constructor
  · intro s hs
    obtain ⟨i, at?, -⟩ := mem_drop.mp hs
    exact ⟨s, List.mem_of_getElem? at?, rfl, Expr.Like.refl s.body⟩
  · refine List.Nodup.sublist ?_ here.names
    refine List.Sublist.map _ ?_
    have sublist := (List.filter_sublist (p := fun entry : Rule × Nat => !removed.contains entry.2)
      (l := rules.zipIdx)).map Prod.fst
    rwa [List.zipIdx_map_fst] at sublist
  · intro s hs
    obtain ⟨i, at?, -⟩ := mem_drop.mp hs
    have member := List.mem_of_getElem? at?
    have avoids : s.body.Everywhere fun e => ∀ gone : { r // ∃ i ∈ removed, rules[i]? = some r },
        Avoids gone.1.name e :=
      .all fun gone => by
        obtain ⟨r, i, hi, at?⟩ := gone
        exact h.avoids i hi r at? s member
    refine ((here.resolves s member).and avoids).mono fun e both => ?_
    cases e with
    | ruleRef info name =>
      obtain ⟨target, found⟩ := Option.isSome_iff_exists.mp both.1
      obtain ⟨j, hj⟩ := List.mem_iff_getElem?.mp (List.mem_of_find?_eq_some found)
      have same := Grammar.find?_name found
      have stays : j ∉ removed := fun gone => both.2 ⟨target, j, gone, hj⟩ same.symm
      simpa [Grammar.Resolves, Grammar.defines, Grammar.find?] using
        ⟨target, mem_drop.mpr ⟨j, hj, stays⟩, same⟩
    | _ => trivial
  · exact fun _ => .inl rfl
  · exact fun _ => rfl

/-- Resolving the proxies of an accepted grammar finds nothing severe and leads to a grammar that
descends from it, without annotations. -/
theorem resolve_descends (accepted : g.Accepted)
    (fresh : ∀ r ∈ g.rules, r.verdict = none ∧ r.words = none) (startRules : List Value) :
    (resolve g startRules).2.IsClear ∧ g.Descends (resolve g startRules).1 ∧
      ∀ r ∈ (resolve g startRules).1.rules, r.verdict = none ∧ r.words = none := by
  have start : Resolving g g.rules [] := ⟨.refl, by simp, fresh⟩
  obtain ⟨done, clear⟩ := resolveFrom_resolving accepted startRules g.rules.length 0 [] start
  unfold resolve
  simp only [fault?_of_isClear clear]
  refine ⟨clear, done.descends.step (done.drop accepted), fun r hr => ?_⟩
  obtain ⟨i, at?, -⟩ := mem_drop.mp hr
  exact done.fresh r (List.mem_of_getElem? at?)

end Proxy

end PegCompiler
