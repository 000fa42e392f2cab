import PegCompiler.Proofs.Run.Foresight
import PegCompiler.Proofs.Run.Succession

/-!
What resolving proxies leaves of a grammar. The rules are looked at in their order while references
are redirected; `Scanned` says how things stand at a place: no rule refers to a proxy before it any
more, and those that have to go are known. Of a checked grammar there remain the rules that are no
proxies and the start rules, they refer to no proxies, evaluate to what they did before, and have
nothing left to be resolved (`Proxy.resolve_resolution`).
-/

namespace PegCompiler

namespace Proxy

open Trail

/-- Start rules stay, and so does what is no proxy. -/
def stays (startRules : List Value) (r : Rule) : Bool :=
  !isProxy r || startRules.any (·.same (.text r.name))

/-- The same rule with its references renamed. -/
def Renamed (rename : Text → Text) (r s : Rule) : Prop :=
  ∃ body, s = { r with body } ∧ Expr.Like rename r.body body

namespace Renamed

variable {rename : Text → Text} {r s : Rule}

theorem refl (r : Rule) : Renamed id r r := ⟨r.body, rfl, .refl r.body⟩

theorem name (renamed : Renamed rename r s) : s.name = r.name := by
  obtain ⟨body, rfl, -⟩ := renamed
  rfl

theorem isProxy (renamed : Renamed rename r s) : isProxy s = isProxy r := by
  obtain ⟨body, rfl, like⟩ := renamed
  rw [Bool.eq_iff_iff, isProxy_iff, isProxy_iff]
  constructor
  · rintro ⟨info, name, rfl⟩
    obtain ⟨before, at?, same, -⟩ := like.of_ruleRef
    exact ⟨at?, before, same⟩
  · rintro ⟨info, name, same⟩
    rw [same] at like
    obtain ⟨at?, rfl⟩ := like
    exact ⟨at?, _, rfl⟩

theorem stays (renamed : Renamed rename r s) (startRules : List Value) :
    stays startRules s = stays startRules r := by
  simp only [Proxy.stays, renamed.isProxy, renamed.name]

end Renamed

variable {g : Grammar} {rules : List Rule} {startRules : List Value}

theorem Redirected.renamed {proxy target : Text} {after : List Rule}
    (h : Redirected proxy target rules after) :
    List.Forall₂ (Renamed (instead proxy target)) rules after := by
  rw [List.forall₂_iff_get]
  refine ⟨h.1.symm, fun i before behind => ?_⟩
  obtain ⟨body, found, like⟩ := h.2 i _ (List.getElem?_eq_getElem before)
  exact ⟨body, (List.getElem?_eq_some_iff.mp found).2, like⟩

/-! ## Looking at the rules -/

/-- How things stand when the rules before a place have been looked at. -/
structure Scanned (g : Grammar) (startRules : List Value) (index : Nat) (rules : List Rule)
    (removed : List Nat) : Prop where
  descends : g.Descends { g with rules }
  renamed : ∃ rename, List.Forall₂ (Renamed rename) g.rules rules
  avoids : ∀ i < index, ∀ r, rules[i]? = some r → isProxy r = true →
    ∀ s ∈ rules, s.body.Everywhere (Avoids r.name)
  removed : ∀ i, i ∈ removed ↔ i < index ∧ ∃ r, rules[i]? = some r ∧ stays startRules r = false

namespace Scanned

variable {index : Nat} {removed : List Nat} {r : Rule}

theorem start (g : Grammar) (startRules : List Value) : Scanned g startRules 0 g.rules [] where
  descends := .refl
  renamed := ⟨id, List.forall₂_same.mpr fun r _ => .refl r⟩
  avoids := by simp
  removed := by simp

/-- A rule that is no proxy changes nothing. -/
theorem pass (scanned : Scanned g startRules index rules removed) (at? : rules[index]? = some r)
    (proxy : isProxy r = false) : Scanned g startRules (index + 1) rules removed where
  descends := scanned.descends
  renamed := scanned.renamed
  avoids i before s found isProxy := by
    refine scanned.avoids i (Nat.lt_of_le_of_ne (Nat.le_of_lt_succ before) ?_) s found isProxy
    rintro rfl
    obtain rfl := Option.some.inj (at?.symm.trans found)
    rw [proxy] at isProxy
    cases isProxy
  removed i := by
    rw [scanned.removed i]
    constructor
    · rintro ⟨before, gone⟩
      exact ⟨by omega, gone⟩
    · rintro ⟨before, s, found, goes⟩
      refine ⟨Nat.lt_of_le_of_ne (Nat.le_of_lt_succ before) ?_, s, found, goes⟩
      rintro rfl
      obtain rfl := Option.some.inj (at?.symm.trans found)
      simp [stays, proxy] at goes

/-- Behind a redirection nothing refers to the proxies up to the one looked at. -/
theorem redirect (scanned : Scanned g startRules index rules removed) (accepted : g.Accepted)
    (at? : rules[index]? = some r) {info : Info} {target : Text} (only : r.body = .ruleRef info target)
    {after : List Rule} (h : Redirected r.name target rules after) :
    Scanned g startRules (index + 1) after
      (if startRules.any (·.same (.text r.name)) then removed else index :: removed) := by
  have here := scanned.descends.accepted accepted
  have member : r ∈ rules := List.mem_of_getElem? at?
  have proxy : isProxy r = true := isProxy_iff.mpr ⟨info, target, only⟩
  have renamed := List.forall₂_iff_get.mp h.renamed
  constructor
  · exact scanned.descends.step (h.succeeds here member only)
  · obtain ⟨rename, before⟩ := scanned.renamed
    refine ⟨instead r.name target ∘ rename, ?_⟩
    have both := List.forall₂_iff_get.mp before
    refine List.forall₂_iff_get.mpr ⟨both.1.trans renamed.1, fun i first last => ?_⟩
    obtain ⟨body, same, like⟩ := both.2 i first (both.1 ▸ first)
    obtain ⟨body', same', like'⟩ := renamed.2 i (both.1 ▸ first) last
    rw [same] at same' like'
    exact ⟨body', same', like.trans like'⟩
  · intro i before s found isProxy
    obtain ⟨t, earlier, body, rfl, like⟩ := h.at? found
    refine h.avoids here member only ?_
    by_cases same : i = index
    · subst same
      obtain rfl := Option.some.inj (at?.symm.trans earlier)
      exact .inl rfl
    · refine .inr (scanned.avoids i (by omega) t earlier ?_)
      rwa [Renamed.isProxy ⟨body, rfl, like⟩] at isProxy
  · intro i
    have goes : (∃ s, after[i]? = some s ∧ stays startRules s = false) ↔
        ∃ t, rules[i]? = some t ∧ stays startRules t = false := by
      constructor
      · rintro ⟨s, found, goes⟩
        obtain ⟨t, earlier, body, same, like⟩ := h.at? found
        exact ⟨t, earlier, Renamed.stays ⟨body, same, like⟩ startRules ▸ goes⟩
      · rintro ⟨t, earlier, goes⟩
        obtain ⟨body, found, like⟩ := h.2 i t earlier
        exact ⟨_, found, (Renamed.stays ⟨body, rfl, like⟩ startRules).trans goes⟩
    have asked : (∃ t, rules[index]? = some t ∧ stays startRules t = false) ↔
        startRules.any (·.same (.text r.name)) = false := by
      simp [at?, stays, proxy]
    rw [goes]
    split
    · rename_i start
      rw [scanned.removed i]
      refine and_congr_left fun gone => ⟨fun before => by omega, fun before => ?_⟩
      refine Nat.lt_of_le_of_ne (Nat.le_of_lt_succ before) ?_
      rintro rfl
      rw [asked.mp gone] at start
      cases start
    · rename_i start
      rw [List.mem_cons, scanned.removed i]
      constructor
      · rintro (rfl | ⟨before, gone⟩)
        · exact ⟨Nat.lt_succ_self _, asked.mpr (by simpa using start)⟩
        · exact ⟨by omega, gone⟩
      · rintro ⟨before, gone⟩
        by_cases same : i = index
        · exact .inl same
        · exact .inr ⟨by omega, gone⟩

end Scanned

/-- All rules are looked at. -/
theorem resolveFrom_scanned (accepted : g.Accepted) (count : Nat) {index : Nat} {removed : List Nat}
    (scanned : Scanned g startRules index rules removed) (all : index + count = rules.length) :
    Scanned g startRules rules.length (resolveFrom startRules count index removed rules).1
      (resolveFrom startRules count index removed rules).2.1 := by
  induction count generalizing index removed rules with
  | zero =>
    obtain rfl : index = rules.length := all
    exact scanned
  | succ count ih =>
    obtain ⟨r, at?⟩ : ∃ r, rules[index]? = some r := ⟨_, List.getElem?_eq_getElem (by omega)⟩
    rcases resolveFrom_step startRules
        (scanned.descends.accepted accepted).textual at? count removed with
      ⟨proxy, step⟩ | ⟨info, target, after, found, rest, only, -, redirected, -, rfl, step⟩
    · rw [step]
      exact ih (scanned.pass at? proxy) (by omega)
    · have same : after.length = rules.length := redirected.1
      rw [step, ← same]
      exact ih (scanned.redirect accepted at? only redirected) (by omega)

theorem drop_eq_filter {removed : List Nat} {p : Rule → Bool}
    (h : ∀ i r, rules[i]? = some r → (i ∈ removed ↔ p r = false)) :
    drop removed rules = rules.filter p := by
  unfold drop
  have pairs : rules.zipIdx.filter (fun (entry : Rule × Nat) => !removed.contains entry.2) =
      rules.zipIdx.filter (p ∘ Prod.fst) := by
    refine List.filter_congr fun entry member => ?_
    have here := h entry.2 entry.1 (List.mem_zipIdx_iff_getElem?.mp member)
    cases holds : p entry.1 <;> simp [holds, here]
  rw [pairs, ← List.filter_map, List.zipIdx_map_fst]

theorem drop_nil (rules : List Rule) : drop [] rules = rules :=
  (drop_eq_filter (p := fun _ => true) (by simp)).trans (by simp)

/-! ## Nothing left to be resolved -/

section Avoids

variable {proxy target : Text}

theorem redirectAll_avoids {es : List Expr} (each : ∀ e ∈ es, redirect proxy target e = (e, [])) :
    redirectAll proxy target es = (es, []) := by
  induction es with
  | nil => rfl
  | cons e rest ih =>
    simp only [redirectAll, each e (by simp), ih fun c hc => each c (by simp [hc])]
    rfl

/-- Redirecting references that there are not changes nothing. -/
theorem redirect_avoids {e : Expr} (body : Rule.Body e) (avoids : e.Everywhere (Avoids proxy)) :
    redirect proxy target e = (e, []) := by
  have inner (e : Expr) (textual : e.Textual) (avoids : e.Everywhere (Avoids proxy)) :
      redirect proxy target e = (e, []) := by
    induction e using Expr.byChildren with
    | node e ih =>
      have below : ∀ c ∈ e.children, redirect proxy target c = (c, []) :=
        fun c hc => ih c hc (textual.child hc) (avoids.child hc)
      cases e with
      | named | foreign => exact absurd textual.here id
      | literal | charClass | any | predicate => rfl
      | ruleRef info name =>
        have other : name ≠ proxy := avoids.here
        simp only [redirect, if_neg other]
      | sequence info es | choice info es =>
        have elements : redirectAll proxy target es = (es, []) := redirectAll_avoids below
        simp only [redirect, elements]
      | labeled info label at? auto body | unary info operator body | action info code at? body =>
        simp only [redirect, below body (by simp [Expr.children])]
      | range info min max body delimiter =>
        cases delimiter with
        | none => simp only [redirect, below body (by simp [Expr.children])]
        | some separator =>
          simp only [redirect, below body (by simp [Expr.children]),
            below separator (by simp [Expr.children])]
          rfl
  cases body with
  | plain textual => exact inner e textual avoids
  | displayed textual =>
    simp only [redirect, inner _ textual (avoids.child (by simp [Expr.children]))]

theorem redirectRules_avoids (textual : ∀ r ∈ rules, Rule.Body r.body)
    (avoids : ∀ r ∈ rules, r.body.Everywhere (Avoids proxy)) :
    redirectRules proxy target rules = (rules, []) := by
  induction rules with
  | nil => rfl
  | cons r rest ih =>
    have others := ih (fun c hc => textual c (by simp [hc])) fun c hc => avoids c (by simp [hc])
    simp only [redirectRules, redirect_avoids (textual r (by simp)) (avoids r (by simp)), others]
    rfl

end Avoids

/-- Start rules to which nothing refers stay as they are. -/
theorem resolveFrom_again (textual : ∀ r ∈ rules, Rule.Body r.body)
    (avoids : ∀ r ∈ rules, isProxy r = true → ∀ s ∈ rules, s.body.Everywhere (Avoids r.name))
    (stay : ∀ r ∈ rules, stays startRules r = true) (count index : Nat) :
    resolveFrom startRules count index [] rules = (rules, [], []) := by
  induction count generalizing index with
  | zero => rfl
  | succ count ih =>
    cases at? : rules[index]? with
    | none => simp only [resolveFrom, at?]
    | some r =>
      have member : r ∈ rules := List.mem_of_getElem? at?
      rcases resolveFrom_step startRules textual at? count [] with
        ⟨-, step⟩ | ⟨info, target, after, found, rest, only, redirects, -, -, rfl, step⟩
      · rw [step, ih]
      · have proxy : isProxy r = true := isProxy_iff.mpr ⟨info, target, only⟩
        have start : startRules.any (·.same (.text r.name)) = true := by
          simpa [stays, proxy] using stay r member
        rw [redirectRules_avoids textual (avoids r member proxy)] at redirects
        obtain ⟨rfl, rfl⟩ := Prod.mk.inj redirects
        rw [step, if_pos start, ih]
        rfl

/-! ## Checked grammars -/

/-- What resolving proxies makes of a grammar. -/
structure Resolution (g : Grammar) (startRules : List Value) (h : Grammar) : Prop where
  rules : ∃ rename, List.Forall₂ (Renamed rename) (g.rules.filter (stays startRules)) h.rules
  references : ∀ r ∈ h.rules,
    r.body.Refers fun name => ∃ s ∈ h.rules, s.name = name ∧ isProxy s = false
  evaluates : ∀ r ∈ h.rules, ∀ (semantics : Semantics) (state : ParserState), state.Inside →
    (∃ (enough : Nat) (result : Peg.Result),
      (∀ raised, result = .error raised → semantics.MayRaise raised) ∧ ∀ fuel ≥ enough,
        (g.evaluator semantics state).rule fuel r.name state.offset = result ∧
        (h.evaluator semantics state).rule fuel r.name state.offset = result) ∨
    ∀ fuel, (g.evaluator semantics state).rule fuel r.name state.offset = .error .outOfFuel ∧
      (h.evaluator semantics state).rule fuel r.name state.offset = .error .outOfFuel
  again : resolve h startRules = (h, [])

/-- With all rules looked at, those that stay refer to no proxies. -/
theorem Scanned.everywhere {removed : List Nat}
    (scanned : Scanned g startRules rules.length rules removed) {r s : Rule} (member : r ∈ rules)
    (proxy : isProxy r = true) (other : s ∈ rules) : s.body.Everywhere (Avoids r.name) := by
  obtain ⟨i, found⟩ := List.mem_iff_getElem?.mp member
  exact scanned.avoids i (List.getElem?_eq_some_iff.mp found).1 r found proxy s other

theorem Scanned.drop_eq {removed : List Nat}
    (scanned : Scanned g startRules rules.length rules removed) :
    drop removed rules = rules.filter (stays startRules) := by
  refine drop_eq_filter fun i r found => ?_
  rw [scanned.removed i]
  refine ⟨fun ⟨_, s, same, goes⟩ => ?_, fun goes => ?_⟩
  · exact Option.some.inj (found.symm.trans same) ▸ goes
  · exact ⟨(List.getElem?_eq_some_iff.mp found).1, r, found, goes⟩

/-- Resolving the proxies of an accepted grammar, as a scan of its rules. -/
theorem resolve_scanned (accepted : g.Accepted)
    (fresh : ∀ r ∈ g.rules, r.verdict = none ∧ r.words = none) (startRules : List Value) :
    ∃ rules removed, Scanned g startRules rules.length rules removed ∧
      (resolve g startRules).1 = { g with rules := rules.filter (stays startRules) } := by
  obtain ⟨-, clear⟩ := resolveFrom_resolving accepted startRules g.rules.length 0 []
    ⟨.refl, by simp, fresh⟩
  have scanned := resolveFrom_scanned accepted g.rules.length (.start g startRules) (by simp)
  unfold resolve
  generalize resolveFrom startRules g.rules.length 0 [] g.rules = scan at clear scanned ⊢
  obtain ⟨rules, removed, found⟩ := scan
  obtain ⟨rename, renamed⟩ := scanned.renamed
  rw [renamed.length_eq] at scanned
  refine ⟨rules, removed, scanned, ?_⟩
  simp only [fault?_of_isClear clear, scanned.drop_eq]

/-- The names that are left when the proxies are resolved are left before lowering. -/
theorem prepare_names (accepted : g.Accepted)
    (fresh : ∀ r ∈ g.rules, r.verdict = none ∧ r.words = none) (settings : Settings) :
    (g.prepare settings).ruleNames = (resolve g settings.startRules).1.ruleNames := by
  obtain ⟨resolved, marks, verdicts, prepares⟩ := Grammar.exists_prepares settings accepted fresh
  rw [prepares.prepare_eq, prepares.behind.names, prepares.before.names, ← prepares.resolves]
  rfl

/-- A start rule is still there before lowering, proxy or not. -/
theorem prepare_starts (accepted : g.Accepted)
    (fresh : ∀ r ∈ g.rules, r.verdict = none ∧ r.words = none) (settings : Settings) {name : Text}
    (defined : name ∈ g.ruleNames) (starts : .text name ∈ settings.startRules) :
    name ∈ (g.prepare settings).ruleNames := by
  obtain ⟨rules, removed, scanned, resolved⟩ := resolve_scanned accepted fresh settings.startRules
  rw [prepare_names accepted fresh, resolved]
  obtain ⟨r, member, rfl⟩ := List.mem_map.mp defined
  obtain ⟨rename, renamed⟩ := scanned.renamed
  obtain ⟨i, bound, rfl⟩ := List.getElem_of_mem member
  obtain ⟨length, each⟩ := List.forall₂_iff_get.mp renamed
  have same : rules[i].name = g.rules[i].name := (each i bound (length ▸ bound)).name
  refine List.mem_map.mpr ⟨rules[i], List.mem_filter.mpr ⟨List.getElem_mem _, ?_⟩, same⟩
  rw [stays, same, Bool.or_eq_true, List.any_eq_true]
  exact .inr ⟨_, starts, beq_self_eq_true g.rules[i].name⟩

/-- In the end, what is evaluated before and behind the resolution of proxies is the same, or both go on
for ever. -/
theorem resolve_evaluates (accepted : g.Accepted)
    (fresh : ∀ r ∈ g.rules, r.verdict = none ∧ r.words = none) (settings : Settings) {r : Rule}
    (member : r ∈ (resolve g settings.startRules).1.rules) (semantics : Semantics)
    {state : ParserState} (inside : state.Inside) :
    (∃ (enough : Nat) (result : Peg.Result),
      (∀ raised, result = .error raised → semantics.MayRaise raised) ∧ ∀ fuel ≥ enough,
        (g.evaluator semantics state).rule fuel r.name state.offset = result ∧
        ((resolve g settings.startRules).1.evaluator semantics state).rule fuel r.name state.offset =
          result) ∨
    ∀ fuel, (g.evaluator semantics state).rule fuel r.name state.offset = .error .outOfFuel ∧
      ((resolve g settings.startRules).1.evaluator semantics state).rule fuel r.name state.offset =
        .error .outOfFuel := by
  obtain ⟨-, descends, -⟩ := resolve_descends accepted fresh settings.startRules
  have behind := descends.equivalent semantics state accepted
    (Grammar.defines_iff.mpr (List.mem_map_of_mem member)) state.offset
  have grows (h : Grammar) (fuel fuel' : Nat) (more : fuel ≤ fuel') :=
    (h.evaluator semantics state).rule_upto more r.name state.offset
  by_cases ends : ∃ enough,
      (g.evaluator semantics state).rule enough r.name state.offset ≠ .error .outOfFuel
  · obtain ⟨first, ends⟩ := ends
    refine .inl ?_
    generalize came : (g.evaluator semantics state).rule first r.name state.offset = result at ends
    have settled (fuel : Nat) (more : fuel ≥ first) :
        (g.evaluator semantics state).rule fuel r.name state.offset = result := by
      have upto := grows g first fuel more
      rw [came] at upto
      exact (upto.resolve_left ends).symm
    obtain ⟨second, settled'⟩ := behind.settled (grows _) (grows _) settled
    refine ⟨max first second, result, fun raised failed => ?_, fun fuel more =>
      ⟨settled fuel (by omega), settled' fuel (by omega)⟩⟩
    -- what the evaluation of the prepared rule may raise is known
    have ready : Grammar.Preparation settings g := Grammar.preparation accepted fresh
    have known : r.name ∈ (g.prepare settings).ruleNames := by
      rw [prepare_names accepted fresh]
      exact List.mem_map_of_mem member
    obtain ⟨p, there, same⟩ := List.mem_map.mp known
    have before := ready.descends.equivalent semantics state accepted (Grammar.defines_iff.mpr known)
      state.offset
    obtain ⟨third, settled''⟩ := before.settled (grows _) (grows _) settled
    have asSaid := (ready.prepared.rule_endsAs semantics state inside there).foreseen third
    rw [same, settled'' third (Nat.le_refl _), failed] at asSaid
    exact asSaid.resolve_left fun out => ends (failed.trans (congrArg _ out))
  · have never (fuel : Nat) :
        (g.evaluator semantics state).rule fuel r.name state.offset = .error .outOfFuel :=
      not_not.mp fun ended => ends ⟨fuel, ended⟩
    refine .inr fun fuel => ⟨never fuel, ?_⟩
    obtain ⟨more, upto⟩ := behind.back fuel
    exact upto.elim id fun same => same.trans (never more)

/-- Resolving the proxies of a checked grammar finds nothing severe and keeps its meaning. -/
theorem resolve_resolution {settings : Settings} {text : Text} {source : Option Text}
    (read : Grammar.read text source = .ok g)
    (checked : (Stage.check.run settings g).failure = none) (startRules : List Value) :
    (resolve g startRules).2.IsClear ∧ Resolution g startRules (resolve g startRules).1 := by
  have accepted := Grammar.accepted_of_read read checked
  have fresh := Grammar.fresh_of_read read
  obtain ⟨clear, descends, -⟩ := resolve_descends accepted fresh startRules
  obtain ⟨rules, removed, scanned, resolved⟩ := resolve_scanned accepted fresh startRules
  have evaluates := fun r member semantics state => @resolve_evaluates g accepted fresh
    { settings with startRules } r member semantics state
  have left := descends.accepted accepted
  rw [resolved] at evaluates left ⊢
  have kept : ∀ r ∈ rules.filter (stays startRules), r ∈ rules ∧ stays startRules r = true :=
    fun r member => List.mem_filter.mp member
  refine ⟨clear, ?_, fun r member => ?_, evaluates, ?_⟩
  · obtain ⟨rename, renamed⟩ := scanned.renamed
    exact ⟨rename, List.rel_filter (fun r s same => by simp [same.stays startRules]) renamed⟩
  · have avoids : r.body.Everywhere fun e => ∀ proxy : { s // s ∈ rules ∧ isProxy s = true },
        Avoids proxy.1.name e :=
      .all fun proxy => scanned.everywhere proxy.2.1 proxy.2.2 (kept r member).1
    refine ((left.resolves r member).and avoids).mono fun e both => ?_
    cases e with
    | ruleRef info name =>
      obtain ⟨target, found⟩ := Option.isSome_iff_exists.mp both.1
      have there := List.mem_of_find?_eq_some found
      refine ⟨target, there, Grammar.find?_name found, ?_⟩
      cases proxy : isProxy target with
      | false => rfl
      | true =>
        have other : name ≠ target.name := both.2 ⟨target, (kept target there).1, proxy⟩
        exact absurd (Grammar.find?_name found).symm other
    | _ => trivial
  · have again := @resolveFrom_again _ startRules left.textual
      (fun r member proxy s other => scanned.everywhere (kept r member).1 proxy (kept s other).1)
      (fun r member => (kept r member).2) (rules.filter (stays startRules)).length 0
    unfold resolve
    simp only [again, fault?_of_isClear isClear_nil, drop_nil]

/-! A sample: a chain of proxies, the first of which is the rule to start with. -/

def chainText : Text := .ofString "s = p\np = q\nq = 'a' p?"

theorem chain_resolves : ∃ g, Grammar.read chainText none = .ok g ∧
    (Stage.check.run Grammar.plainSettings g).failure = none ∧
    (resolve g [.text (.ofString "s")]).1.ruleNames = [.ofString "s", .ofString "q"] ∧
    Resolution g [.text (.ofString "s")] (resolve g [.text (.ofString "s")]).1 := by
  obtain ⟨g, read, checked, names⟩ := Grammar.exists_of_accepted
    (show (Grammar.accepted? Grammar.plainSettings chainText).any (fun g =>
      (resolve g [.text (.ofString "s")]).1.ruleNames == [.ofString "s", .ofString "q"]) = true by
        decide +kernel)
  exact ⟨g, read, checked, by simpa using names, (resolve_resolution read checked _).2⟩

end Proxy

end PegCompiler
