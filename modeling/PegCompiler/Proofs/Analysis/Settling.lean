import Mathlib.Data.Finset.Card
import Mathlib.Logic.Function.Iterate
import PegCompiler.Compile.Pass
import PegCompiler.Proofs.Analysis.Inference

/-!
Match inference comes to an end on every tree of expressions: rules may refer to each other in a circle
or to rules that are not there, and two rules may have one name. Rules are told apart by their places
here. While a rule is solved, what was stored before stays (`Matching.Later`), so a verdict can change
once at most, from the open one, and nothing is ever given up (`Grammar.matching_ends`).
-/

namespace PegCompiler

namespace Matching

/-- The verdict stored for the rule at a place. -/
def storedAt (s : Progress) (i : Nat) : Option Verdict := s.rules[i]?.bind Rule.verdict

/-- Rules keep their names, and what is stored stays. -/
structure Later (s t : Progress) : Prop where
  names : t.rules.map Rule.name = s.rules.map Rule.name
  stored : ∀ i v, storedAt s i = some v → storedAt t i = some v

/-- What holds throughout. -/
structure Sound (s : Progress) : Prop where
  native : ∀ r ∈ s.rules, r.body.Everywhere Expr.Native
  found : s.found = []

/-- The places of the rules that have no verdict yet. -/
def unsolved (s : Progress) : Finset Nat :=
  (Finset.range s.rules.length).filter (storedAt s · = none)

theorem card_unsolved_le (s : Progress) : (unsolved s).card ≤ s.rules.length :=
  (Finset.card_filter_le _ _).trans_eq (Finset.card_range _)

section Later

variable {s t u : Progress} {i : Nat} {body : Expr} {v : Verdict} {name : Text}

theorem Later.refl (s : Progress) : Later s s := ⟨rfl, fun _ _ => id⟩

theorem Later.trans (h : Later s t) (k : Later t u) : Later s u :=
  ⟨k.names.trans h.names, fun i v stored => k.stored i v (h.stored i v stored)⟩

theorem Later.length (later : Later s t) : t.rules.length = s.rules.length := by
  simpa using congrArg List.length later.names

theorem known_eq (s : Progress) (name : Text) :
    known s name = (({ rules := s.rules } : Grammar).indexOf? name).bind (storedAt s) := by
  simp only [known, Grammar.known, Grammar.find?, Grammar.indexOf?,
    List.find?_eq_bind_findIdx?_getElem?, Option.bind_assoc]
  rfl

theorem indexOf?_congr (same : t.rules.map Rule.name = s.rules.map Rule.name) (name : Text) :
    ({ rules := t.rules } : Grammar).indexOf? name = ({ rules := s.rules } : Grammar).indexOf? name := by
  have place (rules : List Rule) : ({ rules } : Grammar).indexOf? name =
      (rules.map Rule.name).findIdx? (· = name) := by
    rw [List.findIdx?_map]
    rfl
  rw [place, place, same]

/-- Whatever is later keeps what is settled. -/
theorem Later.keeps (later : Later s t) : Keeps s t := by
  intro name settled
  have kept (v : Verdict) : known s name = some v → known t name = some v := by
    rw [known_eq, known_eq, indexOf?_congr later.names, Option.bind_eq_some_iff, Option.bind_eq_some_iff]
    rintro ⟨i, place, stored⟩
    exact ⟨i, place, later.stored i v stored⟩
  rcases settled with settled | undefined
  · obtain ⟨v, stored⟩ := Option.isSome_iff_exists.mp settled
    exact ⟨.of_known (kept v stored), by simp [value_eq, stored, kept v stored]⟩
  · have undefined' : name ∉ t.rules.map Rule.name := later.names ▸ undefined
    exact ⟨.inr undefined', by simp [value_eq, known_eq_none undefined, known_eq_none undefined']⟩

/-- A rule without verdict has got one: fewer are left. -/
theorem Later.fewer (later : Later s t) (inside : i < s.rules.length) (before : storedAt s i = none)
    (after : storedAt t i = some v) : (unsolved t).card < (unsolved s).card := by
  refine Finset.card_lt_card (Finset.ssubset_iff_of_subset ?_ |>.mpr ⟨i, ?_, ?_⟩)
  · intro j left
    simp only [unsolved, Finset.mem_filter, Finset.mem_range, later.length] at left ⊢
    refine ⟨left.1, Option.eq_none_iff_forall_ne_some.mpr fun w stored => ?_⟩
    cases left.2.symm.trans (later.stored j w stored)
  · simp [unsolved, inside, before]
  · simp [unsolved, after]

theorem storedAt_put (inside : i < s.rules.length) :
    storedAt (put i body v s) = Function.update (storedAt s) i (some v) := by
  funext j
  by_cases here : j = i
  · subst here
    simp [storedAt, put_self (List.getElem?_eq_getElem inside)]
  · simp [storedAt, put_of_ne here, here]

/-- The verdict of a rule that had none before is not one that has to stay. -/
theorem Later.put (later : Later s t) (inside : i < s.rules.length) (before : storedAt s i = none) :
    Later s (put i body v t) := by
  refine ⟨by rw [put_names, later.names], fun j w stored => ?_⟩
  have apart : j ≠ i := by
    rintro rfl
    cases before.symm.trans stored
  rw [storedAt_put (later.length.symm ▸ inside), Function.update_of_ne apart]
  exact later.stored j w stored

theorem Sound.put (sound : Sound s) (native : body.Everywhere Expr.Native) : Sound (put i body v s) := by
  refine ⟨fun r member => ?_, sound.found⟩
  obtain ⟨j, at?⟩ := List.mem_iff_getElem?.mp member
  by_cases here : j = i
  · subst here
    cases found : s.rules[j]? with
    | none => simp [Matching.put, found] at at?
    | some q =>
      obtain rfl := Option.some.inj ((put_self found).symm.trans at?)
      exact native
  · rw [put_of_ne here] at at?
    exact sound.native r (List.mem_of_getElem? at?)

/-- Only the first rule with a name can change what is known for it. -/
theorem known_put_at (inside : i < s.rules.length) : known (put i body v s) name =
    if ({ rules := s.rules } : Grammar).indexOf? name = some i then some v else known s name := by
  rw [known_eq, known_eq, indexOf?_congr (t := put i body v s) put_names, storedAt_put inside]
  cases ({ rules := s.rules } : Grammar).indexOf? name with
  | none => rfl
  | some j => simp [Function.update_apply]

/-- The verdict of a rule that was open says more now, and the others say the same. -/
theorem value_put (inside : i < s.rules.length) (opened : storedAt s i = some .sometimes) (name : Text) :
    (value s name).Below (value (put i body v s) name) := by
  rw [value_eq, value_eq, known_put_at inside]
  split
  · rename_i first
    exact .inl (by simp [known_eq, first, opened])
  · exact .refl _

theorem Settled.put (settled : Settled s name) (inside : i < s.rules.length) :
    Settled (put i body v s) name := by
  unfold Settled
  rw [put_names, known_put_at inside]
  split
  · exact .inl rfl
  · exact settled

end Later

/-! ## Solving a rule -/

section Solve

variable {ι : Type} {below : ι → Nat → Infer Inferred} {s t : Progress} {i : Nat}

/-- Each of the solvers gives the rule at place `i` its verdict, unless it has one, and they all end in
the same state. -/
def Settles (solver : ι → Nat → Infer Inferred) (i : Nat) (s : Progress) : Prop :=
  ∃ v t, (∀ j, solver j i s = (.ok (some v), t)) ∧ Later s t ∧ Sound t ∧ storedAt t i = some v ∧
    ((storedAt s i).isSome → t = s)

/-- References are answered where rules are settled. -/
theorem answer_settles (same : t.rules.map Rule.name = s.rules.map Rule.name) (sound : Sound t)
    (each : ∀ k < t.rules.length, Settles below k t) (name : Text) :
    ∃ u, (∀ j, answer { rules := s.rules } (below j) name t = (.ok (some (value u name)), u)) ∧
      Later t u ∧ Sound u ∧ Settled u name ∧ (Settled t name → u = t) := by
  unfold answer
  rw [← indexOf?_congr same]
  cases place : ({ rules := t.rules } : Grammar).indexOf? name with
  | none =>
    have undefined : name ∉ t.rules.map Rule.name := by
      intro defined
      obtain ⟨r, member, rfl⟩ := List.mem_map.mp defined
      simpa using List.findIdx?_eq_none_iff.mp place r member
    refine ⟨t, fun j => ?_, .refl t, sound, .inr undefined, fun _ => rfl⟩
    rw [value_eq, known_eq_none undefined]
    rfl
  | some k =>
    have inside := Grammar.indexOf?_lt place
    obtain ⟨v, u, run, later, sound', stored, still⟩ := each k inside
    have known' : known u name = some v := by
      rw [known_eq, indexOf?_congr later.names, place]
      exact stored
    refine ⟨u, fun j => ?_, later, sound', .of_known known', fun settled => still ?_⟩
    · rw [value_eq, known']
      exact run j
    · have defined : name ∈ t.rules.map Rule.name :=
        List.mem_map.mpr ⟨_, List.getElem_mem inside,
          Grammar.name_of_indexOf? place (List.getElem?_eq_getElem inside)⟩
      have known := settled.resolve_right (not_not.mpr defined)
      rwa [known_eq, place] at known

/-- A round over an expression. It changes nothing where all references are settled. -/
theorem round_settles {e : Expr} (native : e.Everywhere Expr.Native)
    (same : t.rules.map Rule.name = s.rules.map Rule.name) (sound : Sound t)
    (deeper : ∀ p, Later t p → Sound p → ∀ k < p.rules.length, Settles below k p) :
    ∃ u, (∀ j, expr (answer { rules := s.rules } (below j)) e t =
        ((e.judge (value u), .ok (some (e.judge (value u)).verdict)), u)) ∧
      Later t u ∧ Sound u ∧ Answered u e ∧ (Answered t e → u = t) := by
  have answers : e.Refers (Answers (fun p => Later t p ∧ Sound p ∧ (Answered t e → p = t))
      fun j => answer { rules := s.rules } (below j)) := by
    refine Expr.refers_iff.mpr fun name mentions p ⟨later, sound, still⟩ => ?_
    obtain ⟨u, run, later', sound', settled, still'⟩ :=
      answer_settles (later.names.trans same) sound (deeper p later sound) name
    refine ⟨u, run, later'.keeps, ⟨later.trans later', sound', fun answered => ?_⟩, settled⟩
    obtain rfl := still answered
    exact still' (Expr.refers_iff.mp answered name mentions)
  obtain ⟨u, run, -, ⟨later, sound', still⟩, answered⟩ :=
    expr_rounds native answers t ⟨.refl t, sound, fun _ => rfl⟩
  exact ⟨u, run, later, sound', answered, still⟩

/-- A rule settles after one change of its verdict at most, where the rules that it refers to do. -/
theorem solve_settles (revisits : ι → Nat) (sound : Sound s) (inside : i < s.rules.length)
    (deeper : ∀ t, Sound t → t.rules.length = s.rules.length → (unsolved t).card < (unsolved s).card →
      ∀ k < t.rules.length, Settles below k t) :
    Settles (fun j => solve (revisits j + 1) (below j)) i s := by
  have at? := List.getElem?_eq_getElem inside
  cases verdict : s.rules[i].verdict with
  | some v =>
    refine ⟨v, s, fun j => solve_stored at? verdict, .refl s, sound, ?_, fun _ => rfl⟩
    simp [storedAt, at?, verdict]
  | none =>
    have before : storedAt s i = none := by simp [storedAt, at?, verdict]
    have native := sound.native _ (List.getElem_mem inside)
    have fewer {t : Progress} (later : Later s t) {v : Verdict} (stored : storedAt t i = some v) :
        ∀ p, Later t p → Sound p → ∀ k < p.rules.length, Settles below k p := fun p after sound =>
      have all := later.trans after
      deeper p sound all.length (all.fewer inside before (after.stored i v stored))
    -- the rule is opened, and its body is gone over
    have opened : Later s (put i s.rules[i].body .sometimes s) := (Later.refl s).put inside before
    have openT : storedAt (put i s.rules[i].body .sometimes s) i = some .sometimes := by
      simp [storedAt_put inside]
    obtain ⟨u, run, later, sound', answered, -⟩ :=
      round_settles native opened.names (sound.put native) (fewer opened openT)
    have openU := later.stored i .sometimes openT
    have whole := opened.trans later
    have insideU : i < u.rules.length := whole.length.symm ▸ inside
    obtain ⟨v, first⟩ : ∃ v, (s.rules[i].body.judge (value u)).verdict = v := ⟨_, rfl⟩
    rw [first] at run
    have solved (ofRule : Text → Verdict) : Later s (put i (s.rules[i].body.judge ofRule) v u) ∧
        Sound (put i (s.rules[i].body.judge ofRule) v u) ∧
        storedAt (put i (s.rules[i].body.judge ofRule) v u) i = some v :=
      ⟨whole.put inside before, sound'.put (Expr.judge_native native), by simp [storedAt_put insideU]⟩
    by_cases unsure : v = .sometimes
    · subst unsure
      obtain ⟨last, sound, stored⟩ := solved (value u)
      exact ⟨.sometimes, _, fun j => (solve_open at? verdict).trans (settle_done (run j)), last, sound,
        stored, by simp [before]⟩
    · -- the verdict has changed; in the second round it stays
      obtain ⟨w, after⟩ : ∃ w, put i (s.rules[i].body.judge (value u)) v u = w := ⟨_, rfl⟩
      have more (name : Text) : (value u name).Below (value w name) :=
        after ▸ value_put insideU openU name
      have last := Expr.judge_stays native more first unsure
      have still : Answered w (s.rules[i].body.judge (value u)) := after ▸
        Expr.judge_refers (value u) (answered.imp fun name settled => settled.put insideU)
      obtain ⟨later, sound, stored⟩ := after ▸ solved (value u)
      obtain ⟨_, again, -, -, -, same⟩ := round_settles (Expr.judge_native native) later.names sound
        (fewer later stored)
      obtain rfl := same still
      simp only [Expr.judge_judge, last] at again
      obtain ⟨last, sound, stored⟩ := solved (value (put i (s.rules[i].body.judge (value u)) v u))
      refine ⟨v, _, fun j => (solve_open at? verdict).trans ((settle_again (run j)
        (by simpa using unsure)).trans ?_), last, sound, stored, by simp [before]⟩
      rw [after, settle_done (again j), ← after, put_put]

/-- Rules refer to each other no deeper than there are rules without verdict. It does not matter what
would be done below that, nor how often a verdict may change more than once. -/
theorem iterate_settles (depth : Nat) (sound : Sound s) (deep : (unsolved s).card < depth)
    (inside : i < s.rules.length) :
    Settles (fun j : Nat × (Nat → Infer Inferred) => (solve (j.1 + 1))^[depth] j.2) i s := by
  induction depth generalizing s i with
  | zero => omega
  | succ depth ih =>
    simp only [Function.iterate_succ_apply']
    exact solve_settles Prod.fst sound inside fun t sound _ fewer k inside => ih sound (by omega) inside

/-- Solves `count` rules from place `index` on. -/
def solveEach (solver : Nat → Infer Inferred) : (count index : Nat) → Infer (Option TreeFault)
  | 0, _ => return none
  | count + 1, index => do
    match ← solver index with
    | .error fault => return some fault
    | .ok _ => solveEach solver count (index + 1)

theorem solveEach_settles {solver : ι → Nat → Infer Inferred}
    (each : ∀ t, Later s t → Sound t → ∀ k < t.rules.length, Settles solver k t) (count index : Nat)
    (later : Later s t) (sound : Sound t) (whole : index + count = s.rules.length)
    (before : ∀ k < index, (storedAt t k).isSome) :
    ∃ u, (∀ j, solveEach (solver j) count index t = (none, u)) ∧ Later s u ∧ Sound u ∧
      ∀ k < s.rules.length, (storedAt u k).isSome := by
  induction count generalizing index t with
  | zero => exact ⟨t, fun _ => rfl, later, sound, fun k inside => before k (by omega)⟩
  | succ count ih =>
    obtain ⟨v, u, run, after, sound', stored, -⟩ :=
      each t later sound index (by have := later.length; omega)
    obtain ⟨w, runs, final⟩ := ih (index + 1) (later.trans after) sound' (by omega) fun k earlier => by
      rcases Nat.lt_succ_iff_lt_or_eq.mp earlier with earlier | rfl
      · obtain ⟨v, stored⟩ := Option.isSome_iff_exists.mp (before k earlier)
        simp [after.stored k v stored]
      · simp [stored]
    refine ⟨w, fun j => ?_, final⟩
    unfold solveEach
    simp only [bind, StateT.bind, run j]
    exact runs j

end Solve

theorem ofIndex_eq (depth : Nat) :
    ofIndex depth = (solve maxRevisits)^[depth] fun _ => return .ok (some .sometimes) := by
  induction depth with
  | zero => rfl
  | succ depth ih => rw [ofIndex_succ, ih, Function.iterate_succ_apply']

theorem solveFrom_eq (depth count index : Nat) :
    solveFrom depth count index = solveEach (ofIndex depth) count index := by
  induction count generalizing index with
  | zero => rfl
  | succ count ih =>
    unfold solveFrom solveEach
    refine bind_congr fun verdict => ?_
    cases verdict with
    | error => rfl
    | ok => exact ih (index + 1)

end Matching

namespace Grammar

variable {g : Grammar}

/-- Match inference ends by itself on every tree of expressions, and gives all rules verdicts. Rules are
never gone into deeper than there are rules, so that it does not matter what `bottom` would do below
that. A rule whose verdict changed more than `more + 1` times would be given up, with a finding; there
is none even where `more` is zero, so every verdict changes once at most, and whatever the bound is,
the outcome is the same. -/
theorem matching_ends (settings : Settings) (native : ∀ r ∈ g.rules, r.body.Everywhere Expr.Native) :
    ∃ rules, Pass.matching.run settings g = ⟨{ g with rules }, [], none⟩ ∧
      (∀ more bottom, Matching.solveEach ((Matching.solve (more + 1))^[g.rules.length + 1] bottom)
        g.rules.length 0 ⟨g.rules, []⟩ = (none, ⟨rules, []⟩)) ∧
      rules.map Rule.name = g.ruleNames ∧ ∀ r ∈ rules, r.verdict.isSome := by
  have deep {t : Matching.Progress} (later : Matching.Later ⟨g.rules, []⟩ t) :
      (Matching.unsolved t).card < g.rules.length + 1 :=
    Nat.lt_succ_of_le ((Matching.card_unsolved_le t).trans_eq later.length)
  obtain ⟨⟨rules, found⟩, run, later, sound, stored⟩ := Matching.solveEach_settles
    (fun t later sound k => Matching.iterate_settles (g.rules.length + 1) sound (deep later))
    g.rules.length 0 (.refl ⟨g.rules, []⟩) ⟨native, rfl⟩ (by simp) (by simp)
  obtain rfl : found = [] := sound.found
  refine ⟨rules, ?_, fun more bottom => run (more, bottom), later.names, fun r member => ?_⟩
  · have whole : Matching.solveEach ((Matching.solve Matching.maxRevisits)^[g.rules.length + 1]
        fun _ => return .ok (some .sometimes)) g.rules.length 0 ⟨g.rules, []⟩ = (none, ⟨rules, []⟩) :=
      run (5, _)
    simp only [Pass.run, Matching.annotate, StateT.run, Matching.solveFrom_eq, Matching.ofIndex_eq, whole]
    rfl
  · obtain ⟨i, at?⟩ := List.mem_iff_getElem?.mp member
    have inside := (List.getElem?_eq_some_iff.mp at?).1
    simpa [Matching.storedAt, at?] using stored i (later.length ▸ inside)

/-! A sample: rules refer to themselves and to each other, on the left too, one reference is to no rule,
and a name is given twice. -/

def recurringText : Text := .ofString "s = s gone / t 'a'\nt = s? t?\nt = !t"

/-- The verdicts of the rules, and names that are not all different. -/
def recurs (g : Grammar) : Bool :=
  decide (¬g.ruleNames.Nodup) && decide ((Pass.matching.run plainSettings g).grammar.rules.map
    Rule.verdict = [some .sometimes, some .always, some .never])

theorem recurring_ends : ∃ g, Grammar.read recurringText none = .ok g ∧ ¬g.ruleNames.Nodup ∧
    (∀ r ∈ g.rules, r.body.Everywhere Expr.Native) ∧ ∃ rules : List Rule,
      rules.map Rule.verdict = [some .sometimes, some .always, some .never] ∧
      ∀ more bottom, Matching.solveEach ((Matching.solve (more + 1))^[g.rules.length + 1] bottom)
        g.rules.length 0 ⟨g.rules, []⟩ = (none, ⟨rules, []⟩) := by
  obtain ⟨g, read, holds⟩ := exists_of_read recurs
    (show (Grammar.read recurringText none).toOption.any _ = true by decide +kernel)
  simp only [recurs, Bool.and_eq_true, decide_eq_true_eq] at holds
  obtain ⟨twice, verdicts⟩ := holds
  have native : ∀ r ∈ g.rules, r.body.Everywhere Expr.Native :=
    fun r member => (bodies_of_read read r member).expressions
  obtain ⟨rules, run, ends, -⟩ := matching_ends plainSettings native
  rw [run] at verdicts
  exact ⟨g, read, twice, native, rules, verdicts, ends⟩

end Grammar

end PegCompiler
