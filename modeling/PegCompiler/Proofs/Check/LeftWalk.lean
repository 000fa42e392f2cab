import Mathlib.Data.List.Chain
import PegCompiler.Check.Progress
import PegCompiler.Proofs.Analysis.Deciding

/-!
The walk that looks for left recursion. `Grammar.Opens` says to which nodes below a node evaluation may
get before anything is consumed, as far as the analysis can tell, and `Grammar.LeftEdge` which rules a
rule may call in this way. The walk finds what is found at the references that are so reached
(`Check.exists_opens_of_leftCalls`, `Check.leftCalls_reaches`). So it finds the paths that come back to a
rule on them, and no others (`Check.lasso_of_followRule`, `Check.exists_of_lasso`), and ends by itself
(`Check.follow_iterate`).
-/

namespace PegCompiler

namespace Grammar

theorem defines_iff {g : Grammar} {name : Text} : g.defines name = true ↔ name ∈ g.ruleNames := by
  simp [defines, Grammar.find?, ruleNames]

/-- Evaluation of `e` may get to the node `c` directly below without having consumed anything: to an
element over elements that need not consume, to a delimiter behind a body that need not. -/
def Opens (g : Grammar) (e c : Expr) : Prop :=
  match e with
  | .sequence _ elements =>
    ∃ before after, elements = before ++ c :: after ∧ ∀ b ∈ before, g.consumes b ≠ .ok true
  | .range _ _ _ body (some separator) => c = body ∨ c = separator ∧ g.consumes body ≠ .ok true
  | e => c ∈ e.children

/-- The rule `caller` may call the rule `callee`, which is defined, at the place where it starts. -/
def LeftEdge (g : Grammar) (caller callee : Text) : Prop :=
  ∃ r info, g.find? caller = some r ∧
    Relation.ReflTransGen g.Opens r.body (.ruleRef info callee) ∧ g.defines callee = true

theorem Opens.child {g : Grammar} {e c : Expr} (opens : g.Opens e c) : c ∈ e.children := by
  cases e with
  | sequence info elements =>
    obtain ⟨before, after, rfl, -⟩ := opens
    simp [Expr.children]
  | range info min max body delimiter =>
    cases delimiter with
    | none => exact opens
    | some separator =>
      rcases opens with rfl | ⟨rfl, -⟩ <;> simp [Expr.children]
  | _ => exact opens

end Grammar

namespace Check

variable {g : Grammar} {enter other : List Text → Rule → Trail Diagnostic} {visited : List Text}
  {entry : Except TreeFault Diagnostic} {d : Diagnostic}

/-- An entry for which no fault has to be reckoned with: it is none, or there are none below `e`. -/
def Proper (g : Grammar) (entry : Except TreeFault Diagnostic) (e : Expr) : Prop :=
  (∃ d, entry = .ok d) ∨ g.Decides e

theorem Proper.child {e c : Expr} (proper : Proper g entry e) (hc : c ∈ e.children) :
    Proper g entry c :=
  proper.imp_right fun decides => decides.child hc

theorem Proper.deciding {e : Expr} {go : Bool → Trail Diagnostic} (proper : Proper g entry e)
    (h : entry ∈ deciding (g.consumes e) go) :
    ∃ truth, g.consumes e = .ok truth ∧ entry ∈ go truth := by
  cases answer : g.consumes e with
  | ok truth => exact ⟨truth, rfl, by simpa [Check.deciding, answer] using h⟩
  | error fault =>
    have faulty : entry = .error fault := by simpa [Check.deciding, answer] using h
    rcases proper with ⟨d, rfl⟩ | decides
    · cases faulty
    · obtain ⟨truth, decided⟩ := decides.here.2
      simp [answer] at decided

theorem exists_of_leftCallsInOrder {es : List Expr} (proper : ∀ e ∈ es, Proper g entry e)
    (h : entry ∈ leftCallsInOrder g enter visited es) :
    ∃ before c after, es = before ++ c :: after ∧ (∀ b ∈ before, g.consumes b ≠ .ok true) ∧
      entry ∈ leftCalls g enter visited c := by
  induction es with
  | nil => simp [leftCallsInOrder] at h
  | cons e rest ih =>
    rcases List.mem_append.mp h with here | later
    · exact ⟨[], e, rest, rfl, by simp, here⟩
    · obtain ⟨truth, answer, later⟩ := (proper e (by simp)).deciding later
      cases truth with
      | true => simp at later
      | false =>
        obtain ⟨before, c, after, rfl, idle, found⟩ := ih (fun c hc => proper c (by simp [hc])) later
        refine ⟨e :: before, c, after, rfl, ?_, found⟩
        simpa [answer] using idle

theorem exists_of_leftCallsApart {es : List Expr} (h : entry ∈ leftCallsApart g enter visited es) :
    ∃ c ∈ es, entry ∈ leftCalls g enter visited c := by
  induction es with
  | nil => simp [leftCallsApart] at h
  | cons e rest ih =>
    rcases List.mem_append.mp h with here | later
    · exact ⟨e, by simp, here⟩
    · obtain ⟨c, member, found⟩ := ih later
      exact ⟨c, by simp [member], found⟩

/-- Whatever is found in an expression is found at a reference that it opens with. -/
theorem exists_opens_of_leftCalls (e : Expr) (proper : Proper g entry e)
    (h : entry ∈ leftCalls g enter visited e) :
    ∃ info name, Relation.ReflTransGen g.Opens e (.ruleRef info name) ∧
      entry ∈ leftCalls g enter visited (.ruleRef info name) := by
  induction e using Expr.byChildren with
  | node e ih =>
    have through (c : Expr) (opens : g.Opens e c) (found : entry ∈ leftCalls g enter visited c) :
        ∃ info name, Relation.ReflTransGen g.Opens e (.ruleRef info name) ∧
          entry ∈ leftCalls g enter visited (.ruleRef info name) := by
      obtain ⟨info, name, reaches, found⟩ := ih c opens.child (proper.child opens.child) found
      exact ⟨info, name, reaches.head opens, found⟩
    cases e with
    | ruleRef info name => exact ⟨info, name, .refl, h⟩
    | literal | charClass | any | predicate => simp [leftCalls] at h
    | foreign what =>
      rcases proper with ⟨d, rfl⟩ | decides
      · simp [leftCalls, Trail.ofForeign] at h
      · exact absurd decides.here.1 id
    | sequence info es =>
      obtain ⟨before, c, after, rfl, idle, found⟩ :=
        exists_of_leftCallsInOrder (fun c hc => proper.child hc) h
      exact through c ⟨before, after, rfl, idle⟩ found
    | choice info es =>
      obtain ⟨c, member, found⟩ := exists_of_leftCallsApart h
      exact through c member found
    | labeled info label at? auto body | unary info operator body | named info shown body
    | action info code at? body =>
      exact through body (List.mem_singleton.mpr rfl) h
    | range info min max body delimiter =>
      cases delimiter with
      | none => exact through body (List.mem_singleton.mpr rfl) (by simpa [leftCalls] using h)
      | some separator =>
        rcases List.mem_append.mp h with here | between
        · exact through body (.inl rfl) here
        · have ofBody : Proper g entry body := proper.child (by simp [Expr.children])
          obtain ⟨truth, answer, found⟩ := ofBody.deciding between
          cases truth with
          | true => simp at found
          | false => exact through separator (.inr ⟨rfl, by simp [answer]⟩) found

theorem leftCallsApart_subset {es : List Expr} {c : Expr} (member : c ∈ es) :
    leftCalls g enter visited c ⊆ leftCallsApart g enter visited es := by
  induction es with
  | nil => simp at member
  | cons e rest ih =>
    rcases List.mem_cons.mp member with rfl | member
    · exact List.subset_append_left _ _
    · exact List.subset_append_of_subset_right _ (ih member)

theorem consumes_of_ne_true {e : Expr} (decides : g.Decides e) (idle : g.consumes e ≠ .ok true) :
    g.consumes e = .ok false := by
  obtain ⟨truth, answer⟩ := decides.here.2
  cases truth with
  | true => exact absurd answer idle
  | false => exact answer

theorem leftCallsInOrder_subset {before after : List Expr} {c : Expr}
    (decides : ∀ b ∈ before, g.Decides b) (idle : ∀ b ∈ before, g.consumes b ≠ .ok true) :
    leftCalls g enter visited c ⊆ leftCallsInOrder g enter visited (before ++ c :: after) := by
  induction before with
  | nil => exact List.subset_append_left _ _
  | cons b before ih =>
    refine List.subset_append_of_subset_right _ ?_
    rw [consumes_of_ne_true (decides b (by simp)) (idle b (by simp))]
    exact ih (fun a ha => decides a (by simp [ha])) fun a ha => idle a (by simp [ha])

/-- What is found at a node that an expression opens with is found in the expression. -/
theorem leftCalls_opens {e c : Expr} (decides : g.Decides e) (opens : g.Opens e c) :
    leftCalls g enter visited c ⊆ leftCalls g enter visited e := by
  cases e with
  | literal | charClass | any | ruleRef | predicate | foreign => exact absurd opens List.not_mem_nil
  | sequence info es =>
    obtain ⟨before, after, rfl, idle⟩ := opens
    exact leftCallsInOrder_subset (fun b hb => decides.child (by simp [Expr.children, hb])) idle
  | choice info es => exact leftCallsApart_subset opens
  | labeled info label at? auto body | unary info operator body | named info shown body
  | action info code at? body =>
    obtain rfl := List.mem_singleton.mp opens
    exact List.Subset.refl _
  | range info min max body delimiter =>
    cases delimiter with
    | none =>
      obtain rfl := List.mem_singleton.mp opens
      exact List.subset_append_left _ _
    | some separator =>
      rcases opens with rfl | ⟨rfl, idle⟩
      · exact List.subset_append_left _ _
      · refine List.subset_append_of_subset_right _ ?_
        have ofBody : g.Decides body := decides.child (by simp [Expr.children])
        simp only [consumes_of_ne_true ofBody idle]
        exact List.Subset.refl _

theorem leftCalls_reaches {e c : Expr} (decides : g.Decides e)
    (reaches : Relation.ReflTransGen g.Opens e c) :
    leftCalls g enter visited c ⊆ leftCalls g enter visited e := by
  induction reaches using Relation.ReflTransGen.head_induction_on with
  | refl => exact List.Subset.refl _
  | head opens _ ih =>
    exact List.Subset.trans (ih (decides.child opens.child)) (leftCalls_opens decides opens)

/-! ## Following rules -/

/-- Following a rule, with `enter` for the rules that it may call at once. -/
def follow (g : Grammar) (enter : List Text → Rule → Trail Diagnostic) (visited : List Text)
    (r : Rule) : Trail Diagnostic :=
  leftCalls g enter (visited ++ [r.name]) r.body

theorem followRule_succ (depth : Nat) (r : Rule) :
    followRule g (depth + 1) visited r = follow g (followRule g depth) visited r := rfl

/-- The walk only enters rules that are not being followed. -/
theorem leftCalls_congr (same : ∀ name found, name ∉ visited → g.find? name = some found →
      enter visited found = other visited found) (e : Expr) :
    leftCalls g enter visited e = leftCalls g other visited e := by
  induction e using Expr.byChildren with
  | node e ih =>
    cases e with
    | literal | charClass | any | predicate | foreign => rfl
    | ruleRef info name =>
      unfold leftCalls
      split
      · rfl
      · rename_i fresh
        cases defined : g.find? name with
        | none => rfl
        | some found => exact same name found (by simpa using fresh) defined
    | sequence info es =>
      simp only [Expr.children] at ih
      change leftCallsInOrder g enter visited es = leftCallsInOrder g other visited es
      induction es with
      | nil => rfl
      | cons e rest ihRest =>
        rw [leftCallsInOrder, leftCallsInOrder, ih e (by simp), ihRest fun c hc => ih c (by simp [hc])]
    | choice info es =>
      simp only [Expr.children] at ih
      change leftCallsApart g enter visited es = leftCallsApart g other visited es
      induction es with
      | nil => rfl
      | cons e rest ihRest =>
        rw [leftCallsApart, leftCallsApart, ih e (by simp), ihRest fun c hc => ih c (by simp [hc])]
    | labeled info label at? auto body | unary info operator body | named info shown body
    | action info code at? body =>
      exact ih body (by simp [Expr.children])
    | range info min max body delimiter =>
      cases delimiter with
      | none => simp only [leftCalls, ih body (by simp [Expr.children])]
      | some separator =>
        simp only [leftCalls, ih body (by simp [Expr.children]), ih separator (by simp [Expr.children])]

/-- Following rules ends by itself: what lies more steps deep than there are rules does not matter. -/
theorem follow_iterate (bottom : List Text → Rule → Trail Diagnostic) (depth : Nat) (r : Rule)
    (distinct : g.Distinct (visited ++ [r.name])) (deep : g.rules.length < depth + visited.length) :
    (follow g)^[depth] bottom visited r = followRule g depth visited r := by
  induction depth generalizing visited r with
  | zero =>
    have bound := distinct.length_le
    simp only [List.length_append, List.length_singleton] at bound
    omega
  | succ depth ih =>
    rw [Function.iterate_succ_apply', followRule_succ]
    refine leftCalls_congr (fun name found fresh defined => ?_) r.body
    refine ih found (distinct.concat ?_ ?_) ?_
    · exact Grammar.mem_ruleNames_of_find? defined
    · rwa [Grammar.find?_name defined]
    · simp only [List.length_append, List.length_singleton]
      omega

/-- The rules before the last one are different, each may call the next one at once, and the last is
one of those before it. -/
structure Lasso (g : Grammar) (path : List Text) (last : Text) : Prop where
  apart : path.Nodup
  edges : (path ++ [last]).IsChain g.LeftEdge
  returns : last ∈ path

theorem isChain_concat {path : List Text} {caller callee : Text}
    (edges : (path ++ [caller]).IsChain g.LeftEdge) (edge : g.LeftEdge caller callee) :
    (path ++ [caller] ++ [callee]).IsChain g.LeftEdge := by
  refine List.isChain_append.mpr ⟨edges, .singleton _, ?_⟩
  simpa using edge

/-- What following a rule finds are paths that come back to a rule on them. -/
theorem lasso_of_followRule (depth : Nat) (r : Rule) (here : g.find? r.name = some r)
    (distinct : g.Distinct (visited ++ [r.name]))
    (edges : (visited ++ [r.name]).IsChain g.LeftEdge) (h : .ok d ∈ followRule g depth visited r) :
    ∃ path last, d.finding = .leftRecursion (path ++ [last]) ∧ Lasso g path last := by
  induction depth generalizing visited r with
  | zero => simp [followRule] at h
  | succ depth ih =>
    obtain ⟨info, name, reaches, found⟩ := exists_opens_of_leftCalls r.body (.inl ⟨d, rfl⟩) h
    have edge (known : name ∈ g.ruleNames) : g.LeftEdge r.name name :=
      ⟨r, info, here, reaches, Grammar.defines_iff.mpr known⟩
    unfold leftCalls at found
    split at found
    · rename_i back
      have back : name ∈ visited ++ [r.name] := by simpa using back
      cases List.mem_singleton.mp found
      exact ⟨_, name, rfl, distinct.apart, isChain_concat edges (edge (distinct.known back)), back⟩
    · rename_i fresh
      cases defined : g.find? name with
      | none => simp [defined] at found
      | some next =>
        obtain rfl := Grammar.find?_name defined
        have known : next.name ∈ g.ruleNames := Grammar.mem_ruleNames_of_find? defined
        exact ih next defined (distinct.concat known (by simpa using fresh))
          (isChain_concat edges (edge known)) (by simpa [defined] using found)

/-- What stands at a reference that the body of a rule opens with is found by following the rule. -/
theorem follow_reaches (textual : ∀ r ∈ g.rules, Rule.Body r.body) {r : Rule} {info : Info}
    {name : Text} (here : g.find? r.name = some r)
    (reaches : Relation.ReflTransGen g.Opens r.body (.ruleRef info name)) :
    leftCalls g enter (visited ++ [r.name]) (.ruleRef info name) ⊆ follow g enter visited r :=
  leftCalls_reaches
    (Grammar.decides_of_body textual (textual r (List.mem_of_find?_eq_some here))) reaches

/-- A path that comes back is found by following its rules, from whichever of them the walk goes on. -/
theorem exists_of_followed (textual : ∀ r ∈ g.rules, Rule.Body r.body) {path rest : List Text}
    {last : Text} (lasso : Lasso g path last) (depth : Nat) (r : Rule)
    (here : g.find? r.name = some r) (whole : path = visited ++ r.name :: rest)
    (deep : path.length ≤ depth + visited.length) :
    ∃ d, .ok d ∈ followRule g depth visited r ∧ d.finding = .leftRecursion (path ++ [last]) := by
  induction rest generalizing visited depth r with
  | nil =>
    obtain ⟨-, edges, returns⟩ := lasso
    subst whole
    cases depth with
    | zero =>
      simp only [List.length_append, List.length_cons] at deep
      omega
    | succ depth =>
      rw [List.append_assoc] at edges
      obtain ⟨same, info, found, reaches, -⟩ := edges.right_of_append.rel
      obtain rfl : r = same := Option.some.inj (here.symm.trans found)
      have back : (visited ++ [r.name]).contains last = true := by simpa using returns
      refine ⟨⟨.leftRecursion (visited ++ [r.name] ++ [last]), info.location⟩, ?_, rfl⟩
      refine follow_reaches textual here reaches ?_
      simp only [leftCalls, back, ↓reduceIte, List.mem_singleton]
  | cons next rest ih =>
    have whole' : path = visited ++ [r.name] ++ next :: rest := by simpa using whole
    have ⟨apart, edges, _⟩ := lasso
    rw [whole'] at apart
    have fresh : next ∉ visited ++ [r.name] := fun member =>
      (List.nodup_append.mp apart).2.2 next member next (by simp) rfl
    cases depth with
    | zero =>
      simp only [whole, List.length_append, List.length_cons] at deep
      omega
    | succ depth =>
      rw [whole, List.append_assoc] at edges
      obtain ⟨same, info, found, reaches, defined⟩ := edges.right_of_append.rel
      obtain rfl : r = same := Option.some.inj (here.symm.trans found)
      obtain ⟨s, target⟩ := Option.isSome_iff_exists.mp defined
      obtain rfl := Grammar.find?_name target
      obtain ⟨d, deeper, finding⟩ := ih depth s target whole' (by
        simp only [List.length_append, List.length_singleton]
        omega)
      refine ⟨d, follow_reaches textual here reaches ?_, finding⟩
      have new : (visited ++ [r.name]).contains s.name = false := by simpa using fresh
      simpa only [leftCalls, new, target, Bool.false_eq_true, ↓reduceIte] using deeper

theorem Lasso.distinct {path : List Text} {last : Text} (lasso : Lasso g path last) :
    g.Distinct path := by
  refine ⟨lasso.apart, fun name member => ?_⟩
  obtain ⟨before, after, rfl⟩ := List.append_of_mem member
  have edges := lasso.edges
  rw [List.append_assoc] at edges
  have onward := edges.right_of_append
  obtain ⟨next, rest, more⟩ := List.exists_cons_of_ne_nil (show after ++ [last] ≠ [] by simp)
  rw [List.cons_append, more] at onward
  obtain ⟨r, _, here, -⟩ := onward.rel
  exact Grammar.defines_iff.mp (by simp [Grammar.defines, here])

/-- Every path that comes back to a rule on it is found by following its first rule. -/
theorem exists_of_lasso (textual : ∀ r ∈ g.rules, Rule.Body r.body) {path : List Text} {last : Text}
    (lasso : Lasso g path last) :
    ∃ r ∈ g.rules, ∃ d, .ok d ∈ followRule g (g.rules.length + 1) [] r ∧
      d.finding = .leftRecursion (path ++ [last]) := by
  obtain ⟨first, rest, rfl⟩ := List.exists_cons_of_ne_nil (List.ne_nil_of_mem lasso.returns)
  have defined := Grammar.defines_iff.mpr (lasso.distinct.known List.mem_cons_self)
  obtain ⟨r, here⟩ := Option.isSome_iff_exists.mp defined
  obtain rfl := Grammar.find?_name here
  refine ⟨r, List.mem_of_find?_eq_some here, ?_⟩
  have bound := lasso.distinct.length_le
  exact exists_of_followed textual lasso _ r here (List.nil_append _).symm (by simp at bound ⊢; omega)

/-- Every entry is a finding. -/
theorem exists_ok_of_followRule (textual : ∀ r ∈ g.rules, Rule.Body r.body) (depth : Nat) (r : Rule)
    (member : r ∈ g.rules) (found : entry ∈ followRule g depth visited r) : ∃ d, entry = .ok d := by
  induction depth generalizing visited r with
  | zero => simp [followRule] at found
  | succ depth ih =>
    have decides := Grammar.decides_of_body textual (textual r member)
    obtain ⟨info, name, -, found⟩ := exists_opens_of_leftCalls r.body (.inr decides) found
    unfold leftCalls at found
    split at found
    · exact ⟨_, List.mem_singleton.mp found⟩
    · cases defined : g.find? name with
      | none => simp [defined] at found
      | some next => exact ih next (List.mem_of_find?_eq_some defined) (by simpa [defined] using found)

/-- Where no path comes back, the rules that may still be called become fewer with each call. -/
theorem acc_of_followed (none : ∀ path last, ¬Lasso g path last) (visited : List Text) (name : Text)
    (distinct : g.Distinct (visited ++ [name])) (edges : (visited ++ [name]).IsChain g.LeftEdge) :
    Acc (fun callee caller => g.LeftEdge caller callee) name := by
  induction bound : g.rules.length - visited.length generalizing visited name with
  | zero =>
    have listed := distinct.length_le
    simp only [List.length_append, List.length_singleton] at listed
    omega
  | succ bound ih =>
    refine Acc.intro _ fun callee edge => ?_
    by_cases back : callee ∈ visited ++ [name]
    · exact absurd ⟨distinct.apart, isChain_concat edges edge, back⟩ (none _ callee)
    · refine ih _ callee (distinct.concat ?_ back) (isChain_concat edges edge) ?_
      · obtain ⟨_, _, _, _, defined⟩ := edge
        exact Grammar.defines_iff.mp defined
      · simp only [List.length_append, List.length_singleton]
        omega

/-- Without a path that comes back, left calls do not go on for ever. -/
theorem acc_of_no_lasso (none : ∀ path last, ¬Lasso g path last) (name : Text)
    (defined : g.defines name = true) : Acc (fun callee caller => g.LeftEdge caller callee) name :=
  acc_of_followed none [] name (.concat .nil (Grammar.defines_iff.mp defined) (by simp)) (.singleton _)

end Check

end PegCompiler
