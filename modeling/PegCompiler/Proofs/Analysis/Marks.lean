import PegCompiler.Analysis.Reporting
import PegCompiler.Proofs.Check.Accepted

/-!
Marking the rules that record what they expect changes nothing but the marks, and meets no fault in
trees of expressions (`Reporting.annotate_native`). The start rules are marked, and so is whatever
a marked rule refers to outside a display name (`Reporting.annotate_spreads`).
-/

namespace PegCompiler

namespace Expr

variable {α : Type} {prune : Expr → Bool} {here : Expr → Trail α}

/-- A walk over expressions meets no fault of its own. -/
theorem trail_sound {e : Expr}
    (sound : e.Everywhere fun n => n.Native ∧ ∀ entry ∈ here n, ∃ a, entry = .ok a) :
    ∀ entry ∈ e.trail prune here, ∃ a, entry = .ok a := by
  induction sound with
  | node sound _ ih =>
    intro entry member
    rcases (mem_trail sound.1).mp member with found | ⟨-, c, child, found⟩
    · exact sound.2 entry found
    · exact ih c child entry found

/-- In a textual tree there is no display name to stop at. -/
theorem trail_isNamed (e : Expr) : e.Textual →
    e.trail isNamed here = e.trail (fun _ => false) here := by
  induction e using byChildren with
  | node e ih =>
    intro textual
    have below (c : Expr) (hc : c ∈ e.children) := ih c hc (textual.child hc)
    have all (es : List Expr)
        (each : ∀ e ∈ es, e.trail isNamed here = e.trail (fun _ => false) here) :
        trailAll isNamed here es = trailAll (fun _ => false) here es := by
      induction es with
      | nil => rfl
      | cons e rest ih =>
        rw [trailAll, trailAll, each e (by simp), ih fun c hc => each c (by simp [hc])]
    cases e with
    | named | foreign => exact absurd textual.here id
    | literal | charClass | any | ruleRef | predicate => rfl
    | sequence info es | choice info es => simp only [trail, isNamed, all es below]
    | labeled info label at? auto body | unary info operator body | action info code at? body =>
      simp only [trail, isNamed, below body (by simp [children])]
    | range info min max body delimiter =>
      cases delimiter with
      | none => simp only [trail, isNamed, below body (by simp [children])]
      | some separator =>
        simp only [trail, isNamed, below body (by simp [children]),
          below separator (by simp [children])]

end Expr

theorem Trail.cut_sound {α : Type} {trail : Trail α} (h : ∀ entry ∈ trail, ∃ a, entry = .ok a) :
    trail.cut.2 = none := by
  induction trail with
  | nil => rfl
  | cons entry rest ih =>
    obtain ⟨a, rfl⟩ := h entry (by simp)
    exact ih fun entry he => h entry (by simp [he])

namespace Reporting

theorem references_sound {e : Expr} (native : e.Everywhere Expr.Native) :
    (e.references Expr.isNamed).cut.2 = none :=
  Trail.cut_sound (Expr.trail_sound (native.mono fun n native => ⟨native, by cases n <;> simp⟩))

theorem mark_length (progress : Progress) (index : Nat) :
    (progress.mark index).marks.length = progress.marks.length := by
  unfold Progress.mark
  split <;> simp

theorem markTargets_length (g : Grammar) (names : List Text) (progress : Progress) :
    (markTargets g names progress).marks.length = progress.marks.length := by
  unfold markTargets
  induction names.filterMap g.indexOf? generalizing progress with
  | nil => rfl
  | cons index rest ih => rw [List.foldl_cons, ih, mark_length]

theorem spread_sound {g : Grammar} (native : ∀ r ∈ g.rules, r.body.Everywhere Expr.Native) (rounds : Nat)
    (progress : Progress) : (spread g rounds progress).1.marks.length = progress.marks.length ∧
      (spread g rounds progress).2 = none := by
  induction rounds generalizing progress with
  | zero => exact ⟨rfl, rfl⟩
  | succ rounds ih =>
    unfold spread
    split
    · exact ⟨rfl, rfl⟩
    · split
      · exact ⟨rfl, rfl⟩
      · rename_i r at?
        have sound := references_sound (native r (List.mem_of_getElem? at?))
        obtain ⟨length, none⟩ := ih (markTargets g ((r.body.references Expr.isNamed).cut.1.map Prod.fst)
          { progress with pending := ‹_› })
        simp only [sound]
        exact ⟨length.trans (markTargets_length _ _ _), none⟩

/-- Only the marks change. -/
theorem annotate_native {g : Grammar} (native : ∀ r ∈ g.rules, r.body.Everywhere Expr.Native)
    (startRules : List Value) :
    ∃ rules, annotate g startRules = ({ g with rules }, none) ∧ rules.length = g.rules.length ∧
      ∀ (i : Nat) (r : Rule), g.rules[i]? = some r →
        ∃ mark, rules[i]? = some { r with reportsFailures := some mark } := by
  obtain ⟨length, none⟩ := spread_sound native (startRules.length + g.rules.length)
    (start g startRules)
  rcases run : spread g (startRules.length + g.rules.length) (start g startRules)
    with ⟨⟨marks, pending⟩, fault⟩
  rw [run] at length none
  have same : marks.length = g.rules.length := by simpa [start] using length
  refine ⟨g.rules.zipWith (fun rule mark => { rule with reportsFailures := some mark }) marks,
    ?_, by simp [same], fun i r at? => ?_⟩
  · unfold annotate
    simp only [run, none]
  · have bound : i < marks.length := same ▸ (List.getElem?_eq_some_iff.mp at?).1
    exact ⟨_, by rw [List.getElem?_zipWith, at?, List.getElem?_eq_getElem bound]⟩

/-! ## What is marked -/

/-- Places are only ever added to the marked ones, and those that are added are kept to be looked
into. -/
structure Progress.Grows (p q : Progress) : Prop where
  length : q.marks.length = p.marks.length
  kept : ∀ i : Nat, p.marks[i]? = some true → q.marks[i]? = some true
  anew : ∀ i : Nat, q.marks[i]? = some true → p.marks[i]? = some true ∨ i ∈ q.pending
  pending : ∀ i ∈ p.pending, i ∈ q.pending
  marked : ∀ i ∈ q.pending, i ∈ p.pending ∨ q.marks[i]? = some true
  /-- Whatever is kept was not marked before. -/
  left : q.pending.length + q.marks.count false = p.pending.length + p.marks.count false

namespace Progress.Grows

variable {p q u : Progress}

theorem refl (p : Progress) : p.Grows p :=
  ⟨rfl, fun _ => id, fun _ => .inl, fun _ => id, fun _ => .inl, rfl⟩

theorem trans (first : p.Grows q) (second : q.Grows u) : p.Grows u where
  length := second.length.trans first.length
  kept i marked := second.kept i (first.kept i marked)
  anew i marked := by
    rcases second.anew i marked with marked | pending
    · exact (first.anew i marked).imp_right (second.pending i)
    · exact .inr pending
  pending i pending := second.pending i (first.pending i pending)
  marked i pending := by
    rcases second.marked i pending with pending | marked
    · exact (first.marked i pending).imp_right (second.kept i)
    · exact .inr marked
  left := second.left.trans first.left

end Progress.Grows

theorem mark_grows (p : Progress) (i : Nat) : p.Grows (p.mark i) := by
  unfold Progress.mark
  split
  · exact .refl p
  · rename_i unmarked
    have at? : p.marks[i]? = some false := by
      cases found : p.marks[i]? with
      | none => simp [found] at unmarked
      | some mark => simpa [found] using unmarked
    obtain ⟨bound, same⟩ := List.getElem?_eq_some_iff.mp at?
    have set (j : Nat) : (p.marks.set i true)[j]? = if i = j then some true else p.marks[j]? := by
      rw [List.getElem?_set]
      simp [bound]
    refine ⟨by simp, fun j marked => ?_, fun j marked => ?_,
      fun j pending => List.mem_cons_of_mem i pending, fun j pending => ?_, ?_⟩
    · rw [set]
      split
      · rfl
      · exact marked
    · rw [set] at marked
      split at marked
      · rename_i here
        exact .inr (by simp [here])
      · exact .inl marked
    · rcases List.mem_cons.mp pending with rfl | pending
      · exact .inr (by simp [set])
      · exact .inl pending
    · have positive : 0 < p.marks.count false :=
        List.count_pos_iff.mpr (same ▸ List.getElem_mem bound)
      rw [List.count_set bound, same]
      simp only [List.length_cons, beq_self_eq_true, if_true]
      simp
      omega

theorem mark_marks (p : Progress) {i : Nat} (bound : i < p.marks.length) :
    (p.mark i).marks[i]? = some true := by
  unfold Progress.mark
  split
  · rename_i marked
    simpa [List.getElem?_eq_getElem bound] using marked
  · simp [bound]

theorem marks_all (places : List Nat) (p : Progress) :
    p.Grows (places.foldl Progress.mark p) ∧
      ∀ i ∈ places, i < p.marks.length → (places.foldl Progress.mark p).marks[i]? = some true := by
  induction places generalizing p with
  | nil => exact ⟨.refl p, by simp⟩
  | cons i rest ih =>
    obtain ⟨grows, marks⟩ := ih (p.mark i)
    have first := mark_grows p i
    refine ⟨first.trans grows, fun j member bound => ?_⟩
    rcases List.mem_cons.mp member with rfl | member
    · exact grows.kept j (mark_marks p bound)
    · exact marks j member (first.length.symm ▸ bound)

/-- The places of the rules that a rule refers to outside a display name. -/
def targets (g : Grammar) (r : Rule) : List Nat :=
  ((r.body.references Expr.isNamed).cut.1.map Prod.fst).filterMap g.indexOf?

/-- A body without a display name. -/
theorem textual_of_plain {e : Expr} (body : Rule.Body e) (plain : e.isNamed = false) : e.Textual := by
  cases body with
  | plain textual => exact textual
  | displayed => cases plain

/-- What is marked is still to be looked into, or all that it refers to is marked. -/
structure Progress.Spreads (g : Grammar) (p : Progress) : Prop where
  length : p.marks.length = g.rules.length
  pending : ∀ i ∈ p.pending, p.marks[i]? = some true
  looked : ∀ (i : Nat) (r : Rule), p.marks[i]? = some true → g.rules[i]? = some r →
    i ∈ p.pending ∨ ∀ j ∈ targets g r, p.marks[j]? = some true

/-- Looking into the next rule. -/
theorem Progress.Spreads.next {g : Grammar} {marks : List Bool} {i : Nat} {pending : List Nat} {r : Rule}
    (spreads : Progress.Spreads g ⟨marks, i :: pending⟩) (at? : g.rules[i]? = some r) :
    Progress.Spreads g ((targets g r).foldl Progress.mark ⟨marks, pending⟩) := by
  obtain ⟨grows, all⟩ := marks_all (targets g r) ⟨marks, pending⟩
  refine ⟨grows.length.trans spreads.length, fun j later => ?_, fun j q marked here => ?_⟩
  · rcases grows.marked j later with before | marked
    · exact grows.kept j (spreads.pending j (by simp [before]))
    · exact marked
  · rcases grows.anew j marked with before | later
    · rcases spreads.looked j q before here with waiting | done
      · rcases List.mem_cons.mp waiting with rfl | waiting
        · obtain rfl := Option.some.inj (at?.symm.trans here)
          refine .inr fun k target => all k target ?_
          obtain ⟨name, -, found⟩ := List.mem_filterMap.mp target
          exact spreads.length.symm ▸ Grammar.indexOf?_lt found
        · exact .inl (grows.pending j waiting)
      · exact .inr fun k target => grows.kept k (done k target)
    · exact .inl later

/-- Looks into the next rule, if there is one, and goes on with `below`. -/
def look (g : Grammar) (below : Progress → Progress × Option TreeFault) (p : Progress) :
    Progress × Option TreeFault :=
  match p.pending with
  | [] => (p, none)
  | index :: pending =>
    match g.rules[index]? with
    | none => (p, none)
    | some rule =>
      let (found, fault) := (rule.body.references Expr.isNamed).cut
      let progress := markTargets g (found.map Prod.fst) { p with pending }
      match fault with
      | some fault => (progress, some fault)
      | none => below progress

theorem spread_succ (g : Grammar) (rounds : Nat) : spread g (rounds + 1) = look g (spread g rounds) :=
  rfl

section Rounds

variable {g : Grammar}

theorem look_next (native : ∀ r ∈ g.rules, r.body.Everywhere Expr.Native)
    (below : Progress → Progress × Option TreeFault) {marks : List Bool} {i : Nat} {pending : List Nat}
    {r : Rule} (at? : g.rules[i]? = some r) :
    look g below ⟨marks, i :: pending⟩ = below ((targets g r).foldl Progress.mark ⟨marks, pending⟩) := by
  simp only [look, at?, references_sound (native r (List.mem_of_getElem? at?))]
  rfl

/-- Each round looks into a marked rule, and there are rounds enough for all of them: what holds when
nothing is left to be looked into, and is kept when a rule is looked into, holds of all the rounds. -/
theorem Progress.Spreads.rounds {motive : Nat → Progress → Prop}
    (done : ∀ rounds marks, Progress.Spreads g ⟨marks, []⟩ → motive rounds ⟨marks, []⟩)
    (next : ∀ rounds marks i pending r, Progress.Spreads g ⟨marks, i :: pending⟩ →
      g.rules[i]? = some r → motive rounds ((targets g r).foldl Progress.mark ⟨marks, pending⟩) →
      motive (rounds + 1) ⟨marks, i :: pending⟩)
    (rounds : Nat) (p : Progress) (spreads : p.Spreads g)
    (enough : p.pending.length + p.marks.count false ≤ rounds) : motive rounds p := by
  induction rounds generalizing p with
  | zero =>
    obtain ⟨marks, pending⟩ := p
    obtain rfl : pending = [] := List.length_eq_zero_iff.mp (by simp only at enough; omega)
    exact done 0 marks spreads
  | succ rounds ih =>
    obtain ⟨marks, pending⟩ := p
    cases pending with
    | nil => exact done _ marks spreads
    | cons i pending =>
      have bound := (List.getElem?_eq_some_iff.mp (spreads.pending i (by simp))).1
      rw [spreads.length] at bound
      have at? := List.getElem?_eq_getElem bound
      refine next rounds marks i pending _ spreads at? (ih _ (spreads.next at?) ?_)
      have left := (marks_all (targets g g.rules[i]) ⟨marks, pending⟩).1.left
      simp only [List.length_cons] at enough left
      omega

/-- In the end no rule is left to be looked into. -/
theorem spread_spreads (native : ∀ r ∈ g.rules, r.body.Everywhere Expr.Native) (rounds : Nat)
    (p : Progress) (spreads : p.Spreads g)
    (enough : p.pending.length + p.marks.count false ≤ rounds) :
    (spread g rounds p).1.Spreads g ∧ (spread g rounds p).1.pending = [] ∧
      ∀ i : Nat, p.marks[i]? = some true → (spread g rounds p).1.marks[i]? = some true := by
  refine Progress.Spreads.rounds (motive := fun rounds p => (spread g rounds p).1.Spreads g ∧
      (spread g rounds p).1.pending = [] ∧
      ∀ i : Nat, p.marks[i]? = some true → (spread g rounds p).1.marks[i]? = some true)
    (fun rounds marks spreads => ?_) (fun rounds marks i pending r _ at? ih => ?_) rounds p spreads enough
  · cases rounds <;> exact ⟨spreads, rfl, fun _ => id⟩
  · obtain ⟨grows, -⟩ := marks_all (targets g r) ⟨marks, pending⟩
    rw [spread_succ, look_next native _ at?]
    exact ⟨ih.1, ih.2.1, fun j marked => ih.2.2 j (grows.kept j marked)⟩

end Rounds

theorem start_spreads (g : Grammar) (startRules : List Value) :
    (start g startRules).Spreads g := by
  have mark (i : Nat) : (start g startRules).marks[i]? =
      g.rules[i]?.map fun _ => (startPlaces g startRules).contains i := by
    simp [start, List.getElem?_mapIdx]
  refine ⟨by simp [start], fun i pending => ?_, fun i r marked at? => .inl ?_⟩
  · have place : i ∈ startPlaces g startRules := by simpa [start] using pending
    have bound : i < g.rules.length := by
      obtain ⟨name, -, found⟩ := List.mem_filterMap.mp place
      split at found
      · exact Grammar.indexOf?_lt found
      · cases found
    rw [mark, List.getElem?_eq_getElem bound]
    simp [place]
  · rw [mark, at?] at marked
    simpa [start] using marked

theorem start_left (g : Grammar) (startRules : List Value) :
    (start g startRules).pending.length + (start g startRules).marks.count false ≤
      startRules.length + g.rules.length := by
  have pending : (start g startRules).pending.length ≤ startRules.length := by
    simp only [start, startPlaces, List.length_reverse]
    exact List.length_filterMap_le _ _
  have marks : (start g startRules).marks.count false ≤ g.rules.length :=
    Nat.le_trans List.count_le_length (by simp [start])
  omega

/-- References outside a display name lead to rules that are marked. -/
def RefersToMarked (g : Grammar) : Expr → Prop
  | .ruleRef _ name => ∀ r ∈ g.rules, r.name = name → r.reportsFailures = some true
  | _ => True

/-- What holds of all names that are referred to holds of every reference. -/
theorem references_everywhere {e : Expr} (textual : e.Textual) {holds : Text → Prop}
    (each : ∀ name ∈ (e.references Expr.isNamed).cut.1.map Prod.fst, holds name) :
    e.Everywhere fun
      | .ruleRef _ name => holds name
      | _ => True := by
  have native := (Rule.Body.plain textual).expressions
  have entries : ∀ entry ∈ e.references (fun _ => false),
      ∃ found : Text × Option Location, entry = .ok found ∧ holds found.1 := by
    have found := Trail.eq_of_fault?_eq_none _ (references_sound native)
    rw [show e.references (fun _ => false) = e.references Expr.isNamed from
      (Expr.trail_isNamed e textual).symm, found]
    intro entry member
    obtain ⟨reference, referred, rfl⟩ := List.mem_map.mp member
    exact ⟨reference, rfl, each _ (List.mem_map_of_mem referred)⟩
  refine (Expr.everywhere_of_trail native entries).mono fun n found => ?_
  cases n with
  | ruleRef info name =>
    obtain ⟨_, same, holds⟩ := found (.ok (name, info.location)) (by simp)
    cases same
    exact holds
  | _ => trivial

/-- The start rules are marked, and so is what a marked rule refers to. -/
theorem annotate_spreads {g : Grammar} (textual : ∀ r ∈ g.rules, Rule.Body r.body)
    (names : g.ruleNames.Nodup) (startRules : List Value) :
    (∀ r ∈ (annotate g startRules).1.rules, .text r.name ∈ startRules →
      r.reportsFailures = some true) ∧
    ∀ r ∈ (annotate g startRules).1.rules, r.reportsFailures = some true → r.body.isNamed = false →
      r.body.Everywhere (RefersToMarked (annotate g startRules).1) := by
  obtain ⟨spreads, done, kept⟩ := spread_spreads (fun r member => (textual r member).expressions) (startRules.length + g.rules.length)
    (start g startRules) (start_spreads g startRules) (start_left g startRules)
  have rule {r : Rule} (member : r ∈ (annotate g startRules).1.rules) :
      ∃ (i : Nat) (s : Rule) (mark : Bool), g.rules[i]? = some s ∧
        r = { s with reportsFailures := some mark } ∧
        (spread g (startRules.length + g.rules.length) (start g startRules)).1.marks[i]? =
          some mark := by
    obtain ⟨i, at?⟩ := List.mem_iff_getElem?.mp member
    obtain ⟨s, mark, here, marked, rfl⟩ := List.getElem?_zipWith_eq_some.mp at?
    exact ⟨i, s, mark, here, rfl, marked⟩
  refine ⟨fun r member starts => ?_, fun r member marked plain => ?_⟩
  · obtain ⟨i, s, mark, at?, rfl, here⟩ := rule member
    have place : i ∈ startPlaces g startRules :=
      List.mem_filterMap.mpr ⟨.text s.name, starts, Grammar.indexOf?_name names at?⟩
    have marked : (start g startRules).marks[i]? = some true := by
      simp [start, List.getElem?_mapIdx, at?, place]
    exact congrArg some (Option.some.inj (here.symm.trans (kept i marked)))
  · obtain ⟨i, s, mark, at?, rfl, here⟩ := rule member
    obtain rfl : mark = true := Option.some.inj marked
    have all := (spreads.looked i s here at?).resolve_left (by simp [done])
    refine references_everywhere (textual_of_plain (textual s (List.mem_of_getElem? at?)) plain)
      fun name referred q member same => ?_
    obtain ⟨j, t, mark, at?', rfl, marked⟩ := rule member
    have same : t.name = name := same
    have target : j ∈ targets g s :=
      List.mem_filterMap.mpr ⟨name, referred, same ▸ Grammar.indexOf?_name names at?'⟩
    exact congrArg some (Option.some.inj (marked.symm.trans (all j target)))

end Reporting

end PegCompiler
