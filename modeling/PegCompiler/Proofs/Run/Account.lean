import PegCompiler.Proofs.Run.Parametric
import PegCompiler.Proofs.Run.Peg
import PegCompiler.Proofs.Run.Records

/-!
The account of an evaluation: next to a value and an offset, the marks of what it expects and of its
lookaheads, and the calls of rules that it makes. What is expected goes by how the evaluation is heard,
which is fixed where a rule is called (`Regard`). A rule that is called again where it was called before
gives the same value; what it expects is the same too if it is heard in the same way, and in silence it
leaves no other marks than it does aloud (`Accounting.rule_unique`). The marks of every call are among
those of the evaluation (`Accounting.rule_accounted`).
-/

namespace PegCompiler

/-- How an evaluation is heard. In silence no entry is noted; within an odd number of negative
lookaheads, an entry is for what must not be there. -/
inductive Regard
  | silent
  | heard (odd : Bool)
  deriving DecidableEq, Repr

namespace Regard

/-- Within a lookahead. -/
def under (negative : Bool) : Regard → Regard
  | silent => silent
  | heard odd => heard (negative != odd)

/-- What noting an entry leaves behind. -/
def marks (offset : Int) (entry : Entry) : Regard → List Mark
  | silent => []
  | heard odd => [⟨offset, some (if odd then .not entry else entry)⟩]

/-- What leaves a mark under one regard leaves it under the other one. -/
def Within (x y : Regard) : Prop := x = silent ∨ x = y

variable {x y : Regard}

theorem Within.refl : x.Within x := .inr rfl

theorem Within.under (within : x.Within y) (negative : Bool) :
    (x.under negative).Within (y.under negative) := by
  rcases within with rfl | rfl
  · exact .inl rfl
  · exact .refl

theorem Within.marks (within : x.Within y) (offset : Int) (entry : Entry) :
    x.marks offset entry ⊆ y.marks offset entry := by
  rcases within with rfl | rfl
  · exact List.nil_subset _
  · exact List.Subset.refl _

end Regard

/-- A call of a rule that came to its end. -/
structure RuleCall where
  place : Nat
  offset : Int
  regard : Regard
  deriving DecidableEq, Repr

namespace RuleCall

/-- How the first call of a rule at an offset was heard. -/
def first? (calls : List RuleCall) (place : Nat) (offset : Int) : Option Regard :=
  (calls.find? fun call => call.place = place ∧ call.offset = offset).map RuleCall.regard

/-- Every call is in silence, or heard like the first one of the rule at the offset. -/
def Steady (calls : List RuleCall) : Prop :=
  ∀ call ∈ calls, call.regard = .silent ∨ first? calls call.place call.offset = some call.regard

instance (calls : List RuleCall) : Decidable (Steady calls) :=
  inferInstanceAs (Decidable (∀ call ∈ calls, _))

variable {calls later : List RuleCall} {place : Nat} {offset : Int} {regard : Regard}

theorem first?_append (first : first? calls place offset = some regard) :
    first? (calls ++ later) place offset = some regard := by
  obtain ⟨call, found, same⟩ := Option.map_eq_some_iff.mp first
  simp only [first?, List.find?_append, found, Option.some_or, Option.map_some, same]

theorem exists_first (call : RuleCall) (member : call ∈ calls) :
    ∃ regard, first? calls call.place call.offset = some regard := by
  have found : (calls.find? fun other =>
      other.place = call.place ∧ other.offset = call.offset).isSome = true :=
    List.find?_isSome.mpr ⟨call, member, by simp⟩
  obtain ⟨other, found⟩ := Option.isSome_iff_exists.mp found
  exact ⟨other.regard, by simp only [first?, found, Option.map_some]⟩

theorem mem_of_first? (first : first? calls place offset = some regard) :
    ⟨place, offset, regard⟩ ∈ calls := by
  obtain ⟨call, found, rfl⟩ := Option.map_eq_some_iff.mp first
  have here := List.find?_some found
  simp only [Bool.decide_and, Bool.and_eq_true, decide_eq_true_eq] at here
  obtain ⟨rfl, rfl⟩ := here
  exact List.mem_of_find?_eq_some found

/-- What has been steady all along was steady before. -/
theorem Steady.of_append (steady : Steady (calls ++ later)) : Steady calls := by
  intro call member
  refine (steady call (by simp [member])).imp_right fun whole => ?_
  obtain ⟨regard, first⟩ := exists_first call member
  rw [first?_append first] at whole
  rw [first, whole]

end RuleCall

/-- What an evaluation gives, where it ends, and what comes of it on the way. -/
structure Account (α : Type) where
  value : α
  stop : Int
  marks : List Mark := []
  calls : List RuleCall := []

/-- An evaluation that is heard in some way, from some offset on. -/
def Accounting (α : Type) := Regard → Int → Except Raise (Account α)

/-- The account of one evaluation after another. -/
def Account.andThen {α β : Type} (first : Account α) (second : Account β) : Account β :=
  { second with marks := first.marks ++ second.marks, calls := first.calls ++ second.calls }

theorem Account.andThen_subset {α β : Type} {first first' : Account α} {second second' : Account β}
    (here : first.marks ⊆ first'.marks) (later : second.marks ⊆ second'.marks) :
    (first.andThen second).marks ⊆ (first'.andThen second').marks :=
  List.append_subset.mpr ⟨List.subset_append_of_subset_left _ here,
    List.subset_append_of_subset_right _ later⟩

namespace Accounting

/-- A result and where it leads, without any mark. -/
def plain {α : Type} (result : Int → Except Raise (α × Int)) : Accounting α := fun _ here =>
  (result here).map fun found => { value := found.1, stop := found.2 }

instance : Monad Accounting where
  pure value := plain fun here => .ok (value, here)
  bind first next := fun regard here => do
    let told ← first regard here
    return told.andThen (← next told.value regard told.stop)

/-- The steps of keeping account. What never matches is left out, as in compiled rules. -/
def engine (peg : Peg) (callRule : Int → Accounting Outcome) (rounds : Nat) : Engine Accounting where
  offset := plain fun here => .ok (here, here)
  goTo offset := plain fun _ => .ok (⟨⟩, offset)
  matched start := plain fun here => .ok (some (.text (Index.slice peg.input start here)), here)
  expect reports entry := fun regard here =>
    .ok { value := ⟨⟩, stop := here, marks := if reports then regard.marks here entry else [] }
  matching primitive := plain fun here => do
    let found ← primitive (peg.state here here)
    return (found.1.map .text, found.2.offset)
  boundOf scope name := plain fun here =>
    match (Value.lookup? name scope).bind Value.number? with
    | some n => .ok (n, here)
    | none => .error .wrongType
  act start code scope := plain fun here => do
    let value ← peg.call false code scope start here
    return (some value, here)
  predicate negative code scope := plain fun here => do
    let value ← peg.call true code scope here here
    return (if value.isTrue != negative then some .null else none, here)
  lookahead negative body := fun regard here => do
    let ahead ← body (regard.under negative) here
    return {
      value := if ahead.value.isSome != negative then some .null else none
      stop := if ahead.value.isSome then here else ahead.stop
      marks := ⟨here, none⟩ :: ahead.marks
      calls := ahead.calls }
  silently body := fun _ here => body .silent here
  call name := callRule (peg.grammar.placeOf name)
  throw raised := plain fun _ => .error raised
  rounds := rounds
  prune := true
  admits _ _ := true
  matcher := peg.matcher

/-- A call of the rule at a place. -/
def called (place : Nat) (body : Accounting Outcome) : Accounting Outcome := fun regard here => do
  let told ← body regard here
  return { told with calls := told.calls ++ [⟨place, here, regard⟩] }

/-- The account of the rule at `index`. -/
def rule (peg : Peg) : (fuel : Nat) → (index : Int) → Accounting Outcome
  | 0, _ => fun _ _ => .error .outOfFuel
  | fuel + 1, index =>
    match Index.place? peg.grammar.rules.length index with
    | none => fun _ _ => .error .malformed
    | some place =>
      match peg.grammar.rules[place]? with
      | none => fun _ _ => .error .malformed
      | some r => called place ((engine peg (rule peg fuel) fuel).expr r.reports none [] r.body)

section Rules

variable {peg : Peg} {fuel place : Nat} {index : Int}
  (here : Index.place? peg.grammar.rules.length index = some place)

include here in
theorem rule_at {r : Rule} (at? : peg.grammar.rules[place]? = some r) :
    rule peg (fuel + 1) index =
      called place ((engine peg (rule peg fuel) fuel).expr r.reports none [] r.body) := by
  simp only [rule, here, at?]

/-- A rule that is not there cannot be called. -/
theorem rule_absent (absent : Index.place? peg.grammar.rules.length index = none) :
    rule peg (fuel + 1) index = fun _ _ => .error .malformed := by
  rw [rule, absent]

include here in
theorem rule_at_place : rule peg fuel place = rule peg fuel index := by
  have at? : Index.place? peg.grammar.rules.length (place : Int) = some place := by
    simp only [Index.place?, Option.ite_none_right_eq_some, Option.some.injEq] at here
    exact Index.place?_natCast (by omega)
  cases fuel with
  | zero => rfl
  | succ fuel => simp only [rule, here, at?]

end Rules

end Accounting

/-! ## The same call, heard in two ways -/

/-- Accounts of the same evaluation, unless the first one ran out of fuel. -/
inductive Account.Upto {α : Type} (x y : Regard) :
    Except Raise (Account α) → Except Raise (Account α) → Prop
  | out (more : Except Raise (Account α)) : Upto x y (.error .outOfFuel) more
  | error (raised : Raise) : Upto x y (.error raised) (.error raised)
  | ok {a b : Account α} (value : a.value = b.value) (stop : a.stop = b.stop)
    (less : x.Within y → a.marks ⊆ b.marks) (more : y.Within x → b.marks ⊆ a.marks) :
    Upto x y (.ok a) (.ok b)

namespace Account.Upto

variable {α β : Type} {x y : Regard}

theorem refl (told : Except Raise (Account α)) : Upto x y told told := by
  cases told with
  | error raised => exact .error raised
  | ok a => exact .ok rfl rfl (fun _ => List.Subset.refl _) fun _ => List.Subset.refl _

end Account.Upto

namespace Accounting

/-- However the two evaluations are heard. -/
def Upto {α : Type} (less more : Accounting α) : Prop :=
  ∀ x y here, Account.Upto x y (less x here) (more y here)

theorem Upto.bind {α β : Type} {less more : Accounting α} {next other : α → Accounting β}
    (first : Upto less more) (second : ∀ a, Upto (next a) (other a)) :
    Upto (less >>= next) (more >>= other) := by
  intro x y here
  have first := first x y here
  change Account.Upto x y (less x here >>= fun a => do return a.andThen (← next a.value x a.stop))
    (more y here >>= fun b => do return b.andThen (← other b.value y b.stop))
  generalize less x here = told, more y here = told' at first ⊢
  cases first with
  | out => exact .out _
  | error raised => exact .error raised
  | @ok a b value stop less more =>
    have second := second b.value x y b.stop
    change Account.Upto x y (next a.value x a.stop >>= fun c => Except.ok (a.andThen c))
      (other b.value y b.stop >>= fun c => Except.ok (b.andThen c))
    rw [value, stop]
    generalize next b.value x b.stop = told, other b.value y b.stop = told' at second ⊢
    cases second with
    | out => exact .out _
    | error raised => exact .error raised
    | ok value stop less' more' =>
      exact .ok value stop (fun within => Account.andThen_subset (less within) (less' within))
        fun within => Account.andThen_subset (more within) (more' within)

theorem called_upto {place : Nat} {less more : Accounting Outcome} (upto : Upto less more) :
    Upto (called place less) (called place more) := by
  intro x y here
  have upto := upto x y here
  unfold called
  generalize less x here = told, more y here = told' at upto ⊢
  cases upto with
  | out => exact .out _
  | error raised => exact .error raised
  | ok value stop less more => exact .ok value stop less more

theorem lookahead_upto {peg : Peg} {callRule callRule' : Int → Accounting Outcome} {rounds rounds' : Nat}
    {less more : Accounting Outcome} (upto : Upto less more) (negative : Bool) :
    Upto ((engine peg callRule rounds).lookahead negative less)
      ((engine peg callRule' rounds').lookahead negative more) := by
  intro x y here
  have upto := upto (x.under negative) (y.under negative) here
  simp only [engine]
  generalize less (x.under negative) here = told, more (y.under negative) here = told' at upto ⊢
  cases upto with
  | out => exact .out _
  | error raised => exact .error raised
  | ok value stop less more =>
    refine .ok ?_ ?_ (fun within => List.cons_subset_cons _ (less (within.under negative)))
      fun within => List.cons_subset_cons _ (more (within.under negative))
    · simp only [value]
    · simp only [value, stop]

theorem silently_upto {peg : Peg} {callRule callRule' : Int → Accounting Outcome} {rounds rounds' : Nat}
    {less more : Accounting Outcome} (upto : Upto less more) :
    Upto ((engine peg callRule rounds).silently less) ((engine peg callRule' rounds').silently more) := by
  intro x y here
  have silent := upto .silent .silent here
  simp only [engine]
  generalize less .silent here = told, more .silent here = told' at silent ⊢
  cases silent with
  | out => exact .out _
  | error raised => exact .error raised
  | ok value stop less more => exact .ok value stop (fun _ => less .refl) fun _ => more .refl

theorem upto_parametric (peg : Peg) {callRule callRule' : Int → Accounting Outcome}
    {rounds rounds' : Nat} (more : rounds ≤ rounds')
    (calls : ∀ index, Upto (callRule index) (callRule' index)) :
    Engine.Parametric (fun _ => True) (fun _ => True) Eq (engine peg callRule rounds)
      (engine peg callRule' rounds') fun _ => Upto where
  prune := rfl
  admits _ _ := .inl rfl
  matcher := rfl
  rounds := .inr ⟨more, fun _ _ _ _ => .out _⟩
  pure _ := fun _ _ _ => .refl _
  throw _ := fun _ _ _ => .error _
  bind := .bind
  offset next := Upto.bind (fun _ _ _ => .refl _) fun start => next start trivial
  goTo _ := fun _ _ _ => .refl _
  matched _ := fun _ _ _ => .refl _
  expect entry _ same x y here := by
    subst same
    simp only [engine]
    split
    · exact .ok rfl rfl (·.marks here entry) (·.marks here entry)
    · exact .refl _
  matching _ := fun _ _ _ => .refl _
  boundOf _ _ := fun _ _ _ => .refl _
  act _ _ _ := fun _ _ _ => .refl _
  predicate _ _ _ := fun _ _ _ => .refl _
  call _ := calls _
  followedBy _ upto := lookahead_upto upto false
  notFollowedBy _ upto := lookahead_upto upto true
  named _ same := ⟨same.symm, rfl⟩
  silently _ upto := silently_upto upto

theorem rule_upto (peg : Peg) {fuel fuel' : Nat} (more : fuel ≤ fuel') (index : Int) :
    Upto (rule peg fuel index) (rule peg fuel' index) := by
  induction fuel generalizing fuel' index with
  | zero => exact fun _ _ _ => .out _
  | succ fuel ih =>
    obtain ⟨fuel', rfl⟩ := Nat.exists_eq_add_of_le' (Nat.le_trans (Nat.le_add_left 1 _) more)
    cases here : Index.place? peg.grammar.rules.length index with
    | none =>
      rw [rule_absent here, rule_absent here]
      exact fun _ _ _ => .error _
    | some place =>
      cases at? : peg.grammar.rules[place]? with
      | none =>
        simp only [rule, here, at?]
        exact fun _ _ _ => .error _
      | some r =>
        rw [rule_at here at?, rule_at here at?]
        have less : fuel ≤ fuel' := Nat.le_of_succ_le_succ more
        exact called_upto ((upto_parametric peg less (ih less)).expr r.body
          (.of_forall (fun _ => trivial) _) rfl none [])

/-- Wherever a rule is called at an offset, it gives the same and ends at the same place. -/
theorem rule_unique {peg : Peg} {fuel fuel' : Nat} {index start : Int} {x y : Regard}
    {a b : Account Outcome} (first : rule peg fuel index x start = .ok a)
    (second : rule peg fuel' index y start = .ok b) :
    a.value = b.value ∧ a.stop = b.stop ∧ (x.Within y → a.marks ⊆ b.marks) := by
  have most := rule_upto peg (Nat.le_max_left fuel fuel') index x y start
  have most' := rule_upto peg (Nat.le_max_right fuel fuel') index y y start
  rw [first] at most
  rw [second] at most'
  generalize rule peg (max fuel fuel') index y start = told at most most'
  cases most with
  | ok value stop less more =>
    cases most' with
    | ok value' stop' less' more' =>
      exact ⟨value.trans value'.symm, stop.trans stop'.symm,
        fun within => List.Subset.trans (less within) (more' .refl)⟩

/-! ## The calls in an account -/

/-- Each call has an account of its own, whose marks are among those of the evaluation. -/
def Accounted (peg : Peg) {α : Type} (told : Accounting α) : Prop :=
  ∀ x start a, told x start = .ok a → ∀ call ∈ a.calls, ∃ (fuel : Nat) (b : Account Outcome),
    rule peg fuel call.place call.regard call.offset = .ok b ∧ b.marks ⊆ a.marks

section Accounted

variable {peg : Peg} {α β : Type} {told : Accounting α}

/-- An evaluation without calls. -/
theorem Accounted.of_none (none : ∀ x start a, told x start = .ok a → a.calls = []) :
    Accounted peg told := by
  intro x start a ended call member
  rw [none x start a ended] at member
  cases member

theorem Accounted.plain (result : Int → Except Raise (α × Int)) : Accounted peg (plain result) := by
  refine .of_none fun x start a ended => ?_
  unfold Accounting.plain at ended
  cases found : result start <;> rw [found] at ended <;> cases ended
  rfl

theorem Accounted.bind {next : α → Accounting β} (first : Accounted peg told)
    (second : ∀ a, Accounted peg (next a)) : Accounted peg (told >>= next) := by
  intro x start c ended call member
  change (told x start >>= fun a => next a.value x a.stop >>= fun b => .ok (a.andThen b)) = _ at ended
  cases told' : told x start with
  | error raised =>
    rw [told'] at ended
    cases ended
  | ok a =>
    rw [told'] at ended
    change (next a.value x a.stop >>= fun b => Except.ok (a.andThen b)) = _ at ended
    cases onward : next a.value x a.stop with
    | error raised =>
      rw [onward] at ended
      cases ended
    | ok b =>
      rw [onward] at ended
      cases ended
      rcases List.mem_append.mp member with before | later
      · obtain ⟨fuel, own, ran, among⟩ := first x start a told' call before
        exact ⟨fuel, own, ran, List.subset_append_of_subset_left _ among⟩
      · obtain ⟨fuel, own, ran, among⟩ := second a.value x a.stop b onward call later
        exact ⟨fuel, own, ran, List.subset_append_of_subset_right _ among⟩

theorem lookahead_accounted {callRule : Int → Accounting Outcome} {rounds : Nat}
    {told : Accounting Outcome} (accounted : Accounted peg told) (negative : Bool) :
    Accounted peg ((engine peg callRule rounds).lookahead negative told) := by
  intro x start a ended call member
  simp only [engine] at ended
  cases ahead : told (x.under negative) start with
  | error raised =>
    rw [ahead] at ended
    cases ended
  | ok b =>
    rw [ahead] at ended
    cases ended
    obtain ⟨fuel, own, ran, among⟩ := accounted _ _ b ahead call member
    exact ⟨fuel, own, ran, List.subset_cons_of_subset _ among⟩

theorem accounted_parametric {callRule : Int → Accounting Outcome} {rounds : Nat}
    (calls : ∀ index, Accounted peg (callRule index)) :
    Engine.Parametric (fun _ => True) (fun _ => True) Eq (engine peg callRule rounds)
      (engine peg callRule rounds) fun _ told _ => Accounted peg told where
  prune := rfl
  admits _ _ := .inl rfl
  matcher := rfl
  rounds := .inl rfl
  pure _ := .plain _
  throw _ := .of_none fun _ _ _ ended => by cases ended
  bind := .bind
  offset next := Accounted.bind (.of_none fun _ _ _ ended => by cases ended; rfl)
    fun start => next start trivial
  goTo _ := .of_none fun _ _ _ ended => by cases ended; rfl
  matched _ := .of_none fun _ _ _ ended => by cases ended; rfl
  expect _ _ _ := .of_none fun _ _ _ ended => by cases ended; rfl
  matching _ := .plain _
  boundOf _ _ := .plain _
  act _ _ _ := .plain _
  predicate _ _ _ := .plain _
  call _ := calls _
  followedBy _ accounted := lookahead_accounted accounted false
  notFollowedBy _ accounted := lookahead_accounted accounted true
  named _ same := ⟨same.symm, rfl⟩
  silently _ accounted := fun _ start a ended => accounted .silent start a ended

variable (peg) in
theorem rule_accounted (fuel : Nat) (index : Int) : Accounted peg (rule peg fuel index) := by
  induction fuel generalizing index with
  | zero => exact .of_none fun _ _ _ ended => by cases ended
  | succ fuel ih =>
    cases here : Index.place? peg.grammar.rules.length index with
    | none =>
      rw [rule_absent here]
      exact .of_none fun _ _ _ ended => by cases ended
    | some place =>
      cases at? : peg.grammar.rules[place]? with
      | none =>
        simp only [rule, here, at?]
        exact .of_none fun _ _ _ ended => by cases ended
      | some r =>
        have body : Accounted peg ((engine peg (rule peg fuel) fuel).expr r.reports none [] r.body) :=
          (accounted_parametric ih).expr r.body (.of_forall (fun _ => trivial) _) rfl none []
        intro x start a whole call member
        have ended := whole
        rw [rule_at here at?] at ended
        simp only [called] at ended
        cases ran : (engine peg (rule peg fuel) fuel).expr r.reports none [] r.body x start with
        | error raised =>
          rw [ran] at ended
          cases ended
        | ok b =>
          rw [ran] at ended
          cases ended
          rcases List.mem_append.mp member with before | last
          · exact body x start b ran call before
          · -- the call itself
            obtain rfl := List.mem_singleton.mp last
            exact ⟨fuel + 1, _, by rw [rule_at_place here]; exact whole, List.Subset.refl _⟩

end Accounted

end Accounting

end PegCompiler
