import PegCompiler.Proofs.Compile.Preparation
import PegCompiler.Proofs.Emit.Depth

/-!
The code of an expression can be emitted from any depth and leaves one result more on its stack,
whatever the verdicts are that have shaped it (`Emit.pushes_of_lowered`). Labels are in scope only
where their values are on the stack.
-/

namespace PegCompiler

/-- The values of the labels are on a stack of results with this top. -/
def Environment.Within (labels : Environment) (top : Int) : Prop :=
  ∀ label ∈ labels, 0 ≤ label.2 ∧ label.2 ≤ top

namespace Environment

variable {labels : Environment} {top : Int}

theorem within_nil : Within [] top := nofun

theorem Within.mono {other : Int} (within : labels.Within top) (le : top ≤ other) :
    labels.Within other :=
  fun label member => ⟨(within label member).1, Int.le_trans (within label member).2 le⟩

theorem Within.define (within : labels.Within top) (e : Expr) (lower : -1 ≤ top) :
    Within (e.define (top + 1) labels) (top + 1) := by
  have defined (name : Text) : Within (Lower.define name (top + 1) labels) (top + 1) := by
    induction labels with
    | nil =>
      simp only [Lower.define]
      intro label member
      obtain rfl := List.mem_singleton.mp member
      exact ⟨by simp only; omega, Int.le_refl _⟩
    | cons first rest ih =>
      obtain ⟨other, old⟩ := first
      obtain ⟨here, others⟩ := List.forall_mem_cons.mp within
      rw [Lower.define]
      split
      · exact List.forall_mem_cons.mpr ⟨⟨by simp only; omega, Int.le_refl _⟩,
          Within.mono others (by omega)⟩
      · exact List.forall_mem_cons.mpr ⟨⟨here.1, by have := here.2; simp only at *; omega⟩, ih others⟩
  unfold Expr.define
  split
  · exact defined _
  · exact within.mono (by omega)

/-- The distance of a label from the place `top`. -/
theorem Within.distance (within : labels.Within top) {limit : Limit} {distance : Int} {here : Int}
    (found : Build.distance labels here limit = .ok distance) :
    ∃ place, distance = here - place ∧ 0 ≤ place ∧ place ≤ top := by
  unfold Build.distance at found
  split at found
  · rename_i place known
    cases found
    obtain ⟨name, -, at?⟩ := Option.bind_eq_some_iff.mp known
    obtain ⟨before, after, rfl, -⟩ := List.lookup_eq_some_iff.mp at?
    exact ⟨place, rfl, within (name, place) (by simp)⟩
  · cases found

end Environment

namespace Emit.Emits

variable {context : EmitContext} {code yes no element : List Instr} {a b : Depths} {jump jumps : Bool}
  {out : Option Depths} {verdict : Verdict} {test : Test} {t p : Int}

/-- A test that may have been left out. -/
theorem condition (verdict : Verdict) (fits : test.Fits a)
    (whenYes : verdict ≠ .never → Emits context yes a b jump out)
    (whenNo : Emits context no a b false out) :
    Emits context (Build.condition verdict test yes no) a b (jump && decide (verdict = .always)) out := by
  cases verdict with
  | always => simpa [Build.condition, Verdict.select] using whenYes nofun
  | never => simpa [Build.condition, Verdict.select] using whenNo
  | sometimes => simpa [Build.condition, Verdict.select] using branch fits (whenYes nofun) whenNo

/-- Code between which a position is kept. -/
theorem bracket {top : Int} (lower : -1 ≤ t ∧ -1 ≤ p) (deep : -1 ≤ top)
    (inner : Emits context code ⟨t, p + 1⟩ ⟨top, p + 1⟩ false out) :
    Emits context (Build.ops [.pushPosition] ++ code ++ Build.ops [.popPosition]) ⟨t, p⟩ ⟨top, p⟩ false
      out := by
  have opens : Emits context (Build.ops [.pushPosition]) ⟨t, p⟩ ⟨t, p + 1⟩ false out :=
    ops ⟨trivial, nofun, lower, rfl⟩
  have closes : Emits context (Build.ops [.popPosition]) ⟨top, p + 1⟩ ⟨top, p⟩ false out := by
    refine ops ?_
    simp [Op.Leads, Op.Fits, Op.operands, Op.depths]
    omega
  exact (opens.followed inner).followed closes

/-- A call of a user function with the values of the labels. -/
theorem call {function : Nat} {count : Int} {labels : Environment} (within : labels.Within t)
    (natural : 0 ≤ count) (bound : count ≤ t + 1) (lower : -1 ≤ p) :
    Emits context (Build.call function count labels t) ⟨t, p⟩ ⟨t - count + 1, p⟩ false out := by
  have distances : ∀ n ∈ labels.map fun entry => t - entry.2, 0 ≤ n ∧ n ≤ t := by
    simp only [List.mem_map, forall_exists_index, and_imp, forall_apply_eq_imp_iff₂]
    intro label member
    have := within label member
    omega
  have fits : Op.Fits context ⟨t, p⟩ (.call function count (labels.map fun entry => t - entry.2)) :=
    ⟨bound, fun n member => (distances n member).2⟩
  refine of_op fits ?_ ⟨by simp only; omega, lower⟩
  simp only [Op.operands, List.cons_append, List.nil_append, List.forall_mem_cons]
  exact ⟨by omega, natural, by omega, fun n member => (distances n member).1⟩

/-- The code that leaves a sequence behind its `position`-th element. -/
theorem leaving (context : EmitContext) (verdict : Verdict) {position : Nat} (positive : 1 ≤ position)
    (bound : (position : Int) ≤ t + 1) (lower : 0 ≤ p) :
    ∃ jump, Emits context (Lower.leaving verdict position) ⟨t, p⟩ ⟨t, p⟩ jump
      (some ⟨t - position + 1, p⟩) := by
  have back : Emits context (Build.ops [.loadPosition]) ⟨t, p⟩ ⟨t, p⟩ false
      (some ⟨t - position + 1, p⟩) := by
    refine ops ?_
    simp [Op.Leads, Op.Fits, Op.operands, Op.depths]
    omega
  have left : Emits context [.op (.leave position)] ⟨t, p⟩ ⟨t, p⟩ true (some ⟨t - position + 1, p⟩) :=
    leave (by omega) bound (by rw [if_pos (by omega)])
  have both := back.behind left (by simp)
  cases verdict with
  | never => exact ⟨true, by simpa [Lower.leaving, Build.leaveIf, Verdict.neg, Verdict.select] using both⟩
  | always => exact ⟨false, by simpa [Lower.leaving, Build.leaveIf, Verdict.neg, Verdict.select] using .nil⟩
  | sometimes =>
    have fits : Test.isFailed.Fits ⟨t, p⟩ := show (0 : Int) ≤ t by omega
    have tested := branch fits both .nil
    exact ⟨false, by simpa [Lower.leaving, Build.leaveIf, Verdict.neg, Verdict.select] using tested⟩

/-- A jump out of the loop that leaves all results where they are. -/
theorem leaveLoop (lower : -1 ≤ a.results) : Emits context [.op (.leave 0)] a a true (some a) :=
  leave (Int.le_refl 0) (by omega) rfl

/-- Instructions in a row that end in a jump out of the loop. -/
theorem opsLeave {os : List Op} (leads : Op.Leads context a os b) (lower : -1 ≤ b.results) :
    Emits context (Build.ops (os ++ [Op.leave 0])) a b true (some b) := by
  simpa using (ops leads).behind (leaveLoop lower) (by simp)

/-- The greatest number of a repetition, with its list on top of the results. -/
theorem checkMax {max : Boundary} {labels : Environment} (within : labels.Within t) (lower : -1 ≤ t)
    (checks : .ok code = Build.checkMax max (t + 1) labels) :
    Emits context code ⟨t + 1, p⟩ ⟨t + 1, p⟩ false (some ⟨t + 1, p⟩) := by
  have leavesOn {test : Test} (fits : test.Fits ⟨t + 1, p⟩) :
      Emits context [.branch test [.op (.leave 0)] []] ⟨t + 1, p⟩ ⟨t + 1, p⟩ false
        (some ⟨t + 1, p⟩) := branch fits (leaveLoop (by simp only; omega)) .nil
  have list : (0 : Int) ≤ t + 1 := by omega
  unfold Build.checkMax at checks
  split at checks
  · cases checks
    exact .nil
  · cases checks
    exact .nil
  · cases checks
    exact leavesOn list
  · cases checks
    exact leavesOn list
  · rename_i limit _
    cases found : Build.distance labels (t + 1) limit with
    | error fault =>
      rw [found] at checks
      cases checks
    | ok distance =>
      rw [found] at checks
      cases checks
      obtain ⟨place, rfl, natural, bound⟩ := within.distance found
      exact leavesOn ⟨list, by omega, by simp only; omega⟩

/-- An element is appended to the list below it, or the loop is left. -/
theorem appendOrLeave (verdict : Verdict) (goBack : Bool)
    (emits : Emits context element ⟨t + 1, p⟩ ⟨t + 1 + 1, p⟩ false none) (lower : -1 ≤ t ∧ -1 ≤ p)
    (back : goBack = true → 0 ≤ p) :
    ∃ jump, Emits context (Build.appendOrLeave verdict element goBack) ⟨t + 1, p⟩ ⟨t + 1, p⟩ jump
      (some ⟨t + 1, p⟩) := by
  have leaves : Emits context
      (Build.ops (if goBack then [.loadPosition, .pop, .leave 0] else [.pop, .leave 0]))
      ⟨t + 1 + 1, p⟩ ⟨t + 1, p⟩ true (some ⟨t + 1, p⟩) := by
    have list : (0 : Int) ≤ t + 1 := by omega
    cases goBack with
    | true =>
      have := back rfl
      have leads : Op.Leads context ⟨t + 1 + 1, p⟩ [.loadPosition, .pop] ⟨t + 1, p⟩ := by
        simp [Op.Leads, Op.Fits, Op.operands, Op.depths]
        omega
      exact opsLeave leads (show (-1 : Int) ≤ t + 1 by omega)
    | false =>
      have leads : Op.Leads context ⟨t + 1 + 1, p⟩ [.pop] ⟨t + 1, p⟩ := by
        simp [Op.Leads, Op.Fits, Op.operands, Op.depths]
        omega
      exact opsLeave leads (show (-1 : Int) ≤ t + 1 by omega)
  have appends : Emits context (Build.ops [.append]) ⟨t + 1 + 1, p⟩ ⟨t + 1, p⟩ false
      (some ⟨t + 1, p⟩) := by
    refine ops ?_
    simp [Op.Leads, Op.Fits, Op.operands, Op.depths]
    omega
  have fits : Test.isFailed.Fits ⟨t + 1 + 1, p⟩ := show (0 : Int) ≤ t + 1 + 1 by omega
  exact ⟨_, emits.anywhere.append (condition verdict.neg fits (fun _ => leaves) appends)⟩

end Emit.Emits

namespace Emit

/-- The code pushes one result above the place `top`, at whatever depth of positions. -/
def Pushes (context : EmitContext) (top : Int) (code : List Instr) : Prop :=
  ∀ p, -1 ≤ p → Emits context code ⟨top, p⟩ ⟨top + 1, p⟩ false none

namespace Pushes

variable {context : EmitContext} {code element separator checks : List Instr} {t : Int}
  {verdict : Verdict} {labels : Environment}

/-- Instructions in a row that push one result. -/
theorem ops {os : List Op} (leads : ∀ p, -1 ≤ p → Op.Leads context ⟨t, p⟩ os ⟨t + 1, p⟩) :
    Pushes context t (Build.ops os) := fun p lower => .ops (leads p lower)

/-- The least number of a repetition. -/
theorem checkMin {min : Boundary} {collected : List Instr} (within : labels.Within t) (lower : -1 ≤ t)
    (pushes : Pushes context t collected)
    (checks : .ok code = Build.checkMin collected min (t + 1) labels) : Pushes context t code := by
  have list : (0 : Int) ≤ t + 1 := by omega
  have failsOn (test : Test) (fits : ∀ p, test.Fits ⟨t + 1, p⟩) : Pushes context t
      (.op .pushPosition :: (collected ++
        [Instr.branch test [.op .loadPosition, .op .pop, .op (.push .failed)] [], .op .popPosition])) := by
    intro p bound
    have fails : Emits context (Build.ops [.loadPosition, .pop, .push .failed]) ⟨t + 1, p + 1⟩
        ⟨t + 1, p + 1⟩ false none := by
      refine .ops ?_
      simp [Op.Leads, Op.Fits, Op.operands, Op.depths]
      omega
    simpa using Emits.bracket ⟨lower, bound⟩ (by omega)
      ((pushes (p + 1) (by omega)).followed (.branch (fits (p + 1)) fails .nil))
  unfold Build.checkMin at checks
  split at checks
  · cases checks
    exact pushes
  · cases checks
    exact pushes
  · simp only [pure, Except.pure, Except.ok.injEq] at checks
    subst checks
    split
    · exact pushes
    · simpa [Build.condition, Verdict.select] using
        failsOn (.fewer _) fun _ => list
  · cases checks
  · rename_i limit _
    cases found : Build.distance labels (t + 1) limit with
    | error fault =>
      rw [found] at checks
      cases checks
    | ok distance =>
      rw [found] at checks
      cases checks
      obtain ⟨place, rfl, natural, bound⟩ := within.distance found
      have fits (p : Int) : (Test.fewerThan (t + 1 - place)).Fits ⟨t + 1, p⟩ :=
        ⟨list, by omega, by simp only; omega⟩
      simpa [Build.condition, Verdict.select] using failsOn _ fits

section Rounds

variable {max : Boundary} {between : Verdict} (lower : -1 ≤ t) (pushes : Pushes context (t + 1) element)
  (stops : ∀ p, Emits context checks ⟨t + 1, p⟩ ⟨t + 1, p⟩ false (some ⟨t + 1, p⟩))

include lower in
theorem emptyList : Pushes context t (Build.ops [.push .emptyList]) :=
  ops fun _ bound => ⟨trivial, nofun, ⟨lower, bound⟩, rfl⟩

include lower pushes stops in
/-- Rounds of a repetition, above the list of what has been collected. -/
theorem repetition : Pushes context t (Build.ops [.push .emptyList] ++
    Lower.ofRepetition verdict element checks max none) := by
  intro p bound
  obtain ⟨jump, round⟩ := Emits.appendOrLeave verdict false (pushes p bound)
    ⟨lower, bound⟩ nofun
  exact (emptyList lower p bound).followed (.loop ((stops p).append round))

include lower pushes stops in
/-- One round of a repetition with a delimiter, with the position before the delimiter kept. -/
theorem separatedRound (verdict between : Verdict) {p : Int} (bound : -1 ≤ p)
    (separates : Pushes context (t + 1) separator) :
    ∃ jump, Emits context (Lower.separatedRound verdict between element checks separator)
      ⟨t + 1, p + 1⟩ ⟨t + 1, p + 1⟩ jump (some ⟨t + 1, p + 1⟩) := by
  obtain ⟨jump, round⟩ := Emits.appendOrLeave verdict true
    (pushes (p + 1) (by omega)) ⟨lower, show -1 ≤ p + 1 by omega⟩ (fun _ => show 0 ≤ p + 1 by omega)
  have renews : Emits context (Build.ops [.popPosition, .pushPosition]) ⟨t + 1, p + 1⟩
      ⟨t + 1, p + 1⟩ false (some ⟨t + 1, p + 1⟩) := by
    refine .ops ?_
    simp [Op.Leads, Op.Fits, Op.operands, Op.depths]
    omega
  have drops : Op.Leads context ⟨t + 1 + 1, p + 1⟩ [.pop] ⟨t + 1, p + 1⟩ := by
    simp [Op.Leads, Op.Fits, Op.operands, Op.depths]
    omega
  have fits : Test.isFailed.Fits ⟨t + 1 + 1, p + 1⟩ := show (0 : Int) ≤ t + 1 + 1 by omega
  have leaves := Emits.opsLeave drops (show (-1 : Int) ≤ t + 1 by omega)
  have ends := (renews.followed (separates (p + 1) (by omega)).anywhere).append
    (.condition between.neg fits (fun _ => leaves) (.ops drops))
  exact ⟨_, by simpa [Lower.separatedRound] using (round.append (stops (p + 1))).append ends⟩

include lower pushes stops in
/-- Rounds of a repetition with a delimiter. -/
theorem separated (separates : Pushes context (t + 1) separator) :
    Pushes context t (Build.ops [.push .emptyList] ++
      Lower.ofRepetition verdict element checks max (some (between, separator))) := by
  intro p bound
  have first : Emits context (Lower.firstCheck checks max) ⟨t + 1, p⟩ ⟨t + 1, p⟩ false
      (some ⟨t + 1, p⟩) := by
    unfold Lower.firstCheck
    split
    · split
      · exact stops p
      · exact .nil
    · exact stops p
  obtain ⟨jump, round⟩ := separatedRound lower pushes stops verdict between bound separates
  have rounds : Emits context _ ⟨t + 1, p⟩ ⟨t + 1, p⟩ false (some ⟨t + 1, p⟩) :=
    .bracket ⟨show -1 ≤ t + 1 by omega, bound⟩ (by omega) (.loop round)
  rw [Lower.ofRepetition_separated]
  simpa using (emptyList lower p bound).followed (.once (first.followed rounds) rfl)

end Rounds

/-- Looking ahead. -/
theorem lookahead (negative : Bool) (lower : -1 ≤ t) (pushes : Pushes context t code) :
    Pushes context t (Lower.ofLookahead negative verdict code) := by
  intro p bound
  have opens : Emits context (Build.ops [.openRecord]) ⟨t, p + 1⟩ ⟨t, p + 1⟩ false none := by
    refine .ops ?_
    simp [Op.Leads, Op.Fits, Op.operands, Op.depths]
    omega
  have closes : Emits context (Build.ops [.closeRecord (flagWord negative)]) ⟨t + 1, p + 1⟩
      ⟨t + 1, p + 1⟩ false none := by
    have flag : 0 ≤ flagWord negative := by cases negative <;> decide
    refine .ops ?_
    simp [Op.Leads, Op.Fits, Op.operands, Op.depths, flag]
    omega
  have stays (result : Constant) : Emits context (Build.ops [.pop, .push result]) ⟨t + 1, p + 1⟩
      ⟨t + 1, p + 1⟩ false none := by
    refine .ops ?_
    simp [Op.Leads, Op.Fits, Op.operands, Op.depths]
    omega
  have goesBack (result : Constant) : Emits context (Build.ops [.loadPosition, .pop, .push result])
      ⟨t + 1, p + 1⟩ ⟨t + 1, p + 1⟩ false none := by
    refine .ops ?_
    simp [Op.Leads, Op.Fits, Op.operands, Op.depths]
    omega
  have failed : Test.isFailed.Fits ⟨t + 1, p + 1⟩ := show (0 : Int) ≤ t + 1 by omega
  have matched : Test.isMatched.Fits ⟨t + 1, p + 1⟩ := failed
  have inner := (opens.followed (pushes (p + 1) (by omega))).followed closes
  cases negative with
  | true =>
    have tested := Emits.condition verdict.neg failed (fun _ => stays .undefined)
      (goesBack .failed)
    simpa [Lower.ofLookahead] using Emits.bracket ⟨lower, bound⟩ (by omega) (inner.followed tested)
  | false =>
    have tested := Emits.condition verdict matched (fun _ => goesBack .undefined) .nil
    simpa [Lower.ofLookahead] using Emits.bracket ⟨lower, bound⟩ (by omega) (inner.followed tested)

theorem optional (lower : -1 ≤ t) (pushes : Pushes context t code) :
    Pushes context t (code ++ Build.condition verdict.neg Test.isFailed (Build.ops [.pop, .push .null])
      Assembly.nothing) := by
  intro p bound
  have replaces : Emits context (Build.ops [.pop, .push .null]) ⟨t + 1, p⟩ ⟨t + 1, p⟩ false none := by
    refine .ops ?_
    simp [Op.Leads, Op.Fits, Op.operands, Op.depths]
    omega
  have failed : Test.isFailed.Fits ⟨t + 1, p⟩ := show (0 : Int) ≤ t + 1 by omega
  exact (pushes p bound).followed
    (.condition verdict.neg failed (fun _ => replaces) .nil)

/-- The result is worked on where there is a match, with the position kept where it began. -/
theorem onMatch {yes : List Instr} (lower : -1 ≤ t) (pushes : Pushes context t code)
    (worksOn : verdict ≠ .never → ∀ p, 0 ≤ p → Emits context yes ⟨t + 1, p⟩ ⟨t + 1, p⟩ false none) :
    Pushes context t (Build.ops [.pushPosition] ++ code ++
      Build.condition verdict Test.isMatched yes Assembly.nothing ++ Build.ops [.popPosition]) := by
  intro p bound
  have matched : Test.isMatched.Fits ⟨t + 1, p + 1⟩ := show (0 : Int) ≤ t + 1 by omega
  simpa using Emits.bracket ⟨lower, bound⟩ (by omega) ((pushes (p + 1) (by omega)).followed
    (.condition verdict matched
      (fun possible => worksOn possible (p + 1) (by omega)) .nil))

end Pushes

section Rows

variable {context : EmitContext} {t : Target} {es : List Expr} {code : List Instr}
  {codes : List (List Instr)} {setting : Setting} {labels : Environment}

/-- The end of a sequence puts one result in the place of all its values. -/
theorem emits_finishing (context : EmitContext) {places : List Int} {count : Nat} {p : Int}
    (finishing : Finishing t setting labels places count code) (within : labels.Within setting.top)
    (autos : ∀ place ∈ places, 0 ≤ place ∧ place ≤ setting.top) (bound : (count : Int) ≤ setting.top + 1)
    (lower : 0 ≤ p) :
    Emits context code ⟨setting.top, p⟩ ⟨setting.top - count + 1, p⟩ false none ∧ code ≠ [] := by
  have deep : -1 ≤ setting.top ∧ -1 ≤ p := by omega
  unfold Finishing at finishing
  split at finishing
  · obtain ⟨calling, ⟨i, -, rfl⟩, rfl⟩ := finishing
    have marks : Emits context (Build.ops [.markTop]) ⟨setting.top, p⟩ ⟨setting.top, p⟩ false none :=
      .ops ⟨lower, nofun, deep, rfl⟩
    exact ⟨marks.followed (.call within (by omega) bound deep.2), by simp⟩
  · split at finishing
    · subst finishing
      refine ⟨.ops ⟨bound, by simp [Op.operands], deep, rfl⟩, by simp⟩
    · subst finishing
      rename_i place
      have := autos place (by simp)
      refine ⟨.ops ⟨⟨bound, ?_⟩, by simp [Op.operands]; omega, deep, rfl⟩, by simp⟩
      simp only
      omega
    · subst finishing
      have natural : ∀ place ∈ places, 0 ≤ setting.top - place ∧ setting.top - place ≤ setting.top := by
        intro place member
        have := autos place member
        omega
      refine ⟨.ops ⟨⟨bound, ?_⟩, ?_, deep, rfl⟩, by simp⟩
      · exact List.forall_mem_map.mpr fun place member => (natural place member).2
      · refine List.forall_mem_cons.mpr ⟨Int.natCast_nonneg _, List.forall_mem_cons.mpr
          ⟨Int.natCast_nonneg _, ?_⟩⟩
        exact List.forall_mem_map.mpr fun place member => (natural place member).1

/-- The elements of a sequence in a row: what one has pushed stays below the next. -/
theorem emits_row (each : ∀ e ∈ es, ∀ (setting : Setting) (labels : Environment) (code : List Instr),
      Lowered t setting labels e code → labels.Within setting.top → -1 ≤ setting.top →
        Pushes context setting.top code)
    {position : Nat} {autos : List Int} {p : Int}
    (lowered : LoweredRow t setting labels autos position es code) (within : labels.Within setting.top)
    (collected : ∀ place ∈ autos, 0 ≤ place ∧ place ≤ setting.top) (positive : 1 ≤ position)
    (bound : (position : Int) ≤ setting.top + 2) (lower : 0 ≤ p) :
    Emits context code ⟨setting.top, p⟩ ⟨setting.top - position + 2, p⟩ false
      (some ⟨setting.top - position + 2, p⟩) ∧ code ≠ [] := by
  induction es generalizing setting labels autos position code with
  | nil =>
    obtain ⟨emits, nonempty⟩ := emits_finishing context (show Finishing _ _ _ _ _ _ from lowered)
      within collected (by omega) lower
    rw [show setting.top - ((position - 1 : Nat) : Int) + 1 = setting.top - position + 2 by omega] at emits
    exact ⟨emits.anywhere, nonempty⟩
  | cons e rest ih =>
    obtain ⟨first, others, here, lowered, rfl⟩ := lowered
    have deep : -1 ≤ setting.top := by omega
    have pushes := each e (by simp) setting.inner labels first here within deep p (by omega)
    obtain ⟨jump, leaves⟩ := Emits.leaving context e.verdict positive
      (show (position : Int) ≤ setting.top + 1 + 1 by omega) lower
    have collected' : ∀ place ∈ e.collect (setting.top + 1) autos, 0 ≤ place ∧ place ≤ setting.top + 1 := by
      intro place member
      unfold Expr.collect at member
      split at member
      · rcases List.mem_append.mp member with before | here
        · have := collected place before
          omega
        · obtain rfl := List.mem_singleton.mp here
          omega
      · have := collected place member
        omega
    obtain ⟨row, nonempty⟩ := ih (fun e member => each e (by simp [member])) lowered
      (within.define e deep) collected' (by omega) (by simp only [Setting.next]; omega)
    have stop : setting.next.top - ((position + 1 : Nat) : Int) + 2 = setting.top - position + 2 := by
      simp only [Setting.next]
      omega
    have exit : setting.top + 1 - (position : Int) + 1 = setting.top - position + 2 := by omega
    rw [stop] at row
    rw [exit] at leaves
    exact ⟨(pushes.anywhere.append leaves).behind row nonempty, by simp [nonempty]⟩

/-- Alternatives one after the other; the loop around them is left where one has matched. -/
theorem emits_firstMatch {top p : Int} (lower : -1 ≤ top ∧ -1 ≤ p) (nonempty : codes ≠ [])
    (each : ∀ code ∈ codes, Pushes context top code) :
    Emits context (Lower.firstMatch codes) ⟨top, p⟩ ⟨top + 1, p⟩ false (some ⟨top + 1, p⟩) := by
  induction codes with
  | nil => exact absurd rfl nonempty
  | cons code rest ih =>
    have pushes : Emits context code ⟨top, p⟩ ⟨top + 1, p⟩ false (some ⟨top + 1, p⟩) :=
      (each code (by simp) p lower.2).anywhere
    cases rest with
    | nil => exact pushes
    | cons next others =>
      have matched : Test.isMatched.Fits ⟨top + 1, p⟩ := show (0 : Int) ≤ top + 1 by omega
      have left : Emits context [.op (.leave 0)] ⟨top + 1, p⟩ ⟨top + 1, p⟩ true
          (some ⟨top + 1, p⟩) := .leaveLoop (by simp only; omega)
      have drops : Emits context (Build.ops [.pop]) ⟨top + 1, p⟩ ⟨top, p⟩ false
          (some ⟨top + 1, p⟩) := by
        refine .ops ?_
        simp [Op.Leads, Op.Fits, Op.operands, Op.depths]
        omega
      have tried := (pushes.followed (.branch matched left .nil)).followed drops
      have whole := tried.followed (ih (by simp) fun code member => each code (by simp [member]))
      rw [Lower.firstMatch]
      · simpa [Build.leaveIf, Verdict.select] using whole
      · simp

theorem pushes_choices (each : ∀ e ∈ es, ∀ code, Lowered t setting labels e code →
      Pushes context setting.top code) (lowered : LoweredChoices t setting labels es codes) :
    ∀ code ∈ codes, Pushes context setting.top code := by
  induction es generalizing codes with
  | nil =>
    obtain rfl : codes = [] := lowered
    nofun
  | cons e rest ih =>
    have ih : ∀ codes, LoweredChoices t setting labels rest codes →
        ∀ code ∈ codes, Pushes context setting.top code :=
      fun codes => ih fun e member => each e (by simp [member])
    unfold LoweredChoices at lowered
    split at lowered
    · exact ih _ lowered
    · obtain ⟨code, here, rfl⟩ := lowered
      simpa using each e (by simp) code here
    · obtain ⟨code, others, here, lowered, rfl⟩ := lowered
      exact List.forall_mem_cons.mpr ⟨each e (by simp) code here, ih others lowered⟩

/-- Noting what is expected moves nothing. -/
theorem emits_noted {entry : Expectation} {a : Depths} {out : Option Depths}
    (noted : Noted t setting entry code) (lower : -1 ≤ a.results ∧ -1 ≤ a.positions) :
    Emits context code a a false out := by
  unfold Noted at noted
  split at noted
  · obtain ⟨i, -, rfl⟩ := noted
    exact .ops ⟨trivial, by simp [Op.operands], lower, rfl⟩
  · subst noted
    exact .nil

end Rows

section Expressions

variable {g : Grammar} {context : EmitContext} {t : Target}
  (literals : context.literals = t.tables.literals)
  (rules : ∀ name, g.defines name = true →
    0 ≤ t.placeOf name ∧ t.placeOf name < context.ruleNames.length)

include literals rules in
/-- The code of an expression pushes one result. -/
theorem pushes_of_lowered (e : Expr) : e.Everywhere g.Resolves →
    ∀ (setting : Setting) (labels : Environment) (code : List Instr), Lowered t setting labels e code →
      labels.Within setting.top → -1 ≤ setting.top → Pushes context setting.top code := by
  induction e using Expr.byChildren with
  | node e ih =>
    intro resolves setting labels code lowered within deep
    have each : ∀ b ∈ e.children, ∀ (setting : Setting) (labels : Environment) (code : List Instr),
        Lowered t setting labels b code → labels.Within setting.top → -1 ≤ setting.top →
          Pushes context setting.top code := fun b hb => ih b hb (resolves.child hb)
    -- what is repeated runs above the list of what has been collected
    have above : ∀ b ∈ e.children, ∀ code, Lowered t setting.next.inner labels b code →
        Pushes context (setting.top + 1) code := fun b hb code lowered =>
      each b hb setting.next.inner labels code lowered (within.mono (Int.le_add_one (Int.le_refl _)))
        (show -1 ≤ setting.top + 1 by omega)
    cases e with
    | literal info value ignoreCase =>
      unfold Lowered at lowered
      split at lowered
      · subst lowered
        exact .ops fun p bound => ⟨trivial, List.forall_mem_nil _, ⟨deep, bound⟩, rfl⟩
      · obtain ⟨noted, i, notes, found, rfl⟩ := lowered
        intro p bound
        have matching : Emits context
            (Build.ops [if ignoreCase then .matchLowercase i else .matchLiteral i])
            ⟨setting.top, p⟩ ⟨setting.top + 1, p⟩ false none := by
          have at? := Index.at?_natCast (literals ▸ found)
          cases ignoreCase with
          | true => exact .ops ⟨trivial, by simp [Op.operands], ⟨deep, bound⟩, rfl⟩
          | false => exact .ops ⟨⟨_, at?⟩, by simp [Op.operands], ⟨deep, bound⟩, rfl⟩
        exact (emits_noted notes ⟨deep, bound⟩).followed matching
    | charClass info members =>
      unfold Lowered at lowered
      obtain ⟨noted, notes, lowered⟩ := lowered
      intro p bound
      have start : Emits context noted ⟨setting.top, p⟩ ⟨setting.top, p⟩ false none :=
        emits_noted notes ⟨deep, bound⟩
      split at lowered
      · subst lowered
        exact start.followed (.ops ⟨trivial, List.forall_mem_nil _, ⟨deep, bound⟩, rfl⟩)
      · obtain ⟨i, -, rfl⟩ := lowered
        exact start.followed (.ops ⟨trivial, by simp [Op.operands], ⟨deep, bound⟩, rfl⟩)
    | any info =>
      unfold Lowered at lowered
      obtain ⟨noted, notes, rfl⟩ := lowered
      exact fun p bound => (emits_noted notes ⟨deep, bound⟩).followed
        (.ops ⟨trivial, List.forall_mem_nil _, ⟨deep, bound⟩, rfl⟩)
    | ruleRef info name =>
      unfold Lowered at lowered
      subst lowered
      obtain ⟨natural, bounded⟩ := rules name resolves.here
      exact .ops fun p bound => ⟨bounded, by simpa [Op.operands] using natural, ⟨deep, bound⟩, rfl⟩
    | sequence info es =>
      unfold Lowered at lowered
      obtain ⟨body, lowered, rfl⟩ := lowered
      intro p bound
      obtain ⟨row, -⟩ := emits_row each lowered within (List.forall_mem_nil _) (Nat.le_refl 1)
        (show ((1 : Nat) : Int) ≤ setting.top + 2 by omega) (show 0 ≤ p + 1 by omega)
      rw [show setting.top - ((1 : Nat) : Int) + 2 = setting.top + 1 by omega] at row
      exact .bracket ⟨deep, bound⟩ (by omega) (.once row rfl)
    | choice info es =>
      unfold Lowered at lowered
      split at lowered
      · subst lowered
        exact .ops fun p bound => ⟨trivial, List.forall_mem_nil _, ⟨deep, bound⟩, rfl⟩
      · obtain ⟨codes, lowered, nonempty, rfl⟩ := lowered
        have all : ∀ code ∈ codes, Pushes context setting.inner.top code := pushes_choices
          (fun e member code lowered => each e member setting.inner labels code lowered within deep)
          lowered
        exact fun p bound => .once (emits_firstMatch ⟨deep, bound⟩ nonempty all) rfl
    | labeled info label at? auto body =>
      unfold Lowered at lowered
      exact each body (by simp [Expr.children]) setting.inner labels code lowered within deep
    | unary info operator body =>
      have below : body ∈ (Expr.unary info operator body).children := by simp [Expr.children]
      have inner := each body below setting.inner labels
      cases operator with
      | group =>
        unfold Lowered at lowered
        exact inner code lowered within deep
      | text =>
        unfold Lowered at lowered
        obtain ⟨innerCode, lowered, rfl⟩ := lowered
        have pushes := inner innerCode lowered within deep
        split
        · exact pushes
        · refine .onMatch deep pushes fun _ p bound => .ops ?_
          simp [Op.Leads, Op.Fits, Op.operands, Op.depths]
          omega
      | followedBy =>
        unfold Lowered at lowered
        obtain ⟨innerCode, lowered, rfl⟩ := lowered
        exact .lookahead false deep (inner innerCode lowered within deep)
      | notFollowedBy =>
        unfold Lowered at lowered
        obtain ⟨innerCode, lowered, rfl⟩ := lowered
        exact .lookahead true deep (inner innerCode lowered within deep)
      | optional =>
        unfold Lowered at lowered
        obtain ⟨innerCode, lowered, rfl⟩ := lowered
        exact .optional deep (inner innerCode lowered within deep)
      | zeroOrMore =>
        unfold Lowered at lowered
        obtain ⟨innerCode, lowered, rfl⟩ := lowered
        exact .repetition deep (above body below innerCode lowered) fun _ => .nil
      | oneOrMore =>
        unfold Lowered at lowered
        obtain ⟨innerCode, lowered, checked⟩ := lowered
        exact .checkMin within deep (.repetition deep (above body below innerCode lowered) fun _ => .nil)
          checked
    | range info min max body delimiter =>
      cases delimiter with
      | none =>
        unfold Lowered at lowered
        obtain ⟨innerCode, checkMax, lowered, most, checked⟩ := lowered
        have below : body ∈ (Expr.range info min max body none).children := by simp [Expr.children]
        exact .checkMin within deep (.repetition deep (above body below innerCode lowered)
          fun _ => .checkMax within deep most) checked
      | some separator =>
        unfold Lowered at lowered
        obtain ⟨innerCode, checkMax, between, lowered, most, separated, checked⟩ := lowered
        have below : body ∈ (Expr.range info min max body (some separator)).children := by
          simp [Expr.children]
        have beside : separator ∈ (Expr.range info min max body (some separator)).children := by
          simp [Expr.children]
        exact .checkMin within deep (.separated deep (above body below innerCode lowered)
          (fun _ => .checkMax within deep most) (above separator beside between separated)) checked
    | named info name body =>
      have below : body ∈ (Expr.named info name body).children := by simp [Expr.children]
      unfold Lowered at lowered
      split at lowered
      · obtain ⟨i, innerCode, -, lowered, rfl⟩ := lowered
        have pushes := each body below { setting with reports := false } labels innerCode lowered
          within deep
        intro p bound
        have notes : Emits context (Build.ops [.expect i, .silence]) ⟨setting.top, p⟩ ⟨setting.top, p⟩
            false none := by
          refine .ops ?_
          simp [Op.Leads, Op.Fits, Op.operands, Op.depths]
          omega
        exact (notes.followed (pushes p bound)).followed
          (.ops ⟨trivial, List.forall_mem_nil _, ⟨show -1 ≤ setting.top + 1 by omega, bound⟩, rfl⟩)
      · exact each body below setting labels code lowered within deep
    | action info text at? body =>
      have below : body ∈ (Expr.action info text at? body).children := by simp [Expr.children]
      unfold Lowered at lowered
      obtain ⟨innerCode, lowered, rest⟩ := lowered
      have pushes := each body below { setting with finish := some text } labels innerCode lowered
        within deep
      split at rest
      · subst rest
        exact pushes
      · obtain ⟨calling, rfl, does⟩ := rest
        refine .onMatch deep pushes fun possible p bound => ?_
        obtain ⟨acting, rfl, i, -, rfl⟩ := does possible
        have marks : Emits context (Build.ops [.markTop]) ⟨setting.top + 1, p⟩ ⟨setting.top + 1, p⟩
            false none :=
          .ops ⟨bound, List.forall_mem_nil _, ⟨show -1 ≤ setting.top + 1 by omega, show -1 ≤ p by omega⟩,
            rfl⟩
        have calls : Emits context
            (Build.call i 1 (body.define (setting.top + 1) labels) (setting.top + 1))
            ⟨setting.top + 1, p⟩ ⟨setting.top + 1 - 1 + 1, p⟩ false none :=
          .call (within.define body deep) (by omega) (by omega) (by omega)
        rw [Int.sub_add_cancel] at calls
        exact marks.followed calls
    | predicate info negative text =>
      unfold Lowered at lowered
      obtain ⟨_, ⟨i, -, rfl⟩, rfl⟩ := lowered
      intro p bound
      have marks : Emits context (Build.ops [.markHere]) ⟨setting.top, p⟩ ⟨setting.top, p⟩ false none :=
        .ops ⟨trivial, List.forall_mem_nil _, ⟨deep, bound⟩, rfl⟩
      have calls : Emits context (Build.call i 0 labels setting.top) ⟨setting.top, p⟩
          ⟨setting.top - 0 + 1, p⟩ false none := .call within (by omega) (by omega) bound
      rw [Int.sub_zero] at calls
      have replaces (result : Constant) : Emits context (Build.ops [.pop, .push result])
          ⟨setting.top + 1, p⟩ ⟨setting.top + 1, p⟩ false none := by
        refine .ops ?_
        simp [Op.Leads, Op.Fits, Op.operands, Op.depths]
        omega
      have fits : Test.isTrue.Fits ⟨setting.top + 1, p⟩ := show (0 : Int) ≤ setting.top + 1 by omega
      exact (marks.followed calls).followed (.branch fits (replaces _) (replaces _))
    | foreign what =>
      unfold Lowered at lowered
      exact absurd lowered id

end Expressions

end Emit

end PegCompiler
