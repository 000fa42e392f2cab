import PegCompiler.Proofs.Code.Lowering

/-!
Lowering that leaves out no expectation. Every rule gets an instruction for all that can be expected in
it, marked to report failures or not; a rule with a display name gets those for its expression as well
as the one for its name. It succeeds on what was prepared (`Grammar.Prepared.lowerThoroughly`).
-/

namespace PegCompiler

namespace Lower

/-- The setting of a rule that is to report everything. -/
def loud : Setting := { top := -1, reports := true }

/-- The code of a rule with all expectations. Below a display name the code of a rule that reports
failures is silent, and where everything is `bracketed`, that of any rule. -/
def thorough (bracketed : Bool) (placeOf : Text → Int) (r : Rule) : Lower (List Instr) :=
  match r.body with
  | .named _ name body => do
    needCode loud body
    let index ← expectation (.rule name)
    let code ← expr placeOf loud body
    if bracketed || r.reports then
      return Build.ops [.expect index, .silence] ++ code ++ Build.ops [.unsilence]
    return Build.ops [.expect index] ++ code
  | body => expr placeOf loud body

def thoroughRule (bracketed : Bool) (placeOf : Text → Int) (r : Rule) (tables : Tables) :
    Except LoweringFault (Option (List Instr) × Tables) := do
  if isCodeless true r.body then return (none, tables)
  let (code, w) ← (thorough bracketed placeOf r).run { tables }
  return (some code, w.tables)

end Lower

/-- Lowers all rules with all expectations. -/
def Grammar.lowerThoroughly (bracketed : Bool) (g : Grammar) : Grammar × Option LoweringFault :=
  let (rules, outcome) := Lower.rulesBy (Lower.thoroughRule bracketed g.placeOf) g.rules {}
  match outcome with
  | .ok tables => ({ g with rules, tables := some tables }, none)
  | .error fault => ({ g with rules }, some fault)

/-- The code of a rule with all expectations, given the final tables. -/
def LoweredThoroughly (bracketed : Bool) (t : Target) (r : Rule) (code : List Instr) : Prop :=
  match r.body with
  | .named _ name body =>
    ∃ (i : Nat) (inner : List Instr), t.tables.expectations[i]? = some (.rule name) ∧
      Lowered t Lower.loud [] body inner ∧
      code = if bracketed || r.reports then
          Build.ops [.expect i, .silence] ++ inner ++ Build.ops [.unsilence]
        else Build.ops [.expect i] ++ inner
  | body => Lowered t Lower.loud [] body code

theorem LoweredThoroughly.of_plain {bracketed : Bool} {t : Target} {r : Rule} {code : List Instr}
    (plain : r.body.isNamed = false) (lowered : LoweredThoroughly bracketed t r code) :
    Lowered t Lower.loud [] r.body code := by
  unfold LoweredThoroughly at lowered
  split at lowered
  · rename_i body
    rw [body] at plain
    cases plain
  · exact lowered

namespace Lower

variable {g : Grammar} (bracketed : Bool) (placeOf : Text → Int)

theorem thorough_makes {r : Rule} (body : g.SoundBody r.body) (bounds : r.body.Scoped [])
    (tables : Tables) : Makes (thorough bracketed placeOf r) { tables } fun code v =>
      ∀ final, v.tables.Grows final → LoweredThoroughly bracketed ⟨placeOf, final⟩ r code := by
  unfold thorough LoweredThoroughly
  cases at? : r.body with
  | named info name e =>
    rw [at?] at body bounds
    cases body with
    | plain sound => exact absurd sound.textual.here id
    | displayed verdict sound =>
      simp only
      rw [needCode_of_textual sound.textual, pure_bind]
      refine .bind (expectation_makes (.rule name) trivial) fun i v h => ?_
      obtain ⟨labels, autos, n, rfl, found⟩ := h
      refine .bind (expr_makes e sound [] bounds loud v (by simp [labels]) fun _ => autos)
        fun code u made => ?_
      have labels : v.labels = [] := labels
      have lowered (grows : v.tables.Grows u.tables) (final : Tables) (later : u.tables.Grows final) :
          final.expectations[n]? = some (.rule name) ∧
            Lowered ⟨placeOf, final⟩ loud [] e code :=
        ⟨found ⟨placeOf, final⟩ (grows.trans later), labels ▸ made.lowered final later⟩
      split
      · exact .pure fun grows grows' final later =>
          ⟨n, code, (lowered grows' final later).1, (lowered grows' final later).2, rfl⟩
      · exact .pure fun grows grows' final later =>
          ⟨n, code, (lowered grows' final later).1, (lowered grows' final later).2, rfl⟩
  | _ =>
    rw [at?] at body bounds
    cases body with
    | plain sound =>
      exact (expr_makes _ sound [] bounds loud _ (by simp) fun _ => rfl).mono fun code v made =>
        made.lowered

theorem thoroughRule_lowers {r : Rule} (body : g.SoundBody r.body) (bounds : r.body.Scoped [])
    (tables : Tables) : ∃ code after,
      thoroughRule bracketed placeOf r tables = .ok (some code, after) ∧ tables.Grows after ∧
        ∀ final, after.Grows final → LoweredThoroughly bracketed ⟨placeOf, final⟩ r code := by
  obtain ⟨code, v, found, grows, lowered⟩ := thorough_makes bracketed placeOf body bounds tables
  refine ⟨code, v.tables, ?_, grows, lowered⟩
  simp only [thoroughRule, isCodeless_of_body body true]
  change (thorough bracketed placeOf r { tables }).bind _ = _
  rw [found]
  rfl

end Lower

/-- Lowering with all expectations never fails on what was prepared. -/
theorem Grammar.Prepared.lowerThoroughly {g : Grammar} (prepared : g.Prepared) (bracketed : Bool) :
    ∃ rules tables, g.lowerThoroughly bracketed = ({ g with rules, tables := some tables }, none) ∧
      tables.Textual ∧ List.Forall₂
        (Lower.EncodedBy (LoweredThoroughly bracketed ⟨g.placeOf, tables⟩)) g.rules rules := by
  obtain ⟨rules, tables, lowered, grows, encoded⟩ := Lower.rulesBy_lower (fun r hr =>
    Lower.thoroughRule_lowers bracketed g.placeOf (prepared.soundBody hr)
      (prepared.accepted.scopes r hr)) {}
  exact ⟨rules, tables, by simp [Grammar.lowerThoroughly, lowered],
    grows.textual ⟨by simp, by simp⟩, encoded tables (.refl _)⟩

end PegCompiler
