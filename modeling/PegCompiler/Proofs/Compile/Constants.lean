import PegCompiler.Proofs.Code.Entries
import PegCompiler.Proofs.Run.Correctness

/-!
The tables of a compiled grammar are exact. They hold each constant once, the operands of every rule
lead to the constants of its expressions, and nothing is in the tables that no instruction refers to
(`Grammar.tables_exact`).
-/

namespace PegCompiler

/-- The references in the words of a rule, in order. -/
def Rule.RefersTo (r : Rule) (references : List Reference) : Prop :=
  ∃ words code, r.words = some words ∧ Instr.decode? words = some code ∧
    references = Instr.allReferences code

namespace Grammar

variable {g : Grammar} {settings : Settings}

/-- A grammar that has been lowered has the rules and the tables that lowering its rules gives. -/
theorem rules_of_lower {lowered : Grammar} {tables : Tables} (h : g.lower = (lowered, none))
    (has : lowered.tables = some tables) :
    Lower.rules g.placeOf g.rules {} = (lowered.rules, .ok tables) := by
  unfold lower at h
  cases result : Lower.rules g.placeOf g.rules {} with
  | mk rules outcome =>
    rw [result] at h
    cases outcome with
    | error fault => cases h
    | ok made =>
      cases h
      cases has
      rfl

/-- The tables of a lowered grammar are exact: every entry is there once; the references of a rule
denote the constants of the expression that the rule had before, one for one; and there is an
instruction that refers to each entry. -/
structure Tabulates (g lowered : Grammar) (tables : Tables) : Prop where
  distinct : tables.Distinct
  denotes : List.Forall₂ (fun before r : Rule => ∃ references, r.RefersTo references ∧
    references.map tables.at? = (before.body.constants before.reports none []).map some)
    g.rules lowered.rules
  referenced : ∀ reference, tables.Has reference →
    ∃ r ∈ lowered.rules, ∃ references, r.RefersTo references ∧ reference ∈ references

theorem Prepared.tabulates (prepared : g.Prepared) : ∃ lowered tables,
    g.lower = (lowered, none) ∧ lowered.tables = some tables ∧ g.Tabulates lowered tables := by
  obtain ⟨rules, tables, lowers, -, encoded⟩ := prepared.lower
  obtain ⟨distinct, new⟩ := Lower.rules_account (rules_of_lower lowers rfl)
  refine ⟨_, tables, lowers, rfl, distinct ⟨by simp, by simp, by simp, by simp⟩, ?_, ?_⟩
  · refine encoded.imp fun r r' => ?_
    rintro ⟨code, rfl, lowered⟩
    exact ⟨_, ⟨_, code, rfl, Instr.decode?_encode code, rfl⟩, Lowered.denotes r.body _ _ code lowered⟩
  · intro reference has
    rcases new reference has with before | ⟨r, member, code, words, inCode⟩
    · cases reference <;> simp [Tables.Has, Tables.at?, Tables.item?] at before
    · exact ⟨r, member, _, ⟨_, code, words, Instr.decode?_encode code, rfl⟩, inCode⟩

/-- A grammar that was read and has passed the checks is lowered to one with exact tables, whatever
the settings are. -/
theorem tables_exact {text : Text} {source : Option Text} (read : Grammar.read text source = .ok g)
    (checked : (Stage.check.run settings g).failure = none) :
    ∃ lowered tables, (g.prepare settings).lower = (lowered, none) ∧
      lowered.tables = some tables ∧ (g.prepare settings).Tabulates lowered tables :=
  (preparation_of_read read checked).prepared.tabulates

/-- A literal whose case does not matter and a plain one share their entry; the labels of both
alternatives are apart. -/
def constantsText : Text :=
  .ofString "s = n:c 'A'i 'a' ![x] { return n } / m:c &{ m } 'a' c\nc \x22c\x22 = [0-9] / [x]"

theorem constants_exact : ∃ g lowered tables, Grammar.read constantsText none = .ok g ∧
    (Stage.check.run plainSettings g).failure = none ∧
    (g.prepare plainSettings).lower = (lowered, none) ∧ lowered.tables = some tables ∧
    tables.literals = [.ofString "a"] ∧
    tables.functions = [⟨false, [.ofString "n"], .ofString " return n "⟩,
      ⟨true, [.ofString "m"], .ofString " m "⟩] ∧
    (g.prepare plainSettings).Tabulates lowered tables := by
  obtain ⟨g, read, checked, passes⟩ := exists_of_accepted
    (show (accepted? plainSettings constantsText).any (fun g =>
      (g.prepare plainSettings).lower.1.tables.any fun tables =>
        tables.literals == [.ofString "a"] &&
        tables.functions == [⟨false, [.ofString "n"], .ofString " return n "⟩,
          ⟨true, [.ofString "m"], .ofString " m "⟩]) = true by decide +kernel)
  obtain ⟨lowered, tables, lowers, has, exact⟩ := tables_exact read checked
  simp only [lowers, has, Option.any_some, Bool.and_eq_true, beq_iff_eq] at passes
  exact ⟨g, lowered, tables, read, checked, lowers, has, passes.1, passes.2, exact⟩

end Grammar

end PegCompiler
