import PegCompiler.Compile.Stage
import PegCompiler.Proofs.Analysis.Inference
import PegCompiler.Proofs.Analysis.Marks
import PegCompiler.Proofs.Proxy.Redirect

/-!
From a text to a grammar that can be lowered. A grammar that was read and has passed the checks goes
through the passes before lowering without a fault (`Grammar.prepare_clear`); what they make of it is
accepted, and its verdicts are settled (`Grammar.prepare_prepared`).
-/

namespace PegCompiler

namespace Grammar

/-- Ready to be lowered. -/
structure Prepared (g : Grammar) : Prop where
  accepted : g.Accepted
  judged : g.Judged

/-- What may be relied on of an expression that is lowered. -/
structure Sound (g : Grammar) (e : Expr) : Prop where
  textual : e.Textual
  judged : e.Judged g.known
  resolves : e.Everywhere g.Resolves
  advances : e.Everywhere g.Advances

theorem Sound.child {g : Grammar} {e c : Expr} (sound : g.Sound e) (hc : c ∈ e.children) :
    g.Sound c :=
  ⟨sound.textual.child hc, sound.judged.child hc, sound.resolves.child hc, sound.advances.child hc⟩

/-- Apart from references, nodes have the verdict concluded for them. -/
theorem Sound.verdict {g : Grammar} {e : Expr} (sound : g.Sound e)
    (h : ∀ info name, e ≠ .ruleRef info name) : e.verdict = e.conclusion := by
  have judged := sound.judged.here
  cases e with
  | ruleRef info name => exact absurd rfl (h info name)
  | foreign what => exact absurd judged id
  | _ => simp only [Expr.verdict, show _ = some _ from judged, Option.getD_some]

/-- The body of a rule may have a display name around it. -/
inductive SoundBody (g : Grammar) : Expr → Prop
  | plain {e : Expr} : g.Sound e → SoundBody g e
  | displayed {info : Info} {name : Text} {e : Expr} : info.verdict = some e.verdict → g.Sound e →
    SoundBody g (.named info name e)

namespace SoundBody

variable {g : Grammar} {e : Expr} (body : g.SoundBody e)

include body

/-- A rule has an expression, or one with a display name. -/
theorem plain_or_named : e.isNamed = false ∧ g.Sound e ∨ ∃ info name inner, e = .named info name inner ∧
    info.verdict = some inner.verdict ∧ g.Sound inner := by
  cases body with
  | displayed verdict sound => exact .inr ⟨_, _, _, rfl, verdict, sound⟩
  | plain sound =>
    refine .inl ⟨?_, sound⟩
    cases e with
    | named => exact absurd sound.textual.here id
    | _ => rfl

/-- A sound body without a display name. -/
theorem sound (plain : e.isNamed = false) : g.Sound e := by
  cases body with
  | plain sound => exact sound
  | displayed => cases plain

end SoundBody

theorem Prepared.soundBody {g : Grammar} (prepared : g.Prepared) {r : Rule} (hr : r ∈ g.rules) :
    g.SoundBody r.body := by
  have resolves := prepared.accepted.resolves r hr
  have advances := prepared.accepted.advances r hr
  obtain ⟨-, -, -, judged⟩ := prepared.judged r hr
  cases h : r.body with
  | named info name e =>
    rw [h] at resolves advances judged
    have textual := prepared.accepted.textual r hr
    rw [h] at textual
    cases textual with
    | plain textual => exact absurd textual.here id
    | displayed textual =>
      have below : e ∈ (Expr.named info name e).children := by simp [Expr.children]
      exact .displayed judged.here
        ⟨textual, judged.child below, resolves.child below, advances.child below⟩
  | _ =>
    rw [h] at resolves advances judged
    have textual := prepared.accepted.textual r hr
    rw [h] at textual
    cases textual with
    | plain textual => exact .plain ⟨textual, judged, resolves, advances⟩

/-- The same rules with other annotations. -/
structure Annotated (g h : Grammar) : Prop where
  length : h.rules.length = g.rules.length
  rule : ∀ (i : Nat) (r : Rule), g.rules[i]? = some r →
    ∃ r' : Rule, h.rules[i]? = some r' ∧ r'.name = r.name ∧ Expr.Like id r.body r'.body

section Annotated

variable {g h : Grammar}

theorem Annotated.at? (annotated : Annotated g h) {i : Nat} {s : Rule} (found : h.rules[i]? = some s) :
    ∃ r, g.rules[i]? = some r ∧ s.name = r.name ∧ Expr.Like id r.body s.body := by
  have bound : i < g.rules.length := annotated.length ▸ (List.getElem?_eq_some_iff.mp found).1
  obtain ⟨s', found', name, like⟩ := annotated.rule i _ (List.getElem?_eq_getElem bound)
  obtain rfl := Option.some.inj (found.symm.trans found')
  exact ⟨_, List.getElem?_eq_getElem bound, name, like⟩

theorem Annotated.names (annotated : Annotated g h) : h.ruleNames = g.ruleNames := by
  refine List.ext_getElem? fun i => ?_
  simp only [ruleNames, List.getElem?_map]
  cases at? : g.rules[i]? with
  | none =>
    have : h.rules[i]? = none := by
      rw [List.getElem?_eq_none_iff] at at? ⊢
      exact annotated.length ▸ at?
    rw [this]
  | some r =>
    obtain ⟨r', found, name, -⟩ := annotated.rule i r at?
    simp [found, name]

theorem Annotated.succeeds (annotated : Annotated g h) (accepted : g.Accepted) :
    Succeeds id g h := by
  constructor
  · intro s member
    obtain ⟨i, found⟩ := List.mem_iff_getElem?.mp member
    obtain ⟨r, before, name, like⟩ := annotated.at? found
    exact ⟨r, List.mem_of_getElem? before, name.symm, like⟩
  · rw [annotated.names]
    exact accepted.names
  · intro s member
    obtain ⟨i, found⟩ := List.mem_iff_getElem?.mp member
    obtain ⟨r, before, -, like⟩ := annotated.at? found
    refine like.everywhere (fun e f like here => ?_) (accepted.resolves r (List.mem_of_getElem? before))
    cases f with
    | ruleRef info name =>
      obtain ⟨name, _, rfl, rfl⟩ := like.of_ruleRef
      change h.defines name = true
      rw [defines_iff, annotated.names, ← defines_iff]
      exact here
    | _ => trivial
  · exact fun _ => .inl rfl
  · exact fun _ => rfl

end Annotated

variable {settings : Settings} {g : Grammar}

/-- The grammar as it comes out of the passes before lowering. -/
def prepare (settings : Settings) (g : Grammar) : Grammar :=
  let resolved := (Pass.proxies.run settings g).grammar
  let marked := (Pass.reporting.run settings resolved).grammar
  (Pass.matching.run settings marked).grammar

/-- The passes before lowering one after the other: the grammar with its references resolved, its
rules with their marks, and the rules with their verdicts. -/
structure Prepares (settings : Settings) (g resolved : Grammar) (marks verdicts : List Rule) : Prop where
  clear : (Pass.proxies.run settings g).IsClear
  resolves : (Pass.proxies.run settings g).grammar = resolved
  descends : g.Descends resolved
  reports : Reporting.annotate resolved settings.startRules = ({ resolved with rules := marks }, none)
  marked : ∀ r ∈ marks, ∃ s ∈ resolved.rules, ∃ mark, r = { s with reportsFailures := some mark }
  before : Annotated resolved { resolved with rules := marks }
  infers : Matching.annotate { resolved with rules := marks } =
    ({ resolved with rules := verdicts }, [], none)
  annotates : ∀ r' ∈ verdicts, ∃ r ∈ marks, Matching.Annotates r r'
  behind : Annotated { resolved with rules := marks } { resolved with rules := verdicts }
  judged : ({ resolved with rules := verdicts } : Grammar).Judged

variable (settings) in
theorem exists_prepares (accepted : g.Accepted)
    (fresh : ∀ r ∈ g.rules, r.verdict = none ∧ r.words = none) :
    ∃ resolved marks verdicts, Prepares settings g resolved marks verdicts := by
  obtain ⟨clear, descends, fresh⟩ := Proxy.resolve_descends accepted fresh settings.startRules
  have textual := (descends.accepted accepted).textual
  obtain ⟨rules, reports, length, same⟩ :=
    Reporting.annotate_native (fun r member => (textual r member).expressions) settings.startRules
  have marked : ∀ r ∈ rules, ∃ s ∈ (Proxy.resolve g settings.startRules).1.rules, ∃ mark,
      r = { s with reportsFailures := some mark } := by
    intro r member
    obtain ⟨i, found⟩ := List.mem_iff_getElem?.mp member
    have bound := length ▸ (List.getElem?_eq_some_iff.mp found).1
    obtain ⟨mark, found'⟩ := same i _ (List.getElem?_eq_getElem bound)
    exact ⟨_, List.getElem_mem bound, mark, Option.some.inj (found.symm.trans found')⟩
  have before : Annotated (Proxy.resolve g settings.startRules).1
      { (Proxy.resolve g settings.startRules).1 with rules } := ⟨length, fun i r at? => by
    obtain ⟨mark, found⟩ := same i r at?
    exact ⟨_, found, rfl, .refl r.body⟩⟩
  have accepted' := (descends.accepted accepted).succeeds (before.succeeds (descends.accepted accepted))
  have inferable := accepted'.inferable fun r member => by
    obtain ⟨s, before, mark, rfl⟩ := marked r member
    exact (fresh s before).1
  obtain ⟨verdicts, infers, inferred⟩ := Matching.annotate_infers inferable
  refine ⟨_, rules, verdicts, Pass.checked_isClear.mpr clear, rfl, descends, reports, marked, before,
    infers, fun r' member => ?_, ⟨inferred.length, fun i r at? => ?_⟩, inferred.judged inferable⟩
  · obtain ⟨r, before, ofRule, rfl, -⟩ := inferred.of_mem member
    exact ⟨r, before, Matching.annotates_judged r ofRule⟩
  · obtain ⟨ofRule, found, -⟩ := inferred.rule i r at?
    exact ⟨_, found, rfl, Expr.judge_like _⟩

theorem Prepares.prepare_eq {resolved : Grammar} {marks verdicts : List Rule}
    (prepares : Prepares settings g resolved marks verdicts) :
    g.prepare settings = { resolved with rules := verdicts } := by
  simp only [prepare, prepares.resolves]
  simp only [Pass.run, prepares.reports, prepares.infers]

/-- What the passes before lowering make of a grammar. -/
structure Preparation (settings : Settings) (g : Grammar) : Prop where
  proxies : (Pass.proxies.run settings g).IsClear
  reporting : (Pass.reporting.run settings (Pass.proxies.run settings g).grammar).IsClear
  matching : (Pass.matching.run settings
    (Pass.reporting.run settings (Pass.proxies.run settings g).grammar).grammar).IsClear
  prepared : (g.prepare settings).Prepared
  descends : g.Descends (g.prepare settings)

theorem preparation (accepted : g.Accepted)
    (fresh : ∀ r ∈ g.rules, r.verdict = none ∧ r.words = none) : Preparation settings g := by
  obtain ⟨resolved, marks, verdicts, prepares⟩ := exists_prepares settings accepted fresh
  have accepted₁ := prepares.descends.accepted accepted
  have succeeds₁ := prepares.before.succeeds accepted₁
  have accepted₂ := accepted₁.succeeds succeeds₁
  have succeeds₂ := prepares.behind.succeeds accepted₂
  constructor
  · exact prepares.clear
  · rw [prepares.resolves]
    exact ⟨by simp only [Pass.run, prepares.reports, Option.map_none], by simp [Pass.run]⟩
  · rw [prepares.resolves]
    constructor
    · simp only [Pass.run, prepares.reports, prepares.infers, Option.map_none]
    · simp only [Pass.run, prepares.reports, prepares.infers]
      simp
  · rw [prepares.prepare_eq]
    exact ⟨accepted₂.succeeds succeeds₂, prepares.judged⟩
  · rw [prepares.prepare_eq]
    exact (prepares.descends.step succeeds₁).step succeeds₂

/-- A grammar that was read and passed the checks can be prepared. -/
theorem preparation_of_read {text : Text} {source : Option Text}
    (read : Grammar.read text source = .ok g)
    (checked : (Stage.check.run settings g).failure = none) : Preparation settings g :=
  preparation (accepted_of_read read checked) (fresh_of_read read)

end Grammar

end PegCompiler
