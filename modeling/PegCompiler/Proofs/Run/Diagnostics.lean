import PegCompiler.Proofs.Run.Books
import PegCompiler.Proofs.Run.Caching
import PegCompiler.Proofs.Run.Expectations

/-!
What is left of the error of a parse that does not match where results are kept. A result that comes from
the memo table leaves no expectations behind, so the error may tell of fewer of them, or of a place
before (`Grammar.name_instead`). It never tells more than the error where nothing is kept, and it tells
the same where every rule that is called again at an offset is called in silence, or within as many
negative lookaheads, up to an even number, as the first time (`Grammar.cached_diagnostics`).
-/

namespace PegCompiler

theorem CodePoint.toNat_injective : Function.Injective CodePoint.toNat := by
  have outside (a : Char) (i : Fin 2048) : (scalar a).toNat ≠ (surrogate i).toNat := by
    have valid : a.toNat < 0xD800 ∨ 0xDFFF < a.toNat ∧ a.toNat < 0x110000 := a.valid
    simp only [CodePoint.toNat]
    omega
  intro c d same
  cases c with
  | scalar a =>
    cases d with
    | scalar b => exact congrArg scalar (Char.ext (UInt32.toNat.inj same))
    | surrogate i => exact absurd same (outside a i)
  | surrogate i =>
    cases d with
    | scalar b => exact absurd same.symm (outside b i)
    | surrogate j =>
      simp only [CodePoint.toNat] at same
      exact congrArg surrogate (Fin.ext (by omega))

namespace Text

theorem le_total (a b : Text) : (le a b || le b a) = true := by
  induction a generalizing b with
  | nil => simp [le]
  | cons c a ih =>
    cases b with
    | nil => simp [le]
    | cons d b =>
      rcases Nat.lt_trichotomy c.toNat d.toNat with less | same | more
      · simp [le, less]
      · obtain rfl := CodePoint.toNat_injective same
        simpa [le] using ih b
      · simp [le, more]

theorem le_trans (a b c : Text) (first : le a b = true) (second : le b c = true) : le a c = true := by
  induction a generalizing b c with
  | nil => rfl
  | cons x a ih =>
    cases b with
    | nil => cases first
    | cons y b =>
      cases c with
      | nil => cases second
      | cons z c =>
        simp only [le, Bool.or_eq_true, decide_eq_true_eq, Bool.and_eq_true, beq_iff_eq] at first second ⊢
        rcases first with less | ⟨rfl, first⟩ <;> rcases second with less' | ⟨rfl, second⟩
        · exact .inl (Nat.lt_trans less less')
        · exact .inl less
        · exact .inl less'
        · exact .inr ⟨rfl, ih b c first second⟩

theorem le_antisymm (a b : Text) (first : le a b = true) (second : le b a = true) : a = b := by
  induction a generalizing b with
  | nil =>
    cases b with
    | nil => rfl
    | cons => cases second
  | cons x a ih =>
    cases b with
    | nil => cases first
    | cons y b =>
      simp only [le, Bool.or_eq_true, decide_eq_true_eq, Bool.and_eq_true, beq_iff_eq] at first second
      rcases first with less | ⟨rfl, first⟩ <;> rcases second with less' | ⟨same, second⟩
      · omega
      · rw [same] at less
        exact absurd less (Nat.lt_irrefl _)
      · exact absurd less' (Nat.lt_irrefl _)
      · rw [ih b first second]

end Text

namespace Entry

variable {entry other : Entry}

/-- What is not described by user code can be told apart. -/
theorem eq_of_same (plain : entry.IsPlain) (same : entry.same other = true) : entry = other := by
  induction entry generalizing other with
  | not entry ih =>
    cases other with
    | not other => rw [ih plain same]
    | _ => cases same
  | user => exact absurd plain id
  | literal | charClass | any | endOfInput | rule =>
    cases other with
    | literal | charClass | any | endOfInput | rule => simp_all [Entry.same]
    | _ => cases same

theorem eq_of_isEqv {entries others : List Entry} (plain : ∀ e ∈ entries, e.IsPlain)
    (same : entries.isEqv others Entry.same = true) : entries = others := by
  induction entries generalizing others with
  | nil =>
    cases others with
    | nil => rfl
    | cons => cases same
  | cons e rest ih =>
    cases others with
    | nil => cases same
    | cons f others =>
      obtain ⟨first, rest'⟩ := Bool.and_eq_true_iff.mp same
      rw [eq_of_same (plain e (by simp)) first, ih (fun e he => plain e (by simp [he])) rest']

/-- It has a text for its name. -/
theorem IsPlain.text (plain : entry.IsPlain) : ∃ t, Describe.entry entry = some (.text t) := by
  induction entry with
  | not entry ih =>
    obtain ⟨t, named⟩ := ih plain
    exact ⟨"not " ++ t, by simp only [Describe.entry, named]⟩
  | user => exact absurd plain id
  | _ => exact ⟨_, rfl⟩

end Entry

namespace ParserState

theorem mem_distinct_iff {entries : List Entry} (plain : ∀ e ∈ entries, e.IsPlain) {entry : Entry} :
    entry ∈ distinct entries ↔ entry ∈ entries := by
  refine ⟨mem_distinct, fun member => ?_⟩
  have kept (rest seen : List Entry) (all : ∀ e ∈ rest, e.IsPlain) (h : entry ∈ seen ∨ entry ∈ rest) :
      entry ∈ rest.foldl (fun kept e => if kept.any e.same then kept else kept ++ [e]) seen := by
    induction rest generalizing seen with
    | nil => simpa using h
    | cons first rest ih =>
      refine ih _ (fun e he => all e (by simp [he])) ?_
      rcases h with before | member
      · refine .inl ?_
        simp only
        split
        · exact before
        · exact List.mem_append_left _ before
      · rcases List.mem_cons.mp member with rfl | later
        · refine .inl ?_
          simp only
          split
          · rename_i there
            obtain ⟨e, seen, same⟩ := List.any_eq_true.mp there
            rwa [Entry.eq_of_same (all entry (by simp)) same]
          · simp
        · exact .inr later
  exact kept entries [] plain (.inr member)

end ParserState

theorem Describe.nodup_eraseDups (ts : List Text) : ts.eraseDups.Nodup := by
  induction n : ts.length using Nat.strongRecOn generalizing ts with
  | _ n ih =>
    cases ts with
    | nil => simp
    | cons t rest =>
      have shorter := List.length_filter_le (fun u => !u == t) rest
      rw [List.eraseDups_cons, List.nodup_cons]
      refine ⟨by simp, ih _ ?_ _ rfl⟩
      simp only [List.length_cons] at n
      omega

/-- The message goes by which entries there are, not by their order. -/
theorem Describe.message?_congr {entries others : List Entry} (same : ∀ e, e ∈ entries ↔ e ∈ others)
    (plain : ∀ e ∈ entries, e.IsPlain) (found : Option Text) :
    message? entries found = message? others found := by
  obtain ⟨ts, names, members⟩ := exists_names fun e he => (plain e he).text
  obtain ⟨us, names', members'⟩ := exists_names fun e he => (plain e ((same e).mpr he)).text
  have both : ∀ t, t ∈ ts.eraseDups ↔ t ∈ us.eraseDups := fun t => by
    simp only [List.mem_eraseDups, members, members', same]
  have listed : ts.eraseDups.mergeSort Text.le = us.eraseDups.mergeSort Text.le := by
    have perm : (ts.eraseDups.mergeSort Text.le).Perm (us.eraseDups.mergeSort Text.le) :=
      (List.mergeSort_perm _ _).trans <|
        ((List.perm_ext_iff_of_nodup (nodup_eraseDups ts) (nodup_eraseDups us)).mpr both).trans
          (List.mergeSort_perm _ _).symm
    exact perm.eq_of_pairwise (fun a b _ _ => Text.le_antisymm a b)
      (List.pairwise_mergeSort Text.le_trans Text.le_total _)
      (List.pairwise_mergeSort Text.le_trans Text.le_total _)
  have empty : entries.isEmpty = others.isEmpty := by
    cases entries with
    | nil =>
      cases others with
      | nil => rfl
      | cons e rest => exact absurd ((same e).mpr (by simp)) (by simp)
    | cons e rest =>
      cases others with
      | nil => exact absurd ((same e).mp (by simp)) (by simp)
      | cons => rfl
  unfold message?
  rw [empty, names, names']
  simp only [Option.bind_eq_bind, Option.bind_some, distinct?_texts, listed]

namespace ParseError

/-- The same message, about the same entries at the same place. -/
structure Alike (a b : ParseError) : Prop where
  message : a.message = b.message
  expected : Option.Rel (fun es es' : List Entry => ∀ e, e ∈ es ↔ e ∈ es') a.expected b.expected
  found : a.found = b.found
  place : a.place = b.place

/-- The error is about a place before, or about the same place and no other entries. -/
def Behind (a b : ParseError) : Prop :=
  ∃ span span', a.place = .span span ∧ b.place = .span span' ∧
    (span.start.offset < span'.start.offset ∨ span = span' ∧ a.found = b.found ∧
      Option.Rel (fun es es' : List Entry => es ⊆ es') a.expected b.expected)

end ParseError

namespace ParserState

variable {s s' : ParserState} {record record' : Furthest}

/-- The errors about two records one of which says no more than the other one. -/
theorem failures_of_below (input : s.input = s'.input) (source : s.source = s'.source)
    (records : s.records = [record]) (records' : s'.records = [record']) (sound : record.Sound)
    (sound' : record'.Sound) (below : record.Below record') : ∃ error error',
      s.failure = .syntaxError error ∧ s'.failure = .syntaxError error' ∧ error.Behind error' ∧
        (record'.Below record → error.Alike error') := by
  obtain ⟨message, told, failed⟩ := failure_eq records sound.natural fun e he => (sound.plain e he).text
  obtain ⟨message', told', failed'⟩ :=
    failure_eq records' sound'.natural fun e he => (sound'.plain e he).text
  have members (e : Entry) : e ∈ distinct record.entries ↔ e ∈ record.entries :=
    mem_distinct_iff sound.plain
  have members' (e : Entry) : e ∈ distinct record'.entries ↔ e ∈ record'.entries :=
    mem_distinct_iff sound'.plain
  refine ⟨_, _, failed, failed', ⟨_, _, rfl, rfl, ?_⟩, fun above => ?_⟩
  · rcases below with less | ⟨same, among⟩
    · exact .inl less
    · refine .inr ⟨?_, ?_, .some fun e member => (members' e).mpr (among ((members e).mp member))⟩
      · simp only [spanOf, input, source, same]
      · simp only [input, same]
  · obtain ⟨same, among⟩ : record.offset = record'.offset ∧ record.entries ⊆ record'.entries := by
      rcases below with less | both
      · rcases above with more | ⟨same, -⟩ <;> omega
      · exact both
    have back : record'.entries ⊆ record.entries := by
      rcases above with more | ⟨-, back⟩
      · omega
      · exact back
    have entries (e : Entry) : e ∈ distinct record.entries ↔ e ∈ distinct record'.entries := by
      rw [members, members']
      exact ⟨@among e, @back e⟩
    have plain : ∀ e ∈ distinct record.entries, e.IsPlain := fun e he => sound.plain e ((members e).mp he)
    rw [input, same, Describe.message?_congr entries plain, told'] at told
    cases told
    refine ⟨rfl, .some entries, ?_, ?_⟩
    · simp only [input, same]
    · simp only [spanOf, input, source, same]

end ParserState

/-- What is noted at the end of a parse that leaves input over. -/
def Furthest.atEnd (record : Furthest) (out : Outcome) (offset : Int) : Furthest :=
  if out.isSome then record.meet ⟨offset, some .endOfInput⟩ else record

namespace Furthest

variable {record other : Furthest} {out : Outcome} {offset : Int}

theorem Below.atEnd (below : record.Below other) :
    (record.atEnd out offset).Below (other.atEnd out offset) := by
  unfold Furthest.atEnd
  split
  · exact below.meet _
  · exact below

theorem Sound.atEnd (sound : record.Sound) (lower : 0 ≤ offset) : (record.atEnd out offset).Sound := by
  unfold Furthest.atEnd
  split
  · exact sound.meet lower (by simp [Entry.IsPlain])
  · exact sound

end Furthest

/-- The end of a parse that does not match. -/
theorem ParserState.finish_missed {s : ParserState} {record : Furthest} {out : Outcome}
    (silence : s.silence = 0) (records : s.records = [record]) (upper : s.offset ≤ s.input.length)
    (missed : out = none ∨ s.offset ≠ s.input.length) : ∃ last : ParserState,
      (s.finish out).1 = .error last.failure ∧ last.input = s.input ∧ last.source = s.source ∧
        last.records = [record.atEnd out s.offset] := by
  cases out with
  | none => exact ⟨s, rfl, rfl, rfl, records⟩
  | some value =>
    have left : s.offset ≠ s.input.length := missed.resolve_left (by simp)
    have noted : s.expect .endOfInput =
        .ok { s with records := [record.meet ⟨s.offset, some .endOfInput⟩] } := by
      unfold expect
      rw [if_neg (by omega)]
      simp only [records]
      rfl
    refine ⟨{ s with records := [record.meet ⟨s.offset, some .endOfInput⟩] }, ?_, rfl, rfl, rfl⟩
    unfold finish
    simp only
    rw [if_neg left, if_pos (by omega), noted]

namespace Scene

variable {scene : Scene} {tables : Tables} {input : Text} {source : Option Text} {fuel place : Nat}
  {account : Account Outcome} (prepared : scene.grammar.Prepared) (compiled : scene.Compiled tables)
  (faithful : scene.Faithful) (pure : PureMeaning scene.meaning)

/-- A parse has come to its end as its account has it. -/
structure EndsAs (scene : Scene) (input : Text) (source : Option Text) (fuel place : Nat)
    (account : Account Outcome) (after : World) (record : Furthest) : Prop where
  ran : scene.program.runFrom fuel place { input, source } = (.ok account.value, after)
  valid : (scene.recording input source).Valid after
  offset : after.state.offset = account.stop
  records : after.state.records = [record]
  books : Books scene.program (scene.peg input source) {} account.marks account.calls after

include prepared compiled faithful pure

/-- A parse begins with nothing accounted for. -/
theorem start_described : scene.DescribedAt input source {} [] []
    (Accounting.rule (scene.peg input source) fuel place) (Machine.rule scene.program fuel place)
    { state := { input, source } } := by
  have valid (c : Course) (input' : input = c.input) (source' : source = c.source) :
      c.Valid { state := { input, source } } :=
    Grammar.valid_of_inside ⟨Int.le_refl 0, Int.natCast_nonneg _⟩ (by simp) input' source'
  have begins : Books scene.program (scene.peg input source) {} [] [] { state := { input, source } } := {
    silence := rfl
    natural := Int.le_refl 0
    depth := rfl
    sound := List.forall_mem_singleton.mpr ⟨Int.le_refl 0, by simp⟩
    below := .refl
    whole := fun _ => .refl
    accounted := by simp
    called := fun place start _ kept => by simp [World.kept?] at kept
    told := fun _ _ => rfl }
  have described := rule_describes prepared compiled.length pure faithful fuel place {} [] [] _
    (valid (scene.recording input source) rfl rfl) begins
  have runs := compiled.rule_runs prepared faithful fuel place _ (valid (scene.course input source) rfl rfl)
  unfold DescribedAt Agrees
  rw [runs]
  exact described

theorem ends_of_account
    (ran : Accounting.rule (scene.peg input source) fuel place (.heard false) 0 = .ok account) :
    ∃ after record, scene.EndsAs input source fuel place account after record := by
  have described := @start_described scene tables input source fuel place prepared compiled faithful pure
  unfold DescribedAt at described
  change Agrees _ _ (Accounting.rule _ fuel place (.heard false) 0) _ _ _ at described
  rw [ran] at described
  obtain ⟨out, after, ended, follows, rfl, offset, books⟩ := described
  obtain ⟨record, records⟩ := List.length_eq_one_iff.mp books.depth
  exact ⟨after, record, ended, follows.valid, offset, records, books⟩

/-- Where nothing is kept, a parse that comes to its end has an account. -/
theorem exists_account (plain : scene.program.cache = false) {out : Outcome} {after : World}
    (ended : scene.program.runFrom fuel place { input, source } = (.ok out, after)) :
    ∃ account, Accounting.rule (scene.peg input source) fuel place (.heard false) 0 = .ok account := by
  have described := @start_described scene tables input source fuel place prepared compiled faithful pure
  unfold DescribedAt at described
  change Agrees _ _ (Accounting.rule _ fuel place (.heard false) 0) _ _ _ at described
  cases ran : Accounting.rule (scene.peg input source) fuel place (.heard false) 0 with
  | ok account => exact ⟨account, rfl⟩
  | error raised =>
    rw [ran] at described
    obtain ⟨later, raises⟩ := described plain
    have both : (Except.error raised, later) = (Except.ok out, after) := raises.symm.trans ended
    cases both

omit prepared compiled faithful pure

variable {after after' : World} {record record' : Furthest}

namespace EndsAs

variable (ends : scene.EndsAs input source fuel place account after record)

include ends

theorem sound : record.Sound := List.forall_mem_singleton.mp (ends.records ▸ ends.books.sound)

theorem below : record.Below (.total account.marks) := by
  have below := ends.books.below
  rwa [ends.records] at below

theorem above (steady : scene.program.cache = true → RuleCall.Steady account.calls) :
    (Furthest.total account.marks).Below record := by
  have whole := ends.books.whole steady
  rwa [ends.records] at whole

/-- The result of a parse that does not match. -/
theorem result_missed (missed : account.value = none ∨ account.stop ≠ input.length) :
    ∃ last : ParserState, scene.program.result fuel place input source = .error last.failure ∧
      last.input = input ∧ last.source = source ∧
        last.records = [record.atEnd account.value account.stop] := by
  have input' : after.state.input = input := ends.valid.state.input
  rw [← ends.offset, ← input'] at missed
  obtain ⟨last, failed, same, same', records⟩ := ParserState.finish_missed
    ends.books.silence ends.records ends.valid.state.upper missed
  refine ⟨last, ?_, same.trans input', same'.trans ends.valid.state.source, ends.offset ▸ records⟩
  simp only [Program.result, ends.ran, failed]

end EndsAs

end Scene

namespace Grammar

variable {g : Grammar} {settings : Settings}

/-- A parse that does not match, where nothing is kept and where results are kept: the second error is
never about a place further on, and at the same place it has no entries that the first one has not. The
calls of rules in the parse are in its account, as a trace tells. If they are steady, the two errors have
the same entries, found text, place and message. -/
theorem cached_diagnostics {text : Text} {source? : Option Text} (read : Grammar.read text source? = .ok g)
    (checked : (Stage.check.run settings g).failure = none) (semantics : Semantics)
    (pure : PureMeaning semantics.meaning) (place : Nat) (input : Text) (source : Option Text) :
    ∃ plain cached, (g.compiled settings).bytecode? { semantics with cache := false } = some plain ∧
      (g.compiled settings).bytecode? { semantics with cache := true } = some cached ∧
      ∀ fuel, plain.NoMatch fuel place input source → ∃ error error' account,
        plain.result fuel place input source = .error (.syntaxError error) ∧
        cached.result fuel place input source = .error (.syntaxError error') ∧
        Accounting.rule ((g.prepare settings).evaluator semantics { input, source }) fuel place
          (.heard false) 0 = .ok account ∧
        (plain.trace = true → TraceEvent.ends (plain.runFrom fuel place { input, source }).2.events =
          account.calls.map (RuleCall.told (g.prepare settings))) ∧
        error'.Behind error ∧ (RuleCall.Steady account.calls → error'.Alike error) := by
  obtain ⟨scene, tables, reads, cache, grammar, meaning, matcher, faithful, prepared, compiled⟩ :=
    compiled_scene read checked { semantics with cache := true }
  have meaning : scene.meaning = semantics.meaning := meaning
  have matcher : scene.matcher = semantics.matcher := matcher
  have evaluator : (g.prepare settings).evaluator semantics { input, source } =
      scene.peg input source := by
    simp only [Grammar.evaluator, Scene.peg, grammar, meaning, matcher, faithful.admits_eq]
  rw [← meaning] at pure
  refine ⟨scene.uncached.program, scene.program,
    @bytecode?_cache (g.compiled settings) { semantics with cache := true } false scene.program reads,
    reads, fun fuel missed => ?_⟩
  obtain ⟨out, ended, runs, missed⟩ := missed
  obtain ⟨account, ran⟩ :=
    @Scene.exists_account scene.uncached tables _ _ _ _ prepared compiled.uncached faithful.uncached pure
      rfl _ _ runs
  obtain ⟨after, record, ends⟩ := @Scene.ends_of_account scene.uncached tables _ _ _ _ account prepared
    compiled.uncached faithful.uncached pure ran
  obtain ⟨after', record', ends'⟩ := Scene.ends_of_account prepared compiled faithful pure ran
  obtain ⟨rfl, rfl⟩ : account.value = out ∧ after = ended := by
    have both := ends.ran.symm.trans runs
    exact ⟨Except.ok.inj (Prod.mk.inj both).1, (Prod.mk.inj both).2⟩
  rw [ends.offset] at missed
  obtain ⟨last, failed, input₁, source₁, records⟩ := ends.result_missed missed
  obtain ⟨last', failed', input₂, source₂, records'⟩ := ends'.result_missed missed
  have lower : 0 ≤ account.stop := ends.offset ▸ ends.valid.state.lower
  -- nothing is kept, so the first record has all the marks
  have all := ends.above fun cache => absurd cache Bool.false_ne_true
  obtain ⟨error', error, raised', raised, behind, alike⟩ := ParserState.failures_of_below
    (input₂.trans input₁.symm) (source₂.trans source₁.symm) records' records
    (ends'.sound.atEnd lower) (ends.sound.atEnd lower) (ends'.below.trans all).atEnd
  refine ⟨error, error', account, by rw [failed, raised], by rw [failed', raised'], evaluator ▸ ran,
    fun traces => ?_, behind, fun steady => alike (ends.below.trans (ends'.above fun _ => steady)).atEnd⟩
  rw [runs, ← grammar]
  exact ends.books.told rfl traces

/-! Samples: a rule that is called aloud before and behind a display name, and one that is called below a
display name first. -/

/-- What has been noted at the end of a parse with the first rule that does not match. -/
def noted? (cache : Bool) (input : Text) (g : Grammar) : Option Furthest :=
  match (g.compiled plainSettings).bytecode? { countingSemantics with cache } with
  | some program =>
    match program.runFrom 9 0 { input } with
    | (.ok none, after) =>
      match after.state.records with
      | [record] => some record
      | _ => none
    | _ => none
  | none => none

theorem exists_of_noted? {cache : Bool} {input : Text} {record : Furthest}
    (noted : noted? cache input g = some record) : ∃ program after,
      (g.compiled plainSettings).bytecode? { countingSemantics with cache } = some program ∧
      program.runFrom 9 0 { input } = (.ok none, after) ∧ after.state.records = [record] := by
  unfold noted? at noted
  split at noted
  · rename_i program reads
    split at noted
    · rename_i after ended
      split at noted
      · rename_i only records
        cases noted
        exact ⟨program, after, reads, ended, records⟩
      · cases noted
    · cases noted
  · cases noted

/-- There is a parse that has noted `record`. -/
def notes (cache : Bool) (input : Text) (record : Furthest) (g : Grammar) : Bool :=
  (noted? cache input g).any fun noted =>
    record.offset == noted.offset && record.entries.isEqv noted.entries Entry.same

theorem exists_of_notes {cache : Bool} {input : Text} {record : Furthest}
    (plain : ∀ e ∈ record.entries, e.IsPlain) (noted : notes cache input record g = true) :
    ∃ program after,
      (g.compiled plainSettings).bytecode? { countingSemantics with cache } = some program ∧
      program.runFrom 9 0 { input } = (.ok none, after) ∧ after.state.records = [record] := by
  obtain ⟨⟨offset, entries⟩, there, same⟩ := (Option.any_eq_true _ _).mp noted
  obtain ⟨here, listed⟩ := Bool.and_eq_true_iff.mp same
  obtain ⟨offset', entries'⟩ := record
  obtain rfl : offset' = offset := eq_of_beq here
  obtain rfl : entries' = entries := Entry.eq_of_isEqv plain listed
  exact exists_of_noted? there

/-- The account of a parse with the first rule has the rule at `place` called again, and is steady. -/
def callsSteadily (place : Nat) (input : Text) (g : Grammar) : Bool :=
  match Accounting.rule ((g.prepare plainSettings).evaluator countingSemantics { input }) 9 0
      (.heard false) 0 with
  | .ok account => account.calls.countP (·.place == place) == 3 && decide (RuleCall.Steady account.calls)
  | .error _ => false

/-- The second of three calls is below a display name, and finds what the first one has left; that one
was heard, and so is the third. -/
theorem steady_diagnostics : ∃ g plain cached error error',
    Grammar.read (.ofString "s = a 'b' / n / a 'c'\na = 'x'\nn \"n\" = a 'e'") none = .ok g ∧
    (Stage.check.run plainSettings g).failure = none ∧
    (g.compiled plainSettings).bytecode? { countingSemantics with cache := false } = some plain ∧
    (g.compiled plainSettings).bytecode? { countingSemantics with cache := true } = some cached ∧
    plain.NoMatch 9 0 (.ofString "xd") none ∧
    plain.result 9 0 (.ofString "xd") none = .error (.syntaxError error) ∧
    cached.result 9 0 (.ofString "xd") none = .error (.syntaxError error') ∧
    error'.Alike error := by
  obtain ⟨g, read, checked, passes⟩ := exists_of_accepted
    (show (accepted? plainSettings (.ofString "s = a 'b' / n / a 'c'\na = 'x'\nn \"n\" = a 'e'")).any
      (fun g => callsSteadily 1 (.ofString "xd") g && (noted? false (.ofString "xd") g).isSome) = true by
        decide +kernel)
  obtain ⟨steadily, ends⟩ := Bool.and_eq_true_iff.mp passes
  obtain ⟨record, noted⟩ := Option.isSome_iff_exists.mp ends
  obtain ⟨program, after, runs, ended, -⟩ := exists_of_noted? noted
  obtain ⟨plain, cached, reads, reads', both⟩ := cached_diagnostics read checked countingSemantics
    (fun _ _ _ _ _ _ _ _ => rfl) 0 (.ofString "xd") none
  obtain rfl := Option.some.inj (runs.symm.trans reads)
  have missed : program.NoMatch 9 0 (.ofString "xd") none := ⟨none, after, ended, .inl rfl⟩
  obtain ⟨error, error', account, failed, failed', ran, -, -, alike⟩ := both 9 missed
  refine ⟨g, program, cached, error, error', read, checked, reads, reads', missed, failed, failed',
    alike ?_⟩
  unfold callsSteadily at steadily
  rw [Int.natCast_zero] at ran
  rw [ran] at steadily
  exact of_decide_eq_true (Bool.and_eq_true_iff.mp steadily).2

/-- What was kept below a display name leaves nothing where it is found: the name stands at the start,
where a letter was expected behind it. -/
theorem name_instead : ∃ g plain cached error error' span span',
    Grammar.read (.ofString "s = n / \"a\" a\nn \"n\" = \"a\" a\na = \"b\"") none = .ok g ∧
    (Stage.check.run plainSettings g).failure = none ∧ PureMeaning countingSemantics.meaning ∧
    (g.compiled plainSettings).bytecode? { countingSemantics with cache := false } = some plain ∧
    (g.compiled plainSettings).bytecode? { countingSemantics with cache := true } = some cached ∧
    plain.result 9 0 (.ofString "ac") none = .error (.syntaxError error) ∧
    cached.result 9 0 (.ofString "ac") none = .error (.syntaxError error') ∧
    error.place = .span span ∧ span.start.offset = 1 ∧
    error.expected = some [.literal (.ofString "b") false] ∧
    error'.place = .span span' ∧ span'.start.offset = 0 ∧
    error'.expected = some [.rule (.ofString "n"), .literal (.ofString "a") false] ∧
    ¬error'.Alike error := by
  obtain ⟨g, read, checked, passes⟩ := exists_of_accepted
    (show (accepted? plainSettings
        (.ofString "s = n / \"a\" a\nn \"n\" = \"a\" a\na = \"b\"")).any (fun g =>
      notes false (.ofString "ac") ⟨1, [.literal (.ofString "b") false]⟩ g &&
        notes true (.ofString "ac") ⟨0, [.rule (.ofString "n"), .literal (.ofString "a") false]⟩ g) =
      true by decide +kernel)
  obtain ⟨noted, noted'⟩ := Bool.and_eq_true_iff.mp passes
  obtain ⟨plain, after, reads, ended, records⟩ := exists_of_notes (by simp [Entry.IsPlain]) noted
  obtain ⟨cached, after', reads', ended', records'⟩ := exists_of_notes (by simp [Entry.IsPlain]) noted'
  obtain ⟨message, -, failed⟩ := ParserState.failure_eq records (Int.le_of_lt Int.one_pos) fun e he => by
    obtain rfl := List.mem_singleton.mp he
    exact ⟨_, rfl⟩
  obtain ⟨message', -, failed'⟩ := ParserState.failure_eq records' (Int.le_refl 0) fun e he => by
    rcases List.mem_cons.mp he with rfl | he
    · exact ⟨_, rfl⟩
    · obtain rfl := List.mem_singleton.mp he
      exact ⟨_, rfl⟩
  have result : plain.result 9 0 (.ofString "ac") none = .error after.state.failure := by
    simp only [Program.result, ended]
    rfl
  have result' : cached.result 9 0 (.ofString "ac") none = .error after'.state.failure := by
    simp only [Program.result, ended']
    rfl
  rw [failed] at result
  rw [failed'] at result'
  refine ⟨g, plain, cached, _, _, _, _, read, checked, fun _ _ _ _ _ _ _ _ => rfl, reads, reads',
    result, result', rfl, rfl, rfl, rfl, rfl, rfl, fun alike => ?_⟩
  have starts : (0 : Int) = 1 := congrArg (fun span => span.start.offset) (ErrorPlace.span.inj alike.place)
  exact absurd starts (by decide)

end Grammar

end PegCompiler
