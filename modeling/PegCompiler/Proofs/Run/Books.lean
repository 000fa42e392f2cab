import PegCompiler.Proofs.Run.Agreement
import PegCompiler.Proofs.Run.Closing

/-!
What the account of an evaluation says of a run. A run that keeps nothing ends up with the record that
the marks come to, and its events tell of the calls in the account. One that takes results from its memo
table ends up with less at most, since the marks of such results are left out. It still has all of it
where the calls are steady: then everything that was left out was there before (`Scene.rule_describes`).
-/

namespace PegCompiler

/-- The rules that have ended and where they began, the first one first. -/
def TraceEvent.ends (events : List TraceEvent) : List (Option Text × Int) :=
  (events.reverse.filter (·.kind ≠ .enter)).map fun event => (some event.rule, event.start)

theorem TraceEvent.ends_cons (event : TraceEvent) (events : List TraceEvent) :
    ends (event :: events) =
      ends events ++ if event.kind = .enter then [] else [(some event.rule, event.start)] := by
  by_cases enters : event.kind = .enter <;> simp [ends, enters]

/-- The rule of a call, and where it began. -/
def RuleCall.told (g : Grammar) (call : RuleCall) : Option Text × Int :=
  (g.rules[call.place]?.map Rule.name, call.offset)

/-- How the world of a run stands to what has been accounted for: its records come to the marks at
most, and to all of them unless it uses its memo table and the calls are not steady; what is in the memo
table comes from these calls, and they are what a trace tells where there is no memo table. -/
structure Books (program : Program) (peg : Peg) (h : Hearing) (marks : List Mark)
    (calls : List RuleCall) (w : World) : Prop where
  silence : w.state.silence = h.silence
  natural : 0 ≤ h.silence
  depth : w.state.records.length = h.negatives.length + 1
  sound : ∀ record ∈ w.state.records, record.Sound
  below : (Furthest.closeAll h.negatives w.state.records).Below (.total marks)
  whole : (program.cache = true → RuleCall.Steady calls) →
    (Furthest.total marks).Below (.closeAll h.negatives w.state.records)
  accounted : ∀ call ∈ calls, ∃ (fuel : Nat) (own : Account Outcome),
    Accounting.rule peg fuel call.place call.regard call.offset = .ok own ∧ own.marks ⊆ marks
  called : ∀ (place : Nat) (start : Int), place < program.rules.length →
    (w.kept? program (Machine.memoKey program place start)).isSome = true →
      ∃ regard, ⟨place, start, regard⟩ ∈ calls
  told : program.cache = false → program.trace = true →
    TraceEvent.ends w.events = calls.map (RuleCall.told peg.grammar)

namespace Books

variable {program : Program} {peg : Peg} {h : Hearing} {marks : List Mark} {calls : List RuleCall}
  {w v : World}

section Onward

variable (books : Books program peg h marks calls w)

include books

/-- Whatever else has changed. -/
theorem still (silence : v.state.silence = w.state.silence)
    (records : v.state.records = w.state.records) (memo : v.memo = w.memo)
    (events : program.cache = false → TraceEvent.ends v.events = TraceEvent.ends w.events) :
    Books program peg h marks calls v where
  silence := silence.trans books.silence
  natural := books.natural
  depth := records ▸ books.depth
  sound := records ▸ books.sound
  below := records ▸ books.below
  whole := records ▸ books.whole
  accounted := books.accounted
  called place start inside kept := books.called place start inside <| by
    unfold World.kept? at kept ⊢
    rwa [memo] at kept
  told plain traces := (events plain).trans (books.told plain traces)

theorem exists_records : ∃ record outer, w.state.records = record :: outer ∧
    outer.length = h.negatives.length := by
  have depth := books.depth
  cases records : w.state.records with
  | nil =>
    rw [records] at depth
    cases depth
  | cons record outer =>
    rw [records] at depth
    exact ⟨record, outer, rfl, Nat.succ.inj depth⟩

/-- One more mark, and whatever has become of the records. -/
theorem meets {h' : Hearing} {mark : Mark} (silence : v.state.silence = h'.silence)
    (natural : 0 ≤ h'.silence) (depth : v.state.records.length = h'.negatives.length + 1)
    (sound : ∀ record ∈ v.state.records, record.Sound)
    (closes : Furthest.closeAll h'.negatives v.state.records =
      (Furthest.closeAll h.negatives w.state.records).meet mark) (memo : v.memo = w.memo)
    (events : v.events = w.events) : Books program peg h' (marks ++ [mark]) calls v := by
  have total : Furthest.total (marks ++ [mark]) = (Furthest.total marks).meet mark :=
    Furthest.total_append
  refine ⟨silence, natural, depth, sound, ?_, fun steady => ?_, fun call member => ?_,
    fun place start inside kept => books.called place start inside ?_, events ▸ books.told⟩
  · rw [closes, total]
    exact books.below.meet mark
  · rw [closes, total]
    exact (books.whole steady).meet mark
  · obtain ⟨fuel, own, ran, among⟩ := books.accounted call member
    exact ⟨fuel, own, ran, List.subset_append_of_subset_left _ among⟩
  · unfold World.kept? at kept ⊢
    rwa [memo] at kept

/-- An entry is noted. -/
theorem noted {entry : Entry} (noted : entry.IsNoted) (lower : 0 ≤ w.state.offset) :
    ∃ s, w.state.expect entry = .ok s ∧ s.offset = w.state.offset ∧
      Books program peg h (marks ++ h.regard.marks w.state.offset entry) calls { w with state := s } := by
  obtain ⟨record, outer, records, deep⟩ := books.exists_records
  unfold ParserState.expect Hearing.regard
  rw [books.silence]
  split
  · refine ⟨w.state, rfl, rfl, ?_⟩
    rw [Regard.marks, List.append_nil]
    exact books
  · simp only [records]
    refine ⟨_, rfl, rfl, ?_⟩
    have sound := books.sound
    have depth := books.depth
    rw [records] at sound depth
    refine books.meets rfl books.natural depth ?_ ?_ rfl rfl
    · refine List.forall_mem_cons.mpr ⟨?_, (List.forall_mem_cons.mp sound).2⟩
      rw [Furthest.note_eq_meet]
      exact ((List.forall_mem_cons.mp sound).1).meet lower (by simpa using noted.isPlain)
    · have closing := Mark.closing_noted noted h.negatives w.state.offset false
      simp only [Bool.false_eq_true, if_false, Bool.false_bne] at closing
      rw [records, Furthest.note_eq_meet, Furthest.closeAll_meet deep, closing]

/-- A record is opened. -/
theorem opened (negative : Bool) (lower : 0 ≤ w.state.offset) :
    Books program peg (h.ahead negative) (marks ++ [⟨w.state.offset, none⟩]) calls
      (w.change (·.openRecord)) := by
  obtain ⟨record, outer, records, deep⟩ := books.exists_records
  refine books.meets books.silence books.natural (congrArg (· + 1) books.depth) ?_ ?_ rfl rfl
  · exact List.forall_mem_cons.mpr ⟨⟨lower, by simp⟩, books.sound⟩
  · have opens : (w.change (·.openRecord)).state.records = ⟨w.state.offset, []⟩ :: record :: outer := by
      rw [← records]
      rfl
    rw [opens, records, Hearing.ahead, Furthest.closeAll, Furthest.absorb_opened,
      Furthest.closeAll_meet deep, Mark.closing_none]

/-- It is quieter for a while. -/
theorem quieter : Books program peg h.quieter marks calls
    (w.change fun s => { s with silence := s.silence + 1 }) where
  silence := congrArg (· + 1) books.silence
  natural := Int.le_add_one books.natural
  depth := books.depth
  sound := books.sound
  below := books.below
  whole := books.whole
  accounted := books.accounted
  called := books.called
  told := books.told

/-- A call that was made before: what it gives is taken from the memo table, and its marks are left out. -/
theorem recalled {fuel place : Nat} {account : Account Outcome}
    (ran : Accounting.rule peg fuel place h.regard w.state.offset = .ok account)
    (inside : place < program.rules.length)
    (last : ⟨place, w.state.offset, h.regard⟩ ∈ account.calls)
    (kept : (w.kept? program (Machine.memoKey program place w.state.offset)).isSome = true) :
    Books program peg h (marks ++ account.marks) (calls ++ account.calls) w := by
  obtain ⟨entry, found⟩ := Option.isSome_iff_exists.mp kept
  have cache : program.cache = true := (World.kept?_eq_some.mp found).1
  obtain ⟨regard, earlier⟩ := books.called place w.state.offset inside kept
  obtain ⟨first, heard⟩ := RuleCall.exists_first _ earlier
  obtain ⟨fuel', own, ran', among⟩ := books.accounted _ (RuleCall.mem_of_first? heard)
  refine ⟨books.silence, books.natural, books.depth, books.sound,
    books.below.trans Furthest.total_below, fun steady => ?_, fun call member => ?_,
    fun place start inside kept => ?_, fun plain => absurd (cache.symm.trans plain) (by decide)⟩
  · have steady := steady cache
    -- so the first call was heard in the same way, or this one is silent
    have within : h.regard.Within first := by
      rcases steady _ (List.mem_append_right _ last) with silent | same
      · exact .inl silent
      · rw [RuleCall.first?_append heard] at same
        exact .inr (Option.some.inj same).symm
    have repeated : account.marks ⊆ marks :=
      List.Subset.trans ((Accounting.rule_unique ran ran').2.2 within) among
    exact (Furthest.total_repeated repeated).trans (books.whole fun _ => steady.of_append)
  · rcases List.mem_append.mp member with before | within
    · obtain ⟨fuel, own, ran, among⟩ := books.accounted call before
      exact ⟨fuel, own, ran, List.subset_append_of_subset_left _ among⟩
    · obtain ⟨fuel, own, ran, among⟩ := Accounting.rule_accounted peg _ _ _ _ _ ran call within
      exact ⟨fuel, own, ran, List.subset_append_of_subset_right _ among⟩
  · obtain ⟨regard, member⟩ := books.called place start inside kept
    exact ⟨regard, List.mem_append_left _ member⟩

end Onward

/-- It is as loud again as it was. -/
theorem louder (books : Books program peg h.quieter marks calls w) (natural : 0 ≤ h.silence) :
    Books program peg h marks calls (w.change fun s => { s with silence := s.silence - 1 }) where
  silence := by
    have quiet : w.state.silence = h.silence + 1 := books.silence
    change w.state.silence - 1 = h.silence
    omega
  natural := natural
  depth := books.depth
  sound := books.sound
  below := books.below
  whole := books.whole
  accounted := books.accounted
  called := books.called
  told := books.told

/-- The innermost record is closed. -/
theorem closed {negative : Bool} (books : Books program peg (h.ahead negative) marks calls w)
    (closes : Run.go (Tree.closeRecord negative) w = (.ok ⟨⟩, v)) :
    Books program peg h marks calls v := by
  obtain ⟨inner, outer, records, deep⟩ := books.exists_records
  obtain ⟨record, outer, rfl⟩ := List.exists_cons_of_length_eq_add_one deep
  simp only [Tree.go_closeRecord, ParserState.closeRecord, records] at closes
  cases closes
  have sound := books.sound
  rw [records] at sound
  obtain ⟨sound, others⟩ := List.forall_mem_cons.mp sound
  obtain ⟨around, rest⟩ := List.forall_mem_cons.mp others
  have below := books.below
  have whole := books.whole
  rw [records] at below whole
  exact ⟨books.silence, books.natural, deep, List.forall_mem_cons.mpr ⟨around.absorb sound negative, rest⟩,
    below, whole, books.accounted, books.called, books.told⟩

/-- A call that comes to its end. -/
theorem ended {fuel place : Nat} {name : Text} {start : Int} {account : Account Outcome}
    (books : Books program peg h (marks ++ account.marks) (calls ++ account.calls) w)
    (ran : Accounting.rule peg fuel place h.regard start = .ok
      { account with calls := account.calls ++ [⟨place, start, h.regard⟩] })
    (inside : place < program.rules.length) (names : peg.grammar.rules[place]?.map Rule.name = some name)
    (out : Outcome) :
    Books program peg h (marks ++ account.marks) (calls ++ (account.calls ++ [⟨place, start, h.regard⟩]))
      (Tree.newWorld program place name start out w) := by
  rw [← List.append_assoc]
  refine ⟨books.silence, books.natural, books.depth, books.sound, books.below,
    fun steady => books.whole fun cache => (steady cache).of_append, fun call member => ?_,
    fun other at? inside' kept => ?_, fun plain traces => ?_⟩
  · rcases List.mem_append.mp member with before | last
    · exact books.accounted call before
    · obtain rfl := List.mem_singleton.mp last
      exact ⟨fuel, _, ran, List.subset_append_right _ _⟩
  · change ((w.remembering program _ out).kept? program _).isSome = true at kept
    rw [World.remembering_kept?] at kept
    split at kept
    · rename_i here
      obtain ⟨rfl, rfl⟩ := Machine.memoKey_inj inside inside' here.2
      exact ⟨h.regard, List.mem_append_right _ (List.mem_singleton.mpr rfl)⟩
    · obtain ⟨regard, member⟩ := books.called other at? inside' kept
      exact ⟨regard, List.mem_append_left _ member⟩
  · have before := books.told plain traces
    have last : TraceEvent.ends (Tree.newWorld program place name start out w).events =
        TraceEvent.ends w.events ++ [(some name, start)] := by
      simp only [Tree.newWorld, World.noted, traces, if_true, TraceEvent.ends_cons]
      cases out <;> rfl
    have told : RuleCall.told peg.grammar ⟨place, start, h.regard⟩ = (some name, start) :=
      congrArg (·, start) names
    rw [last, before, @List.map_append _ _ _ (calls ++ account.calls), List.map_singleton, told]

end Books

/-- The run gives what the account says, and its world stands to what has been accounted for as before.
A run that keeps nothing raises the same, too. -/
def Accounting.Describes (c : Course) (peg : Peg) {α : Type} (told : Accounting α) (run : Run α) : Prop :=
  ∀ (h : Hearing) (marks : List Mark) (calls : List RuleCall) (w : World), c.Valid w →
    Books c.program peg h marks calls w →
      Agrees c (c.program.cache = false) (told h.regard w.state.offset) run (fun a b after =>
        b = a.value ∧ after.state.offset = a.stop ∧
          Books c.program peg h (marks ++ a.marks) (calls ++ a.calls) after) w

/-- What becomes of a result that has been agreed on. -/
theorem Agrees.returns {α β γ : Type} {c : Course} {exact : Prop} {w : World} {result : Except Raise α}
    {run : Run γ} {same : α → γ → World → Prop} {other : β → γ → World → Prop} {f : α → β}
    (agrees : Agrees c exact result run same w) (imp : ∀ a b v, same a b v → other (f a) b v) :
    Agrees c exact (do return f (← result)) run other w := by
  cases result with
  | error raised => exact agrees
  | ok a =>
    obtain ⟨b, after, ended, follows, h⟩ := agrees
    exact ⟨b, after, ended, follows, imp a b after h⟩

/-- The run goes on where evaluation is done. -/
theorem Agrees.onward {α β γ : Type} {c : Course} {exact : Prop} {w : World} {result : Except Raise α}
    {run : Run β} {same : α → β → World → Prop} {next : β → Run γ} {other : α → γ → World → Prop}
    (agrees : Agrees c exact result run same w) (goes : ∀ a b v, c.Follows w v → same a b v →
      ∃ d u, Run.go (next b) v = (.ok d, u) ∧ c.Follows v u ∧ other a d u) :
    Agrees c exact result (run >>= next) other w := by
  cases result with
  | error raised =>
    intro isExact
    obtain ⟨after, ended⟩ := agrees isExact
    exact ⟨after, by rw [Run.go_bind, ended]; rfl⟩
  | ok a =>
    obtain ⟨b, v, ended, follows, h⟩ := agrees
    obtain ⟨d, u, last, further, h'⟩ := goes a b v follows h
    exact ⟨d, u, by rw [Run.go_bind, ended]; exact last, follows.trans further, h'⟩

namespace Accounting.Describes

variable {c : Course} {peg : Peg} {α β : Type} {told : Accounting α} {run : Run α}

theorem bind {next : α → Accounting β} {onward : α → Run β} (first : Describes c peg told run)
    (second : ∀ a, Describes c peg (next a) (onward a)) :
    Describes c peg (told >>= next) (run >>= onward) := by
  intro h marks calls w valid books
  refine (first h marks calls w valid books).bind fun a b v follows same => ?_
  obtain ⟨rfl, offset, books'⟩ := same
  have onward := second a.value h _ _ v follows.valid books'
  rw [offset] at onward
  refine onward.returns fun b value u same => ?_
  obtain ⟨rfl, offset, books''⟩ := same
  rw [List.append_assoc, List.append_assoc] at books''
  exact ⟨rfl, offset, books''⟩

/-- Nothing is noted, and no rule is called. -/
theorem plain {result : Int → Except Raise (α × Int)} (steps : ∀ w, c.Valid w →
      Agrees c (c.program.cache = false) (result w.state.offset) run (fun a b after =>
        b = a.1 ∧ after.state.offset = a.2 ∧ after.state.silence = w.state.silence ∧
          after.state.records = w.state.records ∧ after.memo = w.memo ∧ after.events = w.events) w) :
    Describes c peg (Accounting.plain result) run := by
  intro h marks calls w valid books
  refine (steps w valid).returns fun a b v same => ?_
  obtain ⟨rfl, offset, silence, records, memo, events⟩ := same
  refine ⟨rfl, offset, ?_⟩
  simpa using books.still silence records memo fun _ => congrArg TraceEvent.ends events

/-- Both start at an offset of the input. -/
theorem from_offset {callRule : Int → Accounting Outcome} {rounds : Nat} {next : Int → Accounting α}
    {onward : Int → Run α} (second : ∀ start : Int, 0 ≤ start → start ≤ c.input.length →
      Describes c peg (next start) (onward start)) :
    Describes c peg ((engine peg callRule rounds).offset >>= next) (Tree.offset >>= onward) := by
  intro h marks calls w valid books
  have onward := second w.state.offset valid.state.lower valid.upper h marks calls w valid books
  exact .after rfl (.refl valid) (onward.returns fun a b v same => same)

end Accounting.Describes

namespace Tree

open Accounting

variable {c : Course} {scene : Scene} {callRule : Int → Run Outcome}
  {callRule' : Int → Accounting Outcome} {rounds : Nat}

theorem goTo_describes {peg : Peg} {start : Int} (lower : 0 ≤ start) (upper : start ≤ c.input.length) :
    Describes c peg ((Accounting.engine peg callRule' rounds).goTo start) (goTo start) :=
  @Describes.plain c peg Unit _ (fun _ => .ok (⟨⟩, start)) fun _ valid =>
    ⟨⟨⟩, _, rfl, valid.goTo lower upper, rfl, rfl, rfl, rfl, rfl, rfl⟩

theorem matched_describes {peg : Peg} (same : peg.input = c.input) (start : Int) :
    Describes c peg ((Accounting.engine peg callRule' rounds).matched start) (matched start) := by
  refine @Describes.plain c peg Outcome _
    (fun here => .ok (some (.text (Index.slice peg.input start here)), here)) fun w valid => ?_
  refine ⟨_, w, rfl, .refl valid, ?_, rfl, rfl, rfl, rfl, rfl⟩
  rw [valid.state.input, same]

theorem expect_describes {peg : Peg} {entry : Entry} (noted : entry.IsNoted) (reports : Bool) :
    Describes c peg ((Accounting.engine peg callRule' rounds).expect reports entry)
      (expect reports entry) := by
  intro h marks calls w valid books
  cases reports with
  | false => exact ⟨⟨⟩, w, rfl, .refl valid, rfl, rfl, by simpa using books⟩
  | true =>
    obtain ⟨s, ended, offset, books'⟩ := books.noted noted valid.state.lower
    obtain ⟨s', ended', -, follows⟩ := valid.expect entry
    obtain rfl := Except.ok.inj (ended'.symm.trans ended)
    refine ⟨⟨⟩, { w with state := s' }, ?_, follows, rfl, offset, by simpa using books'⟩
    rw [go_expect, if_pos rfl, ended]

theorem matching_describes {peg : Peg} (same : peg.input = c.input) {matcher : CharClass → ClassMatcher}
    {primitive : ParserState → Except Raise (Option Text × ParserState)}
    (is : Primitive matcher primitive) :
    Describes c peg ((Accounting.engine peg callRule' rounds).matching primitive) (matching primitive) := by
  refine .plain fun w valid => ?_
  let alone := peg.state w.state.offset w.state.offset
  obtain ⟨matched, after, after', found, found', offset⟩ := @Primitive.alike _ _ is w.state alone
    valid.state.toInside (valid.state.input.trans same.symm) rfl
  have ran : Run.go (matching primitive) w = (.ok (matched.map .text), { w with state := after }) := by
    rw [go_matching, found]
  obtain ⟨consuming, advances⟩ := is.advances
  obtain ⟨follows, -⟩ := Course.matching_steps advances w valid _ _ ran
  rw [show primitive (peg.state w.state.offset w.state.offset) = _ from found']
  refine ⟨_, _, ran, follows, rfl, offset, ?_⟩
  obtain ⟨result, again, moved⟩ := advances w.state valid.state.toInside
  obtain rfl := Except.ok.inj (found.symm.trans again)
  cases matched with
  | none =>
    obtain rfl : after = w.state := moved
    exact ⟨rfl, rfl, rfl, rfl⟩
  | some t =>
    obtain ⟨n, rfl, -⟩ := moved
    exact ⟨rfl, rfl, rfl, rfl⟩

theorem boundOf_describes {peg : Peg} (scope : Scope) (name : Text) :
    Describes c peg ((Accounting.engine peg callRule' rounds).boundOf scope name) (boundOf scope name) := by
  refine .plain fun w valid => ?_
  unfold boundOf
  cases (Value.lookup? name scope).bind Value.number? with
  | some n => exact .pure valid ⟨rfl, rfl, rfl, rfl, rfl, rfl⟩
  | none => exact .throw

section UserCode

variable (pure : PureMeaning scene.meaning)

include pure

theorem act_describes (start : Int) (code : Text) (scope : Scope) :
    Describes c (scene.peg c.input c.source)
      ((Accounting.engine (scene.peg c.input c.source) callRule' rounds).act start code scope)
      (act scene start code scope) := by
  refine .plain fun w valid => .after rfl (valid.mark start) ?_
  refine (Course.call_agrees pure false code scope (valid.mark start).valid rfl rfl).bind
    fun a b v follows same => ?_
  obtain ⟨rfl, rfl⟩ := same
  exact .pure follows.valid ⟨rfl, rfl, rfl, rfl, rfl, rfl⟩

theorem predicate_describes (negative : Bool) (code : Text) (scope : Scope) :
    Describes c (scene.peg c.input c.source)
      ((Accounting.engine (scene.peg c.input c.source) callRule' rounds).predicate negative code scope)
      (predicate scene negative code scope) := by
  refine .plain fun w valid => .after rfl (valid.mark w.state.offset) ?_
  refine (Course.call_agrees pure true code scope (valid.mark w.state.offset).valid rfl rfl).bind
    fun a b v follows same => ?_
  obtain ⟨rfl, rfl⟩ := same
  exact .pure follows.valid ⟨rfl, rfl, rfl, rfl, rfl, rfl⟩

end UserCode

theorem lookahead_describes {peg : Peg} {told : Accounting Outcome} {body : Run Outcome}
    (describes : Describes c peg told body) (negative : Bool) :
    Describes c peg ((Accounting.engine peg callRule' rounds).lookahead negative told)
      (lookahead negative body) := by
  intro h marks calls w valid books
  have inner := describes (h.ahead negative) _ _ _ valid.opened (books.opened negative valid.state.lower)
  rw [Hearing.regard_ahead] at inner
  have whole := go_lookahead w negative body
  change Agrees c _ (told (h.regard.under negative) w.state.offset >>= fun ahead => Except.ok _) _ _ w
  change Agrees c _ (told (h.regard.under negative) w.state.offset) _ _ _ at inner
  cases ahead : told (h.regard.under negative) w.state.offset with
  | error raised =>
    rw [ahead] at inner
    intro exact
    obtain ⟨after, ended⟩ := inner exact
    exact ⟨after, by rw [whole, ended]; rfl⟩
  | ok a =>
    rw [ahead] at inner
    obtain ⟨out, v, ended, follows, rfl, offset, within⟩ := inner
    obtain ⟨u, closes, closed, same⟩ := follows.closes valid negative
    have books' := within.closed closes
    rw [List.append_assoc] at books'
    change ∃ b after, _
    rw [whole, ended, Ended.andThen_ok, closes, Ended.andThen_ok]
    cases value : a.value with
    | none =>
      refine ⟨_, u, rfl, closed, ?_, same.trans offset, books'⟩
      cases negative <;> rfl
    | some _ =>
      refine ⟨_, _, rfl, closed.trans (closed.valid.goTo valid.state.lower valid.upper), ?_, rfl,
        books'.still rfl rfl rfl fun _ => rfl⟩
      cases negative <;> rfl

theorem silently_describes {peg : Peg} {told : Accounting Outcome} {body : Run Outcome}
    (describes : Describes c peg told body) :
    Describes c peg ((Accounting.engine peg callRule' rounds).silently told) (silently body) := by
  intro h marks calls w valid books
  have inner := describes h.quieter marks calls _ (valid.silence _).valid books.quieter
  rw [Hearing.regard_quieter books.natural] at inner
  refine .after rfl (valid.silence _) (Agrees.onward inner fun a out v follows same => ?_)
  obtain ⟨rfl, offset, within⟩ := same
  exact ⟨_, _, rfl, follows.valid.silence _, rfl, offset, within.louder books.natural⟩

theorem describes_parametric (pure : PureMeaning scene.meaning) (faithful : scene.Faithful)
    (calls : ∀ name, scene.grammar.defines name = true → Describes c (scene.peg c.input c.source)
      (callRule' (scene.grammar.placeOf name)) (callRule (scene.grammar.placeOf name))) :
    Engine.Parametric scene.grammar.Resolves (fun start => 0 ≤ start ∧ start ≤ c.input.length) Eq
      (Accounting.engine (scene.peg c.input c.source) callRule' rounds) (engine scene callRule rounds)
      fun _ => Describes c (scene.peg c.input c.source) where
  prune := faithful.prune
  admits _ _ := .inl (faithful.admits _ _)
  matcher := rfl
  rounds := .inl rfl
  pure _ := .plain fun _ valid => .pure valid ⟨rfl, rfl, rfl, rfl, rfl, rfl⟩
  throw {_ raised} _ := @Describes.plain c _ _ _ (fun _ => .error raised) fun _ _ => .throw
  bind := .bind
  offset next := .from_offset fun start lower upper => next start ⟨lower, upper⟩
  goTo lies := goTo_describes lies.1 lies.2
  matched := matched_describes rfl
  expect _ noted same := same ▸ expect_describes noted _
  matching := matching_describes rfl
  boundOf := boundOf_describes
  act code scope _ := act_describes pure _ code scope
  predicate := predicate_describes pure
  call defined := calls _ defined
  followedBy _ describes := lookahead_describes describes false
  notFollowedBy _ describes := lookahead_describes describes true
  named _ same := ⟨same.symm, rfl⟩
  silently _ describes := silently_describes describes

end Tree

namespace Scene

variable {scene : Scene} {input : Text} {source : Option Text}

/-- A parse where the memo table holds what the accounts of rules say that they give. -/
def recording (scene : Scene) (input : Text) (source : Option Text) : Course where
  program := scene.program
  input := input
  source := source
  kept place start out stop := 0 ≤ stop ∧ stop ≤ input.length ∧
    ∃ (fuel : Nat) (regard : Regard) (own : Account Outcome),
      Accounting.rule (scene.peg input source) fuel place regard start = .ok own ∧
        own.value = out ∧ own.stop = stop

section Calls

variable {fuel place : Nat} {name : Text} {told : Accounting Outcome} {body : Run Outcome}
  (inside : place < scene.program.rules.length)
  (own : Accounting.rule (scene.peg input source) fuel place = Accounting.called place told)
  {h : Hearing} {marks : List Mark} {calls : List RuleCall} {w : World}
  (valid : (scene.recording input source).Valid w)
  (books : Books scene.program (scene.peg input source) h marks calls w)

/-- What a run is to give where the account says `told`. -/
def DescribedAt (scene : Scene) (input : Text) (source : Option Text) (h : Hearing) (marks : List Mark)
    (calls : List RuleCall) (told : Accounting Outcome) (run : Run Outcome) (w : World) : Prop :=
  Agrees (scene.recording input source) (scene.program.cache = false) (told h.regard w.state.offset) run
    (fun a b after => b = a.value ∧ after.state.offset = a.stop ∧
      Books scene.program (scene.peg input source) h (marks ++ a.marks) (calls ++ a.calls) after) w

include inside own valid books

/-- A call whose result is in the memo table. -/
theorem kept_describes {entry : Int × Outcome}
    (kept : w.kept? scene.program (Machine.memoKey scene.program place w.state.offset) = some entry) :
    scene.DescribedAt input source h marks calls (Accounting.called place told)
      (Tree.called scene.program place name body) w := by
  obtain ⟨stop, out⟩ := entry
  obtain ⟨cache, found⟩ := World.kept?_eq_some.mp kept
  obtain ⟨lower, upper, fuel', regard, before, ran', rfl, rfl⟩ :=
    valid.memo place _ _ inside valid.state.lower found
  have ended := Tree.go_called_of_kept place name kept body
  unfold DescribedAt
  cases ran : Accounting.called place told h.regard w.state.offset with
  | error raised => exact fun plain => absurd (cache.symm.trans plain) (by decide)
  | ok account =>
    have last : ⟨place, w.state.offset, h.regard⟩ ∈ account.calls := by
      unfold Accounting.called at ran
      cases inner : told h.regard w.state.offset <;> rw [inner] at ran <;> cases ran
      exact List.mem_append_right _ (List.mem_singleton.mpr rfl)
    rw [← own] at ran
    obtain ⟨value, offset, -⟩ := Accounting.rule_unique ran' ran
    have books' := books.recalled ran inside last (Option.isSome_iff_exists.mpr ⟨_, kept⟩)
    have goes := valid.goTo lower upper
    exact ⟨_, _, ended, ⟨⟨goes.valid.state, goes.valid.memo⟩, goes.depth⟩, value, offset,
      books'.still rfl rfl rfl fun plain => absurd (cache.symm.trans plain) (by decide)⟩

/-- A call whose result is found anew. -/
theorem new_describes
    (describes : Accounting.Describes (scene.recording input source) (scene.peg input source) told body)
    (names : scene.grammar.rules[place]?.map Rule.name = some name)
    (anew : w.kept? scene.program (Machine.memoKey scene.program place w.state.offset) = none) :
    scene.DescribedAt input source h marks calls (Accounting.called place told)
      (Tree.called scene.program place name body) w := by
  have ends := Tree.go_called_of_new place name anew body
  have enters : TraceEvent.ends (w.noted scene.program (Machine.startEvent name w)).events =
      TraceEvent.ends w.events := by
    unfold World.noted
    simp only
    split
    · rw [TraceEvent.ends_cons, if_pos (show (Machine.startEvent name w).kind = .enter from rfl),
        List.append_nil]
    · rfl
  have inner := describes h marks calls (w.noted scene.program (Machine.startEvent name w))
    ⟨valid.state, valid.memo⟩ (books.still rfl rfl rfl fun _ => enters)
  change Agrees _ _ (told h.regard w.state.offset) _ _ _ at inner
  unfold DescribedAt
  cases ran : told h.regard w.state.offset with
  | error raised =>
    rw [ran] at inner
    have whole : Accounting.called place told h.regard w.state.offset = .error raised := by
      simp only [Accounting.called, ran]
      rfl
    rw [whole]
    intro exact
    obtain ⟨after, ended⟩ := inner exact
    exact ⟨after, by rw [ends, ended]; rfl⟩
  | ok account =>
    rw [ran] at inner
    have whole : Accounting.called place told h.regard w.state.offset =
        .ok { account with calls := account.calls ++ [⟨place, w.state.offset, h.regard⟩] } := by
      simp only [Accounting.called, ran]
      rfl
    obtain ⟨out, v, ended, follows, rfl, offset, books'⟩ := inner
    rw [whole]
    rw [← own] at whole
    have keeps : (scene.recording input source).kept place w.state.offset account.value
        v.state.offset :=
      ⟨follows.valid.state.lower, follows.valid.upper, fuel, h.regard, _, whole, rfl, offset.symm⟩
    have remembers := follows.valid.remembering inside keeps
    rw [ended, Ended.andThen_ok] at ends
    exact ⟨_, _, ends, ⟨⟨remembers.state, remembers.memo⟩, follows.depth⟩, rfl, offset,
      books'.ended whole inside names account.value⟩

end Calls

theorem rule_describes (prepared : scene.grammar.Prepared)
    (length : scene.program.rules.length = scene.grammar.rules.length)
    (pure : PureMeaning scene.meaning) (faithful : scene.Faithful) (fuel : Nat) (index : Int) :
    Accounting.Describes (scene.recording input source) (scene.peg input source)
      (Accounting.rule (scene.peg input source) fuel index) (Tree.rule scene fuel index) := by
  induction fuel generalizing index with
  | zero => exact fun _ _ _ _ _ _ => .throw
  | succ fuel ih =>
    cases here : Index.place? scene.grammar.rules.length index with
    | none =>
      rw [rule_absent here, Accounting.rule_absent here]
      exact fun _ _ _ _ _ _ => .throw
    | some place =>
      obtain ⟨r, at?⟩ := exists_rule here
      have inside : place < scene.program.rules.length :=
        length ▸ (List.getElem?_eq_some_iff.mp at?).1
      have body : Accounting.Describes (scene.recording input source) (scene.peg input source)
          ((Accounting.engine (scene.peg input source) (Accounting.rule (scene.peg input source) fuel)
            fuel).expr r.reports none [] r.body)
          (Tree.expr scene (Tree.rule scene fuel) fuel r.reports none [] r.body) := by
        rw [← Tree.expr_eq]
        exact (Tree.describes_parametric pure faithful fun name _ =>
          ih (scene.grammar.placeOf name)).expr r.body
            (prepared.accepted.resolves r (List.mem_of_getElem? at?)) rfl none []
      have own := @Accounting.rule_at (scene.peg input source) fuel place index here r at?
      have own' := (@Accounting.rule_at_place (scene.peg input source) (fuel + 1) place index here).trans own
      rw [rule_at here at?, own]
      intro h marks calls w valid books
      cases kept : w.kept? scene.program (Machine.memoKey scene.program place w.state.offset) with
      | some entry => exact kept_describes inside own' valid books kept
      | none => exact new_describes inside own' valid books body (by rw [at?]; rfl) kept

end Scene

end PegCompiler
