import Mathlib.Data.List.Basic
import PegCompiler.Proofs.Run.Silence

/-!
What a failed parse says was expected. An expectation is noted before a match is tried, whatever comes
of it, so an entry of the error is only right if what did match there was followed by something that is
noted further on. Looking ahead, user code that decides, a choice that never matches and a bound that
is not met do without: apart from these, a literal, a class or a code point that was expected is not
there (`Grammar.failure_isReal`).
-/

namespace PegCompiler

namespace Entry

variable (matcher : CharClass → ClassMatcher) (input : Text) (offset : Int)

/-- The literal, the class or the code point is in the input at an offset. -/
def isHere : Entry → Bool
  | literal t false => t.isPrefixOf (Index.behind input offset)
  | literal t true =>
    let lowered := Text.lowercase t
    Text.lowercase (Index.slice input offset (offset + lowered.length)) == lowered
  | charClass members =>
    !members.parts.isEmpty && (Index.behind input offset).head?.any (matcher members).accepts
  | any => offset < input.length
  | _ => false

/-- The entry speaks about the input itself. -/
def isTerminal : Entry → Bool
  | literal .. | charClass _ | any => true
  | _ => false

/-- What was expected at an offset is not there, and what was expected not to be there is. -/
def isReal : Entry → Bool
  | not expected => !expected.isTerminal || expected.isHere matcher input offset
  | entry => !entry.isHere matcher input offset

/-- The entry is real and has a text for its name. -/
def Fits (entry : Entry) : Prop :=
  entry.isReal matcher input offset = true ∧ ∃ t, Describe.entry entry = some (.text t)

end Entry

namespace Describe

theorem mapM_textOf? (ts : List Text) : (ts.map Value.text).mapM textOf? = some ts := by
  induction ts with
  | nil => rfl
  | cons t rest ih => simp [List.mapM_cons, ih, textOf?]

theorem eraseDups_texts (ts : List Text) :
    (ts.map Value.text).eraseDups = ts.eraseDups.map Value.text := by
  induction n : ts.length using Nat.strongRecOn generalizing ts with
  | _ n ih =>
    cases ts with
    | nil => rfl
    | cons t rest =>
      have shorter := List.length_filter_le (fun u => !(u == t)) rest
      have others := ih _ (by
        simp only [List.length_cons] at n
        omega) (rest.filter fun u => !(u == t)) rfl
      rw [List.map_cons, List.eraseDups_cons, List.eraseDups_cons, List.filter_map, List.map_cons, ← others]
      rfl

theorem ordered?_texts (ts : List Text) :
    ordered? (ts.map Value.text) = some ((ts.mergeSort Text.le).map Value.text) := by
  match ts with
  | [] | [_] => simp [ordered?]
  | t :: u :: rest =>
    have texts := mapM_textOf? (t :: u :: rest)
    simp only [List.map_cons] at texts ⊢
    simp only [ordered?, texts]

/-- Texts are listed once each and in order. -/
theorem distinct?_texts (ts : List Text) :
    distinct? (ts.map Value.text) = some ((ts.eraseDups.mergeSort Text.le).map Value.text) := by
  have none : (ts.map Value.text).any Value.isCollection = false := by simp [Value.isCollection]
  rw [distinct?, none, if_neg Bool.false_ne_true, eraseDups_texts, ordered?_texts]

/-- The names of entries that have texts for them. -/
theorem exists_names {entries : List Entry} (texts : ∀ e ∈ entries, ∃ t, entry e = some (.text t)) :
    ∃ ts : List Text, entries.mapM entry = some (ts.map Value.text) ∧
      ∀ t, t ∈ ts ↔ ∃ e ∈ entries, entry e = some (.text t) := by
  induction entries with
  | nil => exact ⟨[], rfl, by simp⟩
  | cons e rest ih =>
    obtain ⟨ts, others, members⟩ := ih fun e he => texts e (by simp [he])
    obtain ⟨t, first⟩ := texts e (by simp)
    refine ⟨t :: ts, by simp [List.mapM_cons, first, others], fun u => ?_⟩
    simp [members, first, eq_comm]

/-- Texts can always be listed. -/
theorem message?_isSome {entries : List Entry} (found : Option Text)
    (texts : ∀ e ∈ entries, ∃ t, entry e = some (.text t)) : (message? entries found).isSome = true := by
  obtain ⟨ts, names, -⟩ := exists_names texts
  have enumerated : (enumeration? ((ts.eraseDups.mergeSort Text.le).map Value.text)).isSome = true := by
    match ts.eraseDups.mergeSort Text.le with
    | [] | [_] | [_, _] => rfl
    | t :: u :: v :: rest =>
      have texts := mapM_textOf? (t :: u :: v :: rest)
      simp only [List.map_cons] at texts ⊢
      simp [enumeration?, texts]
  obtain ⟨text, enumerated⟩ := Option.isSome_iff_exists.mp enumerated
  unfold message?
  split
  · rfl
  · simp [names, distinct?_texts, enumerated]

end Describe

/-- The error has a span, and where that begins its entries are real. -/
def ParseError.isReal (matcher : CharClass → ClassMatcher) (input : Text) (error : ParseError) : Bool :=
  match error.expected, error.place with
  | some entries, .span span => entries.all (·.isReal matcher input span.start.offset)
  | _, _ => false

/-- The error tells what was expected at its place and is not there, and it tells what is there instead;
so no literal that was expected is the very text that was found. -/
structure ParseError.Honest (matcher : CharClass → ClassMatcher) (input : Text) (source : Option Text)
    (error : ParseError) : Prop where
  isReal : error.isReal matcher input = true
  found : ∃ entries start stop, error.expected = some entries ∧ 0 ≤ start ∧
    error.place = .span (Place.span input source start stop) ∧
    error.found = input[start.toNat]?.map ([·]) ∧
    ∀ t, error.found = some t → .literal t false ∉ entries

namespace Furthest

variable (matcher : CharClass → ClassMatcher) (input : Text)

/-- The entries of a record are real, and each has a text for its name. -/
def Real (record : Furthest) : Prop :=
  ∀ entry ∈ record.entries, entry.Fits matcher input record.offset

/-- The entries of a record are real, or a parse that is at an offset has left them behind. -/
def Fair (record : Furthest) (offset : Int) : Prop :=
  record.Real matcher input ∨ record.offset < offset

variable {matcher input} {record : Furthest} {offset : Int} {entry : Entry}

theorem Fair.real (fair : record.Fair matcher input offset) (further : offset ≤ record.offset) :
    record.Real matcher input :=
  fair.resolve_right (Int.not_lt.mpr further)

theorem offset_note : record.offset ≤ (record.note offset entry).offset ∧
    offset ≤ (record.note offset entry).offset := by
  unfold note
  split
  · exact ⟨Int.le_refl _, by omega⟩
  · split
    · rename_i further
      exact ⟨Int.le_of_lt further, Int.le_refl _⟩
    · exact ⟨Int.le_refl _, by change offset ≤ record.offset; omega⟩

/-- Noting what is real. -/
theorem Fair.note (fair : record.Fair matcher input offset)
    (fits : entry.Fits matcher input offset) : (record.note offset entry).Real matcher input := by
  unfold Furthest.note
  split
  · rename_i behind
    exact fair.real (Int.le_of_lt behind)
  · split
    · simpa [Real] using fits
    · have here : record.offset = offset := by omega
      intro other member
      rcases List.mem_append.mp member with member | member
      · exact fair.real (by omega) other member
      · obtain rfl := List.mem_singleton.mp member
        exact here ▸ fits

/-- Noting anything, and going on from there. -/
theorem Fair.passed (fair : record.Fair matcher input offset) {onward : Int} (forward : offset < onward) :
    (record.note offset entry).Fair matcher input onward := by
  unfold Furthest.note
  split
  · rename_i behind
    exact .inl (fair.real (Int.le_of_lt behind))
  · split
    · exact .inr forward
    · exact .inr (by change record.offset < onward; omega)

end Furthest

/-- The parse is not silent and has one record open; what the memo table has for a failure has been
noted there or further on. -/
structure World.Hears (program : Program) (w : World) (record : Furthest) : Prop where
  silence : w.state.silence = 0
  records : w.state.records = [record]
  natural : 0 ≤ record.offset
  memo : ∀ (place : Nat) (start stop : Int), place < program.rules.length → 0 ≤ start →
    w.kept? program (Machine.memoKey program place start) = some (stop, none) → start ≤ record.offset

namespace World.Hears

variable {program : Program} {w v : World} {record record' : Furthest}

/-- Other fields than the silence, the records and the memo table have changed. -/
theorem of_same (hears : w.Hears program record) (silence : v.state.silence = w.state.silence)
    (records : v.state.records = w.state.records) (memo : v.memo = w.memo) : v.Hears program record :=
  ⟨silence.trans hears.silence, records.trans hears.records, hears.natural, fun place start stop h k found =>
    hears.memo place start stop h k (by unfold World.kept? at *; exact memo ▸ found)⟩

/-- A record that is further on. -/
theorem of_further (hears : w.Hears program record) (further : record.offset ≤ record'.offset)
    (silence : v.state.silence = 0) (records : v.state.records = [record'])
    (memo : ∀ key, v.kept? program key = w.kept? program key) : v.Hears program record' :=
  ⟨silence, records, Int.le_trans hears.natural further, fun place start stop h k found =>
    Int.le_trans (hears.memo place start stop h k (memo _ ▸ found)) further⟩

theorem expect (hears : w.Hears program record) (entry : Entry) :
    ∃ after, Run.go (Tree.expect true entry) w = (.ok ⟨⟩, after) ∧
      after.state.offset = w.state.offset ∧ after.state.input = w.state.input ∧
      after.Hears program (record.note w.state.offset entry) := by
  let after := { w with state := { w.state with records := [record.note w.state.offset entry] } }
  have further : record.offset ≤ (record.note w.state.offset entry).offset := Furthest.offset_note.1
  refine ⟨after, ?_, rfl, rfl, hears.of_further further hears.silence rfl fun _ => rfl⟩
  have audible : ¬0 < w.state.silence := hears.silence ▸ Int.lt_irrefl 0
  simp only [Tree.go_expect, ParserState.expect, if_neg audible, hears.records, if_true]
  rfl

end World.Hears

/-- What is at most a count does not exceed it. -/
theorem Number.exceeds_eq_false {n : Number} {count : Nat} (enough : n.atMost count = true) :
    n.exceeds count = false := by
  cases n with
  | integer n => simpa [atMost, exceeds] using enough
  | double x =>
    cases x with
    | finite negative magnitude =>
      exact decide_eq_false (Int.not_lt.mpr (of_decide_eq_true enough))
    | infinite negative => simpa [atMost, exceeds, Double.atMost, Double.exceeds] using enough
    | nan => rfl

namespace Boundary

/-- So many are as many as the greatest number allows. -/
def Reached (scope : Scope) (count : Nat) : Boundary → Prop
  | .count n => n ≤ count
  | .label (.text name) =>
    ∃ n, (Value.lookup? name scope).bind Value.number? = some n ∧ n.atMost count = true
  | _ => False

/-- So many are fewer than the least number. -/
def Lacks (scope : Scope) (count : Nat) : Boundary → Prop
  | .count n => (count : Int) < n
  | .label (.text name) =>
    ∃ n, (Value.lookup? name scope).bind Value.number? = some n ∧ n.exceeds count = true
  | _ => False

/-- There is no way to reach the greatest number without the least one, whatever a label holds. -/
def agrees : Boundary → Boundary → Bool
  | _, .unbounded => true
  | .count _, .count _ => true
  | .count n, .label _ => n ≤ 0
  | .label name, .label other => name = other
  | _, _ => false

theorem not_lacks_of_agrees {min max : Boundary} {scope : Scope} {count : Nat}
    (agree : min.agrees max = true) (ordered : min.Ordered max) (reached : max.Reached scope count) :
    ¬min.Lacks scope count := by
  intro lacks
  match max, reached with
  | .count n, reached =>
    match min, lacks with
    | .count m, lacks =>
      have : m ≤ n := ordered
      have : n ≤ count := reached
      have : (count : Int) < m := lacks
      omega
    | .label _, _ => cases agree
  | .label (.text name), ⟨n, found, enough⟩ =>
    match min, lacks with
    | .count m, lacks =>
      have : m ≤ 0 := of_decide_eq_true agree
      have : (count : Int) < m := lacks
      omega
    | .label (.text other), ⟨m, found', few⟩ =>
      cases (of_decide_eq_true agree : Limit.text other = .text name)
      obtain rfl := Option.some.inj (found.symm.trans found')
      simp [Number.exceeds_eq_false enough] at few

end Boundary

theorem Tree.reached_yields (scope : Scope) (max : Boundary) (count : Nat) {w : World} :
    (Tree.reached scope max count).Yields w fun enough after =>
      after = w ∧ (enough = true → max.Reached scope count) := by
  unfold Tree.reached
  split
  · exact .pure ⟨rfl, of_decide_eq_true⟩
  · refine .bind fun n later ended => ?_
    rw [Tree.go_boundOf] at ended
    split at ended
    · rename_i found
      cases ended
      exact .pure ⟨rfl, fun enough => ⟨n, found, enough⟩⟩
    · cases ended
  · exact .pure ⟨rfl, nofun⟩

theorem Tree.fewer_yields (scope : Scope) (min : Boundary) (count : Nat) {w : World} :
    (Tree.fewer scope min count).Yields w fun short after =>
      after = w ∧ (short = true → min.Lacks scope count) := by
  unfold Tree.fewer
  split
  · exact .pure ⟨rfl, of_decide_eq_true⟩
  · refine .bind fun n later ended => ?_
    rw [Tree.go_boundOf] at ended
    split at ended
    · rename_i found
      cases ended
      exact .pure ⟨rfl, fun short => ⟨n, found, short⟩⟩
    · cases ended
  · exact .pure ⟨rfl, nofun⟩

namespace Scene

open PegCompiler.Tree (reached_yields fewer_yields)

variable (scene : Scene) (input : Text) (source : Option Text)

/-- What has been noted behind a run: the record has not gone back, and it is fair. If the run has
`missed`, the record is real, and at `start` or further on. -/
def Told (record : Furthest) (start : Int) (missed : Prop) (after : World) : Prop :=
  ∃ record', after.Hears scene.program record' ∧ record.offset ≤ record'.offset ∧
    record'.Fair scene.matcher input after.state.offset ∧
    (missed → record'.Real scene.matcher input ∧ start ≤ record'.offset)

/-- A run that begins with a fair record leaves one, and a failure is noted where the run began or
further on. -/
def Tells (run : Run Outcome) : Prop :=
  ∀ w record, (scene.course input source).Valid w → w.Hears scene.program record →
    record.Fair scene.matcher input w.state.offset →
    run.Yields w fun out after => scene.Told input record w.state.offset (out = none) after

/-- A run stays within the parse, and a match does not go back. -/
def Walks (run : Run Outcome) : Prop :=
  (scene.course input source).Steps run fun s out t => (out = none → t = s) ∧ s ≤ t

variable {scene input source} {record : Furthest} {w after : World} {start : Int} {missed : Prop}

theorem walks_of_moves {e : Expr} {run : Run Outcome}
    (steps : (scene.course input source).Steps run (scene.grammar.Moves e)) :
    scene.Walks input source run :=
  steps.mono fun s out t moves => by
    cases out with
    | none => exact ⟨fun _ => moves.1, Int.le_of_eq moves.1.symm⟩
    | some _ => exact ⟨nofun, moves.1⟩

namespace Told

theorem mono {other : Prop} {before : Int} (told : scene.Told input record start missed after)
    (back : before ≤ start) (imp : other → missed) : scene.Told input record before other after := by
  obtain ⟨record', hears, further, fair, right⟩ := told
  refine ⟨record', hears, further, fair, fun h => ?_⟩
  obtain ⟨real, far⟩ := right (imp h)
  exact ⟨real, Int.le_trans back far⟩

theorem from_further {record' : Furthest} (told : scene.Told input record' start missed after)
    (further : record.offset ≤ record'.offset) : scene.Told input record start missed after := by
  obtain ⟨last, hears, more, fair, right⟩ := told
  exact ⟨last, hears, Int.le_trans further more, fair, right⟩

/-- Nothing was noted. -/
theorem same (hears : after.Hears scene.program record)
    (fair : record.Fair scene.matcher input after.state.offset) (matched : ¬missed) :
    scene.Told input record start missed after :=
  ⟨record, hears, Int.le_refl _, fair, fun h => absurd h matched⟩

end Told

section Leaves

/-- Where a primitive fails, the entry for it is real. -/
def Detects (matcher : CharClass → ClassMatcher) (entry : Entry)
    (primitive : ParserState → Except Raise (Option Text × ParserState)) : Prop :=
  ∀ s after : ParserState, s.Inside → primitive s = .ok (none, after) →
    entry.isReal matcher s.input s.offset = true

theorem detects_matchLiteral (matcher : CharClass → ClassMatcher) (literal : Text) :
    Detects matcher (.literal literal false) fun s => .ok (s.matchLiteral literal) := by
  intro s after inside failed
  have upper := inside.upper
  simp only [ParserState.matchLiteral, upper, decide_true, Bool.true_and] at failed
  split at failed
  · cases failed
  · rename_i absent
    change (!literal.isPrefixOf s.rest) = true
    rw [Bool.eq_false_iff.mpr absent, Bool.not_false]

theorem detects_matchLowercase (matcher : CharClass → ClassMatcher) (literal : Text) :
    Detects matcher (.literal literal true) fun s => .ok (s.matchLowercase (Text.lowercase literal)) := by
  intro s after inside failed
  simp only [ParserState.matchLowercase] at failed
  split at failed
  · cases failed
  · rename_i absent
    simpa [Entry.isReal, Entry.isHere] using absent

/-- There is no code point left where none can be taken. -/
theorem length_le_of_matchAny {s after : ParserState} (failed : s.matchAny = .ok (none, after)) :
    (s.input.length : Int) ≤ s.offset := by
  unfold ParserState.matchAny ParserState.matchOne at failed
  cases peeked : s.peek with
  | error raised =>
    rw [peeked] at failed
    cases failed
  | ok c =>
    rw [peeked] at failed
    cases c with
    | some c => cases failed
    | none =>
      unfold ParserState.peek at peeked
      split at peeked
      · assumption
      · split at peeked <;> cases peeked

theorem detects_matchAny (matcher : CharClass → ClassMatcher) : Detects matcher .any (·.matchAny) := by
  intro s after inside failed
  have ended := length_le_of_matchAny failed
  simpa [Entry.isReal, Entry.isHere] using ended

theorem detects_matchClass (matcher : CharClass → ClassMatcher) (members : CharClass) :
    Detects matcher (.charClass members) (·.matchClass (matcher members)) := by
  intro s after inside failed
  have length := inside.rest.2
  have lower := inside.lower
  unfold ParserState.matchClass at failed
  cases rest : s.rest with
  | nil => simp [Entry.isReal, Entry.isHere, show Index.behind s.input s.offset = [] from rest]
  | cons c others =>
    simp only [rest] at failed length
    split at failed
    · have ended := length_le_of_matchAny failed
      simp only [List.length_cons] at length
      omega
    · rename_i refused
      simp only [Entry.isReal, Entry.isHere, show Index.behind s.input s.offset = c :: others from rest]
      simp [refused]

/-- Noting what is expected and then trying to match it. -/
theorem leaf_tells {entry : Entry} {primitive : ParserState → Except Raise (Option Text × ParserState)}
    (advances : ∀ s : ParserState, s.Inside →
      ∃ result, primitive s = .ok result ∧ s.Advances True result)
    (detects : Detects scene.matcher entry primitive)
    (named : ∃ t, Describe.entry entry = some (.text t)) :
    scene.Tells input source (do Tree.expect true entry; Tree.matching primitive) := by
  intro w record valid hears fair
  refine .bind fun _ v ended => ?_
  obtain ⟨v', expects, offset, same, hears'⟩ := hears.expect entry
  rw [expects] at ended
  cases ended
  obtain ⟨follows, -⟩ := Course.expect_steps true entry w valid _ v expects
  intro out after ended
  have inside := follows.valid.state.toInside
  obtain ⟨⟨matched, s⟩, found, moved⟩ := advances v.state inside
  rw [Tree.go_matching, found] at ended
  cases ended
  have noted := @Furthest.offset_note record w.state.offset entry
  cases matched with
  | some t =>
    obtain ⟨n, rfl, -, positive⟩ := moved
    refine ⟨_, hears'.of_same rfl rfl rfl, noted.1, fair.passed ?_, nofun⟩
    have := positive trivial
    change w.state.offset < v.state.offset + n
    omega
  | none =>
    obtain rfl : s = v.state := moved
    have real := detects v.state v.state inside found
    rw [offset, same, valid.state.input] at real
    have right := fair.note ⟨real, named⟩
    exact ⟨_, hears', noted.1, .inl right, fun _ => ⟨right, noted.2⟩⟩

theorem act_tells (start : Int) (body : Text) (scope : Scope) :
    scene.Tells input source (Tree.act scene start body scope) := by
  intro w record valid hears fair
  refine .bind fun _ v ended => ?_
  cases ended
  refine .bind fun value v ended => ?_
  rw [Tree.go_call] at ended
  obtain ⟨-, rfl⟩ := Prod.mk.inj ended
  exact .pure (.same (hears.of_same rfl rfl rfl) fair nofun)

end Leaves

section Loops

variable {scope : Scope} {min max : Boundary}

/-- What was collected is as much as the greatest number allows, or an element that failed ended it. -/
theorem collect_tells {element : Run Outcome} (walks : scene.Walks input source element)
    (tells : scene.Tells input source element) (rounds : Nat) (items : List Value) (w : World)
    (record : Furthest) (valid : (scene.course input source).Valid w) (hears : w.Hears scene.program record)
    (fair : record.Fair scene.matcher input w.state.offset) :
    (Tree.collect (Tree.reached scope max) element rounds items).Yields w fun all after =>
      scene.Told input record w.state.offset (¬max.Reached scope all.length) after := by
  induction rounds generalizing items w record with
  | zero => exact .throw
  | succ rounds ih =>
    rw [Tree.collect]
    refine .bind fun enough w' ended => ?_
    obtain ⟨rfl, full⟩ := reached_yields scope max items.length enough w' ended
    cases enough with
    | true => exact .pure (.same hears fair (not_not_intro (full rfl)))
    | false =>
      refine .bind fun out v ended => ?_
      obtain ⟨follows, -, forward⟩ := walks w' valid out v ended
      have told := tells w' record valid hears fair out v ended
      cases out with
      | none => exact .pure (told.mono (Int.le_refl _) fun _ => rfl)
      | some item =>
        obtain ⟨record', hears', further, fair', -⟩ := told
        exact (ih _ v record' follows.valid hears' fair').mono fun all after told =>
          (told.from_further further).mono forward id

/-- The same with a delimiter. -/
theorem separate_tells {element separator : Run Outcome} (walks : scene.Walks input source element)
    (tells : scene.Tells input source element) (between : scene.Walks input source separator)
    (tells' : scene.Tells input source separator) (rounds : Nat) (start : Int) (items : List Value)
    (w : World) (record : Furthest) (valid : (scene.course input source).Valid w)
    (hears : w.Hears scene.program record) (fair : record.Fair scene.matcher input w.state.offset)
    (before : start ≤ w.state.offset) :
    (Tree.separate (Tree.reached scope max) element separator rounds start items).Yields w
      fun all after => scene.Told input record start (¬max.Reached scope all.length) after := by
  induction rounds generalizing start items w record with
  | zero => exact .throw
  | succ rounds ih =>
    rw [Tree.separate]
    refine .bind fun out v ended => ?_
    obtain ⟨follows, -, forward⟩ := walks w valid out v ended
    have told := tells w record valid hears fair out v ended
    obtain ⟨record', hears', further, fair', missed⟩ := told
    cases out with
    | none =>
      refine .bind fun _ u ended => ?_
      cases ended
      obtain ⟨real, far⟩ := missed rfl
      exact .pure ⟨record', hears'.of_same rfl rfl rfl, further, .inl real, fun _ =>
        ⟨real, Int.le_trans before far⟩⟩
    | some item =>
      refine .bind fun enough v' ended => ?_
      obtain ⟨rfl, full⟩ := reached_yields scope max (items.length + 1) enough v' ended
      have length : (items ++ [item]).length = items.length + 1 := by simp
      cases enough with
      | true =>
        refine .pure ⟨record', hears', further, fair', fun short => ?_⟩
        rw [length] at short
        exact absurd (full rfl) short
      | false =>
        refine .bind fun start' v'' ended => ?_
        cases ended
        refine .bind fun out u ended => ?_
        obtain ⟨follows', -, forward'⟩ := between v' follows.valid out u ended
        have told := (tells' v' record' follows.valid hears' fair' out u ended).from_further further
        have onward : start ≤ v'.state.offset := Int.le_trans before forward
        cases out with
        | none => exact .pure (told.mono onward fun _ => rfl)
        | some _ =>
          obtain ⟨record'', hears'', further', fair'', -⟩ := told
          exact (ih v'.state.offset _ u record'' follows'.valid hears'' fair'' forward').mono
            fun all after told => (told.from_further further').mono onward id

theorem gather_tells {element : Run Outcome} {separator : Option (Run Outcome)}
    (walks : scene.Walks input source element) (tells : scene.Tells input source element)
    (between : ∀ run ∈ separator, scene.Walks input source run ∧ scene.Tells input source run)
    {rounds : Nat} (valid : (scene.course input source).Valid w) (hears : w.Hears scene.program record)
    (fair : record.Fair scene.matcher input w.state.offset) :
    (Tree.gather rounds scope max element separator).Yields w fun all after =>
      scene.Told input record w.state.offset (¬max.Reached scope all.length) after := by
  cases separator with
  | none => exact collect_tells walks tells rounds [] w record valid hears fair
  | some separator =>
    obtain ⟨walks', tells'⟩ := between separator rfl
    cases rounds with
    | zero => exact .throw
    | succ rounds =>
      refine .bind fun enough w' ended => ?_
      obtain ⟨rfl, full⟩ := reached_yields scope max 0 enough w' ended
      cases enough with
      | true => exact .pure (.same hears fair (not_not_intro (full rfl)))
      | false =>
        refine .bind fun start w'' ended => ?_
        cases ended
        exact separate_tells walks tells walks' tells' (rounds + 1) _ [] w' record valid hears fair
          (Int.le_refl _)

/-- A range that is not entered raises. -/
theorem entered_tells {run : Run Outcome} {admitted : Prop} [Decidable admitted]
    (tells : scene.Tells input source run) :
    scene.Tells input source (if admitted then run else throw .wrongType) := by
  split
  · exact tells
  · exact fun _ _ _ _ _ => .throw

/-- A repetition that falls short has an element that failed, if its bounds go together. -/
theorem repetition_tells {element : Run Outcome} {separator : Option (Run Outcome)}
    (agree : min.agrees max = true) (ordered : min.Ordered max) (walks : scene.Walks input source element)
    (tells : scene.Tells input source element)
    (between : ∀ run ∈ separator, scene.Walks input source run ∧ scene.Tells input source run)
    (rounds : Nat) :
    scene.Tells input source (Tree.repetition rounds scope min max element separator) := by
  intro w record valid hears fair
  refine .bind fun start w' ended => ?_
  cases ended
  refine .bind fun all v ended => ?_
  have told := gather_tells walks tells between valid hears fair all v ended
  obtain ⟨record', hears', further, fair', missed⟩ := told
  refine .bind fun short v' ended => ?_
  obtain ⟨rfl, lacks⟩ := fewer_yields scope min all.length short v' ended
  cases short with
  | true =>
    refine .bind fun _ u ended => ?_
    cases ended
    obtain ⟨real, far⟩ := missed fun full => Boundary.not_lacks_of_agrees agree ordered full (lacks rfl)
    exact .pure ⟨record', hears'.of_same rfl rfl rfl, further, .inl real, fun _ => ⟨real, far⟩⟩
  | false => exact .pure ⟨record', hears', further, fair', nofun⟩

end Loops

section Expressions

variable {callRule : Int → Run Outcome} {rounds : Nat}

theorem row_tells {es : List Expr} (finish : Option Text) (start : Int)
    (walks : ∀ e ∈ es, ∀ scope,
      scene.Walks input source (Tree.expr scene callRule rounds true none scope e))
    (tells : ∀ e ∈ es, ∀ scope,
      scene.Tells input source (Tree.expr scene callRule rounds true none scope e))
    (scope : Scope) (autos values : List Value) (w : World) (record : Furthest)
    (valid : (scene.course input source).Valid w) (hears : w.Hears scene.program record)
    (fair : record.Fair scene.matcher input w.state.offset) (before : start ≤ w.state.offset) :
    (Tree.row scene callRule rounds true finish start scope autos values es).Yields w
      fun out after => scene.Told input record start (out = none) after := by
  induction es generalizing scope autos values w record with
  | nil =>
    cases finish with
    | none => exact .pure (.same hears fair nofun)
    | some code =>
      exact (act_tells start code scope w record valid hears fair).mono fun out after told =>
        told.mono before id
  | cons e rest ih =>
    rw [Tree.row]
    refine .bind fun out v ended => ?_
    obtain ⟨follows, -, forward⟩ := walks e (by simp) scope w valid out v ended
    obtain ⟨record', hears', further, fair', missed⟩ :=
      tells e (by simp) scope w record valid hears fair out v ended
    cases out with
    | none =>
      refine .bind fun _ u ended => ?_
      cases ended
      obtain ⟨real, far⟩ := missed rfl
      exact .pure ⟨record', hears'.of_same rfl rfl rfl, further, .inl real, fun _ =>
        ⟨real, Int.le_trans before far⟩⟩
    | some value =>
      exact (ih (fun e he => walks e (by simp [he])) (fun e he => tells e (by simp [he])) _ _ _ v
        record' follows.valid hears' fair' (Int.le_trans before forward)).mono fun out after told =>
          told.from_further further

/-- Where no alternative is tried, nothing may be left to note. -/
theorem alternatives_tell {es : List Expr} (scope : Scope)
    (walks : ∀ e ∈ es, scene.Walks input source (Tree.expr scene callRule rounds true none scope e))
    (tells : ∀ e ∈ es, scene.Tells input source (Tree.expr scene callRule rounds true none scope e))
    (w : World) (record : Furthest) (valid : (scene.course input source).Valid w)
    (hears : w.Hears scene.program record) (fair : record.Fair scene.matcher input w.state.offset)
    (tried : (∃ e ∈ es, e.verdict ≠ .never) ∨ w.state.offset ≤ record.offset) :
    (Tree.alternatives scene callRule rounds true scope es).Yields w
      fun out after => scene.Told input record w.state.offset (out = none) after := by
  induction es generalizing w record with
  | nil =>
    have far := tried.resolve_left (by simp)
    exact .pure ⟨record, hears, Int.le_refl _, fair, fun _ => ⟨fair.real far, far⟩⟩
  | cons e rest ih =>
    have others := ih (fun e he => walks e (by simp [he])) (fun e he => tells e (by simp [he]))
    rw [Tree.alternatives]
    split
    · rename_i pruned
      simp only [Bool.and_eq_true, decide_eq_true_eq] at pruned
      refine others w record valid hears fair (tried.imp_left ?_)
      rintro ⟨other, member, possible⟩
      rcases List.mem_cons.mp member with rfl | member
      · exact absurd pruned.2 possible
      · exact ⟨other, member, possible⟩
    · refine .bind fun out v ended => ?_
      obtain ⟨follows, back, -⟩ := walks e (by simp) w valid out v ended
      obtain ⟨record', hears', further, fair', missed⟩ :=
        tells e (by simp) w record valid hears fair out v ended
      cases out with
      | some value => exact .pure ⟨record', hears', further, fair', by simp⟩
      | none =>
        have same := back rfl
        have far := (missed rfl).2
        exact (others v record' follows.valid hears' fair' (.inr (same ▸ far))).mono
          fun out after told => (told.from_further further).mono (Int.le_of_eq same.symm) id

end Expressions

end Scene

/-- The node does not fail without something that is noted, nor notes what has matched: it is no
lookahead and no semantic predicate, no choice that never matches, and no repetition whose bounds can
disagree. With a memo table, what a display name keeps silent could be brought up again. -/
def Expr.isFrank (cache : Bool) : Expr → Bool
  | .unary _ .followedBy _ | .unary _ .notFollowedBy _ | .predicate .. => false
  | .choice info _ => info.verdict ≠ some .never
  | .range _ min max _ _ => min.agrees max
  | .named .. => !cache
  | _ => true

/-- Every node of a rule that reports is frank, those below a display name apart. -/
def Grammar.isFrank (cache : Bool) (g : Grammar) : Bool :=
  g.rules.all fun r => !r.reports ||
    (r.body.trail Expr.isNamed fun e => [.ok (e.isFrank cache)]).all fun entry => entry.toOption.getD false

section Frank

variable {g : Grammar} {cache : Bool} (frank : g.isFrank cache = true) {r : Rule} (member : r ∈ g.rules)
  (reports : r.reports = true)

include frank member reports

theorem Grammar.entries_of_isFrank :
    ∀ entry ∈ r.body.trail Expr.isNamed fun e => [.ok (e.isFrank cache)], entry = .ok true := by
  have all := List.all_eq_true.mp frank r member
  rw [reports, Bool.not_true, Bool.false_or] at all
  intro entry found
  have here := List.all_eq_true.mp all entry found
  cases entry with
  | error => cases here
  | ok frank => exact congrArg _ here

theorem Grammar.everywhere_of_isFrank (textual : r.body.Textual) :
    r.body.Everywhere (Expr.isFrank cache · = true) := by
  have entries := entries_of_isFrank frank member reports
  rw [Expr.trail_isNamed _ textual] at entries
  refine (Expr.everywhere_of_trail (Rule.Body.plain textual).expressions entries).mono fun e here => ?_
  exact Except.ok.inj (here (.ok (e.isFrank cache)) (by simp))

/-- With a memo table there is no display name. -/
theorem Grammar.isNamed_of_isFrank (caches : cache = true) : r.body.isNamed = false := by
  have entries := entries_of_isFrank frank member reports
  cases body : r.body with
  | named info name e =>
    rw [body] at entries
    have here := entries (.ok (Expr.isFrank cache (.named info name e))) (by simp [Expr.trail])
    simp [Expr.isFrank, caches] at here
  | _ => rfl

end Frank

/-- References lead to rules that report. -/
def Grammar.RefersToReporting (g : Grammar) : Expr → Prop
  | .ruleRef _ name => ∀ r ∈ g.rules, r.name = name → r.reports = true
  | _ => True

namespace Scene

variable {scene : Scene} {input : Text} {source : Option Text} {callRule : Int → Run Outcome} {rounds : Nat}

/-- An expression tells what it expects, if the rules that it refers to do. -/
theorem expr_tells (moves : ∀ name r, scene.grammar.find? name = some r →
      (scene.course input source).Steps (callRule (scene.grammar.placeOf name)) (scene.grammar.Moves r.body))
    (judged : scene.grammar.Judged)
    (calls : ∀ name, scene.grammar.defines name = true →
      (∀ r ∈ scene.grammar.rules, r.name = name → r.reports = true) →
        scene.Tells input source (callRule (scene.grammar.placeOf name)))
    {cache : Bool} (e : Expr) : scene.grammar.Sound e → e.Everywhere (Expr.isFrank cache · = true) →
      e.Everywhere scene.grammar.RefersToReporting → ∀ finish scope,
        scene.Tells input source (Tree.expr scene callRule rounds true finish scope e) := by
  induction e using Expr.byChildren with
  | node e ih =>
    intro sound frank refers finish scope
    have tells : ∀ b ∈ e.children, ∀ finish scope,
        scene.Tells input source (Tree.expr scene callRule rounds true finish scope b) :=
      fun b hb => ih b hb (sound.child hb) (frank.child hb) (refers.child hb)
    have walks (b : Expr) (hb : b ∈ e.children) (finish : Option Text) (scope : Scope) :
        scene.Walks input source (Tree.expr scene callRule rounds true finish scope b) :=
      walks_of_moves (Course.expr_steps moves judged b (sound.child hb) true finish scope)
    cases e with
    | literal info value ignoreCase =>
      rw [Tree.expr]
      split
      · exact fun w record valid hears fair => .pure (.same hears fair (by simp))
      · rename_i nonempty
        have nonempty : value ≠ [] := by simpa using nonempty
        cases ignoreCase with
        | false =>
          refine leaf_tells (fun s inside => ⟨_, rfl, ?_⟩) (detects_matchLiteral scene.matcher value)
            ⟨_, rfl⟩
          simpa [nonempty] using inside.matchLiteral value
        | true =>
          refine leaf_tells (fun s inside => ⟨_, rfl, ?_⟩) (detects_matchLowercase scene.matcher value)
            ⟨_, rfl⟩
          have := inside.matchLowercase (Text.lowercase value)
          simpa [Text.lowercase_eq_nil_iff, nonempty] using this
    | charClass info members =>
      rw [Tree.expr]
      split
      · rename_i empty
        intro w record valid hears fair
        refine .bind fun _ v ended => ?_
        obtain ⟨v', expects, offset, -, hears'⟩ := hears.expect (.charClass members)
        rw [expects] at ended
        cases ended
        have noted := @Furthest.offset_note record w.state.offset (.charClass members)
        have real := fair.note (show Entry.Fits scene.matcher input _ (.charClass members) from
          ⟨by simp [Entry.isReal, Entry.isHere, empty], _, rfl⟩)
        exact .pure ⟨_, hears', noted.1, .inl real, fun _ => ⟨real, noted.2⟩⟩
      · exact leaf_tells (fun s inside => inside.matchClass _) (detects_matchClass _ members) ⟨_, rfl⟩
    | any info =>
      rw [Tree.expr]
      exact leaf_tells (fun s inside => inside.matchAny) (detects_matchAny _) ⟨_, rfl⟩
    | ruleRef info name =>
      rw [Tree.expr]
      exact calls name sound.resolves.here refers.here
    | sequence info es =>
      intro w record valid hears fair
      rw [Tree.expr]
      refine .bind fun start w' ended => ?_
      cases ended
      cases rounds with
      | zero => exact .throw
      | succ rounds =>
        exact row_tells finish w.state.offset (fun e he scope => walks e he none scope)
          (fun e he scope => tells e he none scope) scope [] [] w record valid hears fair (Int.le_refl _)
    | choice info es =>
      rw [Tree.expr]
      split
      · rename_i pruned
        simp only [Bool.and_eq_true, decide_eq_true_eq] at pruned
        simpa [Expr.isFrank, pruned.2] using frank.here
      · cases rounds with
        | zero => exact fun w record _ _ _ => .throw
        | succ rounds =>
          intro w record valid hears fair
          refine alternatives_tell scope (fun e he => walks e he none scope)
            (fun e he => tells e he none scope) w record valid hears fair (.inl ?_)
          refine Classical.byContradiction fun untried => of_decide_eq_true frank.here ?_
          have never : Verdict.apart (es.map Expr.verdict) = .never := by
            refine Verdict.apart_of_never (by simpa using show es ≠ [] from sound.textual.here) ?_
            simpa [Expr.children] using untried
          exact (show info.verdict = some _ from sound.judged.here).trans (congrArg some never)
    | labeled info label at? auto body =>
      rw [Tree.expr]
      exact tells body (by simp [Expr.children]) none scope
    | unary info operator body =>
      have below : body ∈ (Expr.unary info operator body).children := by simp [Expr.children]
      have inner := tells body below none scope
      cases operator with
      | group =>
        rw [Tree.expr]
        exact inner
      | text =>
        intro w record valid hears fair
        rw [Tree.expr]
        refine .bind fun start w' ended => ?_
        cases ended
        refine .bind fun out v ended => ?_
        have told := inner w record valid hears fair out v ended
        cases out with
        | none => exact .pure told
        | some value =>
          refine .bind fun s v' ended => ?_
          cases ended
          exact .pure (told.mono (Int.le_refl _) (by simp))
      | followedBy => cases frank.here
      | notFollowedBy => cases frank.here
      | optional =>
        intro w record valid hears fair
        rw [Tree.expr]
        refine .bind fun out v ended => ?_
        exact .pure ((inner w record valid hears fair out v ended).mono (Int.le_refl _) (by simp))
      | zeroOrMore =>
        rw [Tree.expr]
        exact repetition_tells (show (Boundary.count 0).agrees .unbounded = true from rfl) trivial
          (walks body below none scope) inner (by simp) rounds
      | oneOrMore =>
        rw [Tree.expr]
        exact repetition_tells (show (Boundary.count 1).agrees .unbounded = true from rfl) trivial
          (walks body below none scope) inner (by simp) rounds
    | range info min max body delimiter =>
      obtain ⟨-, -, ordered⟩ := sound.textual.here
      have below : body ∈ (Expr.range info min max body delimiter).children := by
        cases delimiter <;> simp [Expr.children]
      have agree : min.agrees max = true := frank.here
      cases delimiter with
      | none =>
        rw [Tree.expr]
        exact entered_tells (repetition_tells agree ordered (walks body below none scope)
          (tells body below none scope) (by simp) rounds)
      | some separator =>
        rw [Tree.expr]
        refine entered_tells (repetition_tells agree ordered (walks body below none scope)
          (tells body below none scope) ?_ rounds)
        rintro _ ⟨⟩
        have between : separator ∈ (Expr.range info min max body (some separator)).children := by
          simp [Expr.children]
        exact ⟨walks separator between none scope, tells separator between none scope⟩
    | named info name body => exact absurd sound.textual.here id
    | action info code at? body =>
      have below : body ∈ (Expr.action info code at? body).children := by simp [Expr.children]
      intro w record valid hears fair
      rw [Tree.expr]
      refine .bind fun start w' ended => ?_
      cases ended
      refine .bind fun out v ended => ?_
      obtain ⟨follows, -, forward⟩ := walks body below (some code) scope w valid out v ended
      have told := tells body below (some code) scope w record valid hears fair out v ended
      cases out with
      | none => exact .pure told
      | some value =>
        simp only
        split
        · exact .pure (told.mono (Int.le_refl _) (by simp))
        · obtain ⟨record', hears', further, fair', -⟩ := told
          exact (act_tells w.state.offset code _ v record' follows.valid hears' fair').mono
            fun out after told => (told.from_further further).mono forward id
    | predicate info negative code => cases frank.here
    | foreign what => exact absurd sound.textual.here id

/-- A call tells what the rule expects: what was kept of it has been noted before. -/
theorem called_tells {body : Run Outcome} {place : Nat} (name : Text)
    (inside : place < scene.program.rules.length) (tells : scene.Tells input source body) :
    scene.Tells input source (Tree.called scene.program place name body) := by
  intro w record valid hears fair out after ended
  cases kept : w.kept? scene.program (Machine.memoKey scene.program place w.state.offset) with
  | some entry =>
    obtain ⟨stop, outcome⟩ := entry
    obtain ⟨events, same⟩ := Tree.go_called_kept place name kept
    rw [same body] at ended
    cases ended
    have hears' : World.Hears scene.program { w.change ({ · with offset := stop }) with events } record :=
      hears.of_same rfl rfl rfl
    have forward : w.state.offset ≤ stop := by
      have kept : (scene.course input source).kept place w.state.offset out stop :=
        valid.keeps inside kept
      exact kept.1
    refine ⟨record, hears', Int.le_refl _, ?_, ?_⟩
    · exact fair.imp_right fun behind => Int.lt_of_lt_of_le behind forward
    · rintro rfl
      have far := hears.memo place _ stop inside valid.state.lower kept
      exact ⟨fair.real far, far⟩
  | none =>
    obtain ⟨before, behind, same⟩ := Tree.go_called_anew place name kept
    rw [same body] at ended
    obtain ⟨outcome, v, found, last⟩ := Ended.andThen_eq_ok ended
    cases last
    have valid' : (scene.course input source).Valid { w with events := before } :=
      ((Course.Follows.refl valid).noted before).valid
    have hears' : World.Hears scene.program { w with events := before } record :=
      hears.of_same rfl rfl rfl
    obtain ⟨record', hears', further, fair', missed⟩ := tells _ record valid' hears' fair out v found
    refine ⟨record', ⟨hears'.silence, hears'.records, hears'.natural, ?_⟩, further, fair', missed⟩
    intro other start stop bound lower known
    change (v.remembering scene.program _ out).kept? scene.program _ = _ at known
    rw [World.remembering_kept?] at known
    split at known
    · rename_i here
      obtain ⟨-, rfl⟩ := Machine.memoKey_inj inside bound here.2
      cases known
      exact (missed rfl).2
    · exact hears'.memo other start stop bound lower known

section Rules

variable (prepared : scene.grammar.Prepared)
  (length : scene.program.rules.length = scene.grammar.rules.length)
  (refers : ∀ r ∈ scene.grammar.rules, r.reports = true → r.body.isNamed = false →
    r.body.Everywhere scene.grammar.RefersToReporting)
  (frank : scene.grammar.isFrank scene.program.cache = true)

include prepared in
/-- A rule with a display name notes that name, and nothing below it. -/
theorem displayed_tells (plain : scene.program.cache = false) {r : Rule} (member : r ∈ scene.grammar.rules)
    {info : Info} {name : Text} {e : Expr} (displayed : r.body = .named info name e) (fuel : Nat) :
    scene.Tells input source (Tree.expr scene (Tree.rule scene fuel) fuel true none [] r.body) := by
  intro w record valid hears fair out after ended
  rw [displayed] at ended
  have below : e ∈ r.body.children := by simp [displayed, Expr.children]
  obtain ⟨silence, record', records, raised⟩ := @Scene.displayed_yields scene True
    (fun fuel name defined _ => by
      obtain ⟨q, found⟩ := Option.isSome_iff_exists.mp defined
      obtain ⟨i, place, at?⟩ := Grammar.placeOf_spec found
      exact Scene.rule_hushes prepared fuel
        (place ▸ Index.place?_natCast (List.getElem?_eq_some_iff.mp at?).1) at? (absurd trivial))
    info name e ((prepared.accepted.resolves r member).child below) (absurd trivial) fuel w record []
    hears.silence hears.records _ _ ended
  have noted := @Furthest.offset_note record w.state.offset (.rule name)
  have real := fair.note (show Entry.Fits scene.matcher input _ (.rule name) from ⟨rfl, _, rfl⟩)
  have further : (record.note w.state.offset (.rule name)).offset ≤ record'.offset := by
    rcases raised with rfl | ⟨-, further, -⟩
    · exact Int.le_refl _
    · exact Int.le_of_lt further
  have real' : record'.Real scene.matcher input := by
    rcases raised with rfl | ⟨-, -, empty⟩
    · exact real
    · simp [Furthest.Real, empty]
  refine ⟨record', hears.of_further (Int.le_trans noted.1 further) silence records fun key => ?_,
    Int.le_trans noted.1 further, .inl real', fun _ => ⟨real', Int.le_trans noted.2 further⟩⟩
  simp [World.kept?, plain]

include prepared length refers frank in
/-- A rule that reports tells what it expects. -/
theorem rule_tells (fuel : Nat) {index : Int} {place : Nat} {r : Rule}
    (here : Index.place? scene.grammar.rules.length index = some place)
    (at? : scene.grammar.rules[place]? = some r) (reports : r.reports = true) :
    scene.Tells input source (Tree.rule scene fuel index) := by
  induction fuel generalizing index place r with
  | zero => exact fun w record _ _ _ => .throw
  | succ fuel ih =>
    rw [rule_at here at?]
    have member := List.mem_of_getElem? at?
    refine called_tells r.name (length ▸ (List.getElem?_eq_some_iff.mp at?).1) ?_
    rw [reports]
    have body := prepared.soundBody member
    cases plain : r.body.isNamed with
    | false =>
      refine expr_tells (calls_steps prepared length fuel) prepared.judged (fun name defined reporting => ?_)
        r.body (body.sound plain) (Grammar.everywhere_of_isFrank frank member reports
          (body.sound plain).textual) (refers r member reports plain) none []
      obtain ⟨q, found⟩ := Option.isSome_iff_exists.mp defined
      obtain ⟨i, place, at?⟩ := Grammar.placeOf_spec found
      exact ih (place ▸ Index.place?_natCast (List.getElem?_eq_some_iff.mp at?).1) at?
        (reporting q (List.mem_of_getElem? at?) (Grammar.find?_name found))
    | true =>
      have cache : scene.program.cache = false := by
        cases cache : scene.program.cache with
        | false => rfl
        | true => simp [Grammar.isNamed_of_isFrank frank member reports cache] at plain
      cases h : r.body with
      | named info name e => exact h ▸ displayed_tells prepared cache member h fuel
      | _ => simp [h, Expr.isNamed] at plain

end Rules

end Scene

namespace ParserState

theorem mem_distinct {entries : List Entry} {entry : Entry} (member : entry ∈ distinct entries) :
    entry ∈ entries := by
  have kept (rest seen : List Entry) (h : entry ∈ rest.foldl
      (fun kept entry => if kept.any entry.same then kept else kept ++ [entry]) seen) :
      entry ∈ seen ∨ entry ∈ rest := by
    induction rest generalizing seen with
    | nil => exact .inl h
    | cons first rest ih =>
      rcases ih _ h with before | later
      · simp only at before
        split at before
        · exact .inl before
        · rcases List.mem_append.mp before with before | here
          · exact .inl before
          · exact .inr (by simp [List.mem_singleton.mp here])
      · exact .inr (by simp [later])
  exact (kept entries [] member).resolve_left (by simp)

/-- What is at an offset that does not lie before the input. -/
theorem peek_of_natural {s : ParserState} (natural : 0 ≤ s.offset) :
    s.peek = .ok s.input[s.offset.toNat]? := by
  unfold peek
  split
  · rename_i behind
    rw [List.getElem?_eq_none (by omega)]
  · rename_i before
    have bound : s.offset.toNat < s.input.length := by omega
    have place := Index.place?_natCast bound
    rw [Int.toNat_of_nonneg natural] at place
    simp [Index.at?, place, bound]

/-- The error about a record. -/
theorem failure_eq {s : ParserState} {record : Furthest} (records : s.records = [record])
    (natural : 0 ≤ record.offset) (texts : ∀ e ∈ record.entries, ∃ t, Describe.entry e = some (.text t)) :
    let found := s.input[record.offset.toNat]?.map ([·])
    ∃ message, Describe.message? (distinct record.entries) found = some message ∧
      s.failure = .syntaxError ⟨.text message, some (distinct record.entries), found,
        .span (s.spanOf record.offset (if found.isSome then record.offset + 1 else record.offset))⟩ := by
  intro found
  have peeked : ({ s with offset := record.offset } : ParserState).peek =
    .ok s.input[record.offset.toNat]? := peek_of_natural natural
  obtain ⟨message, told⟩ := Option.isSome_iff_exists.mp
    (Describe.message?_isSome found fun e member => texts e (mem_distinct member))
  refine ⟨message, told, ?_⟩
  unfold failure
  rw [show s.records.getLast? = some record by simp [records]]
  simp only [peeked]
  rw [show Describe.message? (distinct record.entries) (Option.map ([·]) _) = some message from told]

/-- The error about a record that is real. -/
theorem failure_of_real {s : ParserState} {record : Furthest} (records : s.records = [record])
    (natural : 0 ≤ record.offset) {matcher : CharClass → ClassMatcher}
    (real : record.Real matcher s.input) : ∃ error, s.failure = .syntaxError error ∧
      error.Honest matcher s.input s.source := by
  obtain ⟨message, -, failed⟩ := failure_eq records natural fun e member => (real e member).2
  have real : ∀ entry ∈ distinct record.entries, entry.isReal matcher s.input record.offset = true :=
    fun entry member => (real entry (mem_distinct member)).1
  refine ⟨_, failed, ?_, _, record.offset, _, rfl, natural, rfl, rfl, fun t found member => ?_⟩
  · simpa [ParseError.isReal, spanOf, Place.span, Place.position] using real
  · have expected := real _ member
    simp only [Entry.isReal, Entry.isHere, Bool.not_eq_true', Bool.eq_false_iff, ne_eq,
      List.isPrefixOf_iff_prefix] at expected
    obtain ⟨c, at?, rfl⟩ := Option.map_eq_some_iff.mp found
    obtain ⟨bound, rfl⟩ := List.getElem?_eq_some_iff.mp at?
    have place : Index.bound s.input.length record.offset = record.offset.toNat := by
      unfold Index.bound
      rw [if_neg (by omega)]
      omega
    refine expected ⟨s.input.drop (record.offset.toNat + 1), ?_⟩
    rw [Index.behind, place, List.drop_eq_getElem_cons bound, List.singleton_append]

/-- The end of a parse. What has matched and leaves input over expects its end instead. -/
theorem finish_of_fair {s : ParserState} {record : Furthest} (silence : s.silence = 0)
    (records : s.records = [record]) (natural : 0 ≤ record.offset)
    {matcher : CharClass → ClassMatcher} (fair : record.Fair matcher s.input s.offset)
    (upper : s.offset ≤ s.input.length) {out : Outcome}
    (missed : out = none → record.Real matcher s.input) {raised : Raise}
    (failed : (s.finish out).1 = .error raised) : ∃ error, raised = .syntaxError error ∧
      error.Honest matcher s.input s.source := by
  cases out with
  | none =>
    obtain rfl : s.failure = raised := Except.error.inj failed
    exact failure_of_real records natural (missed rfl)
  | some value =>
    unfold finish at failed
    simp only at failed
    split at failed
    · cases failed
    · rw [if_pos (by omega)] at failed
      have real := fair.note (show Entry.Fits matcher s.input s.offset .endOfInput from ⟨rfl, _, rfl⟩)
      have further := Int.le_trans natural (@Furthest.offset_note record s.offset .endOfInput).1
      have noted : s.expect .endOfInput =
          .ok { s with records := [record.note s.offset .endOfInput] } := by
        unfold expect
        rw [if_neg (by omega)]
        simp only [records]
      rw [noted] at failed
      obtain ⟨error, raised, isReal, found⟩ := @failure_of_real
        { s with records := [record.note s.offset .endOfInput] } _ rfl further matcher real
      exact ⟨error, (Except.error.inj failed).symm.trans raised, isReal, found⟩

end ParserState

namespace Grammar

/-- What may be relied on of the marks of a grammar. -/
structure Reporting (g : Grammar) (startRules : List Value) : Prop where
  start : ∀ r ∈ g.rules, .text r.name ∈ startRules → r.reports = true
  refers : ∀ r ∈ g.rules, r.reports = true → r.body.isNamed = false →
    r.body.Everywhere g.RefersToReporting

variable {g : Grammar} {settings : Settings} {semantics : Semantics}

/-- The start rules of a grammar report once it is prepared, and so does what a rule that reports
refers to. -/
theorem prepare_reporting (accepted : g.Accepted)
    (fresh : ∀ r ∈ g.rules, r.verdict = none ∧ r.words = none) :
    (g.prepare settings).Reporting settings.startRules := by
  obtain ⟨resolved, marks, verdicts, prepares⟩ := exists_prepares settings accepted fresh
  have accepted := prepares.descends.accepted accepted
  obtain ⟨starts, refers⟩ :=
    Reporting.annotate_spreads accepted.textual accepted.names settings.startRules
  rw [prepares.reports] at starts refers
  have source {r : Rule} (member : r ∈ verdicts) : ∃ s ∈ marks, s.name = r.name ∧
      Expr.Like id s.body r.body ∧ (r.reports = true ↔ s.reportsFailures = some true) := by
    obtain ⟨s, there, same, like⟩ := prepares.annotates r member
    obtain ⟨q, -, mark, marked⟩ := prepares.marked s there
    refine ⟨s, there, by rw [same], like, ?_⟩
    rw [Rule.reports, same]
    change (s.reportsFailures != some false) = true ↔ _
    rw [marked]
    cases mark <;> simp
  have whole : (g.prepare settings).rules = verdicts := by rw [prepares.prepare_eq]
  refine ⟨fun r member start => ?_, fun r member reports plain => ?_⟩
  · rw [whole] at member
    obtain ⟨s, before, name, -, iff⟩ := source member
    exact iff.mpr (starts s before (name ▸ start))
  · rw [whole] at member
    obtain ⟨s, before, -, like, iff⟩ := source member
    have plain' : s.body.isNamed = false := by
      cases h : s.body with
      | named =>
        rw [h] at like
        obtain ⟨_, _, named, -⟩ := like
        simp [named, Expr.isNamed] at plain
      | _ => rfl
    refine like.everywhere (fun e f like here => ?_) (refers s before (iff.mp reports) plain')
    cases f with
    | ruleRef info name =>
      obtain ⟨name, _, rfl, rfl⟩ := like.of_ruleRef
      intro r member same
      rw [whole] at member
      obtain ⟨q, before, name, -, iff⟩ := source member
      exact iff.mpr (here q before (name.trans same))
    | _ => trivial

/-- The parse of an input with the first rule does not match, and a test passes on the offset of what was
expected and on the entries; each of these has a text for its name. -/
def failsWith (input : Text) (test : Int → List Entry → Bool) (g : Grammar) : Bool :=
  match (g.compiled plainSettings).bytecode? countingSemantics with
  | some program =>
    match program.runFrom 9 0 { input } with
    | (.ok none, after) =>
      match after.state.records with
      | [record] =>
        let entries := ParserState.distinct record.entries
        0 ≤ record.offset && test record.offset entries &&
          record.entries.all fun entry => ((Describe.entry entry).bind Describe.textOf?).isSome
      | _ => false
    | _ => false
  | none => false

theorem exists_of_failsWith {input : Text} {test : Int → List Entry → Bool}
    (fails : failsWith input test g = true) : ∃ program after error entries span,
      (g.compiled plainSettings).bytecode? countingSemantics = some program ∧
      program.runFrom 9 0 { input } = (.ok none, after) ∧
      (after.state.finish none).1 = .error (.syntaxError error) ∧
      error.expected = some entries ∧ error.place = .span span ∧
      test span.start.offset entries = true := by
  unfold failsWith at fails
  split at fails
  · rename_i program reads
    split at fails
    · rename_i after ended
      split at fails
      · rename_i record records
        simp only [Bool.and_eq_true, decide_eq_true_eq, List.all_eq_true] at fails
        obtain ⟨⟨natural, tested⟩, texts⟩ := fails
        obtain ⟨message, -, failed⟩ := ParserState.failure_eq records natural fun entry member => by
          obtain ⟨t, known⟩ := Option.isSome_iff_exists.mp (texts entry member)
          obtain ⟨value, described, same⟩ := Option.bind_eq_some_iff.mp known
          cases value with
          | text u => exact ⟨u, described⟩
          | _ => cases same
        exact ⟨program, after, _, _, _, reads, ended, congrArg Except.error failed, rfl, rfl, tested⟩
      · cases fails
    · cases fails
  · cases fails

/-- A display name, and as many letters as a digit says at most. -/
def frankText : Text := .ofString "s = n:d 'a'|..n| 'b'\nd \"digit\" = [0-9] { return 2 }"

/-- Grammars, and inputs that fail without a note where they fail: behind what did match, something was
looked for ahead, or there is a predicate, a choice that never matches, or a bound that is not met. -/
def unreported : List (Text × Text) := [
  (.ofString "s = &'a' 'b'", .ofString "a"),
  (.ofString "s = !'a' 'b'", .ofString "c"),
  (.ofString "s = 'a' !{ return 2 }", .ofString "a"),
  (.ofString "s = 'a' ([] / [])", .ofString "a"),
  (.ofString "s = n:c 'a'|n..1|\nc = [0-9] { return 2 }", .ofString "2a"),
  (.ofString "s = n:c 'a'|3..n|\nc = [0-9] { return 2 }", .ofString "2aa")]

/-- The grammar is accepted, the input does not match, and the error says of something that is there that
it was expected, or of something that is not that it was expected not to be. -/
def MisleadsOn (sample : Text × Text) : Prop :=
  ∃ g program after error, Grammar.read sample.1 none = .ok g ∧
    (Stage.check.run plainSettings g).failure = none ∧
    (g.compiled plainSettings).bytecode? countingSemantics = some program ∧
    program.runFrom 9 0 { input := sample.2 } = (.ok none, after) ∧
    (after.state.finish none).1 = .error (.syntaxError error) ∧
    error.isReal countingSemantics.matcher sample.2 = false

end Grammar

end PegCompiler
