import PegCompiler.Text.Index
import PegCompiler.Proofs.Grammar.Nodes
import PegCompiler.Proofs.Grammar.Reaching

/-!
Where the nodes of a grammar stand in its text. `Expr.Placed` says of one node that its location is a
piece of the text, that its parts lie in that piece one behind the other, and that a label or code kept
with a location of its own is what the text says there. `Grammar.read_located` is the result: it holds of
all nodes of every grammar that was read, and of the rules and the grammar themselves; and an error is
located in the text as well.

The productions start and end their nodes at many different moments between what is skipped. What carries
the proof is `Row`, the locations of what was read so far in the order of the text, each of them between
two places that lead to one another.
-/

namespace PegCompiler

/-- The place behind the first `offset` code points of a text. Its line and its column are counted from
the line feeds before it. -/
def Text.positionAt (text : Text) (offset : Nat) : Position where
  offset := offset
  line := (text.take offset).count (CodePoint.scalar '\n') + 1
  column := ((text.take offset).reverse.takeWhile (· ≠ CodePoint.scalar '\n')).length + 1

namespace Location

/-- The location is a piece of `text`, which is called `source`. -/
def Spans (text : Text) (source : Option Text) (l : Location) : Prop :=
  ∃ i j : Nat, i ≤ j ∧ j ≤ text.length ∧ l = ⟨source, text.positionAt i, text.positionAt j⟩

/-- What `text` says at the location is `shown`. -/
def Shows (text shown : Text) (l : Location) : Prop :=
  Index.slice text l.start.offset l.stop.offset = shown

def Covers (outer inner : Location) : Prop :=
  outer.start.offset ≤ inner.start.offset ∧ inner.stop.offset ≤ outer.stop.offset

def Precedes (first second : Location) : Prop := first.stop.offset ≤ second.start.offset

/-- There is a location that is a piece of the text, and all parts lie in it, one behind the other. -/
def Frames (text : Text) (source : Option Text) (here : Option Location) (parts : List Location) : Prop :=
  ∃ l, here = some l ∧ l.Spans text source ∧ (∀ part ∈ parts, l.Covers part) ∧ parts.Pairwise Precedes

end Location

namespace Expr

/-- The locations that a node is put together from, in the order of the text. -/
def parts (e : Expr) : List Location :=
  match e with
  | labeled _ _ label _ _ => label.toList ++ e.children.filterMap location
  | action _ _ code _ => e.children.filterMap location ++ code.toList
  | _ => e.children.filterMap location

/-- What a node says with a location of its own: a label, or the code of an action. -/
def excerpt : Expr → Option Text × Option Location
  | labeled _ label location _ _ => (label, location)
  | action _ code location _ => (some code, location)
  | _ => (none, none)

theorem parts_of_excerpt {e : Expr} (nothing : e.excerpt.2 = none) :
    e.parts = e.children.filterMap location := by
  cases e with
  | labeled info found labelLocation auto body =>
    obtain rfl : labelLocation = none := nothing
    rfl
  | action info code codeLocation body =>
    obtain rfl : codeLocation = none := nothing
    exact List.append_nil _
  | _ => rfl

/-- A node stands where its location says. -/
structure Placed (text : Text) (source : Option Text) (e : Expr) : Prop where
  frames : Location.Frames text source e.location e.parts
  excerpt : Option.Rel (fun shown l => l.Spans text source ∧ l.Shows text shown) e.excerpt.1 e.excerpt.2

end Expr

/-- A rule stands where its location says, its name in front of its expression. -/
structure Rule.Placed (text : Text) (source : Option Text) (r : Rule) : Prop where
  frames : Location.Frames text source r.location (r.nameLocation.toList ++ r.body.location.toList)
  name : ∃ l, r.nameLocation = some l ∧ l.Spans text source ∧ l.Shows text r.name
  body : r.body.Everywhere (Expr.Placed text source)

/-- A grammar stands where its location says, its code in front of its rules. -/
structure Grammar.Placed (text : Text) (source : Option Text) (g : Grammar) : Prop where
  frames : Location.Frames text source g.location
    ((g.initializer.bind Initializer.location).toList ++ g.rules.filterMap Rule.location)
  initializer : ∀ i ∈ g.initializer, Location.Frames text source i.location []
  rules : ∀ r ∈ g.rules, r.Placed text source

namespace Cursor

variable {c d : Cursor} {t : Text}

theorem position_eq (c : Cursor) : c.position = c.whole.positionAt c.before.length := by
  have before : c.whole.take c.before.length = c.before.reverse := by
    rw [whole, ← List.length_reverse, List.take_left]
  rw [Text.positionAt, before, List.count_reverse, List.reverse_reverse]
  rfl

theorem Leads.offset_le (h : c.Leads d) : c.position.offset ≤ d.position.offset := by
  obtain ⟨t, reads⟩ := h
  simp only [position, reads.before, List.length_append]
  omega

theorem length_whole (c : Cursor) : c.whole.length = c.before.length + c.after.length := by
  simp [Cursor.whole]

theorem Leads.spans (h : c.Leads d) : (c.locationBetween d).Spans c.whole c.source := by
  obtain ⟨t, reads⟩ := h
  refine ⟨c.before.length, d.before.length, ?_, ?_, ?_⟩
  · simp [reads.before]
  · rw [← reads.whole, length_whole]
    omega
  · rw [locationBetween, position_eq c, position_eq d, reads.whole]

theorem Reads.shows (h : c.Reads t d) : (c.locationBetween d).Shows c.whole t := by
  have length := length_whole c
  have stops := length_whole d
  rw [h.whole] at stops
  have start : Index.bound c.whole.length c.before.length = c.before.length := by
    rw [Index.bound_natCast]
    omega
  have stop : Index.bound c.whole.length d.before.length = d.before.length := by
    rw [Index.bound_natCast]
    omega
  have passed : c.whole = c.before.reverse ++ t ++ d.after := by
    simp [Cursor.whole, h.after]
  have ends : d.before.length = (c.before.reverse ++ t).length := by
    simp [h.before, Nat.add_comm]
  change Index.slice c.whole c.before.length d.before.length = t
  rw [Index.slice, Index.upTo, start, stop, ends, passed, List.take_left]
  exact List.drop_left' List.length_reverse

end Cursor

/-- Between two places of a text: pieces of it, one behind the other. -/
inductive Row : Cursor → List Location → Cursor → Prop
  | nil {c d : Cursor} : c.Leads d → Row c [] d
  | cons {c a b d : Cursor} {ls : List Location} : c.Leads a → a.Leads b → Row b ls d →
      Row c (a.locationBetween b :: ls) d

namespace Row

variable {b c d e : Cursor} {ls ms : List Location}

theorem leads (row : Row c ls d) : c.Leads d := by
  induction row with
  | nil leads => exact leads
  | cons before inside _ ih => exact (before.trans inside).trans ih

theorem before (first : b.Leads c) (row : Row c ls d) : Row b ls d := by
  cases row with
  | nil leads => exact .nil (first.trans leads)
  | cons gap inside rest => exact .cons (first.trans gap) inside rest

theorem append (row : Row c ls d) (rest : Row d ms e) : Row c (ls ++ ms) e := by
  induction row with
  | nil leads => exact rest.before leads
  | cons gap inside _ ih => exact .cons gap inside (ih rest)

theorem behind (row : Row c ls d) (last : d.Leads e) : Row c ls e := by
  simpa using row.append (.nil last)

theorem single (inside : c.Leads d) : Row c [c.locationBetween d] d :=
  .cons (.refl c) inside (.nil (.refl d))

theorem covered (row : Row c ls d) : ∀ l ∈ ls, (c.locationBetween d).Covers l := by
  induction row with
  | nil => simp
  | cons gap inside rest ih =>
    have ahead := (gap.trans inside).offset_le
    refine List.forall_mem_cons.mpr ⟨⟨gap.offset_le, rest.leads.offset_le⟩, fun l member => ?_⟩
    exact ⟨Int.le_trans ahead (ih l member).1, (ih l member).2⟩

theorem ordered (row : Row c ls d) : ls.Pairwise Location.Precedes := by
  induction row with
  | nil => exact .nil
  | cons _ _ rest ih => exact .cons (fun l member => (rest.covered l member).1) ih

theorem frames (row : Row c ls d) :
    Location.Frames c.whole c.source (some (c.locationBetween d)) ls :=
  ⟨_, rfl, row.leads.spans, row.covered, row.ordered⟩

end Row

/-- Between two places of a text: expressions, one behind the other, all their nodes where they belong. -/
structure Lined (c : Cursor) (es : List Expr) (d : Cursor) : Prop where
  placed : ∀ e ∈ es, e.Everywhere (Expr.Placed c.whole c.source)
  row : Row c (es.filterMap Expr.location) d

namespace Lined

variable {b c d : Cursor} {e : Expr} {es fs : List Expr}

theorem nil (leads : c.Leads d) : Lined c [] d := ⟨by simp, .nil leads⟩

theorem before (first : b.Leads c) (lined : Lined c es d) : Lined b es d := by
  obtain ⟨whole, source⟩ := first.sameText
  exact ⟨by simpa only [whole, source] using lined.placed, lined.row.before first⟩

theorem behind (lined : Lined b es c) (last : c.Leads d) : Lined b es d :=
  ⟨lined.placed, lined.row.behind last⟩

theorem append (lined : Lined b es c) (rest : Lined c fs d) : Lined b (es ++ fs) d := by
  refine ⟨?_, by simpa using lined.row.append rest.row⟩
  exact List.forall_mem_append.mpr ⟨lined.placed, (rest.before lined.row.leads).placed⟩

theorem location_toList (lined : Lined c [e] d) : Row c e.location.toList d := by
  have row := lined.row
  cases location : e.location <;> simpa [location] using row

/-- A node from its parts: it reaches from the place where they begin to the one where they end. -/
theorem node (row : Row c e.parts d) (below : ∀ child ∈ e.children, child.Everywhere
      (Expr.Placed c.whole c.source))
    (here : e.location = some (c.locationBetween d))
    (excerpt : Option.Rel (fun shown l => l.Spans c.whole c.source ∧ l.Shows c.whole shown)
      e.excerpt.1 e.excerpt.2) : Lined c [e] d := by
  refine ⟨?_, by simpa [here] using Row.single row.leads⟩
  simpa using Expr.Everywhere.node ⟨here ▸ row.frames, excerpt⟩ below

/-- A node that is put together from the nodes below it alone. -/
theorem around (lined : Lined c es d) (children : e.children = es)
    (here : e.location = some (c.locationBetween d)) (excerpt : e.excerpt = (none, none)) :
    Lined c [e] d := by
  have parts := Expr.parts_of_excerpt (congrArg Prod.snd excerpt)
  refine node ?_ (children ▸ lined.placed) here (excerpt ▸ .none)
  simpa [parts, children] using lined.row

end Lined

/-- Between two places of a text: rules, one behind the other, all that they say where it belongs. -/
structure Ruled (c : Cursor) (rs : List Rule) (d : Cursor) : Prop where
  placed : ∀ r ∈ rs, r.Placed c.whole c.source
  row : Row c (rs.filterMap Rule.location) d

namespace Ruled

variable {b c d : Cursor} {rs ss : List Rule}

theorem nil (leads : c.Leads d) : Ruled c [] d := ⟨by simp, .nil leads⟩

theorem before (first : b.Leads c) (ruled : Ruled c rs d) : Ruled b rs d := by
  obtain ⟨whole, source⟩ := first.sameText
  exact ⟨by simpa only [whole, source] using ruled.placed, ruled.row.before first⟩

theorem append (ruled : Ruled b rs c) (rest : Ruled c ss d) : Ruled b (rs ++ ss) d := by
  refine ⟨?_, by simpa using ruled.row.append rest.row⟩
  exact List.forall_mem_append.mpr ⟨ruled.placed, (rest.before ruled.row.leads).placed⟩

end Ruled

namespace Scan

namespace Excerpt

variable {c d : Cursor} {found : Text × Location}

theorem row (h : Excerpt c found d) : Row c [found.2] d := by
  obtain ⟨a, b, before, reads, behind, location⟩ := h
  exact location ▸ .cons before ⟨_, reads⟩ (.nil behind)

theorem shown (h : Excerpt c found d) :
    found.2.Spans c.whole c.source ∧ found.2.Shows c.whole found.1 := by
  obtain ⟨a, b, before, reads, -, location⟩ := h
  obtain ⟨whole, source⟩ := before.sameText
  rw [location, ← whole, ← source]
  exact ⟨Cursor.Leads.spans ⟨_, reads⟩, reads.shows⟩

end Excerpt

/-- An expression between the place where the scan starts and the one where it ends. -/
abbrev Locates (scan : Scan Expr) (c : Cursor) : Prop := Reaches scan c fun e d => Lined c [e] d

variable {c first : Cursor} {nested : Nested} {inDelimiter : Bool}

/-- An expression behind what is skipped in front of it. -/
theorem skip_locates {next : Cursor → Scan Expr} (rest : ∀ a, Locates (next a) a) :
    Locates (skip >>= fun _ => get >>= next) c :=
  .bind (skip_reaches c) fun _ a leads _ => .get ((rest a).mono fun _ _ _ lined => lined.before leads)

theorem literal_locates : Locates literal c := by
  refine .get (.bind string_runs fun _ d more _ => .bind ignoreCaseFlag_runs fun _ e last _ => ?_)
  exact .locationFrom (.pure ((Lined.nil (more.trans last)).around rfl rfl rfl))

theorem charClass_locates : Locates charClass c := by
  refine .get (.modify (.next c) (.get ?_))
  have rest {d : Cursor} (leads : c.Leads d) (inverted : Bool) : Reaches (do
      let parts ← classParts (c.after.length + 1)
      let ignoreCase ← ignoreCaseFlag
      return .charClass { location := ← locationFrom c } ⟨parts, inverted, ignoreCase⟩) d
      fun e d => Lined c [e] d :=
    .bind (classParts_runs _) fun _ _ more _ => .bind ignoreCaseFlag_runs fun _ _ last _ =>
      .locationFrom (.pure ((Lined.nil ((leads.trans more).trans last)).around rfl rfl rfl))
  have one := Cursor.Leads.next c
  exact .ite (fun _ => .modify (.next _) (rest (one.trans (.next _)) _)) fun _ => rest one _

theorem ruleEnd_reaches {found : Text} {a : Cursor} {body : Expr} (named : first.Reads found a)
    (lined : Lined a [body] c) :
    Reaches (ruleEnd first found (first.locationBetween a) body) c fun r d => Ruled first [r] d := by
  have name : first.Leads a := ⟨found, named⟩
  have row : Row first ([first.locationBetween a] ++ body.location.toList) c :=
    (Row.single name).append lined.location_toList
  refine .locationFrom (.discard tryEat_runs fun _ d last _ => .pure ⟨?_, ?_⟩)
  · refine List.forall_mem_singleton.mpr ⟨row.frames, ⟨_, rfl, name.spans, named.shows⟩, ?_⟩
    exact List.forall_mem_singleton.mp (lined.before name).placed
  · exact (Row.single row.leads).behind last

section Nested

/-! Productions, given that what is nested inside them is located. -/

variable (inner : ∀ inDelimiter c, Locates (nested inDelimiter) c)

include inner

theorem primary_locates : Locates (primary nested) c := by
  refine skip_locates fun a => ?_
  have one := Cursor.Leads.next a
  split
  · exact literal_locates
  · exact literal_locates
  · exact charClass_locates
  · exact .set one (.locationFrom (.pure ((Lined.nil one).around rfl rfl rfl)))
  · refine .set one (.bind (inner false a.next) fun body b _ lined => .bind eat_runs fun _ d last _ => ?_)
    have inside : Lined a [body] d := (lined.before one).behind last
    split
    · exact .locationFrom (.pure (inside.around rfl rfl rfl))
    · exact .locationFrom (.pure (inside.around rfl rfl rfl))
    · exact .pure inside
  · refine .bind nameAhead_runs fun _ b more _ => .ite (fun _ => ?_) fun _ => .fail more.sameText.symm
    exact .bind name_reaches fun _ d last _ =>
      .locationFrom (.pure ((Lined.nil (more.trans last)).around rfl rfl rfl))

theorem range_locates {body : Expr} (lined : Lined first [body] c) :
    Reaches (range nested first body) c fun e d => Lined first [e] d := by
  refine .modify (.next c) (.bind bounds_reaches fun found a leads places => ?_)
  refine .bind (checkBounds_reaches places.1 places.2) fun _ b more _ => ?_
  refine .bind tryEat_runs fun _ d last _ => ?_
  have inside : Lined first [body] d := lined.behind
    ((((Cursor.Leads.next c).trans leads).trans more).trans last)
  have close (delimiter : Option Expr) {e : Cursor} (all : Lined first (body :: delimiter.toList) e) :
      Reaches (do
        eat "|"
        return .range { location := ← locationFrom first } found.1.1 found.2.1 body delimiter) e
        fun e d => Lined first [e] d := by
    refine .bind eat_runs fun _ f behind _ => .locationFrom (.pure ((all.behind behind).around ?_ rfl rfl))
    cases delimiter <;> rfl
  refine .ite (fun _ => ?_) fun _ => ?_
  · refine .bind (P := fun delimiter e => Lined first (body :: delimiter.toList) e) ?_
      fun delimiter e _ all => close delimiter all
    rw [← bind_pure_comp]
    exact .bind (inner true d) fun separator e _ behind => .pure (inside.append behind)
  · exact .bind (P := fun delimiter e => Lined first (body :: delimiter.toList) e) (.pure inside)
      fun delimiter e _ all => close delimiter all

theorem suffixed_locates : Locates (suffixed nested inDelimiter) c := by
  refine skip_locates fun a => ?_
  refine .bind (primary_locates inner) fun body b _ lined => .bind ahead_reaches fun found d more _ => ?_
  have inside : Lined a [body] d := lined.behind more
  have apply (operator : Operator) : Reaches (do
      modify Cursor.next
      return .unary { location := ← locationFrom a } operator body) d fun e d => Lined a [e] d :=
    .modify (.next d) (.locationFrom (.pure ((inside.behind (.next d)).around rfl rfl rfl)))
  split
  · exact apply .optional
  · exact apply .zeroOrMore
  · exact apply .oneOrMore
  · exact .ite (fun _ => .pure inside) fun _ => range_locates inner inside
  · exact .pure inside

/-- An operator in front of its operand; `first` is where the operator stands. -/
theorem operator_locates (leads : first.Leads c) {operator : Operator} : Reaches (do
    let body ← suffixed nested inDelimiter
    return .unary { location := ← locationFrom first } operator body) c fun e d => Lined first [e] d :=
  .bind (suffixed_locates inner) fun _ _ _ lined =>
    .locationFrom (.pure ((lined.before leads).around rfl rfl rfl))

theorem lookahead_locates (negative : Bool) : Reaches (do
    set c.next
    if (← ahead) == some (CodePoint.scalar '\x7b') then
      let (code, _) ← code
      return .predicate { location := ← locationFrom c } negative code
    else
      let body ← suffixed nested inDelimiter
      let operator := if negative then Operator.notFollowedBy else .followedBy
      return .unary { location := ← locationFrom c } operator body) c fun e d => Lined c [e] d := by
  have one := Cursor.Leads.next c
  refine .set one (.bind ahead_reaches fun _ a more _ => ?_)
  refine .ite (fun _ => .bind code_reaches fun _ d last _ => .locationFrom (.pure ?_)) fun _ => ?_
  · exact (Lined.nil ((one.trans more).trans last)).around rfl rfl rfl
  · exact operator_locates inner (one.trans more)

theorem prefixed_locates : Locates (prefixed nested inDelimiter) c := by
  refine skip_locates fun a => ?_
  split
  · exact lookahead_locates inner false
  · exact lookahead_locates inner true
  · exact .set (.next a) (operator_locates inner (.next a))
  · exact suffixed_locates inner

/-- What may have a label in front of it; `first` is where the element begins. -/
theorem labelable_locates (leads : first.Leads c) (auto : Bool) : Reaches (do
    if ← labelAhead then
      let (found, location) ← label
      let body ← prefixed nested inDelimiter
      return .labeled { location := ← locationFrom first } (some found) (some location) auto body
    else
      let body ← prefixed nested inDelimiter
      if auto then return .labeled { location := ← locationFrom first } none none true body
      else return body) c fun e d => Lined first [e] d := by
  refine .bind labelAhead_reaches fun _ c' _ same => ?_
  subst same
  refine .ite (fun _ => .bind label_reaches fun found a _ excerpt => ?_) fun _ => ?_
  · refine .bind (prefixed_locates inner) fun body d _ lined => .locationFrom (.pure ?_)
    have shown := excerpt.shown
    obtain ⟨whole, source⟩ := leads.sameText
    rw [whole, source] at shown
    have row := (excerpt.row.before leads).append lined.row
    have all := (lined.before excerpt.row.leads).before leads
    exact .node row all.placed rfl (.some shown)
  · refine .bind (prefixed_locates inner) fun body d _ lined => .ite (fun _ => ?_) fun _ => ?_
    · exact .locationFrom (.pure ((lined.before leads).around rfl rfl rfl))
    · exact .pure (lined.before leads)

theorem labeled_locates : Locates (labeled nested inDelimiter) c := by
  refine skip_locates fun a => ?_
  exact .ite (fun _ => .set (.next a) (labelable_locates inner (.next a) _)) fun _ =>
    labelable_locates inner (.refl a) _

theorem elements_locates (fuel : Nat) :
    Reaches (elements nested inDelimiter fuel) c fun es d => Lined c es d := by
  induction fuel generalizing c with
  | zero => exact .get (.fail (.refl c))
  | succ fuel ih =>
    refine .bind sequenceEnds_runs fun _ a leads _ => .ite (fun _ => .pure (.nil leads)) fun _ => ?_
    refine .bind (labeled_locates inner) fun e b _ lined => .bind ih fun es d _ rest => .pure ?_
    exact (lined.append rest).before leads

theorem sequence_locates : Locates (sequence nested inDelimiter) c := by
  refine skip_locates fun a => ?_
  refine .bind (elements_locates inner _) fun found d _ lined => ?_
  split
  · exact .get (.fail (.refl d))
  · exact .ite (fun _ => .locationFrom (.pure (lined.around rfl rfl rfl))) fun _ => .pure lined
  · exact .locationFrom (.pure (lined.around rfl rfl rfl))

theorem action_locates : Locates (action nested inDelimiter) c := by
  refine skip_locates fun a => ?_
  refine .bind (sequence_locates inner) fun body b _ lined => .bind ahead_reaches fun _ d more _ => ?_
  have inside : Lined a [body] d := lined.behind more
  refine .ite (fun _ => .bind code_reaches fun found f _ excerpt => ?_) fun _ => .pure inside
  have shown := excerpt.shown
  obtain ⟨whole, source⟩ := inside.row.leads.sameText
  rw [whole, source] at shown
  exact .locationFrom (.pure (.node (inside.row.append excerpt.row) inside.placed rfl (.some shown)))

theorem alternatives_locates (fuel : Nat) :
    Reaches (alternatives nested inDelimiter fuel) c fun es d => Lined c es d := by
  induction fuel generalizing c with
  | zero => exact .get (.fail (.refl c))
  | succ fuel ih =>
    refine .bind tryEat_runs fun _ a leads _ => .ite (fun _ => ?_) fun _ => .pure (.nil leads)
    refine .bind (action_locates inner) fun e b _ lined => .bind ih fun es d _ rest => .pure ?_
    exact (lined.append rest).before leads

theorem choiceOf_locates : Locates (choiceOf nested inDelimiter) c := by
  refine skip_locates fun a => ?_
  refine .bind (action_locates inner) fun found b _ lined =>
    .bind (alternatives_locates inner _) fun others d more rest => ?_
  split
  · exact .pure (lined.behind more)
  · exact .locationFrom (.pure ((lined.append rest).around rfl rfl rfl))

/-- What stands behind the name of a rule, which ends at `a`, and behind its display name. -/
theorem definition_reaches {found : Text} {a displayFirst : Cursor} (named : first.Reads found a)
    (gap : a.Leads displayFirst) (leads : displayFirst.Leads c) (display : Option Text) :
    Reaches (definition nested first displayFirst found (first.locationBetween a) display) c
      fun r d => Ruled first [r] d := by
  refine .bind eat_runs fun _ b first' _ => .bind (inner false b) fun body m _ lined => ?_
  have inside : Lined displayFirst [body] m := (lined.before first').before leads
  cases display with
  | none => exact .bind (.pure (inside.before gap)) fun _ _ _ => ruleEnd_reaches named
  | some display =>
    refine .locationFrom (.bind (P := fun body m => Lined a [body] m) (.pure ?_) fun _ _ _ =>
      ruleEnd_reaches named)
    exact (inside.around rfl rfl rfl).before gap

theorem rule_reaches : Reaches (rule nested) c fun r d => Ruled c [r] d := by
  refine .bind (skip_reaches c) fun _ first leads settled => .get ?_
  refine Reaches.mono (P := fun r d => Ruled first [r] d) ?_ fun r d _ ruled => ruled.before leads
  refine .bind name_reaches fun found a _ named => .locationFrom ?_
  obtain ⟨first', -, same, reads⟩ := named
  obtain rfl := same settled.1
  refine .bind (skip_reaches a) fun _ displayFirst gap _ => .get (.ite (fun _ => ?_) fun _ => ?_)
  · refine .bind (P := fun _ _ => True) ?_ fun display d leads _ =>
      definition_reaches inner reads gap leads display
    rw [← bind_pure_comp]
    exact .bind string_runs fun _ _ _ _ => .pure trivial
  · exact .bind (P := fun _ _ => True) (.pure trivial) fun display d leads _ =>
      definition_reaches inner reads gap leads display

theorem rules_reaches (fuel : Nat) : Reaches (rules nested fuel) c fun rs d => Ruled c rs d := by
  induction fuel generalizing c with
  | zero => exact .get (.fail (.refl c))
  | succ fuel ih =>
    refine .bind (skip_reaches c) fun _ a leads _ => .get (.ite (fun _ => .pure (.nil leads)) fun _ => ?_)
    refine .bind (rule_reaches inner) fun r b _ ruled => .bind ih fun rs d _ rest => .pure ?_
    exact (ruled.append rest).before leads

end Nested

theorem choice_locates (depth : Nat) : Locates (choice depth inDelimiter) c := by
  induction depth generalizing c inDelimiter with
  | zero => exact .get (.fail (.refl c))
  | succ depth ih => exact choiceOf_locates fun _ _ => ih

theorem initializer_reaches : Reaches initializer c fun found d =>
    Row c (found.bind Initializer.location).toList d ∧
      (∀ i ∈ found, Location.Frames c.whole c.source i.location []) ∧ (found = none → d = c) := by
  refine .get (.ite (fun _ => ?_) fun _ => .pure ⟨.nil (.refl c), by simp, fun _ => rfl⟩)
  refine .bind code_reaches fun _ d leads _ => .locationFrom (.discard tryEat_runs fun _ e last _ => ?_)
  refine .pure ⟨(Row.single leads).behind last, fun i found => ?_, nofun⟩
  cases found
  exact (Row.nil leads).frames

theorem grammar_reaches (depth : Nat) :
    Reaches (grammar depth) c fun g _ => g.Placed c.whole c.source := by
  refine .bind (skip_reaches c) fun _ a leads _ => .get ?_
  obtain ⟨whole, source⟩ := leads.sameText
  rw [← whole, ← source]
  refine .bind initializer_reaches fun initializer b _ first => ?_
  refine .bind (rules_reaches (fun _ _ => choice_locates depth) _) fun rs d _ ruled => ?_
  refine .ite (fun _ => ?_) fun _ => .locationFrom (.pure ?_)
  · exact .get (.bind (P := fun _ _ => False) (.fail (.refl d)) nofun)
  · have all := ruled.before first.1.leads
    exact ⟨(first.1.append ruled.row).frames, first.2.1, all.placed⟩

end Scan

namespace Grammar

/-- What is read from a text stands where its locations say. A text that is not read has an error at one
of its places, the end of the text included. -/
theorem read_located (text : Text) (source : Option Text) :
    match Grammar.read text source with
    | .ok g => g.Placed text source
    | .error error => ∃ i ≤ text.length,
        error.location = ⟨source, text.positionAt i, text.positionAt i⟩ := by
  have reaches := Scan.grammar_reaches (c := .start source text) (text.length + 1)
  unfold Scan.Reaches at reaches
  unfold Grammar.read
  cases run : Scan.grammar (text.length + 1) (.start source text) with
  | ok result =>
    rw [run] at reaches
    exact reaches.2
  | error error =>
    rw [run] at reaches
    obtain ⟨whole, same⟩ := reaches
    have length := Cursor.length_whole error.cursor
    have text_eq : error.cursor.whole = text := whole
    rw [text_eq] at length
    refine ⟨error.cursor.before.length, by omega, ?_⟩
    change error.cursor.locationBetween error.cursor = _
    rw [Cursor.locationBetween, Cursor.position_eq, text_eq, same]
    rfl

end Grammar

end PegCompiler
