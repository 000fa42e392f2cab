import PegCompiler.Emit.ClassPattern
import PegCompiler.Run.ParseError
import PegCompiler.Text.Lowercase

/-!
The state of a parse: where it is in the input, and what was expected furthest on. Looking ahead
opens a record of its own; when it is closed, its entries go to the record around it, turned round
if the lookahead was for something that must not match.

Offsets are whole numbers. A parse only makes offsets that lie in the input, but a state can be put
anywhere by hand: beyond the end nothing matches, and a negative offset counts from the end.
-/

namespace PegCompiler

/-- The furthest offset at which something was expected, and what it was. -/
structure Furthest where
  offset : Int
  entries : List Entry := []
  deriving Repr, Inhabited

/-- What can go wrong in a parse. -/
inductive Raise
  | syntaxError (error : ParseError)
  /-- There is no record left to note anything in. -/
  | noRecord
  /-- There is no record left to close. -/
  | nothingOpen
  | wrongType
  | unknownName (name : Text)
  | invalidValue (message : Text)
  /-- A number is too great for what it is to become. -/
  | overflow (message : Text)
  /-- Code that is not well formed. -/
  | malformed
  /-- What was compiled is no parser. -/
  | noParser
  /-- An offset so far before the beginning that there is no code point. -/
  | beforeInput
  | outOfFuel

structure ParserState where
  input : Text
  source : Option Text := none
  offset : Int := 0
  /-- Where the match begins that running user code sees. -/
  mark : Int := 0
  /-- While this is positive nothing is noted. -/
  silence : Int := 0
  /-- The open records, the innermost first. -/
  records : List Furthest := [⟨0, []⟩]

namespace Furthest

/-- Notes an entry at an offset; a record only keeps what is furthest on. -/
def note (record : Furthest) (offset : Int) (entry : Entry) : Furthest :=
  if offset < record.offset then record
  else if record.offset < offset then ⟨offset, [entry]⟩
  else { record with entries := record.entries ++ [entry] }

/-- Takes over what an inner record has. -/
def absorb (record inner : Furthest) (inverted : Bool) : Furthest :=
  let entries := if inverted then inner.entries.map Entry.invert else inner.entries
  if record.offset < inner.offset then ⟨inner.offset, entries⟩
  else if inner.offset = record.offset then { record with entries := record.entries ++ entries }
  else record

end Furthest

namespace ParserState

/-! ## Matching: each gives the matched text and goes on behind it, or nothing -/

/-- The input from here on; beyond the end there is none. -/
def rest (state : ParserState) : Text := Index.behind state.input state.offset

def advance (state : ParserState) (count : Nat) : ParserState :=
  { state with offset := state.offset + count }

/-- The code point here; there is none at the end of the input or beyond it. -/
def peek (state : ParserState) : Except Raise (Option CodePoint) :=
  if state.input.length ≤ state.offset then .ok none
  else match Index.at? state.input state.offset with
    | some c => .ok (some c)
    | none => .error .beforeInput

/-- Takes one code point if it passes the test. -/
def matchOne (state : ParserState) (accepts : CodePoint → Bool) :
    Except Raise (Option Text × ParserState) := do
  match ← state.peek with
  | none => return (none, state)
  | some c => return if accepts c then (some [c], state.advance 1) else (none, state)

def matchAny (state : ParserState) : Except Raise (Option Text × ParserState) :=
  state.matchOne fun _ => true

/-- Takes one code point if it is the given text. -/
def matchChar (state : ParserState) (t : Text) : Except Raise (Option Text × ParserState) :=
  state.matchOne fun c => t == [c]

/-- Takes one code point if it is in the class. The class is asked first, and an offset before the
beginning asks it about the first code point. -/
def matchClass (state : ParserState) (matcher : ClassMatcher) :
    Except Raise (Option Text × ParserState) :=
  match state.rest with
  | [] => .ok (none, state)
  | c :: _ => if matcher.accepts c then state.matchAny else .ok (none, state)

def matchLiteral (state : ParserState) (literal : Text) : Option Text × ParserState :=
  if state.offset ≤ state.input.length && literal.isPrefixOf state.rest then
    (some literal, state.advance literal.length)
  else (none, state)

/-- Takes as many code points as `lowered` has if they are the same in lower case. -/
def matchLowercase (state : ParserState) (lowered : Text) : Option Text × ParserState :=
  let chunk := Index.slice state.input state.offset (state.offset + lowered.length)
  if Text.lowercase chunk = lowered then (some chunk, state.advance chunk.length) else (none, state)

/-! ## Records -/

def expect (state : ParserState) (entry : Entry) : Except Raise ParserState :=
  if 0 < state.silence then .ok state
  else match state.records with
    | [] => .error .noRecord
    | record :: outer =>
      .ok { state with records := record.note state.offset entry :: outer }

/-- Opens a record. -/
def openRecord (state : ParserState) : ParserState :=
  { state with records := ⟨state.offset, []⟩ :: state.records }

/-- Closes the innermost record. It is gone even where there is no other one to take over. -/
def closeRecord (state : ParserState) (inverted : Bool) : Option Raise × ParserState :=
  match state.records with
  | [] => (some .nothingOpen, state)
  | [_] => (some .noRecord, { state with records := [] })
  | inner :: record :: outer =>
    (none, { state with records := record.absorb inner inverted :: outer })

/-! ## What user code can ask for -/

/-- The matched input. -/
def text (state : ParserState) : Text := Index.slice state.input state.mark state.offset

def spanOf (state : ParserState) (start stop : Int) : Span :=
  Place.span state.input state.source start stop

def span (state : ParserState) : Span := state.spanOf state.mark state.offset

/-- The place of an error: the match unless another one is given. -/
def errorPlace (state : ParserState) : Value → ErrorPlace
  | .null => .span state.span
  | given => .given given

/-- The error by which user code says what should be here. -/
def expected (state : ParserState) (description : Value) (place : Value) : Raise :=
  let entries := [Entry.user description]
  match Describe.message? entries (some state.text) with
  | none => .wrongType
  | some message =>
    .syntaxError ⟨.text message, some entries, some state.text, state.errorPlace place⟩

/-- The error by which user code ends a parse with a message. -/
def error (state : ParserState) (message : Value) (place : Value) : Raise :=
  .syntaxError ⟨message, none, none, state.errorPlace place⟩

/-! ## The end of a parse -/

/-- Different entries in their order. -/
def distinct (entries : List Entry) : List Entry :=
  entries.foldl (fun kept entry => if kept.any entry.same then kept else kept ++ [entry]) []

/-- The error about what was expected furthest on. -/
def failure (state : ParserState) : Raise :=
  match state.records.getLast? with
  | none => .noRecord
  | some furthest =>
    match { state with offset := furthest.offset }.peek with
    | .error raise => raise
    | .ok c =>
      let entries := distinct furthest.entries
      let found := c.map fun c => [c]
      let stop := if found.isSome then furthest.offset + 1 else furthest.offset
      match Describe.message? entries found with
      | none => .wrongType
      | some message =>
        .syntaxError ⟨.text message, some entries, found,
          .span (state.spanOf furthest.offset stop)⟩

/-- The result of a parse; one that leaves input over has failed. -/
def finish (state : ParserState) (result : Option Value) : Except Raise Value × ParserState :=
  match result with
  | none => (.error state.failure, state)
  | some value =>
    if state.offset = state.input.length then (.ok value, state)
    else if state.offset < state.input.length then
      match state.expect .endOfInput with
      | .error raise => (.error raise, state)
      | .ok state => (.error state.failure, state)
    else (.error state.failure, state)

end ParserState

end PegCompiler
