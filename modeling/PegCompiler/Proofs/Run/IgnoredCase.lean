import PegCompiler.Proofs.Analysis.Judging
import PegCompiler.Proofs.Run.CharClass

/-!
Literals whose case is ignored. Such a literal is kept in lower case, and as many code points of the input
are compared with it as it has then. Lower case has as many code points as the text itself, but for
capital I with a dot above, which gives two. So a literal without that letter takes its own text wherever
that stands; one with it looks too far ahead, and takes its own text only at the end of the input
(`Lower.ignoredCase_takes`, `Grammar.dotted_overlooked`).
-/

namespace PegCompiler

/-- Capital I with a dot above. -/
def CodePoint.isDotted (c : CodePoint) : Bool := c.toNat = 0x130

namespace Text

theorem length_lowercaseFrom (before t : Text) :
    (lowercaseFrom before t).length = t.length + t.countP CodePoint.isDotted := by
  induction t generalizing before with
  | nil => rfl
  | cons c rest ih =>
    rw [lowercaseFrom, List.length_append, ih, List.countP_cons, List.length_cons]
    by_cases sigma : c.toNat = 0x3A3
    · simp [sigma, CodePoint.isDotted]
      omega
    · by_cases dotted : c.toNat = 0x130
      · simp [dotted, CodePoint.isDotted]
        omega
      · simp [sigma, dotted, CodePoint.isDotted]
        omega

/-- In lower case a text has one code point more for each capital I with a dot above. -/
theorem length_lowercase (t : Text) :
    t.lowercase.length = t.length + t.countP CodePoint.isDotted :=
  length_lowercaseFrom [] t

end Text

/-- A piece from the place on where the first part ends. -/
theorem Index.slice_behind {α : Type} (before items : List α) (n : Nat) :
    Index.slice (before ++ items) before.length (before.length + n : Int) = items.take n := by
  have stop : Index.bound (before ++ items).length (before.length + n : Int) =
      before.length + min n items.length := by
    rw [← Int.natCast_add, Index.bound_natCast, List.length_append]
    omega
  have start : Index.bound (before ++ items).length before.length = before.length := by
    rw [Index.bound_natCast, List.length_append]
    omega
  rw [Index.slice, Index.upTo, stop, start, List.take_length_add_append, List.drop_left]
  simp

/-- Text in front of which a literal is found whose case is ignored: any text, unless the literal has
more code points in lower case. -/
def Text.FoundBefore (own behind : Text) : Prop := (∀ c ∈ own, c.isDotted = false) ∨ behind = []

namespace ParserState

variable {s : ParserState} {before own behind : Text} (input : s.input = before ++ own ++ behind)
  (offset : s.offset = before.length)

include input offset

theorem matchLowercase_found (found : own.FoundBefore behind) :
    s.matchLowercase own.lowercase = (some own, s.advance own.length) := by
  have chunk : (own ++ behind).take own.lowercase.length = own := by
    have length := Text.length_lowercase own
    rcases found with plain | rfl
    · rw [List.countP_eq_zero.mpr (by simpa using plain)] at length
      rw [length, Nat.add_zero, List.take_left]
    · rw [List.append_nil, List.take_of_length_le (by omega)]
  simp only [matchLowercase, input, List.append_assoc, offset, Index.slice_behind, chunk, if_true]

/-- More of the input is compared than the literal has. -/
theorem matchLowercase_overlooked (notFound : ¬own.FoundBefore behind) :
    s.matchLowercase own.lowercase = (none, s) := by
  obtain ⟨dotted, more⟩ := not_or.mp notFound
  have longer : own.length < own.lowercase.length := by
    have positive : 0 < own.countP CodePoint.isDotted := List.countP_pos_iff.mpr (by simpa using dotted)
    rw [Text.length_lowercase]
    omega
  have other : Text.lowercase ((own ++ behind).take own.lowercase.length) ≠ own.lowercase := by
    intro same
    have lengths := congrArg List.length same
    have further : 0 < behind.length := List.length_pos_iff.mpr more
    rw [Text.length_lowercase, List.take_append, List.countP_append,
      List.take_of_length_le (by omega), List.length_append, List.length_take] at lengths
    have all := Text.length_lowercase own
    omega
  simp only [matchLowercase, input, List.append_assoc, offset, Index.slice_behind, if_neg other]

omit input offset

/-- What is noted does not depend on the input. -/
theorem expect_anywhere (records : s.records ≠ []) (entry : Entry) :
    ∃ noted, ∀ input, ({ s with input } : ParserState).expect entry =
      .ok { s with input, records := noted } := by
  obtain ⟨record, outer, same⟩ := List.exists_cons_of_ne_nil records
  unfold expect
  by_cases silent : 0 < s.silence
  · exact ⟨s.records, fun _ => if_pos silent⟩
  · refine ⟨record.note s.offset entry :: outer, fun _ => (if_neg silent).trans ?_⟩
    simp only [same]

end ParserState

/-- The world at another place, with other records. -/
def World.moved (world : World) (input : Text) (offset : Int) (records : List Furthest) : World :=
  world.change ({ · with input, offset, records })

namespace Lower

open Machine

/-- The code for a literal whose case is ignored, behind any text and before any other. Where the literal
is found it takes the literal as it is written and pushes that; otherwise it fails. -/
theorem ignoredCase_takes {own : Text} (nonempty : own ≠ []) (placeOf : Text → Int) (setting : Setting)
    (info : Info) (w : Workspace) :
    ∃ code after, expr placeOf setting (Expr.literal info own true).concluded w = .ok (code, after) ∧
      ∀ (scene : Scene) (tables : Tables) (program : Program), after.tables.Grows tables →
        program.Implements scene tables → ∀ (call : Int → Run Outcome) (rounds : Nat) (frame : Frame)
        (world : World) (before : Text), world.state.records ≠ [] → ∃ records, ∀ behind : Text,
          (own.FoundBefore behind → Exec.go (block program call rounds code) frame
              (world.moved (before ++ own ++ behind) before.length world.state.records) =
            (.ok (.next, frame.push (some (.text own))),
              world.moved (before ++ own ++ behind) (before.length + own.length) records)) ∧
          (¬own.FoundBefore behind → Exec.go (block program call rounds code) frame
              (world.moved (before ++ own ++ behind) before.length world.state.records) =
            (.ok (.next, frame.push none),
              world.moved (before ++ own ++ behind) before.length records)) := by
  have unsure : (Expr.literal info own true).conclusion = .sometimes := by
    simp [Expr.conclusion, nonempty]
  have lowers : Makes (expr placeOf setting (Expr.literal info own true).concluded) w fun code v =>
      ∀ t : Target, v.tables.Grows t.tables → ∃ (noted : List Instr) (n : Nat),
        Noted t setting (.literal own true) noted ∧ t.tables.literals[n]? = some own.lowercase ∧
          code = noted ++ Build.ops [.matchLowercase n] := by
    rw [Expr.concluded, unsure, Expr.setVerdict, Expr.setInfo, expr, Option.getD_some, ofLiteral]
    simp only [nonempty, List.isEmpty_iff, if_false, if_true]
    exact (leaf_makes setting (.literal own true) trivial .matchLowercase (literal_makes _)).mono
      fun code v h => h.2.2
  obtain ⟨code, after, run, -, made⟩ := lowers
  refine ⟨code, after, run, fun scene tables program grows implements call rounds frame world before
    records => ?_⟩
  obtain ⟨noted, n, notes, found, rfl⟩ := made ⟨placeOf, tables⟩ grows
  have at? : Index.at? program.literals n = some own.lowercase :=
    Index.at?_natCast (implements.literals ▸ found)
  obtain ⟨later, noting⟩ : ∃ later, ∀ input, Run.go (Tree.expect setting.reports (.literal own true))
      (world.moved input before.length world.state.records) =
        (.ok ⟨⟩, world.moved input before.length later) := by
    obtain ⟨later, noting⟩ := @ParserState.expect_anywhere
      { world.state with offset := before.length } records (.literal own true)
    cases reports : setting.reports with
    | false => exact ⟨world.state.records, fun _ => rfl⟩
    | true =>
      refine ⟨later, fun input => ?_⟩
      rw [Tree.go_expect, if_pos rfl]
      simp only [World.moved, World.change_state, noting input]
      rfl
  have pushes (behind : Text) : Pushes program call rounds (noted ++ Build.ops [.matchLowercase n]) frame (do
      Tree.expect setting.reports (.literal own true)
      Tree.matching fun s => .ok (s.matchLowercase own.lowercase))
      (world.moved (before ++ own ++ behind) before.length world.state.records) :=
    leaf_pushes implements notes rfl (by simp only [op, at?, present, pure_bind])
  refine ⟨later, fun behind => ⟨fun here => ?_, fun absent => ?_⟩⟩
  · rw [pushes, Run.go_bind, noting, Ended.andThen_ok, Tree.go_matching,
      ParserState.matchLowercase_found rfl rfl here]
    rfl
  · rw [pushes, Run.go_bind, noting, Ended.andThen_ok, Tree.go_matching,
      ParserState.matchLowercase_overlooked rfl rfl absent]
    rfl

/-! A sample: a final sigma, which is none where the literal stands in the input. -/

def sigmaProgram : Program where
  rules := []
  literals := [.ofString "ας"]
  matchers := []
  entries := [.literal (.ofString "ΑΣ") true]
  functions := []
  starts := []
  cache := false
  trace := false

def sigmaTables : Tables where
  literals := [.ofString "ας"]
  expectations := [.literal (.ofString "ΑΣ") true]

def sigmaScene : Scene where
  program := sigmaProgram
  grammar := { rules := [] }
  meaning _ _ _ := .ok .null
  matcher members := ⟨members.inverted, members.ignoreCase, members.parts⟩
  prune := true

theorem sigmaProgram_implements : sigmaProgram.Implements sigmaScene sigmaTables := by
  refine ⟨rfl, rfl, rfl, fun i expectation at? => ?_⟩
  cases i with
  | zero =>
    obtain rfl := Option.some.inj at?
    rfl
  | succ i => simp [sigmaTables] at at?

theorem finalSigma_taken : Text.ofString "ΑΣ" ≠ [] ∧
    Text.FoundBefore (.ofString "ΑΣ") (.ofString "Α") ∧
    ∃ code after, expr (fun _ => -1) { top := -1, reports := true }
        (Expr.literal {} (.ofString "ΑΣ") true).concluded {} = .ok (code, after) ∧
      ∃ records, Exec.go (block sigmaProgram (fun _ => throw .malformed) 0 code) {}
          (World.moved { state := { input := [] } } (.ofString "xΑΣΑ") 1 [⟨0, []⟩]) =
        (.ok (.next, { results := [some (.text (.ofString "ΑΣ"))] }),
          World.moved { state := { input := [] } } (.ofString "xΑΣΑ") 3 records) := by
  have nonempty : Text.ofString "ΑΣ" ≠ [] := by decide
  have found : Text.FoundBefore (.ofString "ΑΣ") (.ofString "Α") := .inl (by decide)
  refine ⟨nonempty, found, ?_⟩
  obtain ⟨code, after, lowers, runs⟩ :=
    ignoredCase_takes nonempty (fun _ => -1) { top := -1, reports := true } {} {}
  have same : after.tables = sigmaTables := by
    have known : expr (fun _ => -1) { top := -1, reports := true }
      (Expr.literal {} (.ofString "ΑΣ") true).concluded {} =
        .ok (Build.ops [.expect 0, .matchLowercase 0], { tables := sigmaTables }) := by rfl
    cases known.symm.trans lowers
    rfl
  obtain ⟨records, each⟩ := runs sigmaScene sigmaTables sigmaProgram (same ▸ .refl _)
    sigmaProgram_implements (fun _ => throw .malformed) 0 {} { state := { input := [] } }
    (.ofString "x") (by simp)
  exact ⟨code, after, lowers, records, (each (.ofString "Α")).1 found⟩

end Lower

namespace Grammar

/-- The first rule is a literal whose case is ignored. -/
def startsWithLiteral (own : Text) (g : Grammar) : Bool :=
  match (g.prepare plainSettings).rules[0]? with
  | some r =>
    match r.body with
    | .literal _ value true => value = own
    | _ => false
  | none => false

/-- The first rule matches capital I with a dot above, but not in front of another letter. -/
def overlooksDotted (g : Grammar) : Bool :=
  match (g.compiled plainSettings).bytecode? countingSemantics with
  | some program =>
    match program.runFrom 9 0 { input := .ofString "İ" },
      program.runFrom 9 0 { input := .ofString "İa" } with
    | (.ok (some (.text taken)), after), (.ok none, _) =>
      decide (taken = .ofString "İ") && decide (after.state.offset = 1)
    | _, _ => false
  | none => false

/-- What stands behind a literal decides whether its own text matches. -/
theorem dotted_overlooked : ∃ g program r info after after',
    Grammar.read (.ofString "s = 'İ'i") none = .ok g ∧
    (Stage.check.run plainSettings g).failure = none ∧
    (g.prepare plainSettings).rules[0]? = some r ∧ r.body = .literal info (.ofString "İ") true ∧
    (g.compiled plainSettings).bytecode? countingSemantics = some program ∧
    program.runFrom 9 0 { input := .ofString "İ" } = (.ok (some (.text (.ofString "İ"))), after) ∧
    after.state.offset = 1 ∧
    program.runFrom 9 0 { input := .ofString "İa" } = (.ok none, after') := by
  obtain ⟨g, read, checked, is⟩ := exists_of_accepted
    (show (accepted? plainSettings (.ofString "s = 'İ'i")).any (fun g =>
      g.startsWithLiteral (.ofString "İ") && g.overlooksDotted) = true by decide +kernel)
  obtain ⟨first, overlooks⟩ := (Bool.and_eq_true _ _).mp is
  unfold startsWithLiteral at first
  split at first
  · rename_i r here
    split at first
    · rename_i info value body
      obtain rfl := of_decide_eq_true first
      unfold overlooksDotted at overlooks
      split at overlooks
      · rename_i program reads
        split at overlooks
        · rename_i taken after after' alone ahead
          simp only [Bool.and_eq_true, decide_eq_true_eq] at overlooks
          obtain ⟨rfl, offset⟩ := overlooks
          exact ⟨g, program, r, info, after, after', read, checked, here, body, reads, alone, offset,
            ahead⟩
        · cases overlooks
      · cases overlooks
    · cases first
  · cases first

end Grammar

end PegCompiler
