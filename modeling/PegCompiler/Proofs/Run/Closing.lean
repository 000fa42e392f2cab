import PegCompiler.Proofs.Run.Account

/-!
What records come to when they are closed. `Furthest.Below` says of two records that one of them says no
more than the other one. `Furthest.total` is the record that marks come to; marks that were met before
add nothing to it. When all records are closed, a mark in the innermost one counts as it would in the
outermost one, turned round by every inverted record around it (`Furthest.closeAll_meet`).
-/

namespace PegCompiler

/-- No value of user code in it. -/
def Entry.IsPlain : Entry → Prop
  | .user _ => False
  | .not entry => entry.IsPlain
  | _ => True

namespace Entry

variable {entry : Entry}

theorem IsNoted.isPlain (noted : entry.IsNoted) : entry.IsPlain := by
  cases entry with
  | user => exact noted
  | not => exact absurd noted id
  | _ => trivial

theorem IsPlain.invert (plain : entry.IsPlain) : entry.invert.IsPlain := by
  cases entry <;> exact plain

/-- What is noted is not itself for something that must not be there. -/
theorem IsNoted.invert (noted : entry.IsNoted) : entry.invert = .not entry := by
  cases entry with
  | not => exact absurd noted id
  | _ => rfl

end Entry

namespace Furthest

/-- Nothing that is further on, and nothing else at the same place. -/
def Below (a b : Furthest) : Prop :=
  a.offset < b.offset ∨ a.offset = b.offset ∧ a.entries ⊆ b.entries

/-- The record says as much already. -/
def Covers (record : Furthest) (mark : Mark) : Prop :=
  mark.offset < record.offset ∨ mark.offset = record.offset ∧ mark.entry.toList ⊆ record.entries

/-- What marks come to. -/
def total (marks : List Mark) : Furthest := (⟨0, []⟩ : Furthest).through marks

variable {a b c : Furthest} {mark : Mark} {marks later : List Mark}

theorem Below.refl : a.Below a := .inr ⟨rfl, List.Subset.refl _⟩

theorem Below.trans (first : a.Below b) (second : b.Below c) : a.Below c := by
  rcases first with less | ⟨same, among⟩ <;> rcases second with less' | ⟨same', among'⟩
  · exact .inl (Int.lt_trans less less')
  · exact .inl (same' ▸ less)
  · exact .inl (same ▸ less')
  · exact .inr ⟨same.trans same', List.Subset.trans among among'⟩

theorem Below.meet (below : a.Below b) (mark : Mark) : (a.meet mark).Below (b.meet mark) := by
  unfold Furthest.meet
  rcases below with less | ⟨same, among⟩
  · unfold Below
    grind
  · rw [same]
    split
    · exact .inr ⟨same, among⟩
    · split
      · exact .refl
      · exact .inr ⟨rfl, List.append_subset.mpr ⟨List.subset_append_of_subset_left _ among,
          List.subset_append_right _ _⟩⟩

theorem below_meet : a.Below (a.meet mark) := by
  unfold Furthest.meet
  split
  · exact .refl
  · split
    · rename_i further
      exact .inl further
    · exact .inr ⟨rfl, List.subset_append_left _ _⟩

theorem below_through : a.Below (a.through marks) := by
  induction marks generalizing a with
  | nil => exact .refl
  | cons mark marks ih => exact below_meet.trans ih

theorem covers_meet : (a.meet mark).Covers mark := by
  unfold Covers Furthest.meet
  split
  · rename_i before
    exact .inl before
  · split
    · exact .inr ⟨rfl, List.Subset.refl _⟩
    · exact .inr ⟨show mark.offset = a.offset by omega, List.subset_append_right _ _⟩

theorem Covers.mono (covers : a.Covers mark) (below : a.Below b) : b.Covers mark := by
  unfold Covers Below at *
  grind

theorem Covers.meet_below (covers : a.Covers mark) : (a.meet mark).Below a := by
  unfold Covers at covers
  unfold Below Furthest.meet
  grind

theorem covers_of_mem (member : mark ∈ marks) : (a.through marks).Covers mark := by
  induction marks generalizing a with
  | nil => cases member
  | cons first rest ih =>
    rcases List.mem_cons.mp member with rfl | member
    · exact covers_meet.mono below_through
    · exact ih member

theorem through_below (covered : ∀ mark ∈ marks, a.Covers mark) : (a.through marks).Below a := by
  induction marks generalizing a with
  | nil => exact .refl
  | cons mark marks ih =>
    have rest : ∀ mark' ∈ marks, (a.meet mark).Covers mark' := fun mark' member =>
      (covered mark' (by simp [member])).mono below_meet
    exact (ih rest).trans (covered mark (by simp)).meet_below

theorem total_append : total (marks ++ later) = (total marks).through later := through_append ..

theorem total_below : (total marks).Below (total (marks ++ later)) := total_append ▸ below_through

/-- Marks that were there before add nothing. -/
theorem total_repeated (among : later ⊆ marks) : (total (marks ++ later)).Below (total marks) :=
  total_append ▸ through_below fun _ member => covers_of_mem (among member)

end Furthest

/-- How silent a run is, and whether the lookaheads that it is in are negative, from the innermost one
outwards. -/
structure Hearing where
  negatives : List Bool := []
  silence : Int := 0

namespace Hearing

/-- Within an odd number of negative lookaheads. -/
def odd (negatives : List Bool) : Bool := negatives.foldr (· != ·) false

def regard (h : Hearing) : Regard := if 0 < h.silence then .silent else .heard (odd h.negatives)

/-- Within another lookahead. -/
def ahead (h : Hearing) (negative : Bool) : Hearing := { h with negatives := negative :: h.negatives }

def quieter (h : Hearing) : Hearing := { h with silence := h.silence + 1 }

variable {h : Hearing}

theorem regard_ahead (negative : Bool) : (h.ahead negative).regard = h.regard.under negative := by
  unfold regard ahead
  split <;> rfl

theorem regard_quieter (natural : 0 ≤ h.silence) : h.quieter.regard = .silent :=
  if_pos (show 0 < h.silence + 1 by omega)

end Hearing

/-- What becomes of a mark when records are closed around it. -/
def Mark.closing : List Bool → Mark → Mark
  | [], mark => mark
  | negative :: negatives, mark => closing negatives (if negative then mark.invert else mark)

theorem Mark.closing_none (negatives : List Bool) (offset : Int) :
    closing negatives ⟨offset, none⟩ = ⟨offset, none⟩ := by
  induction negatives with
  | nil => rfl
  | cons negative negatives ih => cases negative <;> exact ih

theorem Mark.closing_noted {entry : Entry} (noted : entry.IsNoted) (negatives : List Bool) (offset : Int)
    (odd : Bool) : closing negatives ⟨offset, some (if odd then .not entry else entry)⟩ =
      ⟨offset, some (if odd != Hearing.odd negatives then .not entry else entry)⟩ := by
  induction negatives generalizing odd with
  | nil => cases odd <;> rfl
  | cons negative negatives ih =>
    have turned : (if negative then
        (⟨offset, some (if odd then .not entry else entry)⟩ : Mark).invert
          else ⟨offset, some (if odd then .not entry else entry)⟩) =
        ⟨offset, some (if odd != negative then .not entry else entry)⟩ := by
      cases negative with
      | false => cases odd <;> rfl
      | true =>
        cases odd with
        | false => exact congrArg (fun entry => Mark.mk offset (some entry)) noted.invert
        | true => rfl
    rw [closing, turned, ih, Bool.bne_assoc]
    rfl

/-- The record that is left when all open ones are closed, where `negatives` says which of them are
inverted. -/
def Furthest.closeAll : (negatives : List Bool) → List Furthest → Furthest
  | [], records => records.headD ⟨0, []⟩
  | negative :: negatives, inner :: record :: outer =>
    closeAll negatives (record.absorb inner negative :: outer)
  | _ :: _, _ => ⟨0, []⟩

/-- A mark in the innermost record. -/
theorem Furthest.closeAll_meet {negatives : List Bool} {record : Furthest} {outer : List Furthest}
    (depth : outer.length = negatives.length) (mark : Mark) :
    closeAll negatives (record.meet mark :: outer) =
      (closeAll negatives (record :: outer)).meet (mark.closing negatives) := by
  induction negatives generalizing record outer mark with
  | nil => rfl
  | cons negative negatives ih =>
    cases outer with
    | nil => cases depth
    | cons around outer =>
      rw [closeAll, closeAll, absorb_meet, ih (Nat.succ.inj depth)]
      rfl

/-- What a record may be in the course of a parse. -/
structure Furthest.Sound (record : Furthest) : Prop where
  natural : 0 ≤ record.offset
  plain : ∀ entry ∈ record.entries, entry.IsPlain

namespace Furthest.Sound

variable {record inner : Furthest}

theorem meet (sound : record.Sound) {mark : Mark} (natural : 0 ≤ mark.offset)
    (plain : ∀ entry ∈ mark.entry.toList, entry.IsPlain) : (record.meet mark).Sound := by
  unfold Furthest.meet
  split
  · exact sound
  · split
    · exact ⟨natural, plain⟩
    · refine ⟨sound.natural, fun entry member => ?_⟩
      rcases List.mem_append.mp member with before | here
      · exact sound.plain entry before
      · exact plain entry here

theorem absorb (sound : record.Sound) (within : inner.Sound) (inverted : Bool) :
    (record.absorb inner inverted).Sound := by
  have turned : ∀ entry ∈ (if inverted then inner.entries.map Entry.invert else inner.entries),
      entry.IsPlain := by
    cases inverted with
    | false => exact within.plain
    | true =>
      intro entry member
      obtain ⟨other, there, rfl⟩ := List.mem_map.mp member
      exact (within.plain other there).invert
  unfold Furthest.absorb
  simp only
  split
  · exact ⟨within.natural, turned⟩
  · split
    · refine ⟨sound.natural, fun entry member => ?_⟩
      rcases List.mem_append.mp member with before | here
      · exact sound.plain entry before
      · exact turned entry here
    · exact sound

end Furthest.Sound

end PegCompiler
