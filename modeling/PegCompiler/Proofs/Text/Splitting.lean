import PegCompiler.Text.Lines

/-!
Cutting a text at a mark and joining the pieces again are inverse to each other, as long as the mark
does not occur in the pieces.
-/

namespace PegCompiler.Text

variable {mark : CodePoint} {t : Text} {pieces : List Text}

theorem splitAt_eq_splitOn (mark : CodePoint) (t : Text) : splitAt mark t = t.splitOn mark := by
  induction t with
  | nil => rfl
  | cons c rest ih =>
    rw [splitAt, ih, List.splitOn_cons_eq_if_modifyHead]
    cases split : rest.splitOn mark with
    | nil => exact absurd split (List.splitOn_ne_nil _ _)
    | cons piece pieces => by_cases same : c = mark <;> simp [same]

theorem splitAt_ne_nil (mark : CodePoint) (t : Text) : splitAt mark t ≠ [] := by
  rw [splitAt_eq_splitOn]
  exact List.splitOn_ne_nil _ _

/-- The mark does not occur in the pieces. -/
theorem not_mem_splitAt (mark : CodePoint) (t : Text) : ∀ piece ∈ splitAt mark t, mark ∉ piece := by
  induction t with
  | nil => simp [splitAt]
  | cons c rest ih =>
    rw [splitAt]
    cases split : splitAt mark rest with
    | nil => exact absurd split (splitAt_ne_nil _ _)
    | cons piece pieces =>
      rw [split] at ih
      obtain ⟨here, others⟩ := List.forall_mem_cons.mp ih
      by_cases same : c = mark
      · simpa [same] using ih
      · simpa [same, Ne.symm same] using ⟨here, others⟩

theorem join_splitAt (mark : CodePoint) (t : Text) : join [mark] (splitAt mark t) = t := by
  rw [splitAt_eq_splitOn]
  exact List.intercalate_splitOn mark

theorem splitAt_join (free : ∀ piece ∈ pieces, mark ∉ piece) (nonempty : pieces ≠ []) :
    splitAt mark (join [mark] pieces) = pieces := by
  rw [splitAt_eq_splitOn]
  exact List.splitOn_intercalate mark free nonempty

theorem mem_join {c : CodePoint} {separator : Text} (h : c ∈ join separator pieces) :
    c ∈ separator ∨ ∃ piece ∈ pieces, c ∈ piece := by
  induction pieces with
  | nil => simp [join] at h
  | cons piece rest ih =>
    cases rest with
    | nil => exact .inr ⟨piece, by simp, by simpa [join] using h⟩
    | cons next rest =>
      rw [join, List.intercalate_cons_cons, List.append_assoc, List.mem_append, List.mem_append] at h
      rcases h with inPiece | between | later
      · exact .inr ⟨piece, by simp, inPiece⟩
      · exact .inl between
      · exact (ih later).imp_right fun ⟨other, member, inOther⟩ =>
          ⟨other, List.mem_cons_of_mem _ member, inOther⟩

end PegCompiler.Text
