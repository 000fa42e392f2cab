import Mathlib.Data.List.TakeDrop
import Mathlib.Data.List.TakeWhile
import PegCompiler.Text.Blank
import PegCompiler.Proofs.Text.Splitting

/-!
Texts that are worked on as lines. The margin of lines is the longest indentation that all of them
begin with (`Text.prefix_margin`). What dedenting, trimming line feeds and splitting into lines do to
a text, they do to its lines, as long as these hold no line boundary of their own
(`Text.dedent_unlines`, `Text.trimNewlines_unlines`, `Text.lines_unlines`).
-/

namespace PegCompiler

/-- A list without the elements at both ends of which `p` holds. -/
def trimEnds {α : Type} (p : α → Bool) (l : List α) : List α :=
  ((l.dropWhile p).reverse.dropWhile p).reverse

section TrimEnds

variable {α β : Type} {p : α → Bool} {l : List α}

theorem trimEnds_map (f : β → α) (l : List β) : trimEnds p (l.map f) = (trimEnds (p ∘ f) l).map f := by
  simp [trimEnds, List.dropWhile_map, ← List.map_reverse]

theorem dropWhile_congr {q : α → Bool} (same : ∀ a ∈ l, p a = q a) :
    l.dropWhile p = l.dropWhile q := by
  induction l with
  | nil => rfl
  | cons a rest ih =>
    obtain ⟨here, others⟩ := List.forall_mem_cons.mp same
    rw [List.dropWhile_cons, List.dropWhile_cons, here, ih others]

theorem trimEnds_congr {q : α → Bool} (same : ∀ a ∈ l, p a = q a) : trimEnds p l = trimEnds q l := by
  have behind : ∀ a ∈ (l.dropWhile q).reverse, p a = q a := fun a member =>
    same a ((List.dropWhile_suffix q).subset (List.mem_reverse.mp member))
  rw [trimEnds, trimEnds, dropWhile_congr same, dropWhile_congr behind]

theorem trimEnds_eq_nil : trimEnds p l = [] ↔ ∀ a ∈ l, p a = true := by
  rw [trimEnds, List.reverse_eq_nil_iff, List.dropWhile_eq_nil_iff]
  constructor
  · intro all a member
    rcases List.mem_append.mp (List.takeWhile_append_dropWhile (p := p) (l := l) ▸ member) with
      front | behind
    · exact List.mem_takeWhile_imp front
    · exact all a (List.mem_reverse.mpr behind)
  · intro all a member
    exact all a ((List.dropWhile_suffix p).subset (List.mem_reverse.mp member))

/-- `kept` is `l` without the elements at both ends of which `p` holds. -/
structure Trims (p : α → Bool) (l kept : List α) : Prop where
  cut : ∃ front back, l = front ++ kept ++ back ∧ (∀ a ∈ front, p a = true) ∧ ∀ a ∈ back, p a = true
  first : ∀ a ∈ kept.head?, p a = false
  last : ∀ a ∈ kept.getLast?, p a = false

theorem not_of_head?_dropWhile {a : α} (h : a ∈ (l.dropWhile p).head?) : p a = false := by
  have := List.head?_dropWhile_not p l
  rwa [Option.mem_def.mp h] at this

theorem Trims.mem_of_not {kept : List α} (trims : Trims p l kept) {a : α} (member : a ∈ l)
    (not : p a = false) : a ∈ kept := by
  obtain ⟨front, back, rfl, inFront, inBack⟩ := trims.cut
  rcases List.mem_append.mp member with member | member
  · rcases List.mem_append.mp member with member | member
    · simp [inFront a member] at not
    · exact member
  · simp [inBack a member] at not

theorem Trims.sublist {kept : List α} (trims : Trims p l kept) : kept.Sublist l := by
  obtain ⟨front, back, rfl, -, -⟩ := trims.cut
  exact (List.sublist_append_right front kept).trans (List.sublist_append_left _ back)

theorem trims_trimEnds (p : α → Bool) (l : List α) : Trims p l (trimEnds p l) := by
  let middle := l.dropWhile p
  have whole : trimEnds p l ++ (middle.reverse.takeWhile p).reverse = middle := by
    rw [trimEnds, ← List.reverse_append, List.takeWhile_append_dropWhile, List.reverse_reverse]
  constructor
  · refine ⟨l.takeWhile p, (middle.reverse.takeWhile p).reverse, ?_,
      fun a member => List.mem_takeWhile_imp member,
      fun a member => List.mem_takeWhile_imp (List.mem_reverse.mp member)⟩
    rw [List.append_assoc, whole, List.takeWhile_append_dropWhile]
  · intro a member
    refine not_of_head?_dropWhile (l := l) ?_
    rw [show l.dropWhile p = _ from whole.symm, List.head?_append, Option.mem_def.mp member]
    rfl
  · intro a member
    rw [trimEnds, List.getLast?_reverse] at member
    exact not_of_head?_dropWhile member

end TrimEnds

namespace Text

/-! ### Margins -/

section Margin

variable {a b t : Text} {lines : List Text}

theorem prefix_commonPrefix : t <+: commonPrefix a b ↔ t <+: a ∧ t <+: b := by
  induction a generalizing b t with
  | nil => simp +contextual [commonPrefix]
  | cons c a ih =>
    match b, t with
    | [], _ => simp +contextual [commonPrefix]
    | _ :: _, [] => simp
    | d :: b, e :: t =>
      by_cases same : c = d
      · subst same
        rw [commonPrefix, if_pos rfl, List.cons_prefix_cons, List.cons_prefix_cons,
          List.cons_prefix_cons, ih]
        exact and_and_left
      · have apart : ¬(e = c ∧ t <+: a) ∨ ¬(e = d ∧ t <+: b) := by
          by_cases here : e = c
          · exact .inr fun h => same (here ▸ h.1)
          · exact .inl fun h => here h.1
        rw [commonPrefix, if_neg same, List.cons_prefix_cons, List.cons_prefix_cons]
        exact iff_of_false (by simp) fun h => apart.elim (· h.1) (· h.2)

theorem prefix_margin {line : Text} : t <+: margin (line :: lines) ↔
    ∀ other ∈ line :: lines, t <+: other.takeWhile isIndent := by
  have fold (common : Text) : t <+: lines.foldl (fun common line =>
      commonPrefix common (line.takeWhile isIndent)) common ↔
        t <+: common ∧ ∀ other ∈ lines, t <+: other.takeWhile isIndent := by
    induction lines generalizing common with
    | nil => simp
    | cons other rest ih => simp [ih, prefix_commonPrefix, and_assoc]
  simp [margin, fold]

theorem prefix_takeWhile {line : Text} :
    t <+: line.takeWhile isIndent ↔ t <+: line ∧ ∀ c ∈ t, isIndent c = true := by
  induction line generalizing t with
  | nil => simp +contextual
  | cons d line ih =>
    cases t with
    | nil => simp
    | cons c t =>
      cases indent : isIndent d with
      | false =>
        rw [List.takeWhile_cons_of_neg (by simp [indent])]
        refine iff_of_false (by simp) fun h => ?_
        obtain ⟨rfl, -⟩ := List.cons_prefix_cons.mp h.1
        simp [indent] at h
      | true =>
        rw [List.takeWhile_cons_of_pos indent, List.cons_prefix_cons, List.cons_prefix_cons, ih,
          List.forall_mem_cons]
        constructor
        · rintro ⟨rfl, front, rest⟩
          exact ⟨⟨rfl, front⟩, indent, rest⟩
        · rintro ⟨⟨rfl, front⟩, -, rest⟩
          exact ⟨rfl, front, rest⟩

/-- A line of blanks and tabs. -/
def isBare (line : Text) : Bool := line.all isIndent

/-- The indentation that all lines share that are not bare, as long as it can be. -/
structure IsMargin (lines : List Text) (margin : Text) : Prop where
  indents : ∀ c ∈ margin, isIndent c = true
  shared : ∀ line ∈ lines, isBare line = false → margin <+: line
  longest : ∀ other : Text, (∀ c ∈ other, isIndent c = true) →
    (∀ line ∈ lines, isBare line = false → other <+: line) → other <+: margin

theorem isMargin_margin (some : ∃ line ∈ lines, isBare line = false) :
    IsMargin lines (margin (lines.filter (!isBare ·))) := by
  have mem_filter (line : Text) :
      line ∈ lines.filter (!isBare ·) ↔ line ∈ lines ∧ isBare line = false := by
    simp
  have greatest : ∀ other : Text, other <+: margin (lines.filter (!isBare ·)) ↔
      ∀ line ∈ lines, isBare line = false → other <+: line ∧ ∀ c ∈ other, isIndent c = true := by
    intro other
    cases found : lines.filter (!isBare ·) with
    | nil =>
      obtain ⟨line, member, notBare⟩ := some
      have := (mem_filter line).mpr ⟨member, notBare⟩
      simp [found] at this
    | cons line rest =>
      rw [prefix_margin, ← found]
      simp only [mem_filter, prefix_takeWhile, and_imp]
  obtain ⟨line, member, notBare⟩ := some
  have own := (greatest _).mp List.prefix_rfl
  exact ⟨(own line member notBare).2, fun line member notBare => (own line member notBare).1,
    fun other indents shared => (greatest other).mpr fun line member notBare =>
      ⟨shared line member notBare, indents⟩⟩

/-- Bare lines do not matter for the margin. -/
theorem IsMargin.trims {margin : Text} {kept : List Text} (isMargin : IsMargin lines margin)
    (trims : Trims isBare lines kept) : IsMargin kept margin :=
  ⟨isMargin.indents, fun line member => isMargin.shared line (trims.sublist.subset member),
    fun other indents shared => isMargin.longest other indents fun line member notBare =>
      shared line (trims.mem_of_not member notBare) notBare⟩

/-- A line without its margin; nothing is left of a bare one. -/
def dedented (margin line : Text) : Text := if isBare line then [] else line.drop margin.length

/-- Without the margin, a line is empty just if it is bare. -/
theorem isEmpty_dedented {margin line : Text} (isMargin : IsMargin lines margin)
    (member : line ∈ lines) :
    (dedented margin line).isEmpty = isBare line := by
  unfold dedented
  cases bare : isBare line with
  | true => rfl
  | false =>
    rw [if_neg Bool.false_ne_true, List.isEmpty_eq_false_iff]
    intro empty
    obtain ⟨rest, rfl⟩ := isMargin.shared line member bare
    obtain rfl : rest = [] := by simpa using empty
    rw [List.append_nil] at bare
    have all : isBare margin = true := List.all_eq_true.mpr isMargin.indents
    simp [all] at bare

end Margin

/-! ### Lines -/

section Lines

variable {lines : List Text}

theorem unlines_cons_cons (line next : Text) (rest : List Text) :
    unlines (line :: next :: rest) = line ++ newline :: unlines (next :: rest) := by
  rw [unlines, join, List.intercalate_cons_cons, List.append_assoc]
  rfl

theorem unlines_singleton (line : Text) : unlines [line] = line := by simp [unlines, join]

theorem unlines_append {lines : List Text} (some : lines ≠ []) (line : Text) :
    unlines (lines ++ [line]) = unlines lines ++ newline :: line := by
  induction lines with
  | nil => exact absurd rfl some
  | cons first rest ih =>
    cases rest with
    | nil => rw [List.singleton_append, unlines_cons_cons, unlines_singleton, unlines_singleton]
    | cons next rest =>
      have ih := ih (List.cons_ne_nil _ _)
      simp only [List.cons_append] at ih ⊢
      rw [unlines_cons_cons, unlines_cons_cons, ih, List.append_assoc, List.cons_append]

theorem reverse_unlines (lines : List Text) :
    (unlines lines).reverse = unlines (lines.map List.reverse).reverse := by
  induction lines with
  | nil => rfl
  | cons line rest ih =>
    cases rest with
    | nil => simp [unlines_singleton]
    | cons next rest =>
      have split : ((line :: next :: rest).map List.reverse).reverse =
          ((next :: rest).map List.reverse).reverse ++ [line.reverse] := by
        rw [List.map_cons, List.reverse_cons]
      rw [split, unlines_append (by simp), ← ih, unlines_cons_cons, List.reverse_append,
        List.reverse_cons, List.append_assoc, List.singleton_append]

/-- What holds of a line feed holds of all of a text if it holds of its lines. -/
theorem forall_mem_unlines {P : CodePoint → Prop} (ofNewline : P newline) :
    (∀ c ∈ unlines lines, P c) ↔ ∀ line ∈ lines, ∀ c ∈ line, P c := by
  induction lines with
  | nil => simp [unlines, join]
  | cons line rest ih =>
    cases rest with
    | nil => simp [unlines_singleton]
    | cons next rest =>
      rw [unlines_cons_cons, List.forall_mem_append, List.forall_mem_cons, ih,
        @List.forall_mem_cons _ _ line]
      exact and_congr_right fun _ => and_iff_right ofNewline

theorem exists_unlines_cons (c : CodePoint) (line : Text) (rest : List Text) :
    ∃ more, unlines ((c :: line) :: rest) = c :: more := by
  cases rest with
  | nil => exact ⟨line, unlines_singleton _⟩
  | cons next rest => exact ⟨_, unlines_cons_cons ..⟩

/-- Line feeds at the front of a text are empty lines at the front. -/
theorem dropWhile_unlines (free : ∀ line ∈ lines, newline ∉ line) :
    (unlines lines).dropWhile (· == newline) = unlines (lines.dropWhile List.isEmpty) := by
  induction lines with
  | nil => rfl
  | cons line rest ih =>
    have ih := ih fun other member => free other (List.mem_cons_of_mem _ member)
    match line, rest with
    | [], [] => rfl
    | [], next :: rest =>
      rw [unlines_cons_cons, List.nil_append, List.dropWhile_cons_of_pos (by simp), ih]
      rfl
    | c :: line, rest =>
      have other : c ≠ newline := by
        rintro rfl
        exact free _ List.mem_cons_self List.mem_cons_self
      obtain ⟨more, text⟩ := exists_unlines_cons c line rest
      rw [text, List.dropWhile_cons_of_neg (by simpa using other),
        List.dropWhile_cons_of_neg (by simp), text]

/-- The same at both ends. -/
theorem trimEnds_unlines (free : ∀ line ∈ lines, newline ∉ line) :
    trimEnds (· == newline) (unlines lines) = unlines (trimEnds List.isEmpty lines) := by
  let front := lines.dropWhile List.isEmpty
  have free' : ∀ line ∈ (front.map List.reverse).reverse, newline ∉ line := by
    intro line member
    obtain ⟨kept, inFront, rfl⟩ := List.mem_map.mp (List.mem_reverse.mp member)
    rw [List.mem_reverse]
    exact free kept ((List.dropWhile_suffix _).subset inFront)
  have mirrored : (front.map List.reverse).reverse.dropWhile List.isEmpty =
      (front.reverse.dropWhile List.isEmpty).map List.reverse := by
    have same : List.isEmpty ∘ List.reverse = (List.isEmpty : Text → Bool) :=
      funext fun line => by simp
    rw [← List.map_reverse, List.dropWhile_map, same]
  calc trimEnds (· == newline) (unlines lines)
    _ = ((unlines front).reverse.dropWhile (· == newline)).reverse := by
      rw [trimEnds, dropWhile_unlines free]
    _ = (unlines ((front.reverse.dropWhile List.isEmpty).map List.reverse)).reverse := by
      rw [reverse_unlines, dropWhile_unlines free', mirrored]
    _ = unlines (trimEnds List.isEmpty lines) := by
      have back : (List.reverse ∘ List.reverse : Text → Text) = id := funext List.reverse_reverse
      rw [reverse_unlines, List.map_map, back, List.map_id]
      rfl

/-- A carriage return at the end of a line belongs to the line feed behind it. -/
def withoutReturn (line : Text) : Text :=
  if line.getLast? = some (.scalar '\r') then line.dropLast else line

theorem withoutReturn_cases (line : Text) :
    line = withoutReturn line ∨ line = withoutReturn line ++ [.scalar '\r'] := by
  unfold withoutReturn
  split
  · rename_i last
    obtain ⟨part, rfl⟩ := List.getLast?_eq_some_iff.mp last
    simp
  · exact .inl rfl

/-- A line with no line boundary in it, so that it is one line with the line feed behind it. -/
def isSingle (line : Text) : Bool := (withoutReturn line).all fun c => !endsLine c

theorem isSingle_iff {line : Text} :
    isSingle line = true ↔ ∀ c ∈ withoutReturn line, endsLine c = false := by
  simp [isSingle]

theorem isSingle_drop {line : Text} (single : isSingle line = true) (n : Nat) :
    isSingle (line.drop n) = true := by
  have part : ∀ c ∈ withoutReturn (line.drop n), c ∈ withoutReturn line := by
    unfold withoutReturn
    rw [List.getLast?_drop, List.dropLast_drop_eq_drop_dropLast]
    by_cases short : line.length ≤ n
    · simp [short, List.drop_eq_nil_of_le short]
    · rw [if_neg short]
      split <;> exact fun c member => List.mem_of_mem_drop member
  rw [isSingle_iff] at single ⊢
  exact fun c member => single c (part c member)

theorem linesFrom_cons {c : CodePoint} (plain : endsLine c = false) (current t : Text) :
    linesFrom current (c :: t) = linesFrom (c :: current) t := by
  rw [linesFrom, plain]
  · rfl
  · rintro rest rfl
    exact absurd plain (by decide)

/-- What no line boundary stands in is read into the same line. -/
theorem linesFrom_append {part : Text} (plain : ∀ c ∈ part, endsLine c = false)
    (current t : Text) :
    linesFrom current (part ++ t) = linesFrom (part.reverse ++ current) t := by
  induction part generalizing current with
  | nil => rfl
  | cons c part ih =>
    obtain ⟨here, others⟩ := List.forall_mem_cons.mp plain
    rw [List.cons_append, linesFrom_cons here, ih others, List.reverse_cons, List.append_assoc]
    rfl

/-- A line that is read up to the line feed behind it. -/
theorem linesFrom_line {line : Text} (single : isSingle line = true) (rest : Text) :
    linesFrom [] (line ++ newline :: rest) = withoutReturn line :: linesFrom [] rest := by
  have plain := isSingle_iff.mp single
  rcases withoutReturn_cases line with same | returned
  · rw [← same] at plain ⊢
    rw [linesFrom_append plain, linesFrom]
    · simp [newline, endsLine, CodePoint.toNat]
    · exact fun _ same => absurd same (by decide)
  · generalize withoutReturn line = part at plain returned
    subst returned
    rw [List.append_assoc, linesFrom_append plain]
    simp [newline, linesFrom]

theorem linesFrom_last {line : Text} (single : isSingle line = true)
    (nonempty : line.isEmpty = false) : linesFrom [] line = [withoutReturn line] := by
  have plain := isSingle_iff.mp single
  rcases withoutReturn_cases line with same | returned
  · rw [← same] at plain ⊢
    have read := linesFrom_append plain [] []
    rw [List.append_nil] at read
    rw [read]
    simpa [linesFrom] using nonempty
  · generalize withoutReturn line = part at plain returned
    subst returned
    rw [linesFrom_append plain]
    simp [linesFrom, endsLine, CodePoint.toNat]

/-- Lines without boundaries inside are read back, if the last of them is there to be seen. -/
theorem lines_unlines (single : ∀ line ∈ lines, isSingle line = true)
    (last : ∀ line ∈ lines.getLast?, line.isEmpty = false) :
    Text.lines (unlines lines) = lines.map withoutReturn := by
  rw [Text.lines]
  induction lines with
  | nil => rfl
  | cons line rest ih =>
    obtain ⟨here, others⟩ := List.forall_mem_cons.mp single
    cases rest with
    | nil => rw [unlines_singleton, linesFrom_last here (last line rfl), List.map_singleton]
    | cons next rest =>
      have behind := ih others fun other member => last other (by simpa using member)
      rw [unlines_cons_cons, linesFrom_line here, behind]
      rfl

theorem dedent_unlines (free : ∀ line ∈ lines, newline ∉ line) (some : lines ≠ []) :
    dedent (unlines lines) =
      unlines (lines.map (dedented (margin (lines.filter (!isBare ·))))) := by
  let emptied (line : Text) : Text := if isBare line then [] else line
  have isEmpty_emptied (line : Text) : (emptied line).isEmpty = isBare line := by
    cases line with
    | nil => rfl
    | cons c rest => cases bare : isBare (c :: rest) <;> simp [emptied, bare]
  have visible : (lines.map emptied).filter (!·.isEmpty) = lines.filter (!isBare ·) := by
    have same : (fun line : Text => !line.isEmpty) ∘ emptied = (!isBare ·) :=
      funext fun line => by simp [isEmpty_emptied]
    rw [List.filter_map, same]
    refine (List.map_congr_left fun line member => ?_).trans (List.map_id _)
    have notBare : isBare line = false := by simpa using (List.mem_filter.mp member).2
    simp [emptied, notBare]
  unfold dedent
  rw [show splitAt newline (unlines lines) = lines from splitAt_join free some]
  simp only [show (fun line : Text => if line.all isIndent then [] else line) = emptied from rfl,
    visible, List.map_map]
  refine congrArg unlines (List.map_congr_left fun line _ => ?_)
  simp only [Function.comp_apply, isEmpty_emptied, dedented]
  cases bare : isBare line <;> simp [emptied, bare]

end Lines

end Text

end PegCompiler
