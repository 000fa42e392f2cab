import PegCompiler.Proofs.Grammar.Locations
import PegCompiler.Proofs.Grammar.Productions
import PegCompiler.Proofs.Grammar.Shape

/-!
Grammars written one after the other. Rules need nothing between them: where one ends is decided by what is
ahead, however much of it has to be scanned. `Grammar.read_joined` is the result: a text with another one on
the next line is read to the rules of both.

Reading the first text alone and reading it with the second one behind go in step up to the end of the first
one (`rules_tracks`). There the one stops, and the other goes on at the seam as it does on its own
(`rules_again`).
-/

namespace PegCompiler

namespace Scan

variable {tail head : Text} {c d : Cursor} {nested nested' : Nested} {fuel fuel' : Nat}

section Seam

variable (seam : Seam tail head)

include seam

/-- The rules of the first text, and behind them those that are read at the seam. -/
theorem rules_tracks {m : Nat} {ss : List Rule}
    (inner : ∀ inDelimiter c d, Follows tail head c d →
      Tracks Never (nested inDelimiter) (nested' inDelimiter) c d (Alike tail head))
    (behind : ∀ fuel (d : Cursor), m < fuel → d.after = head →
      ∃ rs e, rules nested' fuel d = .ok (rs, e) ∧ rs.map Rule.unplaced = ss)
    (enough : fuel + m ≤ fuel') (follows : Follows tail head c d) :
    Tracks Never (rules nested fuel) (rules nested' fuel') c d fun a b _ _ =>
      b.map Rule.unplaced = a.map Rule.unplaced ++ ss := by
  induction fuel generalizing c d fuel' with
  | zero => exact .get .fail
  | succ fuel ih =>
    obtain ⟨fuel', rfl⟩ : ∃ n, fuel' = n + 1 := ⟨fuel' - 1, by omega⟩
    refine .bind (skip_tracks seam follows) fun _ _ a b meets => .get ?_
    rcases meets.place with ⟨inside, beside⟩ | ⟨ended, ended'⟩
    · have more (e : Cursor) (inside : e.after ≠ []) : ¬e.atEnd = true := by
        simpa [Cursor.atEnd] using inside
      have inside' : b.after ≠ [] := by simp [beside.after, inside]
      rw [if_neg (more a inside), if_neg (more b inside')]
      refine .bind (rule_tracks seam inner meets.follows) ?_
      rintro r s _ _ ⟨like, follows⟩
      refine .bind (ih (by omega) follows) ?_
      rintro rs _ _ _ likes
      exact .pure (by simp [like, likes])
    · obtain ⟨rs, e, run, same⟩ := behind (fuel' + 1) b (by omega) ended'
      have skipped : rules nested' (fuel' + 1) b = _ := run_bind (skip_of_settled meets.right)
      rw [skipped] at run
      rw [if_pos (by simp [Cursor.atEnd, ended])]
      intro found c' stop
      cases stop
      exact .inr ⟨rs, e, run, by simpa using same⟩

theorem grammar_tracks {depth depth' : Nat} {ss : List Rule} (deep : depth ≤ depth')
    (short : head.length ≤ tail.length)
    (behind : ∀ fuel (d : Cursor), head.length < fuel → d.after = head →
      ∃ rs e, rules (choice depth') fuel d = .ok (rs, e) ∧ rs.map Rule.unplaced = ss)
    (beside : Beside tail c d) :
    Tracks Never (grammar depth) (grammar depth') c d fun a b _ _ =>
      b.unplaced = { a.unplaced with rules := a.unplaced.rules ++ ss } := by
  refine .bind (skip_tracks seam (.beside beside)) fun _ _ a b meets => .get ?_
  have enough : a.after.length + 1 + head.length ≤ b.after.length + 1 := by
    rcases meets.place with ⟨-, beside⟩ | ⟨ended, ended'⟩
    · rw [beside.after, List.length_append]
      omega
    · simp [ended, ended', Nat.add_comm]
  refine .bind (initializer_tracks seam meets) ?_
  rintro i j _ _ ⟨code, follows⟩
  have inner (inDelimiter : Bool) (c d : Cursor) (follows : Follows tail head c d) :
      Tracks Never (choice depth inDelimiter) (choice depth' inDelimiter) c d (Alike tail head) :=
    choice_tracks seam deep follows
  refine .bind (rules_tracks seam inner behind enough follows) ?_
  intro rs ss' _ _ likes
  by_cases empty : rs = []
  · subst empty
    exact .fails (.get (.bind (P := Never) (.fail (.refl _)) nofun))
  · have nonempty' : ss' ≠ [] := by
      rintro rfl
      simp [empty] at likes
    rw [if_neg (by simpa using empty), if_neg (by simpa using nonempty')]
    exact .locationFrom (.pure (by simp [Grammar.unplaced, likes, code]))

end Seam

/-! What is read from the second text alone. -/

/-- At the end of a text there are no rules. -/
theorem rules_end (ended : c.after = []) : rules nested (fuel + 1) c = .ok ([], c) := by
  obtain ⟨source, before, after⟩ := c
  subst ended
  rfl

/-- What is read from a place is read from each place with the same text behind it, also with more fuel. -/
theorem rules_again {depth depth' : Nat} {rs : List Rule} {e : Cursor} (deep : depth ≤ depth')
    (more : fuel ≤ fuel') (same : d.after = c.after)
    (read : rules (choice depth) fuel c = .ok (rs, e)) :
    ∃ ss m, rules (choice depth') fuel' d = .ok (ss, m) ∧
      ss.map Rule.unplaced = rs.map Rule.unplaced := by
  have beside : Beside [] c d := by simp [Beside, same]
  have inner (inDelimiter : Bool) (c d : Cursor) (follows : Follows [] [] c d) :
      Tracks Never (choice depth inDelimiter) (choice depth' inDelimiter) c d (Alike [] []) :=
    choice_tracks Seam.nil deep follows
  have stop (fuel : Nat) (d : Cursor) (some : 0 < fuel) (ended : d.after = []) :
      ∃ rs e, rules (choice depth') fuel d = .ok (rs, e) ∧ rs.map Rule.unplaced = [] := by
    obtain ⟨fuel, rfl⟩ : ∃ n, fuel = n + 1 := ⟨fuel - 1, by omega⟩
    exact ⟨[], d, rules_end ended, rfl⟩
  have tracked := rules_tracks Seam.nil inner stop more (.beside beside)
  obtain ⟨ss, m, run, likes⟩ := (tracked rs e read).resolve_left id
  exact ⟨ss, m, run, by simpa using likes⟩

theorem rules_begin {depth : Nat} {rs : List Rule} {e : Cursor} (settled : IsSettled c)
    (inside : c.after ≠ []) (read : rules (choice depth) (fuel + 1) c = .ok (rs, e)) :
    ∃ m, ruleHead c = .ok (true, m) := by
  have run : rules (choice depth) (fuel + 1) c = (do
      let first ← rule (choice depth)
      return first :: (← rules (choice depth) fuel) : Scan (List Rule)) c := by
    refine (run_bind (skip_of_settled settled)).trans ?_
    change (if c.atEnd = true then _ else _ : Scan (List Rule)) c = _
    rw [if_neg (by simpa [Cursor.atEnd] using inside)]
  rw [run] at read
  have inner (inDelimiter : Bool) (c : Cursor) : Runs (choice depth inDelimiter) c :=
    (choice_locates depth).mono fun _ _ _ _ => trivial
  have begins := rule_begins settled inner
  cases first : rule (choice depth) c with
  | error error =>
    rw [run_bind_error first] at read
    cases read
  | ok result =>
    rw [Reaches, first] at begins
    exact begins.2

/-- A text without code in front of its rules. -/
theorem grammar_ok {depth : Nat} {g : Grammar} (run : grammar depth c = .ok (g, d))
    (plain : g.initializer = none) : ∃ a e, skip c = .ok ((), a) ∧
      rules (choice depth) (a.after.length + 1) a = .ok (g.rules, e) ∧ g.rules ≠ [] := by
  have reaches : Reaches (grammar depth) c fun g _ => g.initializer = none → ∃ a e,
      skip c = .ok ((), a) ∧ rules (choice depth) (a.after.length + 1) a = .ok (g.rules, e) ∧
        g.rules ≠ [] := by
    refine .bind (skip_reaches c).ran fun _ a _ skipped => .get ?_
    refine .bind initializer_reaches fun i b _ ⟨_, _, stays⟩ => ?_
    refine .bind (rules_reaches (fun _ _ => choice_locates depth) _).ran fun rs e _ read => ?_
    refine .ite (fun _ => .get (.bind (P := Never) (.fail (.refl _)) nofun)) fun nonempty => ?_
    refine .locationFrom (.pure fun none => ?_)
    obtain rfl := stays none
    exact ⟨b, e, skipped, read, by simpa using nonempty⟩
  rw [Reaches, run] at reaches
  exact reaches.2 plain

end Scan

namespace Grammar

variable {t₁ t₂ : Text} {s₁ s₂ : Option Text} {g₁ g₂ : Grammar}

theorem read_eq_ok {text : Text} {source : Option Text} {g : Grammar} :
    Grammar.read text source = .ok g ↔
      ∃ d, Scan.grammar (text.length + 1) (.start source text) = .ok (g, d) := by
  unfold Grammar.read
  cases Scan.grammar (text.length + 1) (.start source text) with
  | error error => exact ⟨nofun, nofun⟩
  | ok result =>
    obtain ⟨found, d⟩ := result
    refine ⟨fun same => ⟨d, ?_⟩, fun ⟨_, same⟩ => ?_⟩
    · cases same
      rfl
    · cases same
      rfl

/-- Between a text and another one without code in front of its rules, a line feed is a seam. -/
theorem seam_of_read {a e : Cursor} (skipped : Scan.skip (.start s₂ t₂) = .ok ((), a)) {depth : Nat}
    {rs : List Rule}
    (read : Scan.rules (Scan.choice depth) (a.after.length + 1) a = .ok (rs, e)) :
    Seam (CodePoint.scalar '\n' :: t₂) a.after where
  apart x first := (Option.some.inj first).symm
  skips fuel d here enough := by
    obtain ⟨fuel, rfl⟩ : ∃ n, fuel = n + 1 := ⟨fuel - 1, by omega⟩
    have feed : d.peek? = some (.scalar '\n') := Cursor.peek?_eq_some.mpr ⟨t₂, here⟩
    have noBlock : d.startsWith "/*" = false :=
      Cursor.startsWith_of_ne feed (x := '/') rfl (by decide)
    have shorter := Cursor.length_next_lt feed
    have after : d.next.after = t₂ := by
      have := (Cursor.Reads.next feed).after
      rw [here] at this
      exact (List.cons.inj this).2.symm
    have enough' : d.next.after.length < fuel := by omega
    obtain ⟨e, run, same⟩ :=
      Scan.skipFrom_again after (Nat.lt_succ_self _) enough' (Scan.skip_eq_ok_iff.mp skipped)
    refine ⟨e, ?_, same⟩
    rw [Scan.skipFrom_succ feed, noBlock]
    exact run
  opens d here nonempty := by
    have settled := (Scan.skip_ok skipped).2
    obtain ⟨m, opens⟩ := Scan.rules_begin settled nonempty read
    have meets : Meets [] [] a d :=
      ⟨settled, Scan.isSettled_congr here settled, .inl ⟨nonempty, by simp [Beside, here]⟩⟩
    obtain ⟨_, n, run, rfl⟩ :=
      (Scan.ruleHead_tracks Seam.nil meets nonempty true m opens).resolve_left id
    exact ⟨n, run⟩

/-- A text that is read, with another one on the next line that is read and has no code in front of its
rules, is read as well: to the code of the first text and to the rules of both. -/
theorem read_joined (first : Grammar.read t₁ s₁ = .ok g₁) (second : Grammar.read t₂ s₂ = .ok g₂)
    (plain : g₂.initializer = none) (source : Option Text) :
    ∃ g, Grammar.read (t₁ ++ CodePoint.scalar '\n' :: t₂) source = .ok g ∧
      g.unplaced = { g₁.unplaced with rules := g₁.unplaced.rules ++ g₂.unplaced.rules } := by
  obtain ⟨d₁, run₁⟩ := read_eq_ok.mp first
  obtain ⟨d₂, run₂⟩ := read_eq_ok.mp second
  obtain ⟨a, e, skipped, read, -⟩ := Scan.grammar_ok run₂ plain
  have seam := seam_of_read skipped read
  have short : a.after.length ≤ t₂.length := (Scan.skip_ok skipped).1.length_le
  let text := t₁ ++ CodePoint.scalar '\n' :: t₂
  have longer : text.length = t₁.length + (t₂.length + 1) := by simp [text]
  have behind (fuel : Nat) (d : Cursor) (enough : a.after.length < fuel) (here : d.after = a.after) :
      ∃ rs e, Scan.rules (Scan.choice (text.length + 1)) fuel d = .ok (rs, e) ∧
        rs.map Rule.unplaced = g₂.rules.map Rule.unplaced :=
    Scan.rules_again (by omega) enough here read
  have beside : Beside (CodePoint.scalar '\n' :: t₂) (.start s₁ t₁) (.start source text) := rfl
  have deep : t₁.length + 1 ≤ text.length + 1 := by omega
  have tracked := Scan.grammar_tracks seam deep (Nat.le_succ_of_le short) behind beside
  obtain ⟨g, d, run, same⟩ := (tracked g₁ d₁ run₁).resolve_left id
  exact ⟨g, read_eq_ok.mpr ⟨d, run⟩, same⟩

/-! A sample: the first text ends in a comment without a line feed, and comments stand in front of the rule
of the second one and inside its head. -/

def leadingText : Text := .ofString "\x7b init \x7d s = a:b? \x7b f(\"\x7d\") \x7d / [a-z]+ // the end"

def trailingText : Text := .ofString " # more\nb /* so */ \"B\"\n= 'b'|2, ','|"

theorem comments_joined : ∃ g₁ g₂ g, Grammar.read leadingText none = .ok g₁ ∧
    Grammar.read trailingText none = .ok g₂ ∧ g₂.initializer = none ∧
    Grammar.read (leadingText ++ CodePoint.scalar '\n' :: trailingText) none = .ok g ∧
    g.unplaced = { g₁.unplaced with rules := g₁.unplaced.rules ++ g₂.unplaced.rules } := by
  obtain ⟨g₁, first, -⟩ := exists_of_read (fun g => g.rules.length = 1)
    (show (Grammar.read leadingText none).toOption.any _ = true by decide +kernel)
  obtain ⟨g₂, second, none⟩ := exists_of_read (fun g => g.initializer.isNone)
    (show (Grammar.read trailingText none).toOption.any _ = true by decide +kernel)
  have plain : g₂.initializer = Option.none := Option.isNone_iff_eq_none.mp none
  obtain ⟨g, read, same⟩ := read_joined first second plain Option.none
  exact ⟨g₁, g₂, g, first, second, plain, read, same⟩

end Grammar

end PegCompiler
