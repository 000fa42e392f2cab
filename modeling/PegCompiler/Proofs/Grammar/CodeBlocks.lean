import PegCompiler.Proofs.Grammar.Skipping

/-!
Where a code block of a grammar ends. The brace that closes a block is searched without knowing the
language of the code: only quotes, comments and braces count, and a string ends with the next quote
of its kind. `CodeBlock.Balanced` describes the code that is read so, and `Scan.code_eq_ok_iff` says
that a block is read up to its own brace exactly if its code is balanced.

`CodeBlock.Written` describes code as its authors write it, with strings in single or triple quotes.
A quote of its own kind inside a triple-quoted string ends the string for the search, so that what
follows, up to the next such quote, has to be balanced for itself. Code with such strings only is
balanced, and therefore read as it was written.
-/

namespace PegCompiler

namespace CodeBlock

def IsQuote (c : CodePoint) : Prop := c = '\x27' ∨ c = '\x22'

/-- Nothing begins or ends with the code point. -/
def IsPlain (c : CodePoint) : Prop := ¬IsQuote c ∧ c ≠ '#' ∧ c ≠ '\x7b' ∧ c ≠ '\x7d'

instance (c : CodePoint) : Decidable (IsQuote c) := inferInstanceAs (Decidable (_ ∨ _))

instance (c : CodePoint) : Decidable (IsPlain c) := inferInstanceAs (Decidable (_ ∧ _))

/-- What may stand in a string without ending it. -/
inductive Quiet (quote : CodePoint) : Text → Prop
  | nil : Quiet quote []
  | char {c : CodePoint} {t : Text} : c ≠ quote → c ≠ '\\' → Quiet quote t → Quiet quote (c :: t)
  | escaped {c : CodePoint} {t : Text} : Quiet quote t → Quiet quote ('\\' :: c :: t)

/-- Every string, every comment and every brace that begins in the code ends in it. -/
inductive Balanced : Text → Prop
  | nil : Balanced []
  | plain {c : CodePoint} {t : Text} : IsPlain c → Balanced t → Balanced (c :: t)
  | string {quote : CodePoint} {s t : Text} :
      IsQuote quote → Quiet quote s → Balanced t → Balanced (quote :: s ++ quote :: t)
  | comment {s t : Text} :
      CodePoint.scalar '\n' ∉ s → Balanced t →
      Balanced (.scalar '#' :: s ++ .scalar '\n' :: t)
  | braces {s t : Text} : Balanced s → Balanced t →
      Balanced (.scalar '\x7b' :: s ++ .scalar '\x7d' :: t)

/-- The contents of a triple-quoted string: at most two quotes of its kind stand side by side, and none
at the end, but behind a backslash. -/
inductive Long (quote : CodePoint) : Text → Prop
  | nil : Long quote []
  | char {c : CodePoint} {t : Text} : c ≠ quote → c ≠ '\\' → Long quote t → Long quote (c :: t)
  | escaped {c : CodePoint} {t : Text} : Long quote t → Long quote ('\\' :: c :: t)
  | lone {c : CodePoint} {t : Text} : c ≠ quote → Long quote (c :: t) → Long quote (quote :: c :: t)
  | two {c : CodePoint} {t : Text} :
      c ≠ quote → Long quote (c :: t) → Long quote (quote :: quote :: c :: t)

/-- The quotes of the kind `quote` come in pairs, and what stands between the two is balanced. -/
inductive Paired (quote : CodePoint) : Text → Prop
  | quiet {s : Text} : Quiet quote s → Paired quote s
  | pair {s b t : Text} :
      Quiet quote s → Balanced b → Paired quote t → Paired quote (s ++ quote :: b ++ quote :: t)

/-- Code as it is written: code points that mean nothing, braces, comments, strings on one line, and
triple-quoted strings with the contents that `long` admits. An empty string has no further quote behind
it, which would make it the beginning of a triple-quoted one. -/
inductive Written (long : CodePoint → Text → Prop) : Text → Prop
  | nil : Written long []
  | plain {c : CodePoint} {t : Text} :
      IsPlain c → c ≠ '\\' → Written long t → Written long (c :: t)
  | braces {s t : Text} :
      Written long s → Written long t → Written long (.scalar '\x7b' :: s ++ .scalar '\x7d' :: t)
  | comment {s t : Text} :
      CodePoint.scalar '\n' ∉ s → Written long t →
      Written long (.scalar '#' :: s ++ .scalar '\n' :: t)
  | short {quote : CodePoint} {s t : Text} :
      IsQuote quote → Quiet quote s → CodePoint.scalar '\n' ∉ s → (s = [] → t.head? ≠ some quote) →
      Written long t → Written long (quote :: s ++ quote :: t)
  | triple {quote : CodePoint} {s t : Text} :
      IsQuote quote → long quote s → Written long t →
      Written long (quote :: quote :: quote :: s ++ quote :: quote :: quote :: t)

namespace Balanced

variable {s t : Text} {quote : CodePoint}

theorem append (hs : Balanced s) (ht : Balanced t) : Balanced (s ++ t) := by
  induction hs with
  | nil => exact ht
  | plain free _ ih => exact .plain free ih
  | string isQuote quiet _ ih => simpa using string isQuote quiet ih
  | comment line _ ih => simpa using comment line ih
  | braces inner _ _ ih => simpa using braces inner ih

/-- A string may be cut into several ones, with balanced code between them. -/
theorem paired (isQuote : IsQuote quote) (hs : Paired quote s) (ht : Balanced t) :
    Balanced (quote :: s ++ quote :: t) := by
  induction hs with
  | quiet quiet => exact string isQuote quiet ht
  | pair quiet between _ ih => simpa using string isQuote quiet (append between ih)

theorem of_plain {c : CodePoint} (free : IsPlain c) (h : Balanced (c :: t)) : Balanced t := by
  obtain ⟨noQuote, noHash, noOpen, -⟩ := free
  cases h with
  | plain _ rest => exact rest
  | string isQuote => exact absurd isQuote noQuote
  | comment => exact absurd rfl noHash
  | braces => exact absurd rfl noOpen

end Balanced

/-- Code is balanced if its triple-quoted strings are read as strings and balanced code in turn. -/
theorem Written.balanced {long : CodePoint → Text → Prop} {body : Text}
    (paired : ∀ quote s, long quote s → Paired quote s) (h : Written long body) : Balanced body := by
  induction h with
  | nil => exact .nil
  | plain free _ _ ih => exact .plain free ih
  | braces _ _ inner ih => exact .braces inner ih
  | comment line _ ih => exact .comment line ih
  | short isQuote quiet _ _ _ ih => exact .string isQuote quiet ih
  | triple isQuote admitted _ ih =>
    have closing := Balanced.string isQuote .nil ih
    simpa using Balanced.string isQuote .nil (.paired isQuote (paired _ _ admitted) closing)

end CodeBlock

namespace Scan

open CodeBlock

variable {depth : Nat} {quote : Option CodePoint} {c d closing : Cursor} {x q : CodePoint} {t : Text}

/-- What the search does at one code point outside strings. -/
theorem codeEnd?_outside {fuel : Nat} (here : c.peek? = some x) :
    codeEnd? depth none (fuel + 1) c =
      if x == '\x27' || x == '\x22' then codeEnd? depth (some x) fuel c.next
      else if x == '#' then codeEnd? depth none fuel (lineEnd c)
      else if x == '\x7b' then codeEnd? (depth + 1) none fuel c.next
      else if x == '\x7d' then
        match depth with
        | 0 | 1 => some c
        | depth + 1 => codeEnd? depth none fuel c.next
      else codeEnd? depth none fuel c.next := by
  rcases depth with _ | _ | depth <;> simp only [codeEnd?, here]

theorem codeEnd?_inside {fuel : Nat} (here : c.peek? = some x) :
    codeEnd? depth (some q) (fuel + 1) c =
      if x == '\\' then codeEnd? depth (some q) fuel (c.advance 2)
      else if x == q then codeEnd? depth none fuel c.next
      else codeEnd? depth (some q) fuel c.next := by
  simp only [codeEnd?, here]

theorem codeEnd?_end {fuel : Nat} (here : c.peek? = none) : codeEnd? depth quote fuel c = none := by
  cases fuel with
  | zero => rfl
  | succ fuel => simp only [codeEnd?, here]

/-- A backslash that is not the last code point of the text is passed together with the next one. -/
theorem reads_escape {fuel : Nat} (here : c.peek? = some x)
    (found : codeEnd? depth quote fuel (c.advance 2) = some closing) :
    ∃ y, c.Reads [x, y] (c.advance 2) := by
  have one := Cursor.Reads.next here
  cases next : c.next.peek? with
  | none =>
    have stays : c.advance 2 = c.next := Cursor.next_of_end next
    rw [stays, codeEnd?_end next] at found
    cases found
  | some y => exact ⟨y, one.trans (.next next)⟩

/-! Balanced code is passed. -/

/-- The search finds the closing brace, however much it may look for it. -/
def Closes (depth : Nat) (quote : Option CodePoint) (c closing : Cursor) : Prop :=
  ∀ fuel, c.after.length < fuel → codeEnd? depth quote fuel c = some closing

/-- One step of the search passes some text. -/
theorem Closes.step {depth' : Nat} {quote' : Option CodePoint}
    (same : ∀ fuel, codeEnd? depth quote (fuel + 1) c = codeEnd? depth' quote' fuel d)
    (shorter : d.after.length < c.after.length) (rest : Closes depth' quote' d closing) :
    Closes depth quote c closing := by
  intro fuel enough
  cases fuel with
  | zero => omega
  | succ fuel => exact (same fuel).trans (rest fuel (by omega))

theorem string_closes (isQuote : IsQuote q) (quiet : Quiet q t) (reads : c.Reads (t ++ [q]) d)
    (rest : Closes depth none d closing) : Closes depth (some q) c closing := by
  have noEscape : q ≠ '\\' := by rcases isQuote with rfl | rfl <;> decide
  induction quiet generalizing c with
  | nil =>
    have here := reads.peek?
    obtain rfl : d = c.next := reads.unique (.next here)
    exact .step (fun fuel => by simp [codeEnd?_inside here, noEscape]) (Cursor.length_next_lt here) rest
  | char other plain _ ih =>
    have here := reads.peek?
    exact .step (fun fuel => by simp [codeEnd?_inside here, other, plain])
      (Cursor.length_next_lt here) (ih reads.behind)
  | @escaped x t _ ih =>
    obtain ⟨m, pair, reads⟩ := reads.split (t := ['\\', x]) (u := t ++ [q])
    obtain rfl : m = c.advance 2 := pair.unique (.advance (t := ['\\', x]) pair.after)
    have shorter := pair.length_after
    refine .step (fun fuel => by simp [codeEnd?_inside pair.peek?]) ?_ (ih reads)
    simp only [List.length_cons] at shorter
    omega

theorem balanced_closes (balanced : Balanced t) (reads : c.Reads t d)
    (rest : Closes (depth + 1) none d closing) : Closes (depth + 1) none c closing := by
  induction balanced generalizing depth c d with
  | nil => exact reads.unique (.refl c) ▸ rest
  | plain free _ ih =>
    have here := reads.peek?
    obtain ⟨noQuote, noHash, noOpen, noClose⟩ := free
    obtain ⟨noSingle, noDouble⟩ := not_or.mp noQuote
    exact .step (fun fuel => by simp [codeEnd?_outside here, *]) (Cursor.length_next_lt here)
      (ih reads.behind rest)
  | @string q s t isQuote quiet _ ih =>
    have here := reads.peek?
    have reads : c.next.Reads (s ++ [q] ++ t) d := by simpa using reads.behind
    obtain ⟨m, inner, reads⟩ := reads.split
    refine .step (fun fuel => ?_) (Cursor.length_next_lt here)
      (string_closes isQuote quiet inner (ih reads rest))
    rcases isQuote with rfl | rfl <;> simp [codeEnd?_outside here]
  | @comment s t line _ ih =>
    have here := reads.peek?
    have reads : c.Reads ((.scalar '#' :: s) ++ .scalar '\n' :: t) d := reads
    obtain ⟨m, comment, reads⟩ := reads.split
    obtain rfl : lineEnd c = m := lineEnd_eq (by simpa using line) comment reads.peek?
    have shorter := comment.length_after
    have newline := reads.peek?
    have behind : Closes (depth + 1) none (lineEnd c) closing :=
      .step (fun fuel => by simp [codeEnd?_outside newline]) (Cursor.length_next_lt newline)
        (ih reads.behind rest)
    refine .step (fun fuel => by simp [codeEnd?_outside here]) ?_ behind
    simp only [List.length_cons] at shorter
    omega
  | @braces s t _ _ ihs iht =>
    have here := reads.peek?
    have reads : c.next.Reads (s ++ .scalar '\x7d' :: t) d := reads.behind
    obtain ⟨m, inner, reads⟩ := reads.split
    have close := reads.peek?
    have behind : Closes (depth + 2) none m closing :=
      .step (fun fuel => by simp [codeEnd?_outside close]) (Cursor.length_next_lt close)
        (iht reads.behind rest)
    exact .step (fun fuel => by simp [codeEnd?_outside here]) (Cursor.length_next_lt here)
      (ihs inner behind)

/-! What is passed is balanced. -/

theorem comment_reads (here : c.peek? = some (.scalar '#')) :
    ∃ s, CodePoint.scalar '\n' ∉ s ∧ c.Reads (.scalar '#' :: s) (lineEnd c) := by
  obtain ⟨s, line, reads, stop⟩ := lineEnd_reads c
  cases s with
  | nil =>
    have same : lineEnd c = c := reads.unique (.refl c)
    cases stop _ ((congrArg Cursor.peek? same).trans here)
  | cons y s =>
    obtain rfl : CodePoint.scalar '#' = y := Option.some.inj (here.symm.trans reads.peek?)
    exact ⟨s, fun inside => line (List.mem_cons_of_mem _ inside), reads⟩

/-- The end of a line is no place for a closing brace. -/
theorem newline_behind (reads : (lineEnd c).Reads t closing)
    (stop : closing.peek? = some (.scalar '\x7d')) : ∃ u, t = .scalar '\n' :: u := by
  obtain ⟨-, -, -, newline⟩ := lineEnd_reads c
  cases t with
  | nil =>
    rw [reads.unique (.refl _)] at stop
    cases newline _ stop
  | cons y u => exact ⟨u, by rw [newline y reads.peek?]⟩

/-- What is still to come up to the closing brace of a block, with `depth` braces open, and the string
that ends with `quote`. -/
inductive Pending : Nat → Option CodePoint → Text → Prop
  | last {t : Text} : Balanced t → Pending 1 none t
  | close {depth : Nat} {s t : Text} :
      Balanced s → Pending (depth + 1) none t → Pending (depth + 2) none (s ++ .scalar '\x7d' :: t)
  | string {depth : Nat} {q : CodePoint} {s t : Text} :
      Quiet q s → Pending depth none t → Pending depth (some q) (s ++ q :: t)

namespace Pending

variable {s : Text}

theorem prepend (balanced : Balanced s) (h : Pending depth none t) : Pending depth none (s ++ t) := by
  cases h with
  | last rest => exact .last (balanced.append rest)
  | close first rest => simpa using close (balanced.append first) rest

theorem opened (isQuote : IsQuote q) (h : Pending depth (some q) t) : Pending depth none (q :: t) := by
  cases h with
  | @string _ _ s t quiet rest =>
    simpa using rest.prepend (.string isQuote quiet .nil)

theorem behind_newline (h : Pending depth none (.scalar '\n' :: t)) : Pending depth none t := by
  have free : IsPlain (.scalar '\n') := by simp [IsPlain, IsQuote]
  generalize whole : CodePoint.scalar '\n' :: t = text at h
  cases h with
  | last rest => exact .last (.of_plain free (whole ▸ rest))
  | @close depth s u first rest =>
    cases s with
    | nil => simp at whole
    | cons x s =>
      obtain ⟨rfl, rfl⟩ := List.cons.inj whole
      exact .close (first.of_plain free) rest

theorem comment (line : CodePoint.scalar '\n' ∉ s) (h : Pending depth none (.scalar '\n' :: t)) :
    Pending depth none (.scalar '#' :: s ++ .scalar '\n' :: t) := by
  simpa using h.behind_newline.prepend (.comment line .nil)

theorem braces (h : Pending (depth + 2) none t) :
    Pending (depth + 1) none (.scalar '\x7b' :: t) := by
  cases h with
  | @close _ s u first rest => simpa using rest.prepend (.braces first .nil)

/-- More of a string that does not end it. -/
theorem inside (quiet : ∀ u, Quiet q u → Quiet q (s ++ u)) (h : Pending depth (some q) t) :
    Pending depth (some q) (s ++ t) := by
  cases h with
  | string here rest => simpa using string (quiet _ here) rest

end Pending

/-- What the search passes lies within the block, and the block ends where the search does. -/
theorem codeEnd?_sound {fuel : Nat} (found : codeEnd? (depth + 1) quote fuel c = some closing) :
    ∃ t, c.Reads t closing ∧ closing.peek? = some (.scalar '\x7d') ∧ Pending (depth + 1) quote t := by
  induction fuel generalizing depth quote c with
  | zero => cases found
  | succ fuel ih =>
    cases here : c.peek? with
    | none =>
      rw [codeEnd?_end here] at found
      cases found
    | some x =>
      have one := Cursor.Reads.next here
      cases quote with
      | some q =>
        rw [codeEnd?_inside here] at found
        split at found
        · rename_i escape
          obtain rfl := eq_of_beq escape
          obtain ⟨t, reads, stop, pending⟩ := ih found
          obtain ⟨y, two⟩ := reads_escape here found
          exact ⟨_, two.trans reads, stop, pending.inside fun _ => .escaped⟩
        · rename_i noEscape
          split at found
          · rename_i closes
            obtain rfl := eq_of_beq closes
            obtain ⟨t, reads, stop, pending⟩ := ih found
            exact ⟨_, one.trans reads, stop, .string .nil pending⟩
          · rename_i other
            obtain ⟨t, reads, stop, pending⟩ := ih found
            exact ⟨_, one.trans reads, stop,
              pending.inside fun _ => .char (by simpa using other) (by simpa using noEscape)⟩
      | none =>
        rw [codeEnd?_outside here] at found
        split at found
        · rename_i isQuote
          obtain ⟨t, reads, stop, pending⟩ := ih found
          exact ⟨_, one.trans reads, stop, pending.opened (by simpa [IsQuote] using isQuote)⟩
        rename_i noQuote
        split at found
        · rename_i hash
          obtain rfl := eq_of_beq hash
          obtain ⟨t, reads, stop, pending⟩ := ih found
          obtain ⟨s, line, comment⟩ := comment_reads here
          obtain ⟨u, rfl⟩ := newline_behind reads stop
          exact ⟨_, comment.trans reads, stop, pending.comment line⟩
        rename_i noHash
        split at found
        · rename_i opening
          obtain rfl := eq_of_beq opening
          obtain ⟨t, reads, stop, pending⟩ := ih found
          exact ⟨_, one.trans reads, stop, pending.braces⟩
        rename_i noOpening
        split at found
        · rename_i close
          obtain rfl := eq_of_beq close
          cases depth with
          | zero =>
            obtain rfl := Option.some.inj found
            exact ⟨[], .refl c, here, .last .nil⟩
          | succ depth =>
            obtain ⟨t, reads, stop, pending⟩ := ih found
            exact ⟨_, one.trans reads, stop, .close .nil pending⟩
        · rename_i noClose
          obtain ⟨t, reads, stop, pending⟩ := ih found
          have free : IsPlain x := by simp_all [IsPlain, IsQuote]
          exact ⟨_, one.trans reads, stop, pending.prepend (.plain free .nil)⟩

/-! A whole block. -/

/-- A code block is what the search for its closing brace passes. -/
theorem code_eq (here : c.peek? = some (.scalar '\x7b')) :
    code c = match codeEnd? 1 none (c.after.length + 1) c.next with
      | some closing =>
        .ok ((c.next.textBetween closing, c.next.locationBetween closing), closing.next)
      | none => .error ⟨.unterminatedCode, c⟩ := by
  have skipped := skip_of_settled (isSettled_of_ne here (by decide) (by decide) (by decide))
  have run : code c = (do
      if c.peek? != some (CodePoint.scalar '\x7b') then fail .codeBlock c
      match codeEnd? 1 none (c.after.length + 1) c.next with
      | some closing =>
        set closing.next
        return (c.next.textBetween closing, c.next.locationBetween closing)
      | none => fail .unterminatedCode c : Scan (Text × Location)) c := run_bind skipped
  rw [run, here]
  cases codeEnd? 1 none (c.after.length + 1) c.next <;> rfl

theorem code_ne (settled : IsSettled c) (other : c.peek? ≠ some (.scalar '\x7b')) :
    code c = .error ⟨.codeBlock, c⟩ := by
  have noBrace : (c.peek? != some (CodePoint.scalar '\x7b')) = true := by simpa using other
  refine (run_bind (skip_of_settled settled)).trans ?_
  change (if (c.peek? != some (CodePoint.scalar '\x7b')) = true then _ else _ :
    Scan (Text × Location)) c = _
  rw [if_pos noBrace]
  rfl

variable {source : Option Text} {before body rest : Text}

/-- A block whose code is balanced is read up to its own brace, and no other block is: the one that is
read from a brace on is `body` exactly if `body` is balanced. -/
theorem code_eq_ok_iff :
    code ⟨source, before, .scalar '\x7b' :: (body ++ .scalar '\x7d' :: rest)⟩ =
      .ok ((body, Cursor.locationBetween
        ⟨source, .scalar '\x7b' :: before, body ++ .scalar '\x7d' :: rest⟩
        ⟨source, body.reverse ++ .scalar '\x7b' :: before, .scalar '\x7d' :: rest⟩),
        ⟨source, .scalar '\x7d' :: (body.reverse ++ .scalar '\x7b' :: before), rest⟩) ↔
    Balanced body := by
  let c : Cursor := ⟨source, before, .scalar '\x7b' :: (body ++ .scalar '\x7d' :: rest)⟩
  let d : Cursor := ⟨source, body.reverse ++ .scalar '\x7b' :: before, .scalar '\x7d' :: rest⟩
  have reads : c.next.Reads body d := ⟨rfl, rfl, rfl⟩
  have opening : c.peek? = some (.scalar '\x7b') := rfl
  change code c = _ ↔ _
  rw [code_eq opening]
  constructor
  · intro found
    cases search : codeEnd? 1 none (c.after.length + 1) c.next with
    | none =>
      rw [search] at found
      cases found
    | some closing =>
      rw [search] at found
      obtain ⟨t, passed, -, pending⟩ := codeEnd?_sound search
      have same : t = body :=
        passed.textBetween.symm.trans (congrArg (·.1.1) (Except.ok.inj found))
      cases pending with
      | last balanced => exact same ▸ balanced
  · intro balanced
    have close : Closes 1 none d d := by
      intro fuel enough
      cases fuel with
      | zero => omega
      | succ fuel => simp [codeEnd?_outside (show d.peek? = some (.scalar '\x7d') from rfl)]
    rw [balanced_closes balanced reads close _ (Nat.lt_succ_of_lt (Cursor.length_next_lt opening))]
    simp only [reads.textBetween]
    rfl

/-- Code whose triple-quoted strings hold the quotes of their kind in pairs, with balanced code between
the two, is read as it was written, whatever follows the block. -/
theorem code_ends (written : Written (fun quote s => Long quote s ∧ Paired quote s) body)
    (source : Option Text) (before rest : Text) :
    code ⟨source, before, .scalar '\x7b' :: (body ++ .scalar '\x7d' :: rest)⟩ =
      .ok ((body, Cursor.locationBetween
        ⟨source, .scalar '\x7b' :: before, body ++ .scalar '\x7d' :: rest⟩
        ⟨source, body.reverse ++ .scalar '\x7b' :: before, .scalar '\x7d' :: rest⟩),
        ⟨source, .scalar '\x7d' :: (body.reverse ++ .scalar '\x7b' :: before), rest⟩) :=
  code_eq_ok_iff.mpr (written.balanced fun _ _ long => long.2)

/-! A sample with every kind of piece: a triple-quoted string holds two quotes of its kind, and braces
stand in strings and in a comment. -/

def piecesBody : Text := Text.ofChars ['"', '"', '"', 'a', '"', 'b', '"', '\x7d', '"', '"', '"',
  '\x27', '\x7d', '\x27', '\x7b', '\x7d', '#', '\x7d', '\n']

theorem pieces_end : Written (fun quote s => Long quote s ∧ Paired quote s) piecesBody ∧
    ∃ location, code ⟨none, [], .scalar '\x7b' :: (piecesBody ++ .scalar '\x7d' :: [.scalar '"'])⟩ =
      .ok ((piecesBody, location), ⟨none, .scalar '\x7d' :: (piecesBody.reverse ++ [.scalar '\x7b']),
        [.scalar '"']⟩) := by
  have quiet (x : CodePoint) (other : x ≠ '"') (plain : x ≠ '\\') : Quiet '"' [x] :=
    .char other plain .nil
  have long : Long '"' (Text.ofChars ['a', '"', 'b', '"', '\x7d']) :=
    .char (by decide) (by decide) (.lone (by decide)
      (.char (by decide) (by decide) (.lone (by decide) (.char (by decide) (by decide) .nil))))
  have paired : Paired '"' (Text.ofChars ['a', '"', 'b', '"', '\x7d']) :=
    .pair (s := Text.ofChars ['a']) (b := Text.ofChars ['b']) (quiet 'a' (by decide) (by decide))
      (.plain (by decide) .nil) (.quiet (quiet '\x7d' (by decide) (by decide)))
  have comment : Written (fun quote s => Long quote s ∧ Paired quote s)
      (Text.ofChars ['\x7b', '\x7d', '#', '\x7d', '\n']) :=
    .braces (s := []) .nil (.comment (s := Text.ofChars ['\x7d']) (by decide) .nil)
  have written : Written (fun quote s => Long quote s ∧ Paired quote s) piecesBody :=
    .triple (s := Text.ofChars ['a', '"', 'b', '"', '\x7d']) (.inr rfl) ⟨long, paired⟩
      (.short (s := Text.ofChars ['\x7d']) (.inl rfl) (.char (by decide) (by decide) .nil) (by decide)
        nofun comment)
  exact ⟨written, _, code_ends written none [] _⟩

/-! Another one: of the two quotes around a brace, the first one stands in a triple-quoted string, and
the second one is the first of the three that end it. -/

def loneQuoteBody : Text := Text.ofChars ['"', '"', '"', 'a', '"', '\x7d', '"', '"', '"']

theorem loneQuote_cuts : Written Long loneQuoteBody ∧
    (code ⟨none, [], .scalar '\x7b' :: (loneQuoteBody ++ [.scalar '\x7d'])⟩).toOption.map
      (fun found => (found.1.1, found.2.after)) =
        some (Text.ofChars ['"', '"', '"', 'a', '"'], Text.ofChars ['"', '"', '"', '\x7d']) := by
  have long : Long '"' (Text.ofChars ['a', '"', '\x7d']) :=
    .char (by decide) (by decide) (.lone (by decide) (.char (by decide) (by decide) .nil))
  exact ⟨.triple (.inr rfl) long .nil, by decide +kernel⟩

end Scan

end PegCompiler
