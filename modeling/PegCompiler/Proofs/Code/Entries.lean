import PegCompiler.Proofs.Code.References
import PegCompiler.Proofs.Code.Lowering

/-!
What lowering leaves in the tables. No table has an entry twice, and every entry that is added is
referred to by the code for which it was added: code that is dropped has not been lowered
(`Lower.expr_emits`). So it is with the rules of a grammar one after the other.
-/

namespace PegCompiler

namespace Tables

/-- No table has an entry twice. -/
structure Distinct (tables : Tables) : Prop where
  literals : tables.literals.Nodup
  classes : tables.classes.Nodup
  expectations : tables.expectations.Nodup
  functions : tables.functions.Nodup

/-- A reference denotes an entry. -/
def Has (tables : Tables) (reference : Reference) : Prop := (tables.at? reference).isSome = true

theorem item?_isSome {α : Type} {items : List α} {place : Int} :
    (item? items place).isSome = true ↔ 0 ≤ place ∧ place < items.length := by
  unfold item?
  split
  · simp
    omega
  · simp
    omega

section Place

variable {α : Type} [BEq α] {items : List α} {value : α}

theorem nodup_place [LawfulBEq α] (distinct : items.Nodup) : (place items value).2.Nodup := by
  unfold place
  split
  · exact distinct
  · rename_i absent
    have new : value ∉ items := fun member => by
      simpa using List.findIdx?_eq_none_iff.mp absent value member
    refine List.nodup_append.mpr ⟨distinct, by simp, fun a member b last same => ?_⟩
    exact new (List.mem_singleton.mp last ▸ same ▸ member)

/-- The only new place is the one handed out. -/
theorem item?_place {other : Int} (found : (item? (place items value).2 other).isSome = true) :
    (item? items other).isSome = true ∨ other = (place items value).1 := by
  rw [item?_isSome] at found ⊢
  unfold place at found ⊢
  split
  · rename_i same
    simp only [same] at found
    exact .inl found
  · rename_i absent
    simp only [absent, List.length_append, List.length_singleton] at found
    simp
    omega

end Place

end Tables

namespace Lower

open Instr

/-- If `lower` succeeds, what it gives has all references that are held before and one to each entry
that is new; no entry comes twice. -/
def Accounts {α : Type} (w : Workspace) (held : List Reference) (lower : Lower α)
    (references : α → List Reference) : Prop :=
  ∀ a after, lower w = .ok (a, after) → held ⊆ references a ∧
    (w.tables.Distinct → after.tables.Distinct) ∧
    ∀ reference, after.tables.Has reference → w.tables.Has reference ∨ reference ∈ references a

namespace Accounts

variable {α β : Type} {w : Workspace} {held : List Reference} {lower : Lower α}
  {references other : α → List Reference} {last : β → List Reference}

theorem pure {a : α} (h : held ⊆ references a) : Accounts w held (Pure.pure a) references := by
  rintro _ _ ⟨⟩
  exact ⟨h, id, fun _ => .inl⟩

theorem fail {fault : LoweringFault} : Accounts w held (Lower.fail fault) references :=
  fun _ _ found => nomatch found

theorem bind {next : α → Lower β} (first : Accounts w held lower references)
    (second : ∀ a v, Accounts v (references a) (next a) last) :
    Accounts w held (lower >>= next) last := by
  intro b after found
  change (lower w).bind (fun (a, v) => next a v) = _ at found
  cases made : lower w with
  | error fault => simp [made, Except.bind] at found
  | ok result =>
    obtain ⟨a, v⟩ := result
    rw [made] at found
    obtain ⟨keeps, distinct, new⟩ := first a v made
    obtain ⟨keeps', distinct', new'⟩ := second a v b after found
    refine ⟨List.Subset.trans keeps keeps', distinct' ∘ distinct, fun reference has => ?_⟩
    rcases new' reference has with before | here
    · exact (new reference before).imp_right fun member => keeps' member
    · exact .inr here

/-- What is held anyway may be added on both sides. -/
theorem frame (h : Accounts w [] lower references) (held : List Reference) :
    Accounts w held lower fun a => held ++ references a := by
  intro a after found
  obtain ⟨-, distinct, new⟩ := h a after found
  exact ⟨List.subset_append_left _ _, distinct,
    fun reference has => (new reference has).imp_right (List.mem_append_right _)⟩

theorem get {next : Workspace → Lower β} (h : Accounts w held (next w) last) :
    Accounts w held (MonadState.get >>= next) last := h

theorem set {u : Workspace} {next : PUnit → Lower β} (h : Accounts u held (next ⟨⟩) last)
    (same : u.tables = w.tables) : Accounts w held (MonadState.set u >>= next) last := by
  intro b after found
  obtain ⟨keeps, distinct, new⟩ := h b after found
  exact ⟨keeps, same ▸ distinct, same ▸ new⟩

theorem modify {change : Workspace → Workspace} {b : β} (same : (change w).tables = w.tables)
    (h : held ⊆ last b) :
    Accounts w held (do MonadState.modifyGet fun w => (PUnit.unit, change w); return b) last := by
  rintro _ _ ⟨⟩
  refine ⟨h, ?_, ?_⟩
  · rw [same]
    exact id
  · rw [same]
    exact fun _ => .inl

theorem apart (h : ∀ w, Accounts w held lower references) :
    Accounts w held (Lower.apart lower) references := by
  refine .get (.set ?_ rfl)
  refine .bind (h _) fun a v => ?_
  exact .modify rfl (List.Subset.refl _)

theorem liftBound {x : Except BoundFault α} (h : ∀ a, x = .ok a → held ⊆ references a) :
    Accounts w held (Lower.liftBound x) references := by
  match x with
  | .ok a => exact .pure (h a rfl)
  | .error (.unknownLabel _) | .error .incomparable => exact .fail

theorem liftBound_bind {x : Except BoundFault α} {next : α → Lower β}
    (h : ∀ a, x = .ok a → Accounts w held (next a) last) :
    Accounts w held (Lower.liftBound x >>= next) last := by
  match x with
  | .ok a => exact h a rfl
  | .error (.unknownLabel _) | .error .incomparable => exact fun _ _ found => nomatch found

theorem discard {x : Except BoundFault α} :
    Accounts w held (Functor.discard (Lower.liftBound x)) fun _ => held := by
  match x with
  | .ok a =>
    rintro _ _ ⟨⟩
    exact ⟨List.Subset.refl _, id, fun _ => .inl⟩
  | .error (.unknownLabel _) | .error .incomparable => exact fun _ _ found => nomatch found

end Accounts

section Entries

variable {w : Workspace} {held : List Reference}

/-- An entry that is asked for is referred to from then on, and no other entry is new. -/
theorem Accounts.entry {lower : Lower Int} {refer : Int → Reference}
    (asked : ∀ i after, lower w = .ok (i, after) → (w.tables.Distinct → after.tables.Distinct) ∧
      ∀ reference, after.tables.Has reference → w.tables.Has reference ∨ reference = refer i) :
    Accounts w held lower fun i => held ++ [refer i] := by
  intro i after found
  obtain ⟨distinct, new⟩ := asked i after found
  exact ⟨List.subset_append_left _ _, distinct, fun reference has =>
    (new reference has).imp_right fun same => List.mem_append_right _ (List.mem_singleton.mpr same)⟩

theorem literal_accounts (value : Text) :
    Accounts w held (literal value) fun i => held ++ [.literal i] := by
  refine .entry ?_
  rintro i after ⟨⟩
  refine ⟨fun h => ⟨Tables.nodup_place h.literals, h.classes, h.expectations, h.functions⟩,
    fun reference has => ?_⟩
  cases reference with
  | literal other =>
    simp only [Tables.Has, Tables.at?, Option.isSome_map] at has ⊢
    exact (Tables.item?_place has).imp_right (congrArg Reference.literal)
  | _ => exact .inl has

theorem charClass_accounts (members : CharClass) :
    Accounts w held (charClass members) fun i => held ++ [.charClass i] := by
  refine .entry ?_
  rintro i after ⟨⟩
  refine ⟨fun h => ⟨h.literals, Tables.nodup_place h.classes, h.expectations, h.functions⟩,
    fun reference has => ?_⟩
  cases reference with
  | charClass other =>
    simp only [Tables.Has, Tables.at?, Option.isSome_map] at has ⊢
    exact (Tables.item?_place has).imp_right (congrArg Reference.charClass)
  | _ => exact .inl has

theorem expectation_accounts (entry : Expectation) :
    Accounts w held (expectation entry) fun i => held ++ [.expectation i] := by
  refine .entry ?_
  rintro i after ⟨⟩
  refine ⟨fun h => ⟨h.literals, h.classes, Tables.nodup_place h.expectations, h.functions⟩,
    fun reference has => ?_⟩
  cases reference with
  | expectation other =>
    simp only [Tables.Has, Tables.at?, Option.isSome_map] at has ⊢
    exact (Tables.item?_place has).imp_right (congrArg Reference.expectation)
  | _ => exact .inl has

theorem function_accounts (predicate : Bool) (body : Text) :
    Accounts w held (function predicate body) fun i => held ++ [.function i] := by
  refine .entry ?_
  rintro i after ⟨⟩
  refine ⟨fun h => ⟨h.literals, h.classes, h.expectations, Tables.nodup_place h.functions⟩,
    fun reference has => ?_⟩
  cases reference with
  | function other =>
    simp only [Tables.Has, Tables.at?, Option.isSome_map] at has ⊢
    exact (Tables.item?_place has).imp_right (congrArg Reference.function)
  | _ => exact .inl has

end Entries

/-- The code that is made has a reference to every entry that is added. -/
def Emits (w : Workspace) (lower : Lower (List Instr)) : Prop :=
  Accounts w [] lower allReferences

section Expressions

variable {placeOf : Text → Int} {w : Workspace}

theorem expect_accounts (setting : Setting) (entry : Expectation) (held : List Reference) :
    Accounts w held (expect setting entry) fun code => held ++ allReferences code := by
  unfold expect
  split
  · exact .pure (by simp)
  · refine .bind (expectation_accounts entry) fun i v => .pure ?_
    simp [Op.references]

theorem needCode_accounts (setting : Setting) (e : Expr) (held : List Reference) :
    Accounts w held (needCode setting e) fun _ => held := by
  unfold needCode
  split
  · exact .fail
  · exact .pure (List.Subset.refl _)

theorem noted_accounts {held : List Reference} {code : List Instr} (setting : Setting)
    (entry : Expectation) (h : held ⊆ allReferences code) :
    Accounts w held (do
      let noted ← expect setting entry
      return noted ++ code) allReferences := by
  refine .bind (expect_accounts setting entry held) fun noted v => .pure ?_
  rw [allReferences_append]
  exact List.append_subset.mpr
    ⟨List.Subset.trans h (List.subset_append_right _ _), List.subset_append_left _ _⟩

theorem checkMin_accounts {held : List Reference} {collected : List Instr}
    (h : held ⊆ allReferences collected) (min : Boundary) (top : Int) :
    Accounts w held (do
      let behind ← get
      liftBound (Build.checkMin collected min top behind.labels)) allReferences := by
  refine .get (.liftBound fun code checks => ?_)
  rwa [references_checkMin checks.symm]

theorem ofLiteral_emits (setting : Setting) (verdict : Verdict) (value : Text) (ignoreCase : Bool) :
    Emits w (ofLiteral setting verdict value ignoreCase) := by
  unfold ofLiteral
  split
  · exact .pure (by simp)
  · cases verdict with
    | never =>
      simp only [pure_bind]
      exact noted_accounts setting _ (by simp)
    | sometimes =>
      cases ignoreCase <;> simp only [pure_bind, if_true, Bool.false_eq_true, if_false] <;>
        exact .bind (literal_accounts _) fun i v => noted_accounts setting _ (by simp [Op.references])
    | always =>
      cases ignoreCase <;> simp only [pure_bind, if_true, Bool.false_eq_true, if_false]
      · exact .bind (literal_accounts _) fun i v => noted_accounts setting _ (by simp [Op.references])
      · exact noted_accounts setting _ (by simp)

theorem ofCharClass_emits (setting : Setting) (verdict : Verdict) (members : CharClass) :
    Emits w (ofCharClass setting verdict members) := by
  unfold ofCharClass
  cases verdict <;> simp only [pure_bind]
  · exact noted_accounts setting _ (by simp)
  · exact .bind (charClass_accounts _) fun i v => noted_accounts setting _ (by simp [Op.references])
  · exact noted_accounts setting _ (by simp)

theorem ofEnding_emits (setting : Setting) (count : Nat) : Emits w (ofEnding setting count) := by
  unfold ofEnding
  split
  · refine .bind (function_accounts false _) fun i v => .get (.pure ?_)
    simp [Build.call, Op.references]
  · refine .get ?_
    split <;> exact .pure (by simp)

theorem sequence_emits {es : List Expr}
    (each : ∀ e ∈ es, ∀ setting w, Emits w (expr placeOf setting e))
    (setting : Setting) (position : Nat) (w : Workspace) :
    Emits w (sequence placeOf setting position es) := by
  induction es generalizing setting position w with
  | nil => exact .pure (by simp)
  | cons e rest ih =>
    rw [sequence]
    refine .bind (each e (by simp) setting w) fun code v => ?_
    refine .bind (.frame (ih (fun c member => each c (by simp [member])) _ _ v) _) fun others u => ?_
    exact .pure (by simp)

theorem choices_emit {es : List Expr}
    (each : ∀ e ∈ es, ∀ setting w, Emits w (expr placeOf setting e))
    (setting : Setting) (kept : List Bool) (w : Workspace) :
    Accounts w [] (choices placeOf setting kept es) fun codes => allReferences codes.flatten := by
  induction es generalizing kept w with
  | nil =>
    have none : choices placeOf setting kept [] = pure [] := by
      cases kept with
      | nil => rfl
      | cons first rest => cases first <;> rfl
    rw [none]
    exact .pure (by simp)
  | cons e rest ih =>
    have ih := ih fun c member => each c (by simp [member])
    match kept with
    | [] => exact .pure (by simp)
    | false :: kept => exact ih kept w
    | true :: kept =>
      rw [choices]
      refine .bind (.apart fun w => each e (by simp) setting w) fun code v => ?_
      refine .bind (.frame (ih kept v) _) fun codes u => ?_
      exact .pure (by simp)

theorem ofPredicate_emits (setting : Setting) (verdict : Verdict) (negative : Bool) (code : Text) :
    Emits w (ofPredicate setting verdict negative code) := by
  unfold ofPredicate
  refine .bind (function_accounts true code) fun i v => .get (.pure ?_)
  simp [Build.call, Op.references]

theorem expr_emits (e : Expr) : ∀ setting w, Emits w (expr placeOf setting e) := by
  induction e using Expr.byChildren with
  | node e ih =>
    intro setting w
    cases e with
    | literal info value ignoreCase =>
      rw [expr]
      exact ofLiteral_emits _ _ _ _
    | charClass info members =>
      rw [expr]
      exact ofCharClass_emits _ _ _
    | any info =>
      rw [expr, ofAny]
      exact noted_accounts setting .any (by simp)
    | ruleRef info name =>
      rw [expr]
      exact .pure (by simp)
    | sequence info es =>
      rw [expr]
      split
      · exact .pure (by simp)
      · refine .bind (sequence_emits ih _ _ w) fun code v => ?_
        refine .bind (.frame (ofEnding_emits setting _) _) fun ending u => .pure ?_
        simp [Op.references]
    | choice info es =>
      rw [expr]
      split
      · exact .pure (by simp)
      · split
        · exact .fail
        · split
          · refine .bind (choices_emit ih _ _ w) fun codes v => .pure ?_
            simp [references_firstMatch]
          · exact .pure (by simp)
    | labeled info label at? auto body =>
      rw [expr]
      refine .bind (needCode_accounts _ _ _) fun _ v => .get (.set ?_ rfl)
      refine .bind (ih body (by simp [Expr.children]) _ _) fun code u => ?_
      exact .modify rfl (List.Subset.refl _)
    | unary info operator body =>
      have below := ih body (by simp [Expr.children])
      have inner (setting : Setting) (w : Workspace) : Emits w (apart (expr placeOf setting body)) :=
        .apart fun w => below setting w
      cases operator with
      | group =>
        rw [expr]
        exact .bind (needCode_accounts _ _ _) fun _ v => inner _ v
      | text =>
        rw [expr]
        refine .bind (needCode_accounts _ _ _) fun _ v => ?_
        refine .bind (inner _ v) fun code u => ?_
        split
        · exact .pure (by simp)
        · exact .pure (by simp [Op.references])
      | followedBy | notFollowedBy =>
        by_cases own : ∃ what, body = .foreign what
        · obtain ⟨what, rfl⟩ := own
          rw [expr]
          exact .fail
        · rw [expr]
          · refine .bind (inner _ w) fun code u => .pure ?_
            simp [references_ofLookahead]
          · exact fun what same => own ⟨what, same⟩
      | optional =>
        rw [expr]
        exact .bind (inner _ w) fun code u => .pure (by simp)
      | zeroOrMore =>
        rw [expr]
        refine .bind (inner _ w) fun code u => .pure ?_
        simp [references_ofRepetition allReferences_nil]
      | oneOrMore =>
        rw [expr]
        refine .bind (inner _ w) fun code u => checkMin_accounts ?_ _ _
        simp [references_ofRepetition allReferences_nil]
    | predicate info negative text =>
      rw [expr]
      exact ofPredicate_emits _ _ _ _
    | foreign what =>
      unfold expr
      exact .fail
    | range info min max body delimiter =>
      have element (setting : Setting) (w : Workspace) : Emits w (apart (expr placeOf setting body)) :=
        .apart fun w => ih body (by cases delimiter <;> simp [Expr.children]) setting w
      rw [expr]
      refine .get ?_
      -- With a body that has no code the bound is checked twice.
      have once {next : Lower (List Instr)} (repeats : ∀ v, Emits v next) : Emits w
          (if isCodeless setting.reports body then do
            discard (liftBound (Build.checkMax max (setting.top + 1) w.labels : Except _ (List Instr)))
            next
          else next) := by
        split
        · exact .bind .discard fun _ v => repeats v
        · exact repeats w
      refine once fun v => .bind (element _ v) fun code u => ?_
      refine .liftBound_bind fun checkMax checks => ?_
      cases delimiter with
      | none =>
        simp only [pure_bind]
        refine checkMin_accounts ?_ _ _
        simp [references_ofRepetition (references_checkMax checks.symm)]
      | some separator =>
        simp only [pure_bind]
        have between (setting : Setting) (w : Workspace) :
            Emits w (apart (expr placeOf setting separator)) :=
          .apart fun w => ih separator (by simp [Expr.children]) setting w
        refine .bind (.frame (between _ u) _) fun separatorCode z => checkMin_accounts ?_ _ _
        simp [references_ofRepetition (references_checkMax checks.symm), Op.references]
    | named info name body =>
      rw [expr]
      refine .bind (needCode_accounts _ _ _) fun _ v => ?_
      split
      · exact ih body (by simp [Expr.children]) _ _
      · refine .bind (expectation_accounts _) fun i u => ?_
        refine .bind (.frame (ih body (by simp [Expr.children]) _ u) _) fun code u => .pure ?_
        simp [Op.references]
    | action info text at? body =>
      have inner := ih body (by simp [Expr.children])
      by_cases missing : body = .foreign .nothing
      · subst missing
        rw [expr]
        exact .fail
      · rw [expr]
        · refine .apart fun w => .bind (inner _ w) fun matching v => ?_
          split
          · exact .pure (List.Subset.refl _)
          · split
            · rw [pure_bind]
              exact .pure (by simp)
            · rename_i possible
              refine .bind (function_accounts false text) fun i u => .get (.pure ?_)
              cases verdict : body.verdict with
              | never => exact absurd verdict possible
              | sometimes | always => simp [Build.condition, Verdict.select, Build.call, Op.references]
        · exact missing

end Expressions

section Rules

variable {placeOf : Text → Int} {tables after : Tables}

theorem rule_accounts {r : Rule} {made : Option (List Instr)}
    (lowered : rule placeOf r tables = .ok (made, after)) :
    (tables.Distinct → after.Distinct) ∧ ∀ reference, after.Has reference →
      tables.Has reference ∨ ∃ code, made = some code ∧ reference ∈ allReferences code := by
  unfold rule at lowered
  dsimp only at lowered
  split at lowered
  · cases lowered
    exact ⟨id, fun _ => .inl⟩
  · cases result :
        (expr placeOf ⟨-1, r.reportsFailures != some false, none⟩ r.body).run { tables } with
    | error fault =>
      rw [result] at lowered
      cases lowered
    | ok found =>
      rw [result] at lowered
      obtain ⟨code, w⟩ := found
      cases lowered
      obtain ⟨-, distinct, new⟩ := expr_emits r.body _ _ code w result
      exact ⟨distinct, fun reference has => (new reference has).imp_right fun member =>
        ⟨code, rfl, member⟩⟩

/-- Every entry that lowering rules has added is referred to in the words of one of them. -/
theorem rules_account {rules encoded : List Rule}
    (lowered : Lower.rules placeOf rules tables = (encoded, .ok after)) :
    (tables.Distinct → after.Distinct) ∧ ∀ reference, after.Has reference →
      tables.Has reference ∨ ∃ r ∈ encoded, ∃ code, r.words = some (Instr.encode code) ∧
        reference ∈ allReferences code := by
  induction rules generalizing tables encoded with
  | nil =>
    cases lowered
    exact ⟨id, fun _ => .inl⟩
  | cons r rest ih =>
    rw [Lower.rules] at lowered
    cases result : rule placeOf r tables with
    | error fault => simp [result] at lowered
    | ok found =>
      obtain ⟨made, between⟩ := found
      cases others : Lower.rules placeOf rest between with
      | mk encoded' outcome =>
        simp only [result, others, Prod.mk.injEq] at lowered
        obtain ⟨rfl, rfl⟩ := lowered
        obtain ⟨distinct, new⟩ := rule_accounts result
        obtain ⟨distinct', new'⟩ := ih others
        refine ⟨distinct' ∘ distinct, fun reference has => ?_⟩
        rcases new' reference has with before | ⟨s, member, code, words, inCode⟩
        · rcases new reference before with before | ⟨code, rfl, inCode⟩
          · exact .inl before
          · exact .inr ⟨_, List.mem_cons_self, code, rfl, inCode⟩
        · exact .inr ⟨s, List.mem_cons_of_mem _ member, code, words, inCode⟩

end Rules

end Lower

end PegCompiler
