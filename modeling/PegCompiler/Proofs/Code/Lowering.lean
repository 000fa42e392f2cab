import PegCompiler.Proofs.Code.Lowered
import PegCompiler.Proofs.Compile.Preparation

/-!
Lowering gives the code that `Lowered` describes, and never fails on what passed the checks
(`Lower.expr_makes`). The tables only grow at their ends, so that a place once handed out stays good.
-/

namespace PegCompiler

/-- An expectation that a parse can note. -/
def Expectation.IsKnown : Expectation → Prop
  | unknown _ => False
  | _ => True

/-- The constants are such as a text gives them. -/
structure Tables.Textual (tables : Tables) : Prop where
  classes : ∀ members ∈ tables.classes, members.parts ≠ [] ∧ ∀ part ∈ members.parts, part.IsOrdered
  expectations : ∀ expectation ∈ tables.expectations, expectation.IsKnown

/-- Every table of the first is the beginning of one of the second. -/
structure Tables.Grows (before after : Tables) : Prop where
  literals : before.literals <+: after.literals
  classes : before.classes <+: after.classes
  expectations : before.expectations <+: after.expectations
  functions : before.functions <+: after.functions
  textual : before.Textual → after.Textual

namespace Tables

theorem Grows.refl (tables : Tables) : Grows tables tables :=
  ⟨List.prefix_rfl, List.prefix_rfl, List.prefix_rfl, List.prefix_rfl, id⟩

theorem Grows.trans {a b c : Tables} (first : Grows a b) (second : Grows b c) : Grows a c :=
  ⟨first.literals.trans second.literals, first.classes.trans second.classes,
    first.expectations.trans second.expectations, first.functions.trans second.functions,
    second.textual ∘ first.textual⟩

/-- A place handed out holds the value, and what was there before stays. -/
theorem place_spec {α : Type} [BEq α] [LawfulBEq α] (items : List α) (value : α) :
    items <+: (place items value).2 ∧ (place items value).2[(place items value).1]? = some value := by
  unfold place
  split
  · rename_i i found
    obtain ⟨bound, same, -⟩ := List.findIdx?_eq_some_iff_getElem.mp found
    refine ⟨List.prefix_rfl, ?_⟩
    rw [List.getElem?_eq_getElem bound]
    exact congrArg some (eq_of_beq same)
  · exact ⟨List.prefix_append _ _, by simp⟩

/-- A table only gets the value that is placed in it. -/
theorem forall_mem_place {α : Type} [BEq α] {items : List α} {value : α} {P : α → Prop}
    (each : ∀ a ∈ items, P a) (new : P value) : ∀ a ∈ (place items value).2, P a := by
  unfold place
  split
  · exact each
  · intro a member
    rcases List.mem_append.mp member with old | last
    · exact each a old
    · exact List.mem_singleton.mp last ▸ new

theorem getElem?_of_prefix {α : Type} {before after : List α} (h : before <+: after) {i : Nat} {a : α}
    (found : before[i]? = some a) : after[i]? = some a := by
  obtain ⟨rest, rfl⟩ := h
  rw [List.getElem?_append_left (List.getElem?_eq_some_iff.mp found).1, found]

end Tables

namespace Lower

/-- `lower` succeeds; the tables have only grown, and `holds` of what it gives. -/
def Makes {α : Type} (lower : Lower α) (w : Workspace) (holds : α → Workspace → Prop) : Prop :=
  ∃ a after, lower w = .ok (a, after) ∧ w.tables.Grows after.tables ∧ holds a after

namespace Makes

variable {α β : Type} {w : Workspace} {lower : Lower α} {holds other : α → Workspace → Prop}

theorem pure {a : α} (h : holds a w) : Makes (Pure.pure a) w holds := ⟨a, w, rfl, .refl _, h⟩

theorem bind {next : α → Lower β} {last : β → Workspace → Prop} (first : Makes lower w holds)
    (second : ∀ a v, holds a v →
      Makes (next a) v fun b u => v.tables.Grows u.tables → last b u) :
    Makes (lower >>= next) w last := by
  obtain ⟨a, v, found, grows, h⟩ := first
  obtain ⟨b, u, found', grows', h'⟩ := second a v h
  refine ⟨b, u, ?_, grows.trans grows', h' grows'⟩
  change (lower w).bind (fun (a, v) => next a v) = _
  rw [found]
  exact found'

theorem mono (h : Makes lower w holds) (imp : ∀ a v, holds a v → other a v) : Makes lower w other := by
  obtain ⟨a, v, found, grows, h⟩ := h
  exact ⟨a, v, found, grows, imp a v h⟩

theorem map {f : α → β} {last : β → Workspace → Prop}
    (h : Makes lower w fun a v => last (f a) v) : Makes (f <$> lower) w last := by
  rw [← bind_pure_comp]
  exact h.bind fun a v h => .pure fun _ => h

theorem get {next : Workspace → Lower β} {last : β → Workspace → Prop}
    (h : Makes (next w) w last) : Makes (MonadState.get >>= next) w last := h

theorem set {u : Workspace} {next : PUnit → Lower β} {last : β → Workspace → Prop}
    (h : Makes (next ⟨⟩) u last) (same : u.tables = w.tables) :
    Makes (MonadState.set u >>= next) w last := by
  obtain ⟨b, v, found, grows, h⟩ := h
  exact ⟨b, v, found, same ▸ grows, h⟩

theorem modify {change : Workspace → Workspace} {b : β} {last : β → Workspace → Prop}
    (same : (change w).tables = w.tables) (h : last b (change w)) :
    Makes (do MonadState.modifyGet fun w => (PUnit.unit, change w); return b) w last :=
  ⟨b, change w, rfl, same ▸ .refl _, h⟩

/-- What is lowered apart leaves labels and auto labels alone. -/
theorem apart (h : Makes lower { w with autos := [] } holds) :
    Makes (Lower.apart lower) w fun a v =>
      v.labels = w.labels ∧ v.autos = w.autos ∧ ∃ u, u.tables = v.tables ∧ holds a u := by
  obtain ⟨a, u, found, grows, h⟩ := h
  refine ⟨a, { u with labels := w.labels, autos := w.autos }, ?_, grows, rfl, rfl, u, rfl, h⟩
  change (lower { w with autos := [] }).bind _ = _
  rw [found]
  rfl

end Makes

variable {w : Workspace} {t : Target}

theorem literal_makes (value : Text) : Makes (literal value) w fun i v =>
    v.labels = w.labels ∧ v.autos = w.autos ∧ ∃ n : Nat, i = n ∧
      ∀ t : Target, v.tables.Grows t.tables → t.tables.literals[n]? = some value := by
  obtain ⟨grows, found⟩ := Tables.place_spec w.tables.literals value
  refine ⟨_, _, rfl, ⟨grows, List.prefix_rfl, List.prefix_rfl, List.prefix_rfl,
    fun h => ⟨h.classes, h.expectations⟩⟩, rfl, rfl, _, rfl,
    fun t final => Tables.getElem?_of_prefix final.literals found⟩

theorem charClass_makes {members : CharClass} (nonempty : members.parts ≠ [])
    (ordered : ∀ part ∈ members.parts, part.IsOrdered) : Makes (charClass members) w fun i v =>
    v.labels = w.labels ∧ v.autos = w.autos ∧ ∃ n : Nat, i = n ∧
      ∀ t : Target, v.tables.Grows t.tables → t.tables.classes[n]? = some members := by
  obtain ⟨grows, found⟩ := Tables.place_spec w.tables.classes members
  refine ⟨_, _, rfl, ⟨List.prefix_rfl, grows, List.prefix_rfl, List.prefix_rfl,
    fun h => ⟨Tables.forall_mem_place h.classes ⟨nonempty, ordered⟩, h.expectations⟩⟩, rfl, rfl, _, rfl,
    fun t final => Tables.getElem?_of_prefix final.classes found⟩

theorem expectation_makes (entry : Expectation) (known : entry.IsKnown) :
    Makes (expectation entry) w fun i v => v.labels = w.labels ∧ v.autos = w.autos ∧ ∃ n : Nat, i = n ∧
      ∀ t : Target, v.tables.Grows t.tables → t.tables.expectations[n]? = some entry := by
  obtain ⟨grows, found⟩ := Tables.place_spec w.tables.expectations entry
  refine ⟨_, _, rfl, ⟨List.prefix_rfl, List.prefix_rfl, grows, List.prefix_rfl,
    fun h => ⟨h.classes, Tables.forall_mem_place h.expectations known⟩⟩, rfl, rfl, _, rfl,
    fun t final => Tables.getElem?_of_prefix final.expectations found⟩

theorem function_makes (predicate : Bool) (body : Text) : Makes (function predicate body) w fun i v =>
    v.labels = w.labels ∧ v.autos = w.autos ∧ ∃ n : Nat, i = n ∧ ∀ t : Target,
      v.tables.Grows t.tables →
        t.tables.functions[n]? = some ⟨predicate, w.labels.map Prod.fst, body⟩ := by
  obtain ⟨grows, found⟩ := Tables.place_spec w.tables.functions
    ⟨predicate, w.labels.map Prod.fst, body⟩
  refine ⟨_, _, rfl, ⟨List.prefix_rfl, List.prefix_rfl, List.prefix_rfl, grows,
    fun h => ⟨h.classes, h.expectations⟩⟩, rfl, rfl, _, rfl,
    fun t final => Tables.getElem?_of_prefix final.functions found⟩

theorem expect_makes (setting : Setting) (entry : Expectation) (known : entry.IsKnown) :
    Makes (expect setting entry) w fun noted v => v.labels = w.labels ∧ v.autos = w.autos ∧
      ∀ t : Target, v.tables.Grows t.tables → Noted t setting entry noted := by
  unfold expect Noted
  cases setting.reports with
  | false => exact .pure ⟨rfl, rfl, fun t _ => rfl⟩
  | true =>
    refine .bind (expectation_makes entry known) fun i v h => ?_
    obtain ⟨labels, autos, n, rfl, found⟩ := h
    exact .pure fun _ => ⟨labels, autos, fun t final => ⟨n, found t final, rfl⟩⟩

@[simp] theorem liftBound_ok {α : Type} (a : α) : liftBound (.ok a) = pure a := rfl

/-- What a text says always has code. -/
theorem isCodeless_of_textual {reports : Bool} {e : Expr} (textual : e.Textual) :
    isCodeless reports e = false := by
  induction e using Expr.byChildren with
  | node e ih =>
    cases e with
    | labeled info label at? auto body =>
      exact ih body (by simp [Expr.children]) (textual.child (by simp [Expr.children]))
    | unary info operator body =>
      cases operator with
      | group => exact ih body (by simp [Expr.children]) (textual.child (by simp [Expr.children]))
      | _ => rfl
    | named | foreign => exact absurd textual.here id
    | _ => rfl

theorem needCode_of_textual {setting : Setting} {e : Expr} (textual : e.Textual) :
    needCode setting e = pure ⟨⟩ := by
  simp [needCode, isCodeless_of_textual textual]

/-- A leaf that refers to a table and may record an expectation. -/
theorem leaf_makes {lookup : Lower Int} {refers : Target → Nat → Prop} (setting : Setting)
    (entry : Expectation) (known : entry.IsKnown) (op : Int → Op)
    (finds : Makes lookup w fun i v => v.labels = w.labels ∧ v.autos = w.autos ∧ ∃ n : Nat, i = n ∧
      ∀ t : Target, v.tables.Grows t.tables → refers t n) :
    Makes (do
        let i ← lookup
        let noted ← expect setting entry
        return noted ++ Build.ops [op i]) w
      fun code v => v.labels = w.labels ∧ v.autos = w.autos ∧ ∀ t : Target,
        v.tables.Grows t.tables → ∃ (noted : List Instr) (n : Nat), Noted t setting entry noted ∧
          refers t n ∧ code = noted ++ Build.ops [op n] := by
  refine .bind finds fun i v h => ?_
  obtain ⟨labels, autos, n, rfl, found⟩ := h
  refine .bind (expect_makes setting entry known) fun noted u h => .pure fun _ grows => ?_
  obtain ⟨labels', autos', notes⟩ := h
  exact ⟨labels'.trans labels, autos'.trans autos, fun t final =>
    ⟨noted, n, notes t final, found t (grows.trans final), rfl⟩⟩

/-- A leaf that needs no table. -/
theorem noted_makes (setting : Setting) (entry : Expectation) (known : entry.IsKnown)
    (code : List Instr) :
    Makes (do
        let noted ← expect setting entry
        return noted ++ code) w
      fun found v => v.labels = w.labels ∧ v.autos = w.autos ∧ ∀ t : Target,
        v.tables.Grows t.tables → ∃ noted, Noted t setting entry noted ∧ found = noted ++ code := by
  refine .bind (expect_makes setting entry known) fun noted u h => .pure fun _ => ?_
  obtain ⟨labels, autos, notes⟩ := h
  exact ⟨labels, autos, fun t final => ⟨noted, notes t final, rfl⟩⟩

/-- What lowering an expression gives: its code, and the labels behind it. Those of a sequence are
its own. -/
structure Yield (placeOf : Text → Int) (setting : Setting) (e : Expr) (w : Workspace)
    (code : List Instr) (v : Workspace) : Prop where
  behind : e.isRow = false → v.labels = e.define (setting.top + 1) w.labels ∧
    v.autos = e.collect (setting.top + 1) w.autos
  lowered : ∀ tables, v.tables.Grows tables → Lowered ⟨placeOf, tables⟩ setting w.labels e code

section Expressions

variable {placeOf : Text → Int} {g : Grammar}

/-- Labels do not change behind what is neither a sequence nor labeled. -/
theorem Yield.of_plain {setting : Setting} {e : Expr} {code : List Instr} {v : Workspace}
    (plain : e.isLabeled = false) (labels : v.labels = w.labels) (autos : v.autos = w.autos)
    (lowered : ∀ tables, v.tables.Grows tables → Lowered ⟨placeOf, tables⟩ setting w.labels e code) :
    Yield placeOf setting e w code v := by
  refine ⟨fun _ => ?_, lowered⟩
  cases e with
  | labeled => cases plain
  | _ => exact ⟨labels, autos⟩

theorem mem_define {name other : Text} {place : Int} {labels : Environment} :
    other ∈ (define name place labels).map Prod.fst ↔ other = name ∨ other ∈ labels.map Prod.fst := by
  induction labels with
  | nil => simp [define]
  | cons label rest ih =>
    by_cases same : label.1 = name
    · simp [define, same]
    · simp only [define, same, if_false, List.map_cons, List.mem_cons, ih]
      tauto

/-- Behind an element its label is in scope as well. -/
theorem scope_define {e : Expr} {place : Int} {labels : Environment} {scope : List Text}
    (known : scope ⊆ labels.map Prod.fst) :
    e.label?.toList ++ scope ⊆ (e.define place labels).map Prod.fst := by
  unfold Expr.define
  cases e.label? with
  | none => simpa using known
  | some name =>
    simp only [Option.toList_some, List.singleton_append, List.cons_subset, mem_define, true_or,
      true_and]
    exact fun other member => mem_define.mpr (.inr (known member))

section Bounds

variable {scope : List Text} {labels : Environment} (top : Int)
  (known : scope ⊆ labels.map Prod.fst)

include known in
theorem distance_ok {name : Text} (inScope : name ∈ scope) :
    ∃ place, List.lookup name labels = some place ∧
      Build.distance labels top (.text name) = .ok (top - place) := by
  have member := known inScope
  have found : (List.lookup name labels).isSome := by
    clear known
    induction labels with
    | nil => simp at member
    | cons label rest ih =>
      simp only [List.map_cons, List.mem_cons] at member
      by_cases same : name = label.1
      · simp [same]
      · rw [List.lookup_cons, beq_eq_false_iff_ne.mpr same]
        exact ih (member.resolve_left same)
  obtain ⟨place, at?⟩ := Option.isSome_iff_exists.mp found
  exact ⟨place, at?, by simp [Build.distance, Limit.name?, at?]⟩

include known in
theorem checkMax_ok {max : Boundary} (greatest : max.IsGreatest) (inScope : max.InScope scope) :
    ∃ code : List Instr, Build.checkMax max top labels = .ok code := by
  cases max with
  | constant limit =>
    cases limit with
    | absent | number => exact ⟨_, rfl⟩
    | text => exact absurd greatest id
  | label limit =>
    cases limit with
    | absent | number => exact absurd greatest id
    | text name =>
      obtain ⟨place, -, found⟩ := distance_ok top known (show name ∈ scope from inScope)
      exact ⟨_, by simp [Build.checkMax, found, bind, Except.bind]; rfl⟩

include known in
theorem checkMin_ok {min : Boundary} (least : min.IsLeast) (inScope : min.InScope scope)
    (body : List Instr) : ∃ code : List Instr, Build.checkMin body min top labels = .ok code := by
  cases min with
  | constant limit =>
    cases limit with
    | number => exact ⟨_, rfl⟩
    | absent | text => exact absurd least id
  | label limit =>
    cases limit with
    | absent | number => exact absurd least id
    | text name =>
      obtain ⟨place, -, found⟩ := distance_ok top known (show name ∈ scope from inScope)
      exact ⟨_, by simp [Build.checkMin, found, bind, Except.bind]; rfl⟩

end Bounds

/-- What `expr_makes` says of one expression. -/
def Succeeds (placeOf : Text → Int) (e : Expr) : Prop :=
  ∀ scope, e.Scoped scope → ∀ (setting : Setting) w, scope ⊆ w.labels.map Prod.fst →
    (e.isRow → w.autos = []) → Makes (expr placeOf setting e) w (Yield placeOf setting e w)

variable (placeOf) in
theorem ofEnding_makes (start setting : Setting) (count : Nat) (finish : start.finish = setting.finish)
    (top : start.top + count = setting.top) :
    Makes (ofEnding start count) w fun code v => ∀ tables, v.tables.Grows tables →
      Finishing ⟨placeOf, tables⟩ setting w.labels w.autos count code := by
  unfold ofEnding Finishing
  rw [finish, top]
  cases setting.finish with
  | some body =>
    refine .bind (function_makes false body) fun i v h => ?_
    obtain ⟨labels, -, n, rfl, found⟩ := h
    refine .get (.pure fun grows tables final => ?_)
    rw [labels]
    exact ⟨_, ⟨n, found ⟨placeOf, tables⟩ final, rfl⟩, rfl⟩
  | none =>
    refine .get ?_
    match w.autos with
    | [] => exact .pure fun tables final => rfl
    | [place] => exact .pure fun tables final => rfl
    | first :: second :: rest => exact .pure fun tables final => rfl

/-- A sequence with its end. The elements are lowered for a setting whose top result moves; the end
goes by the one where the sequence began. -/
theorem row_makes (es : List Expr) (each : ∀ e ∈ es, Succeeds placeOf e)
    (plain : ∀ e ∈ es, e.isRow = false) (start setting : Setting) (count position : Nat)
    (scope : List Text) (bounds : Expr.ScopedInOrder scope es) (w : Workspace)
    (known : scope ⊆ w.labels.map Prod.fst) (finish : start.finish = setting.finish)
    (top : start.top + count = setting.top + es.length) (length : count + 1 = position + es.length) :
    Makes (do
        let code ← sequence placeOf setting.inner position es
        let ending ← ofEnding start count
        return code ++ ending) w fun code v => ∀ tables, v.tables.Grows tables →
          LoweredRow ⟨placeOf, tables⟩ setting w.labels w.autos position es code := by
  induction es generalizing setting position scope w with
  | nil =>
    simp only [List.length_nil, Nat.add_zero, Int.natCast_zero, Int.add_zero] at top length
    rw [sequence, pure_bind]
    refine .bind (ofEnding_makes placeOf start setting count finish top)
      fun ending v h => .pure fun _ tables final => ?_
    simpa [LoweredRow, show position - 1 = count by omega] using h tables final
  | cons e rest ih =>
    simp only [List.length_cons, Int.natCast_add, Int.natCast_one] at top length
    have regroup : (do
        let code ← sequence placeOf setting.inner position (e :: rest)
        let ending ← ofEnding start count
        return code ++ ending : Lower (List Instr)) = (do
        let code ← expr placeOf setting.inner e
        (code ++ leaving e.verdict position ++ ·) <$> (do
          let others ← sequence placeOf setting.next.inner (position + 1) rest
          let ending ← ofEnding start count
          return others ++ ending)) := by
      simp only [sequence, bind_assoc, pure_bind, map_bind, map_pure, List.append_assoc]
      rfl
    rw [regroup]
    refine .bind (each e (by simp) scope bounds.1 setting.inner w known
      fun row => absurd row (by simp [plain e])) fun first v made => .map ?_
    obtain ⟨labels, autos⟩ := made.behind (plain e (by simp))
    have behind : e.label?.toList ++ scope ⊆ v.labels.map Prod.fst := labels ▸ scope_define known
    refine (ih (fun e he => each e (by simp [he])) (fun e he => plain e (by simp [he])) setting.next
      (position + 1) _ bounds.2 v behind finish ?_ (by omega)).mono fun others u h grows tables final => ?_
    · change start.top + count = setting.top + 1 + rest.length
      omega
    · have others := h tables final
      rw [labels, autos] at others
      exact ⟨first, _, made.lowered tables (grows.trans final), others, rfl⟩

theorem reachable_cons {e : Expr} (own : ∀ what, e ≠ .foreign what) (rest : List Expr) :
    reachable (e :: rest) = match e.verdict with
      | .never => return false :: (← reachable rest)
      | .sometimes => return true :: (← reachable rest)
      | .always => .ok [true] := by
  cases e with
  | foreign what => exact absurd rfl (own what)
  | _ => rfl

theorem choices_make (es : List Expr) (each : ∀ e ∈ es, Succeeds placeOf e)
    (own : ∀ e ∈ es, ∀ what, e ≠ .foreign what) (setting : Setting) (scope : List Text)
    (bounds : ∀ e ∈ es, e.Scoped scope) (w : Workspace)
    (known : scope ⊆ w.labels.map Prod.fst) :
    ∃ kept, reachable es = .ok kept ∧ ((∃ e ∈ es, e.verdict ≠ .never) → kept.any id) ∧
      Makes (choices placeOf setting.inner kept es) w fun codes v =>
        v.labels = w.labels ∧ v.autos = w.autos ∧ ∀ tables, v.tables.Grows tables →
          LoweredChoices ⟨placeOf, tables⟩ setting.inner w.labels es codes ∧
          (kept.any id → codes ≠ []) := by
  induction es generalizing w with
  | nil => exact ⟨[], rfl, by simp, .pure ⟨rfl, rfl, fun tables _ => ⟨rfl, by simp⟩⟩⟩
  | cons e rest ih =>
    have ih := fun w known => ih (fun e he => each e (by simp [he])) (fun e he => own e (by simp [he]))
      (fun e he => bounds e (by simp [he])) w known
    have here := reachable_cons (own e (by simp)) rest
    have first := (each e (by simp) scope (bounds e (by simp)) setting.inner { w with autos := [] }
      known fun _ => rfl).apart
    rw [here]
    cases verdict : e.verdict with
    | never =>
      obtain ⟨kept, found, some, made⟩ := ih w known
      refine ⟨false :: kept, by simp [found], by simpa [verdict] using some, ?_⟩
      rw [choices]
      refine made.mono fun codes v h => ⟨h.1, h.2.1, fun tables final => ?_⟩
      simpa [LoweredChoices, verdict] using h.2.2 tables final
    | always =>
      refine ⟨[true], rfl, by simp, ?_⟩
      rw [choices]
      refine .bind first fun code v h => ?_
      obtain ⟨labels, autos, u, same, made⟩ := h
      rw [show choices placeOf setting.inner [] rest = pure [] by cases rest <;> rfl, pure_bind]
      refine .pure fun grows => ⟨labels, autos, fun tables final => ⟨?_, by simp⟩⟩
      simp only [LoweredChoices, verdict]
      exact ⟨code, made.lowered tables (same ▸ final), rfl⟩
    | sometimes =>
      obtain ⟨kept, found, -, -⟩ := ih w known
      refine ⟨true :: kept, by simp [found], by simp, ?_⟩
      rw [choices]
      refine .bind first fun code v h => ?_
      obtain ⟨labels, autos, u, same, made⟩ := h
      obtain ⟨kept', found', -, others⟩ := ih v (labels ▸ known)
      obtain rfl : kept' = kept := by
        rw [found] at found'
        cases found'
        rfl
      refine .bind others fun codes z h => .pure fun grows grows' => ?_
      obtain ⟨labels', autos', others⟩ := h
      refine ⟨labels'.trans labels, autos'.trans autos, fun tables final => ⟨?_, by simp⟩⟩
      simp only [LoweredChoices, verdict]
      refine ⟨code, codes, made.lowered tables (same ▸ grows'.trans final), ?_, rfl⟩
      exact labels ▸ (others tables final).1

/-- Lowering succeeds on what passed the checks. -/
theorem expr_makes (e : Expr) : g.Sound e → Succeeds placeOf e := by
  induction e using Expr.byChildren with
  | node e ih =>
    intro sound scope bounds setting w known row
    have each : ∀ c ∈ e.children, Succeeds placeOf c := fun c hc => ih c hc (sound.child hc)
    have verdict := sound.verdict
    cases e with
    | literal info value ignoreCase =>
      have verdict : info.verdict.getD .sometimes = _ := verdict (by simp)
      rw [expr, verdict, ofLiteral]
      by_cases empty : value = []
      · subst empty
        exact .pure (.of_plain rfl rfl rfl fun tables _ => by simp [Lowered])
      · have nonempty : value.isEmpty = false := by simpa using empty
        simp only [Expr.conclusion, nonempty, Bool.false_eq_true, if_false]
        cases ignoreCase with
        | true =>
          refine (leaf_makes setting (.literal value _) trivial .matchLowercase
            (literal_makes _)).mono fun code v h => ?_
          refine .of_plain rfl h.1 h.2.1 fun tables final => ?_
          simpa [Lowered, empty] using h.2.2 ⟨placeOf, tables⟩ final
        | false =>
          refine (leaf_makes setting (.literal value _) trivial .matchLiteral
            (literal_makes _)).mono fun code v h => ?_
          refine .of_plain rfl h.1 h.2.1 fun tables final => ?_
          simpa [Lowered, empty] using h.2.2 ⟨placeOf, tables⟩ final
    | charClass info members =>
      have verdict : info.verdict.getD .sometimes = _ := verdict (by simp)
      rw [expr, verdict]
      unfold ofCharClass
      by_cases empty : members.parts = []
      · simp only [Expr.conclusion, empty, List.isEmpty_nil, if_true, pure_bind]
        refine (noted_makes setting (.charClass members) trivial _).mono fun code v h => ?_
        refine .of_plain rfl h.1 h.2.1 fun tables final => ?_
        simpa [Lowered, empty] using h.2.2 ⟨placeOf, tables⟩ final
      · have nonempty : members.parts.isEmpty = false := by simpa using empty
        simp only [Expr.conclusion, nonempty, Bool.false_eq_true, if_false, pure_bind]
        refine (leaf_makes setting (.charClass members) trivial .matchClass
          (charClass_makes empty sound.textual.here)).mono fun code v h => ?_
        refine .of_plain rfl h.1 h.2.1 fun tables final => ?_
        obtain ⟨noted, n, notes, found, rfl⟩ := h.2.2 ⟨placeOf, tables⟩ final
        simp only [Lowered, empty, if_false]
        exact ⟨noted, notes, n, found, rfl⟩
    | any info =>
      have verdict : info.verdict.getD .sometimes = _ := verdict (by simp)
      rw [expr, verdict]
      unfold ofAny
      refine (noted_makes setting .any trivial _).mono fun code v h => ?_
      exact .of_plain rfl h.1 h.2.1 fun tables final => h.2.2 ⟨placeOf, tables⟩ final
    | ruleRef info name =>
      rw [expr]
      exact .pure (.of_plain rfl rfl rfl fun tables _ => rfl)
    | sequence info es =>
      obtain ⟨nonempty, plain⟩ := sound.textual.here
      rw [expr, if_neg (by simpa using nonempty)]
      have made := row_makes es each plain setting setting es.length 1 scope bounds w known rfl rfl
        (by omega)
      rw [row rfl] at made
      have regroup : (do
          let code ← sequence placeOf setting.inner 1 es
          let ending ← ofEnding setting es.length
          return Build.ops [.pushPosition] ++ Assembly.loop (Assembly.head (List Instr) false)
            (code ++ ending) ++ Build.ops [.popPosition] : Lower (List Instr)) =
          (fun body => Build.ops [.pushPosition] ++ Assembly.loop
            (Assembly.head (List Instr) false) body ++ Build.ops [.popPosition]) <$> (do
          let code ← sequence placeOf setting.inner 1 es
          let ending ← ofEnding setting es.length
          return code ++ ending) := by
        simp only [map_bind, map_pure]
      change Makes (do
          let code ← sequence placeOf setting.inner 1 es
          let ending ← ofEnding setting es.length
          return Build.ops [.pushPosition] ++ Assembly.loop (Assembly.head (List Instr) false)
            (code ++ ending) ++ Build.ops [.popPosition]) w _
      rw [regroup]
      refine .map (made.mono fun body v h => ⟨(fun never => by cases never), fun tables final => ?_⟩)
      exact ⟨body, h tables final, rfl⟩
    | choice info es =>
      have verdict : info.verdict.getD .sometimes = _ := verdict (by simp)
      have nonempty : es ≠ [] := sound.textual.here
      rw [expr]
      by_cases never : info.verdict = some .never
      · rw [if_pos never]
        refine .pure (.of_plain rfl rfl rfl fun tables _ => ?_)
        simp [Lowered, never]
      · rw [if_neg never]
        have own : ∀ e ∈ es, ∀ what, e ≠ .foreign what := by
          rintro e he what rfl
          exact absurd (sound.child he).textual.here id
        obtain ⟨kept, found, keeps, made⟩ := choices_make es each own setting scope
          (Expr.scopedApart_iff.mp bounds) w known
        have possible : ∃ e ∈ es, e.verdict ≠ .never := by
          refine Decidable.byContradiction fun none => never ?_
          simp only [not_exists, not_and, not_not] at none
          have judged : info.verdict = some _ := sound.judged.here
          rw [judged]
          exact congrArg Option.some (Verdict.apart_of_never (by simpa using nonempty) (by simpa using none))
        simp only [found, keeps possible, if_true]
        refine .bind made fun codes v h => .pure fun _ => ?_
        refine .of_plain rfl h.1 h.2.1 fun tables final => ?_
        obtain ⟨lowered, nonempty⟩ := h.2.2 tables final
        simp only [Lowered, never, if_false]
        exact ⟨codes, lowered, nonempty (keeps possible), rfl⟩
    | labeled info label at? auto body =>
      have below : body ∈ (Expr.labeled info label at? auto body).children := by simp [Expr.children]
      obtain ⟨notRow, notLabeled⟩ := sound.textual.here
      rw [expr, needCode_of_textual (sound.child below).textual, pure_bind]
      refine .get (.set ?_ rfl)
      refine .bind (each body below scope bounds setting.inner { w with autos := [] } known
        fun _ => rfl) fun code v made => ?_
      refine .modify rfl fun grows => ⟨fun _ => ⟨?_, ?_⟩, fun tables final => ?_⟩
      · cases label with
        | some name => rfl
        | none =>
          have same := (made.behind notRow).1
          cases body with
          | labeled => cases notLabeled
          | _ => exact same
      · cases auto <;> rfl
      · exact made.lowered tables final
    | unary info operator body =>
      have verdict : info.verdict.getD .sometimes = _ := verdict (by simp)
      have below : body ∈ (Expr.unary info operator body).children := by simp [Expr.children]
      have textual := (sound.child below).textual
      have inner (setting : Setting) := (each body below scope bounds setting
        { w with autos := [] } known fun _ => rfl).apart
      cases operator with
      | group =>
        rw [expr]
        simp only [needCode_of_textual textual, pure_bind]
        refine (inner setting.inner).mono fun code v h => ?_
        obtain ⟨labels, autos, u, same, made⟩ := h
        exact .of_plain rfl labels autos fun tables final => made.lowered tables (same ▸ final)
      | text =>
        rw [expr]
        simp only [needCode_of_textual textual, pure_bind, verdict]
        refine .bind (inner setting.inner) fun code v h => ?_
        obtain ⟨labels, autos, u, same, made⟩ := h
        have conclusion : (Expr.unary info .text body).conclusion = body.verdict := rfl
        by_cases never : body.verdict = .never
        · rw [conclusion, if_pos never]
          refine .pure fun grows => .of_plain rfl labels autos fun tables final => ?_
          refine ⟨code, made.lowered tables (same ▸ final), ?_⟩
          simp [never, Build.condition, Verdict.select, Assembly.nothing]
        · rw [conclusion, if_neg never]
          refine .pure fun grows => .of_plain rfl labels autos fun tables final => ?_
          exact ⟨code, made.lowered tables (same ▸ final), by rw [if_neg never]⟩
      | followedBy =>
        rw [expr]
        · refine .bind (inner setting.inner) fun code v h => .pure fun grows => ?_
          obtain ⟨labels, autos, u, same, made⟩ := h
          refine .of_plain rfl labels autos fun tables final => ?_
          exact ⟨code, made.lowered tables (same ▸ final), rfl⟩
        · rintro what rfl
          exact absurd textual.here id
      | notFollowedBy =>
        rw [expr]
        · refine .bind (inner setting.inner) fun code v h => .pure fun grows => ?_
          obtain ⟨labels, autos, u, same, made⟩ := h
          refine .of_plain rfl labels autos fun tables final => ?_
          exact ⟨code, made.lowered tables (same ▸ final), rfl⟩
        · rintro what rfl
          exact absurd textual.here id
      | optional =>
        rw [expr]
        refine .bind (inner setting.inner) fun code v h => .pure fun grows => ?_
        obtain ⟨labels, autos, u, same, made⟩ := h
        refine .of_plain rfl labels autos fun tables final => ?_
        exact ⟨code, made.lowered tables (same ▸ final), rfl⟩
      | zeroOrMore =>
        rw [expr]
        refine .bind (inner setting.next.inner) fun code v h => .pure fun grows => ?_
        obtain ⟨labels, autos, u, same, made⟩ := h
        refine .of_plain rfl labels autos fun tables final => ?_
        exact ⟨code, made.lowered tables (same ▸ final), rfl⟩
      | oneOrMore =>
        rw [expr]
        refine .bind (inner setting.next.inner) fun code v h => ?_
        obtain ⟨labels, autos, u, same, made⟩ := h
        refine .get (.pure fun grows => ?_)
        refine .of_plain rfl labels autos fun tables final => ?_
        exact ⟨code, made.lowered tables (same ▸ final), rfl⟩
    | range info min max body delimiter =>
      obtain ⟨least, greatest, ordered⟩ := sound.textual.here
      have below : body ∈ (Expr.range info min max body delimiter).children := by
        cases delimiter <;> simp [Expr.children]
      have textual := (sound.child below).textual
      have element (inScope : body.Scoped scope) := (each body below scope inScope setting.next.inner
        { w with autos := [] } known fun _ => rfl).apart
      cases delimiter with
      | none =>
        obtain ⟨minScope, maxScope, bodyScope, -⟩ := bounds
        obtain ⟨checkMax, checks⟩ := checkMax_ok (setting.top + 1) known greatest maxScope
        rw [expr]
        refine .get ?_
        simp only [isCodeless_of_textual textual, Bool.false_eq_true, if_false, checks, pure_bind]
        refine .bind (element bodyScope) fun code v h => ?_
        obtain ⟨labels, autos, u, same, made⟩ := h
        obtain ⟨collected, collects⟩ := checkMin_ok (setting.top + 1) known least minScope
          (Build.ops [.push .emptyList] ++ ofRepetition body.verdict code checkMax max none)
        simp only [liftBound_ok, pure_bind]
        refine .get ?_
        rw [labels, collects]
        refine .pure fun grows => .of_plain rfl labels autos fun tables final => ?_
        exact ⟨code, checkMax, made.lowered tables (same ▸ final), checks.symm, collects.symm⟩
      | some separator =>
        obtain ⟨minScope, maxScope, bodyScope, delimiterScope⟩ := bounds
        obtain ⟨checkMax, checks⟩ := checkMax_ok (setting.top + 1) known greatest maxScope
        rw [expr]
        refine .get ?_
        simp only [isCodeless_of_textual textual, Bool.false_eq_true, if_false, checks, pure_bind]
        refine .bind (element bodyScope) fun code v h => ?_
        obtain ⟨labels, autos, u, same, made⟩ := h
        simp only [liftBound_ok, pure_bind]
        refine .bind (each separator (by simp [Expr.children]) scope delimiterScope
          setting.next.inner { v with autos := [] } (labels ▸ known) fun _ => rfl).apart
          fun between z h => ?_
        obtain ⟨labels', autos', u', same', made'⟩ := h
        obtain ⟨collected, collects⟩ := checkMin_ok (setting.top + 1) known least minScope
          (Build.ops [.push .emptyList] ++
            ofRepetition body.verdict code checkMax max (some (separator.verdict, between)))
        refine .get ?_
        rw [labels', labels, collects]
        refine .pure fun grows grows' => .of_plain rfl (labels'.trans labels) (autos'.trans autos)
          fun tables final => ?_
        have before := made.lowered tables (same ▸ grows'.trans final)
        have behind := made'.lowered tables (same' ▸ final)
        exact ⟨code, checkMax, between, before, checks.symm, labels ▸ behind, collects.symm⟩
    | named info name body => exact absurd sound.textual.here id
    | action info text at? body =>
      have below : body ∈ (Expr.action info text at? body).children := by simp [Expr.children]
      have textual := (sound.child below).textual
      have inner := each body below scope bounds { setting with finish := some text }
        { w with autos := [] } known fun _ => rfl
      rw [expr]
      · refine (@Makes.apart _ w _ (fun code v => ∀ tables, v.tables.Grows tables →
          Lowered ⟨placeOf, tables⟩ setting w.labels (.action info text at? body) code) ?_).mono
            fun code v h => ?_
        · refine .bind inner fun matching v made => ?_
          split
          · rename_i isSequence
            refine .pure fun grows tables final => ?_
            exact ⟨matching, made.lowered tables final, by rw [if_pos isSequence]⟩
          · rename_i notSequence
            have notRow : body.isRow = false := by
              cases body with
              | sequence info es =>
                have nonempty : es ≠ [] := textual.here.1
                exact absurd notSequence (by simpa [Expr.isSequence] using nonempty)
              | _ => rfl
            have labels := (made.behind notRow).1
            split
            · rename_i never
              rw [pure_bind]
              refine .pure fun grows tables final => ?_
              refine ⟨matching, made.lowered tables final, ?_⟩
              rw [if_neg notSequence]
              exact ⟨[], by rw [never], fun notNever => absurd never notNever⟩
            · refine .bind (function_makes false text) fun i z h => .get (.pure fun grows grows' => ?_)
              obtain ⟨labels', -, n, rfl, found⟩ := h
              refine fun tables final => ⟨matching, made.lowered tables (grows'.trans final), ?_⟩
              rw [if_neg notSequence, labels', labels]
              refine ⟨_, rfl, fun _ => ⟨_, rfl, n, ?_, rfl⟩⟩
              simpa [labels] using found ⟨placeOf, tables⟩ final
        · obtain ⟨labels, autos, u, same, lowered⟩ := h
          exact .of_plain rfl labels autos fun tables final => lowered tables (same ▸ final)
      · rintro rfl
        exact absurd textual.here id
    | predicate info negative code =>
      have verdict : info.verdict.getD .sometimes = _ := verdict (by simp)
      rw [expr, verdict, ofPredicate]
      refine .bind (function_makes true code) fun i v h => .get (.pure fun grows => ?_)
      obtain ⟨labels, autos, n, rfl, found⟩ := h
      refine .of_plain rfl labels autos fun tables final => ?_
      refine ⟨_, ⟨n, found ⟨placeOf, tables⟩ final, rfl⟩, ?_⟩
      rw [labels]
      cases negative <;> rfl
    | foreign what => exact absurd sound.textual.here id

/-- The same for the body of a rule. -/
theorem body_makes {e : Expr} (body : g.SoundBody e) (bounds : e.Scoped []) (setting : Setting) :
    Makes (expr placeOf setting e) { w with labels := [], autos := [] } fun code v =>
      ∀ tables, v.tables.Grows tables → Lowered ⟨placeOf, tables⟩ setting [] e code := by
  cases body with
  | plain sound =>
    exact (expr_makes e sound [] bounds setting _ (by simp) fun _ => rfl).mono
      fun code v made => made.lowered
  | @displayed info name e verdict sound =>
    have inner (setting : Setting) (w : Workspace) (plain : w.labels = [] ∧ w.autos = []) :=
      show Makes (expr placeOf setting e) w _ from
        expr_makes e sound [] bounds setting w (by simp) fun _ => plain.2
    rw [expr, needCode_of_textual sound.textual, pure_bind]
    cases reports : setting.reports with
    | false =>
      simp only [Bool.not_false, if_true]
      refine (inner setting _ ⟨rfl, rfl⟩).mono fun code v made tables final => ?_
      rw [Lowered, reports]
      exact made.lowered tables final
    | true =>
      simp only [Bool.not_true, Bool.false_eq_true, if_false]
      refine .bind (expectation_makes (.rule name) trivial) fun i v h => ?_
      obtain ⟨labels, autos, n, rfl, found⟩ := h
      refine .bind (inner { setting with reports := false } v ⟨labels, autos⟩)
        fun code u made => .pure fun grows grows' tables final => ?_
      rw [Lowered, if_pos reports]
      have lowered := made.lowered tables final
      rw [labels] at lowered
      exact ⟨n, code, found ⟨placeOf, tables⟩ (grows'.trans final), lowered, rfl⟩

theorem isCodeless_of_body {e : Expr} (body : g.SoundBody e) (reports : Bool) :
    isCodeless reports e = false := by
  cases body with
  | plain sound => exact isCodeless_of_textual sound.textual
  | displayed _ sound => simp [isCodeless, isCodeless_of_textual sound.textual]

end Expressions

section Rules

variable {placeOf : Text → Int} {g : Grammar}

/-- A rule gets words that encode its code. -/
def EncodedBy (lowered : Rule → List Instr → Prop) (r r' : Rule) : Prop :=
  ∃ code, r' = { r with words := some (Instr.encode code) } ∧ lowered r code

/-- The words encode the code of the rule. -/
def Encoded (t : Target) : Rule → Rule → Prop :=
  EncodedBy fun r code => Lowered t r.setting [] r.body code

/-- Lowers rules one after the other, up to one for which that fails. -/
def rulesBy (lower : Rule → Tables → Except LoweringFault (Option (List Instr) × Tables)) :
    List Rule → Tables → List Rule × Except LoweringFault Tables
  | [], tables => ([], .ok tables)
  | r :: rest, tables =>
    match lower r tables with
    | .error fault => (r :: rest, .error fault)
    | .ok (code, tables) =>
      let (rest, outcome) := rulesBy lower rest tables
      ({ r with words := code.map Instr.encode } :: rest, outcome)

theorem rules_eq (placeOf : Text → Int) (rules : List Rule) (tables : Tables) :
    Lower.rules placeOf rules tables = rulesBy (rule placeOf) rules tables := by
  induction rules generalizing tables with
  | nil => rfl
  | cons r rest ih =>
    cases lowered : rule placeOf r tables with
    | error fault => simp only [Lower.rules, rulesBy, lowered]
    | ok made => simp only [Lower.rules, rulesBy, lowered, ih]

/-- Where each rule is lowered, all of them are, with the tables growing from one to the next. -/
theorem rulesBy_lower {lower : Rule → Tables → Except LoweringFault (Option (List Instr) × Tables)}
    {lowered : Tables → Rule → List Instr → Prop} {rules : List Rule}
    (each : ∀ r ∈ rules, ∀ tables, ∃ code after, lower r tables = .ok (some code, after) ∧
      tables.Grows after ∧ ∀ final, after.Grows final → lowered final r code) (tables : Tables) :
    ∃ encoded final, rulesBy lower rules tables = (encoded, .ok final) ∧
      tables.Grows final ∧ ∀ other, final.Grows other →
        List.Forall₂ (EncodedBy (lowered other)) rules encoded := by
  induction rules generalizing tables with
  | nil => exact ⟨[], tables, rfl, .refl _, fun _ _ => .nil⟩
  | cons r rest ih =>
    obtain ⟨code, after, found, grows, lowers⟩ := each r (by simp) tables
    obtain ⟨others, final, found', grows', all⟩ := ih (fun s hs => each s (by simp [hs])) after
    refine ⟨{ r with words := some (Instr.encode code) } :: others, final, ?_, grows.trans grows',
      fun other later => .cons ⟨code, rfl, lowers other (grows'.trans later)⟩ (all other later)⟩
    simp [rulesBy, found, found']

variable (placeOf) in
theorem rule_lowers {r : Rule} (body : g.SoundBody r.body) (bounds : r.body.Scoped [])
    (tables : Tables) : ∃ code after, rule placeOf r tables = .ok (some code, after) ∧
      tables.Grows after ∧ ∀ final, after.Grows final →
        Lowered ⟨placeOf, final⟩ r.setting [] r.body code := by
  obtain ⟨code, v, found, grows, lowered⟩ : Makes (expr placeOf r.setting r.body) { tables } _ :=
    @body_makes { tables } placeOf g _ body bounds r.setting
  refine ⟨code, v.tables, ?_, grows, lowered⟩
  have codes : isCodeless (r.reportsFailures != some false) r.body = false := isCodeless_of_body body _
  simp only [rule, codes]
  change (expr placeOf r.setting r.body { tables }).bind _ = _
  rw [found]
  rfl

end Rules

end Lower

/-- Lowering never fails on what was prepared, and gives every rule the words of its code. -/
theorem Grammar.Prepared.lower {g : Grammar} (prepared : g.Prepared) :
    ∃ rules tables, g.lower = ({ g with rules, tables := some tables }, none) ∧ tables.Textual ∧
      List.Forall₂ (Lower.Encoded ⟨g.placeOf, tables⟩) g.rules rules := by
  obtain ⟨rules, tables, lowered, grows, encoded⟩ := Lower.rulesBy_lower (fun r hr =>
    Lower.rule_lowers g.placeOf (prepared.soundBody hr) (prepared.accepted.scopes r hr)) {}
  exact ⟨rules, tables, by simp [Grammar.lower, Lower.rules_eq, lowered],
    grows.textual ⟨by simp, by simp⟩, encoded tables (.refl _)⟩

end PegCompiler
