import Mathlib.Data.List.Forall2
import Mathlib.Data.List.Nodup
import PegCompiler.Compile.Pass
import PegCompiler.Proofs.Check.Scoping

/-!
The check of labels against scopes that are told by the places of nodes alone. A labeled element of a
sequence is visible in the elements behind it, and nowhere else (`Expr.Visible`). A label must be given
once only where it is visible, and a bound of a range names a label that is visible there; the check
finds whatever goes against that, each once, and nothing else (`Grammar.duplicateLabels_exact`).
-/

namespace PegCompiler

/-! ## One entry for each key -/

/-- A trail without faults, with an entry for each key for which there is a diagnostic. -/
def Trail.Tallies {κ : Type} (trail : Trail Diagnostic) (right : κ → Diagnostic → Prop) : Prop :=
  ∃ found : List (κ × Diagnostic), trail = found.map (fun entry => .ok entry.2) ∧
    (found.map Prod.fst).Nodup ∧ ∀ key d, (key, d) ∈ found ↔ right key d

namespace Trail.Tallies

variable {κ κ' ι : Type} {trail other : Trail Diagnostic} {right wrong : κ → Diagnostic → Prop}

theorem nil : Tallies [] fun (_ : κ) _ => False := ⟨[], rfl, List.nodup_nil, by simp⟩

theorem congr (h : trail.Tallies right) (same : ∀ key d, right key d ↔ wrong key d) :
    trail.Tallies wrong := by
  obtain ⟨found, whole, apart, exact⟩ := h
  exact ⟨found, whole, apart, fun key d => (exact key d).trans (same key d)⟩

theorem append (h : trail.Tallies right) (k : other.Tallies wrong)
    (apart : ∀ key d d', right key d → ¬wrong key d') :
    (trail ++ other).Tallies fun key d => right key d ∨ wrong key d := by
  obtain ⟨found, rfl, once, exact⟩ := h
  obtain ⟨others, rfl, once', exact'⟩ := k
  refine ⟨found ++ others, by simp, ?_, fun key d => by rw [List.mem_append, exact, exact']⟩
  rw [List.map_append]
  refine List.nodup_append.mpr ⟨once, once', fun key first key' second same => ?_⟩
  obtain ⟨⟨_, d⟩, member, rfl⟩ := List.mem_map.mp first
  obtain ⟨⟨_, d'⟩, member', rfl⟩ := List.mem_map.mp second
  obtain rfl := same
  exact apart _ d d' ((exact _ d).mp member) ((exact' _ d').mp member')

/-- The same with other keys. -/
theorem tag {f : κ → κ'} (injective : Function.Injective f) (h : trail.Tallies right) :
    trail.Tallies fun key' d => ∃ key, key' = f key ∧ right key d := by
  obtain ⟨found, rfl, once, exact⟩ := h
  refine ⟨found.map (Prod.map f id), by simp, ?_, fun key' d => ?_⟩
  · have keys : (found.map (Prod.map f id)).map Prod.fst = (found.map Prod.fst).map f := by simp
    rw [keys]
    exact List.Nodup.map injective once
  · constructor
    · intro member
      obtain ⟨⟨key, d⟩, known, same⟩ := List.mem_map.mp member
      cases same
      exact ⟨key, rfl, (exact key d).mp known⟩
    · rintro ⟨key, rfl, holds⟩
      exact List.mem_map.mpr ⟨(key, d), (exact key d).mpr holds, rfl⟩

theorem flatMap {visits : List ι} {each : ι → Trail Diagnostic} {right : ι → κ → Diagnostic → Prop}
    (once : visits.Nodup) (h : ∀ v ∈ visits, (each v).Tallies (right v))
    (apart : ∀ v ∈ visits, ∀ w ∈ visits, ∀ key d d', right v key d → right w key d' → v = w) :
    Tallies (visits.flatMap each) fun key d => ∃ v ∈ visits, right v key d := by
  induction visits with
  | nil => exact nil.congr fun _ _ => by simp
  | cons v rest ih =>
    obtain ⟨fresh, once⟩ := List.nodup_cons.mp once
    have others := ih once (fun w member => h w (by simp [member]))
      fun w member u member' => apart w (by simp [member]) u (by simp [member'])
    rw [List.flatMap_cons]
    refine ((h v (by simp)).append others fun key d d' here ⟨w, member, there⟩ => ?_).congr fun key d => ?_
    · have same := apart v (by simp) w (by simp [member]) key d d' here there
      exact fresh (same ▸ member)
    · simp

/-- The keys, each once, and the diagnostics for them. -/
theorem exists_keys (h : trail.Tallies right) : ∃ keys : List κ, keys.Nodup ∧
    (∀ key, key ∈ keys ↔ ∃ d, right key d) ∧ List.Forall₂ right keys trail.cut.1 ∧ trail.cut.2 = none := by
  obtain ⟨found, rfl, once, exact⟩ := h
  have whole : found.map (fun entry => Except.ok entry.2) =
      (found.map Prod.snd).map (Except.ok : Diagnostic → Except TreeFault Diagnostic) := by simp
  rw [whole, cut_map_ok]
  refine ⟨found.map Prod.fst, once, fun key => ?_, ?_, rfl⟩
  · simp [exact]
  · simp only [List.forall₂_map_left_iff, List.forall₂_map_right_iff]
    exact List.forall₂_same.mpr fun entry member => (exact _ _).mp member

end Trail.Tallies

namespace Expr

/-- The node at `m` is an element of a sequence, and the node at `n` is in an element behind it. -/
def Visible (e : Expr) (m n : List Nat) : Prop :=
  ∃ way i j rest row, m = way ++ [i] ∧ n = way ++ j :: rest ∧ i < j ∧ e.at? way = some row ∧
    row.isRow = true

/-- A labeled node at `location` is visible at `n` and has the label `name`. -/
def Sees (e : Expr) (n : List Nat) (name : Text) (location : Option Location) : Prop :=
  ∃ m c, e.Visible m n ∧ e.at? m = some c ∧ c.entry? = some (name, location)

/-- What is wrong with a label at a node: it is that of a node that is visible there; or it is named by
a bound, and no visible node has it. -/
inductive Slips (e : Expr) (n : List Nat) : Option Text → Diagnostic → Prop
  | again {info : Info} {name : Text} {at? first : Option Location} {auto : Bool} {body : Expr} :
    e.at? n = some (labeled info (some name) at? auto body) → e.Sees n name first →
    Slips e n none ⟨.duplicateLabel name first, info.location⟩
  | missing {info : Info} {min max : Boundary} {body : Expr} {delimiter : Option Expr} {name : Text} :
    e.at? n = some (range info min max body delimiter) →
    min = .label (.text name) ∨ max = .label (.text name) → (∀ first, ¬e.Sees n name first) →
    Slips e n (some name) ⟨.undefinedLabel (.text name), info.location⟩

theorem Slips.severity {e : Expr} {n : List Nat} {k : Option Text} {d : Diagnostic}
    (slip : e.Slips n k d) : d.severity = .error := by
  cases slip <;> rfl

end Expr

/-! ## The scope at a node -/

namespace Check

/-- The scope behind elements of a sequence. -/
def behind (scope : LabelScope) (es : List Expr) : LabelScope :=
  es.foldl (fun scope e => e.entry?.toList ++ scope) scope

/-- The scope that a child stands in. -/
def scopeAt (scope : LabelScope) (e : Expr) (j : Nat) : LabelScope :=
  if e.isRow then behind scope (e.children.take j) else scope

/-- The scope at the node that a way down leads to. -/
def scopeTo : LabelScope → Expr → List Nat → LabelScope
  | scope, _, [] => scope
  | scope, e, j :: way =>
    match e.children[j]? with
    | some c => scopeTo (scopeAt scope e j) c way
    | none => scope

theorem mem_behind {scope : LabelScope} {es : List Expr} {entry : Text × Option Location} :
    entry ∈ behind scope es ↔ entry ∈ scope ∨ ∃ e ∈ es, e.entry? = some entry := by
  induction es generalizing scope with
  | nil => simp [behind]
  | cons e rest ih =>
    rw [show behind scope (e :: rest) = behind (e.entry?.toList ++ scope) rest from rfl, ih]
    simp only [List.mem_append, Option.mem_toList, List.exists_mem_cons_iff]
    tauto

/-- What is visible further down is so because of this node or of one below. -/
theorem visible_cons {e c : Expr} {j : Nat} {m way : List Nat} (child : e.children[j]? = some c) :
    e.Visible m (j :: way) ↔
      e.isRow = true ∧ (∃ i < j, m = [i]) ∨ ∃ m', m = j :: m' ∧ c.Visible m' way := by
  constructor
  · rintro ⟨before, i, k, rest, row, rfl, same, less, found, isRow⟩
    cases before with
    | nil =>
      obtain ⟨rfl, rfl⟩ := List.cons.inj same
      obtain rfl := Option.some.inj found
      exact .inl ⟨isRow, i, less, rfl⟩
    | cons l before =>
      obtain ⟨rfl, rfl⟩ := List.cons.inj same
      obtain ⟨c', child', found⟩ := Expr.at?_cons.mp found
      obtain rfl := Option.some.inj (child.symm.trans child')
      exact .inr ⟨before ++ [i], rfl, before, i, k, rest, row, rfl, rfl, less, found, isRow⟩
  · rintro (⟨isRow, i, less, rfl⟩ | ⟨m', rfl, before, i, k, rest, row, rfl, rfl, less, found, isRow⟩)
    · exact ⟨[], i, j, way, e, rfl, rfl, less, rfl, isRow⟩
    · exact ⟨j :: before, i, k, rest, row, rfl, rfl, less, Expr.at?_cons.mpr ⟨c, child, found⟩, isRow⟩

/-- The labels that are visible below a child: those of the elements before it, if it is an element, and
those that are visible in the child. -/
theorem sees_cons {e c : Expr} {j : Nat} {way : List Nat} (child : e.children[j]? = some c)
    {name : Text} {location : Option Location} :
    e.Sees (j :: way) name location ↔ e.isRow = true ∧ (∃ b ∈ e.children.take j,
      b.entry? = some (name, location)) ∨ c.Sees way name location := by
  have before (b : Expr) : b ∈ e.children.take j ↔ ∃ i < j, e.at? [i] = some b := by
    rw [List.mem_iff_getElem?]
    refine exists_congr fun i => ?_
    rw [List.getElem?_take]
    by_cases less : i < j <;> simp [less, Expr.at?]
  constructor
  · rintro ⟨m, b, visible, found, entry⟩
    rcases (visible_cons child).mp visible with ⟨isRow, i, less, rfl⟩ | ⟨m', rfl, inside⟩
    · exact .inl ⟨isRow, b, (before b).mpr ⟨i, less, found⟩, entry⟩
    · obtain ⟨c', child', below⟩ := Expr.at?_cons.mp found
      obtain rfl := Option.some.inj (child.symm.trans child')
      exact .inr ⟨m', b, inside, below, entry⟩
  · rintro (⟨isRow, b, member, entry⟩ | ⟨m', b, visible, found, entry⟩)
    · obtain ⟨i, less, found⟩ := (before b).mp member
      exact ⟨[i], b, (visible_cons child).mpr (.inl ⟨isRow, i, less, rfl⟩), found, entry⟩
    · exact ⟨j :: m', b, (visible_cons child).mpr (.inr ⟨m', rfl, visible⟩),
        Expr.at?_cons.mpr ⟨c, child, found⟩, entry⟩

/-- In scope is what was so around the expression, and what is visible in it. -/
theorem mem_scopeTo {scope : LabelScope} {e d : Expr} {n : List Nat} (found : e.at? n = some d)
    {name : Text} {location : Option Location} :
    (name, location) ∈ scopeTo scope e n ↔ (name, location) ∈ scope ∨ e.Sees n name location := by
  induction n generalizing scope e with
  | nil =>
    have blind : ¬e.Sees [] name location := by
      rintro ⟨_, _, ⟨way, _, _, _, _, -, same, -⟩, -⟩
      simp at same
    simp [scopeTo, blind]
  | cons j way ih =>
    obtain ⟨c, child, found⟩ := Expr.at?_cons.mp found
    simp only [scopeTo, child]
    rw [ih found, sees_cons child, scopeAt]
    cases e.isRow with
    | false => simp
    | true => simp [mem_behind, or_assoc]

/-! ## What the check finds -/

/-- What is found at a node itself, in the scope where it stands. -/
def slips (scope : LabelScope) : Expr → List (Option Text × Diagnostic)
  | .labeled info (some name) _ _ _ =>
    match scope.lookup name with
    | some first => [(none, ⟨.duplicateLabel name first, info.location⟩)]
    | none => []
  | .range info min max _ _ =>
    ((boundLabels min max).filter fun label => (label.name?.bind (List.lookup · scope)).isNone).map
      fun label => (label.name?, ⟨.undefinedLabel label.value, info.location⟩)
  | _ => []

theorem labelsInOrder_eq {scope : LabelScope} {es : List Expr} (textual : ∀ e ∈ es, e.Textual)
    (apart : ∀ e ∈ es, e.isRow = false) : (labelsInOrder scope es).1 =
      es.zipIdx.flatMap fun v => (labels (behind scope (es.take v.2)) v.1).1 := by
  induction es generalizing scope with
  | nil => rfl
  | cons e rest ih =>
    rw [labelsInOrder, List.zipIdx_cons', List.flatMap_cons, List.flatMap_map]
    have inner := labels_behind scope (textual e (by simp)) (apart e (by simp))
    simp only [inner, ih (fun c member => textual c (by simp [member]))
      fun c member => apart c (by simp [member])]
    rfl

theorem labelsApart_eq {scope : LabelScope} {es : List Expr} :
    labelsApart scope es = es.zipIdx.flatMap fun v => (labels scope v.1).1 := by
  have whole : labelsApart scope es = es.flatMap fun e => (labels scope e).1 := by
    induction es with
    | nil => rfl
    | cons e rest ih => rw [labelsApart, ih, List.flatMap_cons]
  rw [whole]
  conv => lhs; rw [← List.zipIdx_map_fst 0 es, List.flatMap_map]

/-- The names that the bounds of a range can give in a text. -/
theorem boundLabels_textual {min max : Boundary} (least : min.IsLeast) (greatest : max.IsGreatest) :
    ∃ names : List Text, boundLabels min max = names.map .text ∧ names.Nodup ∧
      ∀ name, name ∈ names ↔ min = .label (.text name) ∨ max = .label (.text name) := by
  rcases min with _ | (_ | _ | a)
  · rcases max with _ | (_ | _ | b)
    · exact ⟨[], rfl, List.nodup_nil, by simp⟩
    · exact absurd greatest id
    · exact absurd greatest id
    · exact ⟨[b], rfl, List.nodup_singleton b, by simp [eq_comm]⟩
  · exact absurd least id
  · exact absurd least id
  · rcases max with _ | (_ | _ | b)
    · exact ⟨[a], rfl, List.nodup_singleton a, by simp [eq_comm]⟩
    · exact absurd greatest id
    · exact absurd greatest id
    · by_cases same : a = b
      · subst same
        exact ⟨[a], by simp [boundLabels], List.nodup_singleton a, by simp [eq_comm]⟩
      · exact ⟨[a, b], by simp [boundLabels, same], by simp [same], by simp [eq_comm]⟩

theorem slips_range (scope : LabelScope) {info : Info} {min max : Boundary} {body : Expr}
    {delimiter : Option Expr} (textual : (Expr.range info min max body delimiter).IsTextual) :
    ∃ names : List Text, names.Nodup ∧
      (∀ name, name ∈ names ↔ min = .label (.text name) ∨ max = .label (.text name)) ∧
      slips scope (.range info min max body delimiter) =
        (names.filter fun name => (scope.lookup name).isNone).map fun name =>
          (some name, ⟨.undefinedLabel (.text name), info.location⟩) := by
  obtain ⟨names, labels, once, exact⟩ := boundLabels_textual textual.1 textual.2.1
  refine ⟨names, once, exact, ?_⟩
  rw [slips, labels, List.filter_map, List.map_map]
  rfl

theorem slips_once {scope : LabelScope} {e : Expr} (textual : e.IsTextual) :
    ((slips scope e).map Prod.fst).Nodup := by
  cases e with
  | labeled info label at? auto body =>
    cases label with
    | none => exact List.nodup_nil
    | some name =>
      cases first : scope.lookup name <;> simp [slips, first]
  | range info min max body delimiter =>
    obtain ⟨names, once, -, whole⟩ := slips_range scope textual
    rw [whole, List.map_map]
    exact (once.filter _).map fun a b => Option.some.inj
  | _ => exact List.nodup_nil

/-- What is found at a node of an expression. -/
def Occurs (scope : LabelScope) (e : Expr) (key : List Nat × Option Text) (d : Diagnostic) : Prop :=
  ∃ c, e.at? key.1 = some c ∧ (key.2, d) ∈ slips (scopeTo scope e key.1) c

/-- What is found in an expression is found at the node itself or in the children, in whatever order they
are visited. -/
theorem labels_node {scope : LabelScope} {e : Expr} (visits : List (Expr × Nat))
    (order : visits.Perm e.children.zipIdx) (once : ((slips scope e).map Prod.fst).Nodup)
    (each : ∀ (j : Nat) (c : Expr), e.children[j]? = some c →
      (labels (scopeAt scope e j) c).1.Tallies (Occurs (scopeAt scope e j) c))
    (whole : (labels scope e).1 = (slips scope e).map (fun entry => .ok entry.2) ++
      visits.flatMap fun v => (labels (scopeAt scope e v.2) v.1).1) :
    (labels scope e).1.Tallies (Occurs scope e) := by
  have visited (v : Expr × Nat) : v ∈ visits ↔ e.children[v.2]? = some v.1 :=
    order.mem_iff.trans List.mk_mem_zipIdx_iff_getElem?
  have here : Trail.Tallies ((slips scope e).map fun entry => .ok entry.2)
      fun key d => (key, d) ∈ slips scope e := ⟨_, rfl, once, fun _ _ => Iff.rfl⟩
  have once' : visits.Nodup :=
    order.nodup_iff.mpr (List.Nodup.of_map Prod.snd (by simp [List.nodup_range']))
  have below := Trail.Tallies.flatMap once'
    (fun v member => (each v.2 v.1 ((visited v).mp member)).tag
      (f := fun key => (v.2 :: key.1, key.2)) (by rintro ⟨_, _⟩ ⟨_, _⟩ ⟨⟩; rfl))
    (by
      rintro ⟨b, i⟩ first ⟨c, j⟩ second _ d d' ⟨key, rfl, -⟩ ⟨key', same, -⟩
      obtain rfl : i = j := (List.cons.inj (congrArg Prod.fst same)).1
      have equal : some b = some c :=
        ((visited (b, i)).mp first).symm.trans ((visited (c, i)).mp second)
      rw [Option.some.inj equal])
  rw [whole]
  refine ((here.tag (f := fun key => (([] : List Nat), key)) fun _ _ => by rintro ⟨⟩; rfl).append below
    ?_).congr ?_
  · rintro _ d d' ⟨_, rfl, -⟩ ⟨_, -, _, ⟨⟩, -⟩
  · rintro ⟨n, k⟩ d
    cases n with
    | nil => simp [Occurs, Expr.at?, scopeTo]
    | cons j way =>
      constructor
      · rintro (⟨_, same, -⟩ | ⟨⟨c, i⟩, member, ⟨way', k'⟩, same, d', found, occurs⟩)
        · simp at same
        · cases same
          have child := (visited _).mp member
          exact ⟨d', Expr.at?_cons.mpr ⟨c, child, found⟩, by simpa [scopeTo, child] using occurs⟩
      · rintro ⟨d', found, occurs⟩
        obtain ⟨c, child, found⟩ := Expr.at?_cons.mp found
        simp only [scopeTo, child] at occurs
        exact .inr ⟨(c, j), (visited _).mpr child, (way, k), rfl, d', found, occurs⟩

/-- In an expression as a text gives it, the check finds what is found at the nodes, each once. -/
theorem labels_tallies (e : Expr) : ∀ scope : LabelScope, e.Textual →
    (labels scope e).1.Tallies (Occurs scope e) := by
  induction e using Expr.byChildren with
  | node e ih =>
    intro scope textual
    have each (j : Nat) (c : Expr) (child : e.children[j]? = some c) :
        (labels (scopeAt scope e j) c).1.Tallies (Occurs (scopeAt scope e j) c) :=
      have member := List.mem_of_getElem? child
      ih c member _ (textual.child member)
    have node (visits : List (Expr × Nat)) (order : visits.Perm e.children.zipIdx) :=
      labels_node visits order (slips_once textual.here) each
    cases e with
    | named | foreign => exact absurd textual.here id
    | literal | charClass | any | ruleRef | predicate => exact node [] (.refl _) rfl
    | sequence info es =>
      exact node es.zipIdx (.refl _)
        (labelsInOrder_eq (fun c member => textual.child member) textual.here.2)
    | choice info es => exact node es.zipIdx (.refl _) labelsApart_eq
    | labeled info label at? auto body =>
      refine node [(body, 0)] (.refl _) ?_
      cases label with
      | none => simp [labels, slips, scopeAt, Expr.isRow]
      | some name =>
        cases first : scope.lookup name <;> simp [labels, slips, scopeAt, Expr.isRow, first]
    | unary info operator body | action info code at? body =>
      exact node [(body, 0)] (.refl _) (by simp [labels, slips, scopeAt, Expr.isRow])
    | range info min max body delimiter =>
      cases delimiter with
      | none =>
        refine node [(body, 0)] (.refl _) ?_
        simp [labels, slips, scopeAt, Expr.isRow]
      | some separator =>
        refine node [(separator, 1), (body, 0)] (.swap _ _ _) ?_
        simp [labels, slips, scopeAt, Expr.isRow]

theorem body_tallies {e : Expr} (body : Rule.Body e) :
    (labels [] e).1.Tallies (Occurs [] e) := by
  cases body with
  | plain textual => exact labels_tallies e [] textual
  | @displayed info shown e textual =>
    refine labels_node [(e, 0)] (.refl _) List.nodup_nil (fun j c child => ?_)
      (by simp [labels, slips, scopeAt, Expr.isRow])
    obtain rfl := List.mem_singleton.mp (List.mem_of_getElem? child)
    exact labels_tallies _ _ textual

theorem mem_of_lookup {scope : LabelScope} {name : Text} {first : Option Location}
    (found : scope.lookup name = some first) : (name, first) ∈ scope := by
  obtain ⟨before, behind, rfl, -⟩ := List.lookup_eq_some_iff.mp found
  simp

section Body

variable {e c : Expr} {n : List Nat} {k : Option Text} {d : Diagnostic} {name : Text}

/-- A label has an entry in the scope of a node where a labeled node with it is visible there. -/
theorem lookup_scopeTo (name : Text) (found : e.at? n = some c) :
    ((scopeTo [] e n).lookup name).isSome ↔ ∃ first, e.Sees n name first := by
  rw [lookup_isSome, names, List.mem_map]
  constructor
  · rintro ⟨⟨_, first⟩, member, rfl⟩
    exact ⟨first, ((mem_scopeTo found).mp member).resolve_left List.not_mem_nil⟩
  · rintro ⟨first, sees⟩
    exact ⟨(name, first), (mem_scopeTo found).mpr (.inr sees), rfl⟩

theorem range_textual (body : Rule.Body e) {info : Info} {min max : Boundary} {inner : Expr}
    {delimiter : Option Expr} (found : e.at? n = some (.range info min max inner delimiter)) :
    (Expr.range info min max inner delimiter).IsTextual := by
  cases (body.everywhere.at found).here with
  | plain textual => exact textual.here

theorem slips_of_occurs (body : Rule.Body e) (occurs : Occurs [] e (n, k) d) : e.Slips n k d := by
  obtain ⟨c, found, member⟩ := occurs
  cases c with
  | labeled info label at? auto inner =>
    cases label with
    | none => cases member
    | some name =>
      cases first : (scopeTo [] e n).lookup name with
      | none => simp [slips, first] at member
      | some place =>
        obtain ⟨rfl, rfl⟩ : k = none ∧ d = ⟨.duplicateLabel name place, info.location⟩ := by
          simpa [slips, first] using member
        exact .again found (((mem_scopeTo found).mp (mem_of_lookup first)).resolve_left List.not_mem_nil)
  | range info min max inner delimiter =>
    obtain ⟨names, -, exact, whole⟩ := slips_range (scopeTo [] e n) (range_textual body found)
    rw [whole] at member
    obtain ⟨name, given, same⟩ := List.mem_map.mp member
    cases same
    obtain ⟨given, missing⟩ := List.mem_filter.mp given
    refine .missing found ((exact name).mp given) fun first sees => ?_
    have known := (lookup_scopeTo _ found).mpr ⟨first, sees⟩
    rw [Option.isNone_iff_eq_none.mp missing] at known
    cases known
  | _ => cases member

theorem occurs_of_slips (body : Rule.Body e) (slip : e.Slips n k d) : ∃ d', Occurs [] e (n, k) d' := by
  cases slip with
  | @again info name at? first auto inner found sees =>
    obtain ⟨place, known⟩ := Option.isSome_iff_exists.mp ((lookup_scopeTo _ found).mpr ⟨first, sees⟩)
    exact ⟨_, _, found, by simp only [slips, known]; exact List.mem_singleton_self _⟩
  | @missing info min max inner delimiter name found given unseen =>
    obtain ⟨names, -, exact, whole⟩ := slips_range (scopeTo [] e n) (range_textual body found)
    refine ⟨⟨.undefinedLabel (.text name), info.location⟩, _, found, ?_⟩
    rw [whole]
    refine List.mem_map.mpr ⟨name, List.mem_filter.mpr ⟨(exact name).mpr given, ?_⟩, rfl⟩
    have unknown := mt (lookup_scopeTo name found).mp (not_exists.mpr unseen)
    exact Option.isNone_iff_eq_none.mpr (Option.not_isSome_iff_eq_none.mp unknown)

end Body

end Check

/-- Where something is wrong with a label: at the node of a rule that a way leads to, and which bound it
is about, unless it is about the label of the node. -/
structure LabelSlip where
  rule : Nat
  way : List Nat
  bound : Option Text

namespace Grammar

variable {g : Grammar}

/-- What is wrong with a label, and what there is to say about it. -/
def Slips (g : Grammar) (slip : LabelSlip) (d : Diagnostic) : Prop :=
  ∃ r, g.rules[slip.rule]? = some r ∧ r.body.Slips slip.way slip.bound d

theorem duplicateLabels_tallies (textual : ∀ r ∈ g.rules, Rule.Body r.body) :
    (Check.duplicateLabels g).Tallies fun (slip : LabelSlip) d =>
      ∃ v ∈ g.rules.zipIdx, ∃ key : List Nat × Option Text, slip = ⟨v.2, key.1, key.2⟩ ∧
        Check.Occurs [] v.1.body key d := by
  have whole : Check.duplicateLabels g =
      g.rules.zipIdx.flatMap fun v => (Check.labels [] v.1.body).1 := by
    unfold Check.duplicateLabels Grammar.trail
    conv => lhs; rw [← List.zipIdx_map_fst 0 g.rules, List.flatMap_map]
  have at? {v : Rule × Nat} (member : v ∈ g.rules.zipIdx) : g.rules[v.2]? = some v.1 :=
    List.mk_mem_zipIdx_iff_getElem?.mp member
  rw [whole]
  refine Trail.Tallies.flatMap (List.Nodup.of_map Prod.snd (by simp [List.nodup_range']))
    (fun v member => (Check.body_tallies (textual v.1 (List.mem_of_getElem? (at? member)))).tag ?_) ?_
  · rintro ⟨_, _⟩ ⟨_, _⟩ ⟨⟩
    rfl
  · rintro ⟨q, i⟩ first ⟨r, j⟩ second _ d d' ⟨key, rfl, -⟩ ⟨key', same, -⟩
    obtain rfl : i = j := congrArg LabelSlip.rule same
    have equal : some q = some r := (at? first).symm.trans (at? second)
    rw [Option.some.inj equal]

/-- The check of labels does not fail on a grammar that was read, and what it finds are errors. There is
exactly one for each labeled node where a node with the same label is visible, and for each label that
a bound of a range names and no node visible there has. -/
theorem duplicateLabels_exact {text : Text} {source : Option Text}
    (read : Grammar.read text source = .ok g) (settings : Settings) :
    (Pass.duplicateLabels.run settings g).failure = none ∧
    (∀ d ∈ (Pass.duplicateLabels.run settings g).found, d.severity = .error) ∧
    ∃ slips : List LabelSlip, slips.Nodup ∧ (∀ slip, slip ∈ slips ↔ ∃ d, g.Slips slip d) ∧
      List.Forall₂ g.Slips slips (Pass.duplicateLabels.run settings g).found := by
  have textual := bodies_of_read read
  have right {slip : LabelSlip} {d : Diagnostic} (h : ∃ v ∈ g.rules.zipIdx,
      ∃ key : List Nat × Option Text, slip = ⟨v.2, key.1, key.2⟩ ∧ Check.Occurs [] v.1.body key d) :
      g.Slips slip d := by
    obtain ⟨⟨r, i⟩, member, key, rfl, occurs⟩ := h
    have at? := List.mk_mem_zipIdx_iff_getElem?.mp member
    exact ⟨r, at?, Check.slips_of_occurs (textual r (List.mem_of_getElem? at?)) occurs⟩
  obtain ⟨slips, once, exact, each, none⟩ := (duplicateLabels_tallies textual).exists_keys
  have each := each.imp fun _ _ => right
  refine ⟨?_, fun d found => ?_, slips, once, fun slip => (exact slip).trans ⟨Exists.imp fun d => right, ?_⟩, each⟩
  · simp only [Pass.run, Pass.checked, none, Option.map_none]
  · obtain ⟨i, inside, rfl⟩ := List.getElem_of_mem found
    obtain ⟨r, -, slip⟩ := each.get (each.length_eq ▸ inside) inside
    exact slip.severity
  · rintro ⟨d, r, at?, slips⟩
    obtain ⟨d', occurs⟩ := Check.occurs_of_slips (textual r (List.mem_of_getElem? at?)) slips
    exact ⟨d', (r, slip.rule), List.mk_mem_zipIdx_iff_getElem?.mpr at?, _, rfl, occurs⟩

/-! A sample: a label of a group is not visible behind the group, and one of an alternative is not visible
in the other. -/

def scopesText : Text := .ofString "s = a:'x' (a:'y' b:'z')|a..b| b:'w' / 'u'|c|"

def scopesFound (g : Grammar) : Bool :=
  decide ((Pass.duplicateLabels.run plainSettings g).found.map Diagnostic.message =
    ["Label \"b\" is not defined.", "Label \"a\" is already defined at line 1, column 5.",
      "Label \"c\" is not defined."])

theorem scopes_exact : ∃ g, Grammar.read scopesText none = .ok g ∧ ∃ slips : List LabelSlip,
    slips.length = 3 ∧ slips.Nodup ∧ (∀ slip, slip ∈ slips ↔ ∃ d, g.Slips slip d) ∧
    List.Forall₂ g.Slips slips (Pass.duplicateLabels.run plainSettings g).found := by
  obtain ⟨g, read, holds⟩ := exists_of_read scopesFound
    (show (Grammar.read scopesText none).toOption.any _ = true by decide +kernel)
  have three := congrArg List.length (of_decide_eq_true holds)
  rw [List.length_map] at three
  obtain ⟨-, -, slips, once, exact, each⟩ := duplicateLabels_exact read plainSettings
  exact ⟨g, read, slips, each.length_eq.trans three, once, exact, each⟩

end Grammar

end PegCompiler
