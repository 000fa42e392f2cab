import PegCompiler.Proofs.Emit.Stepping
import PegCompiler.Proofs.Emit.StackMachine

/-!
One instruction on real stacks and on symbolic ones. Where both are equally deep, the variables that
an emitted statement reads have the values that the instruction takes from the stacks, and afterwards
the variables have the values that are on them then (`StackMachine.simple_sound`). The same holds of
the condition of a test (`StackMachine.condition_sound`).
-/

namespace PegCompiler

namespace Word

/-- Not a negative number. -/
def IsNatural : Word → Prop
  | number n => 0 ≤ n
  | text _ => True

theorem natural_of_number? {words : List Word} (natural : ∀ word ∈ words, word.IsNatural) {i : Nat}
    {n : Int} (found : words[i]?.bind number? = some n) : 0 ≤ n := by
  obtain ⟨word, at?, same⟩ := Option.bind_eq_some_iff.mp found
  cases word with
  | text t => cases same
  | number m =>
    cases same
    exact natural _ (List.mem_of_getElem? at?)

theorem eq_of_number? {word : Word} {n : Int} (found : word.number? = some n) : word = number n := by
  cases word with
  | text t => cases found
  | number m => exact congrArg number (Option.some.inj found)

end Word

namespace Emission

/-- The innermost loop is left with these depths somewhere. -/
def LeftAt (emission : Emission) (depths : Depths) : Prop :=
  ∃ exits ∈ emission.exits.head?, depths ∈ exits

theorem leftAt_noted {emission : Emission} (looping : emission.exits ≠ []) :
    emission.noted.LeftAt emission.depths := by
  rcases emission with ⟨rule, results, positions, _ | ⟨exits, outer⟩⟩
  · exact absurd rfl looping
  · exact ⟨_, rfl, by simp [depths]⟩

end Emission

section Stores

variable {V : Type} {store : Slot → V} {name : StackName} {items : List V}

/-- The variables of a stack have the values that are on it. -/
def Shows (store : Slot → V) (name : StackName) : List V → Prop
  | [] => True
  | v :: below => store ⟨name, below.length⟩ = v ∧ Shows store name below

theorem Shows.drop (shows : Shows store name items) (n : Nat) : Shows store name (items.drop n) := by
  induction n generalizing items with
  | zero => exact shows
  | succ n ih =>
    cases items with
    | nil => exact shows
    | cons v below => exact ih shows.2

/-- The variable of an element is counted from the bottom. -/
theorem Shows.at (shows : Shows store name items) {n : Nat} {v : V} (at? : items[n]? = some v) :
    store ⟨name, items.length - 1 - n⟩ = v := by
  induction n generalizing items with
  | zero =>
    cases items with
    | nil => cases at?
    | cons w below =>
      cases at?
      exact shows.1
  | succ n ih =>
    cases items with
    | nil => cases at?
    | cons w below =>
      have := ih shows.2 at?
      rwa [List.length_cons, show below.length + 1 - 1 - (n + 1) = below.length - 1 - n by omega]

/-- The variables of the top elements, bottom first. -/
theorem Shows.take (shows : Shows store name items) {n : Nat} (bound : n ≤ items.length) :
    ((List.range n).map fun i => store ⟨name, items.length - n + i⟩) = (items.take n).reverse := by
  refine List.ext_getElem (by simp [bound]) fun i inside _ => ?_
  simp only [List.length_map, List.length_range] at inside
  simp only [List.getElem_map, List.getElem_range, List.getElem_reverse, List.getElem_take,
    List.length_take, Nat.min_eq_left bound]
  have := shows.at (List.getElem?_eq_getElem (show n - 1 - i < items.length by omega))
  rwa [show items.length - 1 - (n - 1 - i) = items.length - n + i by omega] at this

/-- A variable above a stack, or of another one, does not count. -/
theorem Shows.update (shows : Shows store name items) {slot : Slot} (v : V)
    (apart : slot.stack = name → items.length ≤ slot.index) :
    Shows (Function.update store slot v) name items := by
  induction items with
  | nil => trivial
  | cons w below ih =>
    refine ⟨?_, ih shows.2 fun same => by have := apart same; simp at this; omega⟩
    rw [Function.update_of_ne, shows.1]
    rintro rfl
    have := apart rfl
    simp only [List.length_cons] at this
    omega

namespace Stacks

variable {s : Stacks V}

/-- The variables have the values that are on the stacks. -/
structure HeldBy (s : Stacks V) (store : Slot → V) : Prop where
  results : Shows store .results s.results
  positions : Shows store .positions s.positions

theorem HeldBy.drop (held : s.HeldBy store) (n : Nat) :
    ({ s with results := s.results.drop n } : Stacks V).HeldBy store :=
  ⟨held.results.drop n, held.positions⟩

theorem HeldBy.push (held : s.HeldBy store) (v : V) :
    (s.push v).HeldBy (Function.update store ⟨.results, s.results.length⟩ v) :=
  ⟨⟨Function.update_self .., held.results.update v fun _ => Nat.le_refl _⟩,
    held.positions.update v nofun⟩

/-- Replacing the variable of the top result. -/
theorem HeldBy.replace {v w : V} (held : (s.push w).HeldBy store) :
    (s.push v).HeldBy (Function.update store ⟨.results, s.results.length⟩ v) :=
  HeldBy.push (s := s) ⟨held.results.2, held.positions⟩ v

theorem HeldBy.pushPosition (held : s.HeldBy store) (v : V) :
    ({ s with positions := v :: s.positions } : Stacks V).HeldBy
      (Function.update store ⟨.positions, s.positions.length⟩ v) :=
  ⟨held.results.update v nofun, ⟨Function.update_self .., held.positions.update v fun _ => Nat.le_refl _⟩⟩

end Stacks

end Stores

theorem Statement.performAll_append {V : Type} (make : Origin V → V) {first second : List Statement}
    {effects others : List (Effect V)} {store between after : Slot → V}
    (runs : performAll make store first = some (effects, between))
    (runs' : performAll make between second = some (others, after)) :
    performAll make store (first ++ second) = some (effects ++ others, after) := by
  induction first generalizing store effects with
  | nil =>
    cases runs
    exact runs'
  | cons statement rest ih =>
    simp only [performAll, Option.bind_eq_bind, Option.bind_eq_some_iff, Prod.exists,
      Option.pure_def, Option.some.injEq, Prod.mk.injEq, List.cons_append] at runs ⊢
    obtain ⟨here, middle, does, later, _, others', rfl, rfl⟩ := runs
    exact ⟨here, middle, does, _, _, ih others', by simp, rfl⟩

namespace StackMachine

variable {V : Type} {context : EmitContext} {make : Origin V → V} {s s₁ s₂ below : Stacks V}
  {effects others : List (Effect V)} {first second : List Statement}

/-- Statements do with variables what is done with stacks. -/
def Emulates (make : Origin V → V) (s : Stacks V) (effects : List (Effect V)) (s₁ : Stacks V)
    (statements : List Statement) : Prop :=
  ∀ store : Slot → V, s.HeldBy store → ∃ after,
    Statement.performAll make store statements = some (effects, after) ∧ s₁.HeldBy after

theorem Emulates.nothing (fewer : ∀ store : Slot → V, s.HeldBy store → s₁.HeldBy store) :
    Emulates make s [] s₁ [] := fun store held => ⟨store, rfl, fewer store held⟩

theorem Emulates.set {source : Source} {v : V} {slot : Slot}
    (fewer : ∀ store : Slot → V, s.HeldBy store → s₁.HeldBy store)
    (value : ∀ store : Slot → V, s.HeldBy store → source.value make store = v)
    (place : slot = ⟨.results, s₁.results.length⟩) :
    Emulates make s [] (s₁.push v) [.set slot source] := by
  intro store held
  refine ⟨_, rfl, ?_⟩
  rw [value store held, place]
  exact (fewer store held).push v

theorem Emulates.does {statement : Statement}
    (does : ∀ store : Slot → V, s.HeldBy store →
      statement.perform make store = some (effects, store)) :
    Emulates make s effects s [statement] :=
  fun store held => ⟨store, by simp [Statement.performAll, does store held], held⟩

theorem Emulates.append (one : Emulates make s effects s₁ first)
    (two : Emulates make s₁ others s₂ second) :
    Emulates make s (effects ++ others) s₂ (first ++ second) := by
  intro store held
  obtain ⟨between, runs, held⟩ := one store held
  obtain ⟨after, runs', held⟩ := two between held
  exact ⟨after, Statement.performAll_append make runs runs', held⟩

section Operands

variable {before : Emission} (deep : s.depths = before.depths)

include deep

theorem result?_of_distance {distance : Word} (is : Emit.IsDistance before.results.top distance) :
    ∃ v, s.result? distance = some v ∧ ∀ store : Slot → V, s.HeldBy store →
      store (Emit.distant before.results.top distance) = v := by
  obtain ⟨n, rfl, lower, upper⟩ := is
  simp only [Stacks.depths, Emission.depths, Depths.mk.injEq] at deep
  have inside : n.toNat < s.results.length := by omega
  refine ⟨s.results[n.toNat], ?_, fun store held => ?_⟩
  · simp [Stacks.result?, lower, List.getElem?_eq_getElem inside]
  · rw [← held.results.at (List.getElem?_eq_getElem inside)]
    simp only [Emit.distant, Word.number?, Option.getD_some]
    congr 2
    omega

theorem results_of_distances {distances : List Word}
    (are : ∀ distance ∈ distances, Emit.IsDistance before.results.top distance) :
    ∃ vs, distances.mapM s.result? = some vs ∧ ∀ store : Slot → V, s.HeldBy store →
      (distances.map (Emit.distant before.results.top)).map store = vs := by
  induction distances with
  | nil => exact ⟨[], rfl, fun _ _ => rfl⟩
  | cons distance rest ih =>
    obtain ⟨v, first, shown⟩ := result?_of_distance deep (are distance (by simp))
    obtain ⟨vs, others, shown'⟩ := ih fun w hw => are w (by simp [hw])
    refine ⟨v :: vs, by simp [first, others], fun store held => ?_⟩
    rw [List.map_cons, List.map_cons, shown store held, shown' store held]

/-- Taking results away, and the slots that had them. -/
theorem take?_of_bound {count : Int} (natural : 0 ≤ count)
    (bound : 0 ≤ before.results.top - count + 1) :
    ∃ items below, s.take? count = some (items, below) ∧
      below.depths = (before.setTop .results (before.results.top - count)).depths ∧
      ∀ store : Slot → V, s.HeldBy store → below.HeldBy store ∧
        ((List.range count.toNat).map fun i : Nat =>
          (⟨.results, (before.results.top - count + 1 + (i : Int)).toNat⟩ : Slot)).map store = items := by
  simp only [Stacks.depths, Emission.depths, Depths.mk.injEq] at deep
  have inside : count.toNat ≤ s.results.length := by omega
  refine ⟨_, _, if_pos ⟨natural, by omega⟩, ?_, fun store held => ⟨held.drop _, ?_⟩⟩
  · simp only [Stacks.depths, Emission.depths, Emission.results_setTop_results,
      Emission.positions_setTop_results, List.length_drop, Depths.mk.injEq]
    omega
  · rw [← held.results.take inside, List.map_map]
    refine List.map_congr_left fun i _ => ?_
    simp only [Function.comp]
    congr 2
    omega

theorem pop?_of_bound (bound : 0 ≤ before.results.top) : ∃ v below, s.pop? = some (v, below) ∧
    s = below.push v ∧ below.depths = (before.setTop .results (before.results.top - 1)).depths ∧
    ∀ store : Slot → V, s.HeldBy store →
      below.HeldBy store ∧ store ⟨.results, before.results.top.toNat⟩ = v := by
  rcases s with ⟨results, positions⟩
  simp only [Stacks.depths, Emission.depths, Depths.mk.injEq] at deep
  cases results with
  | nil => simp at deep; omega
  | cons v results =>
    simp only [List.length_cons] at deep
    refine ⟨v, ⟨results, positions⟩, rfl, rfl, ?_, fun store held => ⟨⟨held.results.2, held.positions⟩, ?_⟩⟩
    · simp only [Stacks.depths, Emission.depths, Emission.results_setTop_results,
        Emission.positions_setTop_results, Depths.mk.injEq]
      omega
    · rw [← held.results.1]
      congr 2
      omega

/-- The top position, and the slot that has it. -/
theorem position_of_bound (bound : 0 ≤ before.positions.top) : ∃ v, s.positions.head? = some v ∧
      ∀ store : Slot → V, s.HeldBy store → store ⟨.positions, before.positions.top.toNat⟩ = v := by
  simp only [Stacks.depths, Emission.depths, Depths.mk.injEq] at deep
  have inside : 0 < s.positions.length := by omega
  refine ⟨s.positions[0], ?_, fun store held => ?_⟩
  · rw [List.head?_eq_getElem?, List.getElem?_eq_getElem inside]
  · rw [← held.positions.at (List.getElem?_eq_getElem inside)]
    congr 2
    omega

end Operands

/-- A value is pushed on what is left of the stacks, and a variable set to it. -/
theorem push_sound (make : Origin V → V) (origin : Origin V) (source : Source) {between : Emission}
    (deep : below.depths = between.depths)
    (fewer : ∀ store : Slot → V, s.HeldBy store → below.HeldBy store)
    (value : ∀ store : Slot → V, s.HeldBy store → source.value make store = make origin) :
    Emulates make s [] (below.push (make origin))
        [.set ⟨.results, (between.results.top + 1).toNat⟩ source] ∧
      (below.push (make origin)).depths = (between.pushed .results).depths := by
  simp only [Stacks.depths, Emission.depths, Depths.mk.injEq] at deep
  refine ⟨.set fewer value (by simp; omega), ?_⟩
  simp [Stacks.depths, Emission.depths, Stacks.push]
  omega

theorem simple_sound {opcode : Opcode} {place : Int} {operands further : List Word}
    {before after : Emission} {statements : List Statement}
    (does : Emit.Does (Emit.simple context place opcode operands further) before statements after)
    (natural : ∀ word ∈ operands, word.IsNatural) (deep : s.depths = before.depths)
    (tests : ∀ n, opcode.layout ≠ .test n) (loops : opcode.layout ≠ .loop) (stays : opcode ≠ .leave)
    (make : Origin V → V) :
    ∃ effects s₁, operate context make opcode operands further s = some (effects, s₁) ∧
      Emulates make s effects s₁ statements ∧ s₁.depths = after.depths := by
  have held (store : Slot → V) (held : s.HeldBy store) : s.HeldBy store := held
  cases opcode <;> simp only [Emit.simple, Emit.does_bind, Emit.does_pure, Emit.does_discard,
    Emit.does_pushResult, Emit.does_number, Emit.does_present, Emit.does_indexes, Emit.does_keepOne,
    Emit.does_push, Emit.does_pop, Emit.does_popMany, Emit.does_top, Emission.stack_results,
    Emission.stack_positions] at does
  case pushEmptyText | pushUndefined | pushNull | pushFailed | pushEmptyList | matchAny =>
    obtain ⟨-, rfl, rfl⟩ := does
    exact ⟨[], _, rfl, push_sound make _ _ deep held fun _ _ => rfl⟩
  case matchLowercase | matchClass =>
    obtain ⟨n, _, ⟨number, rfl⟩, -, rfl, rfl⟩ := does
    exact ⟨[], _, by simp only [operate, number, Option.bind_eq_bind, Option.bind_some],
      push_sound make _ _ deep held fun _ _ => rfl⟩
  case matchLiteral =>
    obtain ⟨n, _, ⟨number, rfl⟩, literal, _, ⟨-, rfl⟩, -, rfl, rfl⟩ := does
    have value (store : Slot → V) : Source.value make store
        (if literal.length = 1 then .matchChar n else .matchLiteral n) = make (.matchLiteral n) := by
      split <;> rfl
    exact ⟨[], _, by simp only [operate, number, Option.bind_eq_bind, Option.bind_some],
      push_sound make _ _ deep held fun store _ => value store⟩
  case rule =>
    obtain ⟨n, _, ⟨number, rfl⟩, name, _, ⟨named, rfl⟩, -, rfl, rfl⟩ := does
    exact ⟨[], _, by simp only [operate, number, named, Option.bind_eq_bind, Option.bind_some],
      push_sound make _ _ deep held fun _ _ => rfl⟩
  case acceptCount =>
    obtain ⟨n, _, ⟨number, rfl⟩, _, _, ⟨-, rfl, rfl⟩, rfl, rfl⟩ := does
    obtain ⟨pushes, deep⟩ := push_sound make _ (.input n) deep held fun _ _ => rfl
    exact ⟨[.advance n], _, by simp [operate, number], pushes.append (.does fun _ _ => rfl), deep⟩
  case acceptLiteral =>
    obtain ⟨n, _, ⟨number, rfl⟩, _, _, ⟨-, rfl, rfl⟩, literal, _, ⟨there, rfl⟩, rfl, rfl⟩ := does
    obtain ⟨pushes, deep⟩ := push_sound make _ (.literal n) deep held fun _ _ => rfl
    exact ⟨[.advance literal.length], _, by simp [operate, number, there],
      pushes.append (.does fun _ _ => rfl), deep⟩
  case markHere | silence | unsilence | openRecord =>
    obtain ⟨rfl, rfl⟩ := does
    exact ⟨_, s, rfl, .does fun _ _ => rfl, deep⟩
  case expect | closeRecord =>
    obtain ⟨n, _, ⟨number, rfl⟩, rfl, rfl⟩ := does
    exact ⟨_, s, by simp only [operate, number, Option.bind_eq_bind, Option.bind_some]; rfl,
      .does fun _ _ => rfl, deep⟩
  case loadPosition | markTop =>
    obtain ⟨_, _, ⟨bound, rfl, rfl⟩, rfl, rfl⟩ := does
    obtain ⟨position, there, shown⟩ := position_of_bound deep bound
    exact ⟨_, s, by simp only [operate, there, Option.bind_eq_bind, Option.bind_some]; rfl,
      .does fun store held => by rw [Statement.perform, shown store held], deep⟩
  case pushPosition =>
    obtain ⟨_, _, ⟨-, rfl, rfl⟩, rfl, rfl⟩ := does
    simp only [Stacks.depths, Emission.depths, Depths.mk.injEq] at deep
    have place : (before.positions.top + 1).toNat = s.positions.length := by omega
    refine ⟨[], _, rfl, fun store held => ⟨_, rfl, ?_⟩, ?_⟩
    · rw [place]
      exact held.pushPosition _
    · simp [Stacks.depths, Emission.depths]
      omega
  case pop =>
    obtain ⟨_, _, ⟨_, bound, rfl, rfl⟩, rfl, rfl⟩ := does
    obtain ⟨v, below, pops, -, deep, shown⟩ := pop?_of_bound deep bound
    exact ⟨[], below, by simp [operate, pops], .nothing fun store held => (shown store held).1, deep⟩
  case popPosition =>
    obtain ⟨_, _, ⟨_, bound, rfl, rfl⟩, rfl, rfl⟩ := does
    obtain ⟨position, there, -⟩ := position_of_bound deep bound
    refine ⟨[], { s with positions := s.positions.tail }, by simp [operate, there],
      .nothing fun store held => ⟨held.results, ?_⟩, ?_⟩
    · simpa using held.positions.drop 1
    · simp only [Stacks.depths, Emission.depths, Depths.mk.injEq] at deep
      simp [Stacks.depths, Emission.depths]
      omega
  case append =>
    obtain ⟨_, _, ⟨bound, rfl, rfl⟩, _, _, ⟨bound', rfl, rfl⟩, rfl, rfl⟩ := does
    obtain ⟨item, s₁, pops, -, deep, shown⟩ := pop?_of_bound deep bound
    obtain ⟨list, s₂, pops', rfl, deep', shown'⟩ := pop?_of_bound deep bound'
    refine ⟨[], s₂.push (make (.appended list item)), by simp [operate, pops, pops'],
      fun store held => ⟨_, rfl, ?_⟩, deep⟩
    obtain ⟨held, here⟩ := shown store held
    have place : (before.results.top - 1).toNat = s₂.results.length := by
      simp only [Stacks.depths, Stacks.push, Emission.depths, Emission.results_setTop_results,
        List.length_cons, Depths.mk.injEq] at deep
      omega
    rw [here, (shown' store held).2, Emission.results_setTop_results, place]
    exact held.replace
  case text =>
    obtain ⟨_, _, ⟨_, bound, rfl, rfl⟩, _, _, ⟨bound', rfl, rfl⟩, -, rfl, rfl⟩ := does
    obtain ⟨position, there, shown⟩ := position_of_bound deep bound'
    obtain ⟨v, below, pops, -, deep, shown'⟩ := pop?_of_bound deep bound
    exact ⟨[], _, by simp only [operate, there, pops, Option.bind_eq_bind, Option.bind_some],
      push_sound make _ _ deep (fun store held => (shown' store held).1) fun store held =>
        congrArg (fun v => make (.inputFrom v)) (shown store held)⟩
  case wrap =>
    obtain ⟨n, _, ⟨number, rfl⟩, _, _, ⟨-, rfl, rfl⟩, bound, rfl, rfl⟩ := does
    obtain ⟨items, below, takes, deep, shown⟩ :=
      take?_of_bound deep (Word.natural_of_number? natural number) bound
    exact ⟨[], _, by simp only [operate, number, takes, Option.bind_eq_bind, Option.bind_some],
      push_sound make _ _ deep (fun store held => (shown store held).1) fun store held =>
        congrArg (fun items => make (.list items)) (shown store held).2⟩
  case wrapSome =>
    obtain ⟨_, _, ⟨are, rfl, rfl⟩, n, _, ⟨number, rfl⟩, _, _, ⟨_, -, rfl, rfl⟩, bound, rfl, rfl⟩ := does
    obtain ⟨items, found, shown⟩ := results_of_distances deep are
    obtain ⟨_, below, takes, deep, shown'⟩ :=
      take?_of_bound deep (Word.natural_of_number? natural number) bound
    exact ⟨[], _, by simp only [operate, number, takes, found, Option.bind_eq_bind, Option.bind_some],
      push_sound make _ _ deep (fun store held => (shown' store held).1) fun store held =>
        congrArg (fun items => make (.list items)) (shown store held)⟩
  case call =>
    obtain ⟨_, _, ⟨are, rfl, rfl⟩, n, _, ⟨number, rfl⟩, _, _, ⟨_, -, rfl, rfl⟩, f, _, ⟨number', rfl⟩,
      bound, rfl, rfl⟩ := does
    obtain ⟨items, found, shown⟩ := results_of_distances deep are
    obtain ⟨_, below, takes, deep, shown'⟩ :=
      take?_of_bound deep (Word.natural_of_number? natural number) bound
    exact ⟨[], _, by simp only [operate, number, number', takes, found, Option.bind_eq_bind,
        Option.bind_some],
      push_sound make _ _ deep (fun store held => (shown' store held).1) fun store held =>
        congrArg (fun items => make (.call f items)) (shown store held)⟩
  case get =>
    obtain ⟨distance, _, ⟨number, rfl⟩, n, before, ⟨number', rfl⟩, lower, upper, bound, rfl, rfl⟩ := does
    obtain ⟨word, there, same⟩ := Option.bind_eq_some_iff.mp number
    obtain rfl := Word.eq_of_number? same
    obtain ⟨v, found, shown⟩ := result?_of_distance deep ⟨distance, rfl, lower, upper⟩
    obtain ⟨_, below, takes, deep, shown'⟩ :=
      take?_of_bound deep (Word.natural_of_number? natural number') (by omega)
    obtain ⟨sets, deep'⟩ := push_sound (fun _ => v) .failed (.slot _) deep
      (fun store held => (shown' store held).1) shown
    refine ⟨[], below.push v, by simp [operate, number', takes, there, found], ?_, deep'⟩
    split
    · rename_i place
      have same : (⟨.results, below.results.length⟩ : Slot) =
          Emit.distant before.results.top (.number distance) := by
        refine Eq.trans ?_ place
        simp only [Stacks.depths, Emission.depths, Emission.results_setTop_results,
          Depths.mk.injEq] at deep
        congr 1
        omega
      intro store held
      obtain ⟨held', -⟩ := shown' store held
      exact ⟨store, rfl, ⟨same ▸ shown store held, held'.results⟩, held'.positions⟩
    · exact sets
  case leave => exact absurd rfl stays
  case loop => exact absurd rfl loops
  all_goals exact absurd rfl (tests _)

/-- The machine leaves the loop with the depths noted for it. -/
theorem leave_sound {place : Int} {operands further : List Word} {before after : Emission}
    {statements : List Statement}
    (does : Emit.Does (Emit.simple context place .leave operands further) before statements after)
    (deep : s.depths = before.depths) (make : Origin V → V) :
    ∃ effects s₁, operate context make .leave operands further s = some (effects, s₁) ∧
      Emulates make s effects s₁ statements ∧ after.LeftAt s₁.depths := by
  simp only [Emit.simple, Emit.does_bind, Emit.does_number, Emit.does_leave] at does
  obtain ⟨n, _, ⟨number, rfl⟩, bound, looping, rfl, rfl⟩ := does
  by_cases positive : 0 < n
  · obtain ⟨items, below, takes, deep', shown⟩ := take?_of_bound deep (by omega) (bound positive)
    obtain ⟨pushes, deep'⟩ := push_sound make .failed .failed deep'
      (fun store held => (shown store held).1) fun _ _ => rfl
    refine ⟨[], below.push (make .failed), by simp [operate, number, positive, takes], ?_, ?_⟩
    · rw [if_pos positive]
      exact pushes.append (.does fun _ _ => rfl)
    · rw [if_pos positive, Emission.LeftAt, Emission.exits_setTop, deep']
      exact Emission.leftAt_noted (by simpa using looping)
  · refine ⟨[], s, by simp [operate, number, positive], ?_, ?_⟩
    · rw [if_neg positive]
      exact .does fun _ _ => rfl
    · rw [if_neg positive, Emission.LeftAt, Emission.exits_setTop, deep]
      exact Emission.leftAt_noted looping

theorem condition_sound {opcode : Opcode} {operands : List Word} {before after : Emission}
    {condition : Condition} (does : Emit.Does (Emit.condition opcode operands) before condition after)
    (deep : s.depths = before.depths) : after = before ∧ ∃ values,
      examined opcode operands s = some values ∧
      ∀ store : Slot → V, s.HeldBy store → condition.slots.map store = values := by
  simp only [Emit.condition, Emit.does_bind, Emit.does_top, Emission.stack_results] at does
  obtain ⟨_, before, ⟨bound, rfl, rfl⟩, does⟩ := does
  obtain ⟨v, below, -, rfl, -, shown⟩ := pop?_of_bound deep bound
  have alone (store : Slot → V) (held : (below.push v).HeldBy store) :
      [(⟨.results, before.results.top.toNat⟩ : Slot)].map store = [v] := by
    rw [List.map_singleton, (shown store held).2]
  cases opcode
  case ifFewer =>
    simp only [Emit.does_bind, Emit.does_number, Emit.does_pure] at does
    obtain ⟨n, _, ⟨-, rfl⟩, rfl, rfl⟩ := does
    exact ⟨rfl, [v], rfl, alone⟩
  case ifReached =>
    simp only [Emit.does_bind, Emit.does_present, Emit.does_pure] at does
    obtain ⟨word, _, ⟨-, rfl⟩, rfl, rfl⟩ := does
    exact ⟨rfl, [v], rfl, alone⟩
  case ifFewerThan | ifReachedBy =>
    simp only [Emit.does_bind, Emit.does_number, Emit.does_index, Emission.stack_results,
      Emit.does_pure] at does
    obtain ⟨n, before, ⟨number, rfl⟩, _, _, ⟨lower, upper, rfl, rfl⟩, rfl, rfl⟩ := does
    obtain ⟨word, there, same⟩ := Option.bind_eq_some_iff.mp number
    obtain rfl := Word.eq_of_number? same
    obtain ⟨w, found, shown'⟩ := result?_of_distance deep ⟨n, rfl, lower, by omega⟩
    have head : (below.push v).results.head? = some v := rfl
    refine ⟨rfl, [v, w], by simp [examined, there, found, head], fun store held => ?_⟩
    exact congrArg₂ (fun v w => [v, w]) (shown store held).2 (shown' store held)
  all_goals
    obtain ⟨rfl, rfl⟩ := Emit.does_pure.mp does
    exact ⟨rfl, [v], rfl, alone⟩

end StackMachine

end PegCompiler
