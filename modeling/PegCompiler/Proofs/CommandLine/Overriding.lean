import Mathlib.Data.List.Basic
import PegCompiler.CommandLine.Run
import PegCompiler.Proofs.Value.Fields

/-!
Flags over the options of a file. `Options.spelled?` is what a record has for an option, by whichever
spelling; `Options.put` sets it by the first one, and is heard unless another spelling stands further behind
(`Options.spelled?_put_self`, `Options.spelled?_put_unheard`). The flags of a command are put in one after
another (`Arguments.overlay_eq`). The main theorem is `Arguments.options_overlaid`.
-/

namespace PegCompiler

open Value (names)

namespace OptionName

/-- The first spelling. -/
def spelling : OptionName → Text
  | startRules => "allowed_start_rules"
  | cache => "cache"
  | trace => "trace"
  | output => "output"
  | format => "format"
  | dependencies => "dependencies"
  | exportVar => "export_var"
  | collector => "collector"

def second? : OptionName → Option Text
  | startRules => some "allowedStartRules"
  | exportVar => some "exportVar"
  | _ => none

theorem ofText?_spelling (name : OptionName) : ofText? name.spelling = some name := by
  cases name <;> decide

theorem spelling_of_ofText? {key : Text} {name : OptionName} (known : ofText? key = some name) :
    key = name.spelling ∨ name.second? = some key := by
  unfold ofText? at known
  obtain ⟨before, behind, table, -⟩ := List.lookup_eq_some_iff.mp known
  have member := List.mem_append_right before (List.mem_cons_self (a := (key, name)) (l := behind))
  rw [← table] at member
  simp only [List.mem_cons, Prod.mk.injEq, List.not_mem_nil, or_false] at member
  rcases member with ⟨rfl, rfl⟩ | ⟨rfl, rfl⟩ | ⟨rfl, rfl⟩ | ⟨rfl, rfl⟩ | ⟨rfl, rfl⟩ | ⟨rfl, rfl⟩ |
    ⟨rfl, rfl⟩ | ⟨rfl, rfl⟩ | ⟨rfl, rfl⟩ | ⟨rfl, rfl⟩
  all_goals simp [spelling, second?]

end OptionName

namespace Options

/-- The value of an option. -/
def get (options : Options) : OptionName → Value
  | .startRules => options.startRules
  | .cache => options.cache
  | .trace => options.trace
  | .output => options.output
  | .format => options.format
  | .dependencies => options.dependencies
  | .exportVar => options.exportVar
  | .collector => options.collector

theorem get_set (options : Options) (name other : OptionName) (value : Value) :
    (options.set name value).get other = if name = other then value else options.get other := by
  cases name <;> cases other <;> rfl

/-- What a record has for an option: the last value by any of its spellings. -/
def spelled? (name : OptionName) : List (Text × Value) → Option Value
  | [] => none
  | (key, value) :: rest =>
    (spelled? name rest).or (if OptionName.ofText? key = some name then some value else none)

theorem spelled?_eq_none {name : OptionName} {fields : List (Text × Value)}
    (absent : ∀ key ∈ names fields, OptionName.ofText? key ≠ some name) : spelled? name fields = none := by
  induction fields with
  | nil => rfl
  | cons field rest ih =>
    rw [spelled?, ih fun key member => absent key (List.mem_cons_of_mem _ member),
      if_neg (absent field.1 (List.mem_cons_self ..))]
    rfl

/-- An option is what the record has for it, or as it was. -/
theorem withFields_get {fields : List (Text × Value)} {options after : Options}
    (ok : options.withFields fields = .ok after) (name : OptionName) :
    after.get name = (spelled? name fields).getD (options.get name) := by
  induction fields generalizing options with
  | nil =>
    cases ok
    rfl
  | cons field rest ih =>
    obtain ⟨key, value⟩ := field
    rw [withFields] at ok
    split at ok
    · rename_i known found
      rw [ih ok, spelled?, get_set, found]
      cases spelled? name rest with
      | some _ => rfl
      | none => by_cases same : known = name <;> simp [same]
    · cases ok

theorem withFields_ok_iff {fields : List (Text × Value)} {options : Options} :
    (∃ after, options.withFields fields = .ok after) ↔
      ∀ key ∈ names fields, OptionName.ofText? key ≠ none := by
  induction fields generalizing options with
  | nil => exact iff_of_true ⟨options, rfl⟩ nofun
  | cons field rest ih =>
    obtain ⟨key, value⟩ := field
    rw [withFields, show names ((key, value) :: rest) = key :: names rest from rfl, List.forall_mem_cons]
    cases known : OptionName.ofText? key with
    | none => simp
    | some name => simpa using ih

/-- An option with a single spelling is the field of that name. -/
theorem spelled?_of_single {name : OptionName} (single : name.second? = none)
    {fields : List (Text × Value)} (distinct : (names fields).Nodup) :
    spelled? name fields = Value.lookup? name.spelling fields := by
  have spelled {key : Text} (known : OptionName.ofText? key = some name) : key = name.spelling :=
    (OptionName.spelling_of_ofText? known).resolve_right fun second => nomatch single.symm.trans second
  induction fields with
  | nil => rfl
  | cons field rest ih =>
    obtain ⟨key, value⟩ := field
    obtain ⟨absent, others⟩ := List.nodup_cons.mp distinct
    rw [spelled?, Value.lookup?]
    by_cases same : key = name.spelling
    · subst same
      have none := spelled?_eq_none fun key member known => absent (spelled known ▸ member)
      rw [none, OptionName.ofText?_spelling]
      simp
    · rw [if_neg fun known => same (spelled known), if_neg same, Option.or_none, ih others]

/-! ## Setting an option -/

/-- A value, if there is one, for an option by its first spelling. -/
def put (name : OptionName) (value : Option Value) (fields : List (Text × Value)) : List (Text × Value) :=
  match value with
  | none => fields
  | some value => Value.setField name.spelling value fields

/-- No spelling of the option stands behind the first one. -/
def Heard (name : OptionName) (keys : List Text) : Prop :=
  ∀ before behind, keys = before ++ name.spelling :: behind →
    ∀ key ∈ behind, OptionName.ofText? key ≠ some name

section Put

variable {name other : OptionName} {value : Option Value} {fields : List (Text × Value)}

theorem Heard.tail {key : Text} {keys : List Text} (heard : Heard name (key :: keys)) : Heard name keys :=
  fun before behind same => heard (key :: before) behind (by rw [same]; rfl)

theorem spelled?_setField_of_ne (different : other ≠ name) (value : Value) :
    spelled? other (Value.setField name.spelling value fields) = spelled? other fields := by
  have unlike : OptionName.ofText? name.spelling ≠ some other := by
    rw [OptionName.ofText?_spelling]
    exact fun same => different (Option.some.inj same).symm
  induction fields with
  | nil => simp [Value.setField, spelled?, unlike]
  | cons field rest ih =>
    by_cases same : field.1 = name.spelling
    · simp [Value.setField, spelled?, same, unlike]
    · simp [Value.setField, spelled?, same, ih]

theorem spelled?_setField_self (heard : Heard name (names fields)) (value : Value) :
    spelled? name (Value.setField name.spelling value fields) = some value := by
  induction fields with
  | nil => simp [Value.setField, spelled?, OptionName.ofText?_spelling]
  | cons field rest ih =>
    by_cases same : field.1 = name.spelling
    · have absent : spelled? name rest = none :=
        spelled?_eq_none (heard [] (names rest) (by rw [← same]; rfl))
      simp [Value.setField, spelled?, same, absent, OptionName.ofText?_spelling]
    · rw [Value.setField, if_neg same, spelled?, ih (Heard.tail heard)]
      rfl

/-- A value that is put in is what the record has for the option then. -/
theorem spelled?_put_self (heard : value ≠ none → Heard name (names fields)) :
    spelled? name (put name value fields) = value.or (spelled? name fields) := by
  cases value with
  | none => rfl
  | some value => exact spelled?_setField_self (heard nofun) value

theorem spelled?_put_of_ne (different : other ≠ name) :
    spelled? other (put name value fields) = spelled? other fields := by
  cases value with
  | none => rfl
  | some value => exact spelled?_setField_of_ne different value

/-- A value that is put in where another spelling stands further behind changes nothing. -/
theorem spelled?_put_unheard {before middle behind : List (Text × Value)} {key : Text} {old last new : Value}
    (first : name.spelling ∉ names before) (second : OptionName.ofText? key = some name) :
    let fields := before ++ (name.spelling, old) :: (middle ++ (key, last) :: behind)
    spelled? name (put name (some new) fields) = spelled? name fields := by
  have cover {front back back' : List (Text × Value)} (same : spelled? name back = spelled? name back') :
      spelled? name (front ++ back) = spelled? name (front ++ back') := by
    induction front with
    | nil => exact same
    | cons field rest ih => simp only [List.cons_append, spelled?, ih]
  have present : (spelled? name (middle ++ (key, last) :: behind)).isSome := by
    induction middle with
    | nil => simp [spelled?, second]
    | cons field rest ih => simp [spelled?, ih]
  have set : put name (some new) (before ++ (name.spelling, old) :: (middle ++ (key, last) :: behind)) =
      before ++ (name.spelling, new) :: (middle ++ (key, last) :: behind) := by
    unfold put
    induction before with
    | nil => simp [Value.setField]
    | cons field rest ih =>
      have other : field.1 ≠ name.spelling := fun same => first (same ▸ List.mem_cons_self ..)
      have others : name.spelling ∉ names rest := fun member => first (List.mem_cons_of_mem _ member)
      simpa [Value.setField, other] using ih others
  intro fields
  rw [show fields = before ++ _ from rfl, set]
  refine cover ?_
  obtain ⟨found, is⟩ := Option.isSome_iff_exists.mp present
  simp [spelled?, is]

/-- So the second spelling overrules a flag there. -/
example : spelled? .startRules (put .startRules (some (.list [.text "a"]))
    [("allowed_start_rules", .list []), ("allowedStartRules", .list [.text "b"])]) =
      some (.list [.text "b"]) :=
  rfl

theorem names_put : names (put name value fields) = names fields ∨
    names (put name value fields) = names fields ++ [name.spelling] := by
  cases value with
  | none => exact .inl rfl
  | some value =>
    rw [put, Value.names_setField]
    split
    · exact .inl rfl
    · exact .inr rfl

/-- What is put in for one option leaves others heard. -/
theorem Heard.put (heard : Heard other (names fields)) (different : other ≠ name) :
    Heard other (names (put name value fields)) := by
  obtain same | more := @names_put name value fields
  · rwa [same]
  · rw [more]
    intro before behind split key member
    rcases List.eq_nil_or_concat behind with rfl | ⟨others, last, rfl⟩
    · cases member
    · have cut : names fields ++ [name.spelling] = (before ++ other.spelling :: others) ++ [last] := by
        simpa using split
      obtain ⟨whole, last'⟩ := List.append_inj' cut rfl
      rw [List.concat_eq_append] at member
      rcases List.mem_append.mp member with member | member
      · exact heard before others whole key member
      · rw [List.mem_singleton.mp member, ← List.singleton_inj.mp last', OptionName.ofText?_spelling]
        exact fun same => different (Option.some.inj same).symm

theorem known_put : (∀ key ∈ names (Options.put name value fields), OptionName.ofText? key ≠ none) ↔
    ∀ key ∈ names fields, OptionName.ofText? key ≠ none := by
  obtain same | more := @names_put name value fields
  · rw [same]
  · rw [more, List.forall_mem_append]
    refine and_iff_left ?_
    simp [OptionName.ofText?_spelling]

end Put

/-- Values for several options, put in one after another. -/
def putAll (value? : OptionName → Option Value) (order : List OptionName) (fields : List (Text × Value)) :
    List (Text × Value) :=
  order.foldl (fun fields name => put name (value? name) fields) fields

section PutAll

variable {value? : OptionName → Option Value} {order : List OptionName} {fields : List (Text × Value)}

theorem spelled?_putAll (distinct : order.Nodup)
    (heard : ∀ name ∈ order, value? name ≠ none → Heard name (names fields)) (name : OptionName) :
    spelled? name (putAll value? order fields) =
      if name ∈ order then (value? name).or (spelled? name fields) else spelled? name fields := by
  induction order generalizing fields with
  | nil => rfl
  | cons first rest ih =>
    obtain ⟨absent, distinct⟩ := List.nodup_cons.mp distinct
    have others : ∀ other ∈ rest, value? other ≠ none →
        Heard other (names (put first (value? first) fields)) := fun other member given =>
      (heard other (List.mem_cons_of_mem _ member) given).put fun same => absent (same ▸ member)
    have further := ih distinct others
    change spelled? name (putAll value? rest (put first (value? first) fields)) = _
    by_cases same : name = first
    · subst same
      rw [further, if_neg absent, if_pos (List.mem_cons_self ..)]
      exact spelled?_put_self (heard name (List.mem_cons_self ..))
    · rw [further, spelled?_put_of_ne same]
      simp only [List.mem_cons, same, false_or]

theorem known_putAll : (∀ key ∈ names (putAll value? order fields), OptionName.ofText? key ≠ none) ↔
    ∀ key ∈ names fields, OptionName.ofText? key ≠ none := by
  induction order generalizing fields with
  | nil => rfl
  | cons first rest ih => exact ih.trans known_put

end PutAll

theorem texts_of_checked {items : List Value} (checked : items.forM checkDependency = .ok ⟨⟩) :
    ∀ item ∈ items, ∃ name, item = .text name := by
  induction items with
  | nil => exact nofun
  | cons item rest ih =>
    change (checkDependency item >>= fun _ => rest.forM checkDependency) = _ at checked
    obtain ⟨⟨⟩, first, others⟩ := exists_of_bind checked
    refine List.forall_mem_cons.mpr ⟨?_, ih others⟩
    cases item with
    | text name => exact ⟨name, rfl⟩
    | _ => cases first

/-- What options come to that are not refused. -/
theorem resolves_parts {options : Options} {ruleNames : List Text} {settings : Settings}
    (resolves : options.resolve ruleNames = .ok settings) :
    resolveStartRules ruleNames options.startRules = .ok settings.startRules ∧
      resolveOutput options.output = .ok settings.output ∧
      settings.dependencies = options.dependencies ∧
      ∃ items, elements options.dependencies = .ok items ∧ items.forM checkDependency = .ok ⟨⟩ := by
  obtain ⟨startRules, starts, resolves⟩ := exists_of_bind resolves
  obtain ⟨output, outputs, resolves⟩ := exists_of_bind resolves
  obtain ⟨format, -, resolves⟩ := exists_of_bind resolves
  obtain ⟨exportVar, -, resolves⟩ := exists_of_bind resolves
  obtain ⟨items, found, resolves⟩ := exists_of_bind resolves
  obtain ⟨⟨⟩, checked, resolves⟩ := exists_of_bind resolves
  cases resolves
  exact ⟨starts, outputs, rfl, items, found, checked⟩

/-- The options are refused unless the names of their dependencies are texts. -/
theorem texts_of_resolves {options : Options} {ruleNames : List Text} {settings : Settings}
    (resolves : options.resolve ruleNames = .ok settings) : ∃ items,
      elements options.dependencies = .ok items ∧ ∀ item ∈ items, ∃ name, item = .text name := by
  obtain ⟨-, -, -, items, found, checked⟩ := resolves_parts resolves
  exact ⟨items, found, texts_of_checked checked⟩

end Options

/-! ## Dependencies -/

namespace Dependencies

/-- The variable of a flag with its module. -/
def entryOf (flag : Text) : Text × Value := ((ofFlag flag).1, .text (ofFlag flag).2)

/-- The module that flags give a variable; of several the last one counts. -/
def moduleOf? (flags : List Text) (name : Text) : Option Value :=
  Value.lookup? name (flags.map entryOf).reverse

theorem overlaid_eq {pairs : List (Value × Value)} {named : List (Text × Value)}
    (texts : pairs.mapM nameOf? = some named) (flags : List Text) : overlaid pairs flags =
      .record (Value.setAll (flags.map entryOf) (Value.setAll named [])) := by
  simp only [overlaid, texts, Value.setAll, List.foldl_map]
  rfl

/-- The flags replace the entries of their variables, and all others remain. -/
theorem overlaid_named {pairs : List (Value × Value)} {named : List (Text × Value)}
    (texts : pairs.mapM nameOf? = some named) (flags : List Text) :
    ∃ held, overlaid pairs flags = .record held ∧ ∀ name,
      Value.lookup? name held = (moduleOf? flags name).or (Value.lookup? name named.reverse) := by
  refine ⟨_, overlaid_eq texts flags, fun name => ?_⟩
  rw [Value.lookup?_setAll, Value.lookup?_setAll, moduleOf?]
  simp [Value.lookup?]

theorem exists_of_mapM_eq_none {α β : Type} {f : α → Option β} {items : List α}
    (fails : items.mapM f = none) : ∃ item ∈ items, f item = none := by
  induction items with
  | nil => cases fails
  | cons item rest ih =>
    cases first : f item with
    | none => exact ⟨item, List.mem_cons_self .., first⟩
    | some b =>
      rw [List.mapM_cons, first] at fails
      cases others : rest.mapM f with
      | none =>
        obtain ⟨item, member, none⟩ := ih others
        exact ⟨item, List.mem_cons_of_mem _ member, none⟩
      | some bs =>
        rw [others] at fails
        cases fails

/-- A name of the file that is no text is still among the names. -/
theorem overlaid_unnamed {pairs : List (Value × Value)} (other : pairs.mapM nameOf? = none)
    (flags : List Text) : ∃ items, overlaid pairs flags = .list items ∧
      ∃ item ∈ items, ∀ name, item ≠ .text name := by
  obtain ⟨pair, member, unnamed⟩ := exists_of_mapM_eq_none other
  refine ⟨_, by rw [overlaid, other], pair.1, ?_, fun name same => ?_⟩
  · exact List.mem_append_left _ (List.mem_map_of_mem member)
  · obtain ⟨_, module⟩ := pair
    cases same
    cases unnamed

end Dependencies

/-! ## Flags -/

namespace Arguments

variable (arguments : Arguments)

def dependencyFlags : List Text := (arguments.build.map (·.dependencies)).getD []

/-- The flags for options that have a second spelling. -/
def textFlag? : OptionName → Option Text
  | .startRules => arguments.startRules
  | .exportVar => arguments.build.bind (·.exportVar)
  | _ => none

/-- The value of a flag that is given, and is not empty. -/
def textValue? (value : Text → Value) : Option Text → Option Value
  | none | some [] => none
  | some t => some (value t)

/-- What the flags give an option, where `given` are the options of the file. -/
def flagValue? (given : Options) : OptionName → Option Value
  | .startRules => textValue? ruleList (arguments.textFlag? .startRules)
  | .cache => if arguments.build.any (·.cache) then some (.bool true) else none
  | .trace => if arguments.build.any (·.trace) then some (.bool true) else none
  | .format => (arguments.build.bind (·.format)).map fun format => .text (formatName format)
  | .dependencies =>
    if arguments.dependencyFlags = [] then none
    else (Dependencies.ofValue given.dependencies).toOption.map
      (Dependencies.overlaid · arguments.dependencyFlags)
  | .exportVar => textValue? .text (arguments.textFlag? .exportVar)
  | .output | .collector => none

/-- Where the file has the first spelling of an option with a flag, the second one is not behind it. -/
def Apart (keys : List Text) : Prop :=
  ∀ name second flag, name.second? = some second → arguments.textFlag? name = some flag → flag ≠ [] →
    ∀ before behind, keys = before ++ name.spelling :: behind → second ∉ behind

/-- The options that a command compiles with: it asks for the output that it needs. -/
def handed (options : Options) : Options := options.set .output (.text arguments.outputName)

theorem compile_eq (g : Grammar) (options : Options) : arguments.compile g options =
    g.compile arguments.stages (arguments.handed options) (some [.warning]) := rfl

/-- The options in the order in which the flags are put over them. -/
def order : List OptionName := [.startRules, .cache, .trace, .format, .dependencies, .exportVar]

variable {arguments} {fields : List (Text × Value)}

theorem overlayText_eq (name : OptionName) (value : Text → Value) (flag : Option Text) :
    overlayText name.spelling value flag fields = Options.put name (textValue? value flag) fields := by
  rcases flag with _ | _ | _ <;> rfl

theorem overlayTruth_eq (name : OptionName) (flag : Bool) :
    overlayTruth name.spelling flag fields =
      Options.put name (if flag then some (.bool true) else none) fields := by
  cases flag <;> rfl

theorem overlayFormat_eq (flag : Option ModuleFormat) :
    overlayFormat flag fields =
      Options.put .format (flag.map fun format => .text (formatName format)) fields := by
  cases flag <;> rfl

theorem exists_of_textValue? {value : Text → Value} {flag : Option Text} (given : textValue? value flag ≠ none) :
    ∃ t, flag = some t ∧ t ≠ [] := by
  rcases flag with _ | _ | ⟨c, t⟩
  · exact absurd rfl given
  · exact absurd rfl given
  · exact ⟨c :: t, rfl, nofun⟩

theorem heard_of_apart (distinct : (names fields).Nodup) (apart : arguments.Apart (names fields))
    {given : Options} {name : OptionName} (flagged : arguments.flagValue? given name ≠ none) :
    Options.Heard name (names fields) := by
  intro before behind split key member spells
  rcases OptionName.spelling_of_ofText? spells with rfl | second
  · rw [split] at distinct
    have := (List.nodup_append.mp distinct).2.1
    exact (List.nodup_cons.mp this).1 member
  · obtain ⟨flag, given, present⟩ : ∃ flag, arguments.textFlag? name = some flag ∧ flag ≠ [] := by
      cases name with
      | startRules | exportVar => exact exists_of_textValue? flagged
      | _ => cases second
    exact apart name key flag second given present before behind split member

/-- The file's dependencies, as they are before any flag. -/
def dependenciesOf (fields : List (Text × Value)) : Value :=
  (Value.lookup? "dependencies" fields).getD (.record [])

theorem dependenciesOf_put {name : OptionName} (other : name ≠ .dependencies) (value : Option Value) :
    dependenciesOf (Options.put name value fields) = dependenciesOf fields := by
  cases value with
  | none => rfl
  | some value =>
    have unlike : Text.ofString "dependencies" ≠ name.spelling := by
      cases name <;> first | exact absurd rfl other | decide
    have same := Value.lookup?_setField_of_ne unlike value fields
    simp only [dependenciesOf, Options.put, same]

theorem overlayDependencies_eq (flags : List Text) : overlayDependencies flags fields =
    if flags = [] then .ok fields
    else (Dependencies.ofValue (dependenciesOf fields)).map fun pairs =>
      Options.put .dependencies (some (Dependencies.overlaid pairs flags)) fields := by
  cases flags with
  | nil => rfl
  | cons flag rest =>
    simp only [overlayDependencies, List.isEmpty_cons, Bool.false_eq_true, if_false, reduceCtorEq]
    change (Dependencies.ofValue (dependenciesOf fields) >>= _) = _
    cases Dependencies.ofValue (dependenciesOf fields) <;> rfl

/-- The flags are put in one after another, unless the file's dependencies cannot be added to. -/
theorem overlay_eq (given : Options) (same : given.dependencies = dependenciesOf fields) :
    arguments.overlay fields =
      if arguments.dependencyFlags = [] then .ok (Options.putAll (arguments.flagValue? given) order fields)
      else (Dependencies.ofValue given.dependencies).map fun _ =>
        Options.putAll (arguments.flagValue? given) order fields := by
  obtain ⟨file, startRules, optionFile, debug, _ | build⟩ := arguments
  · simp only [overlay, show Text.ofString "allowed_start_rules" = OptionName.spelling .startRules from rfl,
      overlayText_eq]
    rfl
  · simp only [overlay, show Text.ofString "allowed_start_rules" = OptionName.spelling .startRules from rfl,
      show Text.ofString "cache" = OptionName.spelling .cache from rfl,
      show Text.ofString "trace" = OptionName.spelling .trace from rfl,
      show Text.ofString "export_var" = OptionName.spelling .exportVar from rfl,
      overlayText_eq, overlayTruth_eq, overlayFormat_eq, overlayDependencies_eq]
    simp only [dependenciesOf_put, ne_eq, reduceCtorEq, not_false_eq_true, ← same]
    by_cases without : build.dependencies = []
    · have none' : dependencyFlags ⟨file, startRules, optionFile, debug, some build⟩ = [] := without
      rw [if_pos without, if_pos none']
      simp only [Options.putAll, order, List.foldl_cons, List.foldl_nil, flagValue?, none', if_true]
      rfl
    · have some' : dependencyFlags ⟨file, startRules, optionFile, debug, some build⟩ ≠ [] := without
      rw [if_neg without, if_neg some']
      simp only [Options.putAll, order, List.foldl_cons, List.foldl_nil, flagValue?, some', if_false]
      cases Dependencies.ofValue given.dependencies <;> rfl

/-- The flags can be put in if the file's dependencies can be added to, where a flag does so. -/
theorem overlay_eq_ok {given : Options} (same : given.dependencies = dependenciesOf fields)
    {after : List (Text × Value)} : arguments.overlay fields = .ok after ↔
      (arguments.dependencyFlags ≠ [] → ∃ pairs, Dependencies.ofValue given.dependencies = .ok pairs) ∧
        after = Options.putAll (arguments.flagValue? given) order fields := by
  rw [overlay_eq given same]
  by_cases without : arguments.dependencyFlags = []
  · simp [without, eq_comm]
  · cases Dependencies.ofValue given.dependencies <;> simp [without, Except.map, eq_comm]

theorem options_eq_ok {options : Options} : arguments.options fields = .ok options ↔
    ∃ after, arguments.overlay fields = .ok after ∧ Options.withFields {} after = .ok options := by
  unfold Arguments.options
  cases arguments.overlay fields with
  | error fault => exact iff_of_false nofun nofun
  | ok after =>
    change (Options.withFields {} after).mapError _ = _ ↔ _
    cases read : Options.withFields {} after <;> simp [Except.mapError, read]

theorem dependencies_given (distinct : (names fields).Nodup) {given : Options}
    (own : Options.ofValue (.record fields) = .ok given) : given.dependencies = dependenciesOf fields := by
  have held := Options.withFields_get own .dependencies
  rw [Options.spelled?_of_single rfl distinct] at held
  exact held

/-- The flags override the options of a file: the options that a command compiles with have the value of
every flag that is given, and the value of the file where none is. -/
theorem options_overlaid {text : Text} (read : Json.read text = .ok (.record fields))
    (arguments : Arguments) (apart : arguments.Apart (names fields)) :
    ((∃ options, arguments.options fields = .ok options) ↔
      ∃ given, Options.ofValue (.record fields) = .ok given ∧
        (arguments.dependencyFlags ≠ [] → ∃ pairs, Dependencies.ofValue given.dependencies = .ok pairs)) ∧
    ∀ options given, arguments.options fields = .ok options → Options.ofValue (.record fields) = .ok given →
      (∀ name, name ≠ .output → name ≠ .collector → (arguments.handed options).get name =
        (arguments.flagValue? given name).getD (given.get name)) ∧
      ∀ pairs, arguments.dependencyFlags ≠ [] → Dependencies.ofValue given.dependencies = .ok pairs →
        (∀ named, pairs.mapM Dependencies.nameOf? = some named → ∃ held,
          (arguments.handed options).dependencies = .record held ∧ ∀ name, Value.lookup? name held =
            (Dependencies.moduleOf? arguments.dependencyFlags name).or (Value.lookup? name named.reverse)) ∧
        (pairs.mapM Dependencies.nameOf? = none →
          ∀ ruleNames settings, (arguments.handed options).resolve ruleNames ≠ .ok settings) := by
  have distinct := Json.read_distinct read
  have heard : ∀ {given : Options}, ∀ name ∈ order, arguments.flagValue? given name ≠ none →
      Options.Heard name (names fields) := fun name _ => heard_of_apart distinct apart
  refine ⟨⟨fun ⟨options, ok⟩ => ?_, fun ⟨given, own, adds⟩ => ?_⟩, fun options given ok own => ?_⟩
  · obtain ⟨after, overlaid, read⟩ := options_eq_ok.mp ok
    -- only the dependencies of the file matter for what is put in
    let given : Options := { dependencies := dependenciesOf fields }
    obtain ⟨adds, rfl⟩ := (overlay_eq_ok (show given.dependencies = _ from rfl)).mp overlaid
    have known := Options.known_putAll.mp (Options.withFields_ok_iff.mp ⟨options, read⟩)
    obtain ⟨given, own⟩ := Options.withFields_ok_iff.mpr known
    exact ⟨given, own, by rwa [dependencies_given distinct own]⟩
  · have known := Options.withFields_ok_iff.mp ⟨given, own⟩
    have known : ∀ key ∈ names (Options.putAll (arguments.flagValue? given) order fields), _ :=
      Options.known_putAll.mpr known
    obtain ⟨options, read⟩ := Options.withFields_ok_iff.mpr known
    have overlaid := (overlay_eq_ok (dependencies_given distinct own)).mpr ⟨adds, rfl⟩
    exact ⟨options, options_eq_ok.mpr ⟨_, overlaid, read⟩⟩
  · obtain ⟨after, overlaid, read⟩ := options_eq_ok.mp ok
    obtain ⟨adds, rfl⟩ := (overlay_eq_ok (dependencies_given distinct own)).mp overlaid
    have held : ∀ name, name ≠ .output → name ≠ .collector → (arguments.handed options).get name =
        (arguments.flagValue? given name).getD (given.get name) := by
      intro name output collector
      have member : name ∈ order := by cases name <;> first | decide | contradiction
      rw [handed, Options.get_set, if_neg (Ne.symm output), Options.withFields_get read,
        Options.withFields_get own, Options.spelled?_putAll (by decide) heard, if_pos member]
      cases arguments.flagValue? given name <;> rfl
    refine ⟨held, fun pairs flagged added => ?_⟩
    have dependencies : (arguments.handed options).dependencies =
        Dependencies.overlaid pairs arguments.dependencyFlags := by
      refine (held .dependencies nofun nofun).trans ?_
      simp only [flagValue?, flagged, if_false, added]
      rfl
    rw [dependencies]
    refine ⟨fun named texts => Dependencies.overlaid_named texts _, fun other ruleNames settings resolves => ?_⟩
    obtain ⟨items, found, texts⟩ := Options.texts_of_resolves resolves
    obtain ⟨items', is, item, member, strange⟩ := Dependencies.overlaid_unnamed other arguments.dependencyFlags
    rw [dependencies, is] at found
    cases found
    obtain ⟨name, text⟩ := texts item member
    exact strange name text

/-- The output is not for a file to choose: a command asks for the one that it needs. -/
theorem output_replaced : ∃ (arguments : Arguments) (fields : List (Text × Value))
    (options given : Options),
    Json.read "\x7b\"output\": \"bogus\"\x7d" = .ok (.record fields) ∧
    Options.ofValue (.record fields) = .ok given ∧ arguments.options fields = .ok options ∧
    arguments.flagValue? given .output = none ∧
    (arguments.handed options).get .output ≠ given.get .output := by
  refine ⟨{ file := "g" }, [("output", .text "bogus")], { output := .text "bogus" },
    { output := .text "bogus" }, rfl, rfl, rfl, rfl, fun same => ?_⟩
  exact absurd (Value.text.inj same) (by decide)

def sampleFile : Text := .ofString
  "\x7b\"allowedStartRules\": [\"b\"], \"cache\": false, \"dependencies\": \x7b\"x\": \"m\", \"z\": \"n\"\x7d\x7d"

def sampleFields : List (Text × Value) :=
  [("allowedStartRules", .list [.text "b"]), ("cache", .bool false),
    ("dependencies", .record [("x", .text "m"), ("z", .text "n")])]

/-- Flags for the start rules and for two variables. -/
def sampleArguments : Arguments where
  file := "g"
  startRules := some "a"
  build := some { output := "out", dependencies := ["x:k", "y"] }

theorem sample_overlaid : Json.read sampleFile = .ok (.record sampleFields) ∧
    sampleArguments.Apart (names sampleFields) ∧ ∃ options held,
      sampleArguments.options sampleFields = .ok options ∧
      (sampleArguments.handed options).startRules = .list [.text "a"] ∧
      (sampleArguments.handed options).cache = .bool false ∧
      (sampleArguments.handed options).dependencies = .record held ∧
      Value.lookup? "x" held = some (.text "k") ∧ Value.lookup? "z" held = some (.text "n") := by
  have read : Json.read sampleFile = .ok (.record sampleFields) := by rfl
  have apart : sampleArguments.Apart (names sampleFields) := by
    intro name second flag spelled given present before behind split
    have member : name.spelling ∈ names sampleFields := by
      rw [split]
      exact List.mem_append_right _ (List.mem_cons_self ..)
    cases name with
    | startRules | exportVar => exact absurd member (by decide)
    | _ => cases spelled
  obtain ⟨reaches, holds⟩ := options_overlaid read sampleArguments apart
  let given : Options := {
    startRules := .list [.text "b"]
    cache := .bool false
    dependencies := .record [("x", .text "m"), ("z", .text "n")] }
  have own : Options.ofValue (.record sampleFields) = .ok given := by rfl
  obtain ⟨options, ok⟩ := reaches.mpr ⟨given, own, fun _ => ⟨_, rfl⟩⟩
  obtain ⟨overlaid, adds⟩ := holds options given ok own
  obtain ⟨held, record, entries⟩ := (adds _ (by decide) rfl).1 _ rfl
  refine ⟨read, apart, options, held, ok, overlaid .startRules nofun nofun, overlaid .cache nofun nofun,
    record, (entries "x").trans ?_, (entries "z").trans ?_⟩ <;> rfl

end Arguments

end PegCompiler
