import PegCompiler.Proofs.Compile.Generation
import PegCompiler.Proofs.CommandLine.Overriding

/-!
Option values of the right type. The compiler checks what an option says, but takes for granted that a
name is a text and that names are in a list; `OptionName.Takes` are the values for which that is so. If a
file has no others, flags over it bring in no others (`Options.takes_flagValue`), and what is then wrong
with an option is told by its check (`Arguments.options_told`, `Options.resolve_invalid`).
-/

namespace PegCompiler

namespace OptionName

/-- The values that an option can be checked with: texts where it has names, and a list or a record
around them where there are several. -/
def Takes : OptionName → Value → Prop
  | startRules, value =>
    value = .null ∨ ∃ items, value = .list items ∧ ∀ item ∈ items, ∃ name, item = .text name
  | dependencies, value =>
    ∃ fields, value = .record fields ∧ ∀ field ∈ fields, ∃ path, field.2 = .text path
  | exportVar, value => value = .null ∨ ∃ name, value = .text name
  | _, _ => True

end OptionName

namespace Options

/-- Every option of a record has a value that it takes. -/
def FieldsTyped (fields : List (Text × Value)) : Prop :=
  ∀ field ∈ fields, ∀ name, OptionName.ofText? field.1 = some name → name.Takes field.2

/-- Every option has a value that it takes. -/
def Typed (options : Options) : Prop := ∀ name : OptionName, name.Takes (options.get name)

theorem typed_default : Typed {} := by
  intro name
  cases name with
  | startRules | exportVar => exact .inl rfl
  | dependencies => exact ⟨[], rfl, nofun⟩
  | _ => trivial

variable {fields : List (Text × Value)} {name : OptionName} {value : Value}

theorem takes_spelled (typed : FieldsTyped fields) (found : spelled? name fields = some value) :
    name.Takes value := by
  induction fields with
  | nil => cases found
  | cons field rest ih =>
    obtain ⟨here, others⟩ := List.forall_mem_cons.mp typed
    rw [spelled?] at found
    cases behind : spelled? name rest with
    | some last =>
      rw [behind] at found
      exact ih others (behind.trans found)
    | none =>
      rw [behind, Option.none_or] at found
      split at found
      · exact Option.some.inj found ▸ here name ‹_›
      · cases found

theorem typed_of_fields (typed : FieldsTyped fields) {options : Options}
    (read : withFields {} fields = .ok options) : options.Typed := by
  intro name
  rw [withFields_get read]
  cases found : spelled? name fields with
  | some value => exact takes_spelled typed found
  | none => exact typed_default name

theorem FieldsTyped.put (typed : FieldsTyped fields) {value : Option Value}
    (takes : ∀ v, value = some v → name.Takes v) : FieldsTyped (put name value fields) := by
  cases value with
  | none => exact typed
  | some value =>
    intro field member other known
    rcases Value.mem_setField member with ⟨same, rfl⟩ | before
    · rw [same, OptionName.ofText?_spelling] at known
      obtain rfl := Option.some.inj known
      exact takes _ rfl
    · exact typed field before other known

theorem FieldsTyped.putAll {value? : OptionName → Option Value}
    (takes : ∀ name v, value? name = some v → name.Takes v) (order : List OptionName)
    (typed : FieldsTyped fields) : FieldsTyped (putAll value? order fields) := by
  induction order generalizing fields with
  | nil => exact typed
  | cons name rest ih => exact ih (typed.put (takes name))

theorem withFields_unknown {fields : List (Text × Value)} {options : Options} {error : OptionError}
    (fails : options.withFields fields = .error error) : ∃ key, error = .unknown key := by
  induction fields generalizing options with
  | nil => cases fails
  | cons field rest ih =>
    rw [withFields] at fails
    split at fails
    · exact ih fails
    · cases fails
      exact ⟨_, rfl⟩

end Options

namespace Dependencies

variable {fields : List (Text × Value)}

theorem mapM_nameOf? (fields : List (Text × Value)) :
    (fields.map fun (name, module) => (Value.text name, module)).mapM nameOf? = some fields := by
  induction fields with
  | nil => rfl
  | cons field rest ih =>
    rw [List.map_cons, List.mapM_cons, ih]
    rfl

/-- Texts with texts over them are texts. -/
theorem takes_overlaid (typed : ∀ field ∈ fields, ∃ path, field.2 = .text path) (flags : List Text) :
    OptionName.Takes .dependencies
      (overlaid (fields.map fun (name, module) => (.text name, module)) flags) := by
  refine ⟨_, overlaid_eq (mapM_nameOf? fields) flags, fun field member => ?_⟩
  rcases Value.mem_setAll member with flagged | given
  · obtain ⟨flag, -, rfl⟩ := List.mem_map.mp flagged
    exact ⟨_, rfl⟩
  · exact typed field ((Value.mem_setAll given).resolve_right List.not_mem_nil)

end Dependencies

/-! ## Faults -/

namespace Failure

/-- An option that there is not, or a value that the check of its option refuses. -/
def IsInvalid : Failure → Prop
  | options (.unknown _) | options (.output _) | options (.format _) | options (.exportVar _)
  | options (.dependency _) => True
  | _ => False

/-- A value that the check of its option, or the compiler, cannot deal with. -/
def IsMistyped : Failure → Prop
  | options (.noElements _) | options (.misplaced _) | startRule _ | emission (.dependencies _)
  | emission (.dependencyPath _) => True
  | _ => False

theorem invalid_or_mistyped (error : OptionError) :
    (options error).IsInvalid ∨ (options error).IsMistyped := by
  cases error <;> simp [IsInvalid, IsMistyped]

end Failure

namespace CommandFault

/-- What a user is told of: something that could not be read or is not what it has to be, or an option
that is not valid. -/
def IsTold : CommandFault → Prop
  | file _ | encoding _ | grammar _ | json .. | notRecord _ | dependency (.notPair ..) => True
  | compilation failure => failure.IsInvalid
  | _ => False

def IsMistyped : CommandFault → Prop
  | dependency .notPairs => True
  | compilation failure => failure.IsMistyped
  | _ => False

end CommandFault

namespace Options

variable {options : Options} {ruleNames : List Text}

theorem checkDependency_invalid {items : List Value} (texts : ∀ item ∈ items, ∃ name, item = .text name)
    {error : OptionError} (fails : items.forM checkDependency = .error error) :
    ∃ name, error = .dependency name := by
  induction items with
  | nil => cases fails
  | cons item rest ih =>
    obtain ⟨⟨name, rfl⟩, others⟩ := List.forall_mem_cons.mp texts
    change (checkDependency (.text name) >>= fun _ => rest.forM checkDependency) = _ at fails
    rcases error_or_ok_of_bind fails with here | ⟨_, -, fails⟩
    · rw [checkDependency] at here
      split at here
      · cases here
      · cases here
        exact ⟨name, rfl⟩
    · exact ih others fails

theorem outputKind_invalid {value : Value} {error : OptionError}
    (fails : outputKind value = .error error) : error = .output value := by
  unfold outputKind at fails
  split at fails
  · cases fails
  · cases fails
    rfl

/-- If every option has a value that it takes, then one that is refused is not valid. -/
theorem resolve_invalid (typed : options.Typed) {error : OptionError}
    (fails : options.resolve ruleNames = .error error) : (Failure.options error).IsInvalid := by
  rcases error_or_ok_of_bind fails with fails | ⟨startRules, -, fails⟩
  · rcases typed .startRules with null | ⟨items, list, -⟩
    · rw [show options.startRules = .null from null] at fails
      cases fails
    · rw [show options.startRules = .list items from list] at fails
      cases fails
  rcases error_or_ok_of_bind fails with fails | ⟨output, -, fails⟩
  · unfold resolveOutput at fails
    split at fails
    all_goals rcases error_or_ok_of_bind fails with fails | ⟨_, -, fails⟩
    · obtain ⟨item, -, fails⟩ := exists_of_mapM_error fails
      rw [outputKind_invalid fails]
      trivial
    · cases fails
    · rw [outputKind_invalid fails]
      trivial
    · cases fails
  rcases error_or_ok_of_bind fails with fails | ⟨format, -, fails⟩
  · unfold resolveFormat at fails
    split at fails
    · cases fails
    · cases fails
      trivial
  rcases error_or_ok_of_bind fails with fails | ⟨exportVar, -, fails⟩
  · rcases typed .exportVar with null | ⟨name, text⟩
    · rw [show options.exportVar = .null from null] at fails
      cases fails
    · rw [show options.exportVar = .text name from text, resolveExportVar] at fails
      split at fails
      · cases fails
      · cases fails
        trivial
  obtain ⟨fields, record, -⟩ := typed .dependencies
  rw [show options.dependencies = .record fields from record] at fails
  rcases error_or_ok_of_bind fails with fails | ⟨items, found, fails⟩
  · cases fails
  cases found
  rcases error_or_ok_of_bind fails with fails | ⟨_, -, fails⟩
  · have texts : ∀ item ∈ fields.map fun field => Value.text field.1, ∃ name, item = .text name :=
      List.forall_mem_map.mpr fun field _ => ⟨field.1, rfl⟩
    obtain ⟨name, rfl⟩ := checkDependency_invalid texts fails
    trivial
  · cases fails

/-- Options with values that they take give settings that the compiler can deal with. -/
theorem settings_typed (typed : options.Typed) {settings : Settings}
    (resolves : options.resolve ruleNames = .ok settings) :
    (∀ value ∈ settings.startRules, value.isCollection = false) ∧ settings.DependsOnTexts := by
  obtain ⟨starts, -, same, -⟩ := resolves_parts resolves
  refine ⟨?_, ?dependencies⟩
  case dependencies =>
    unfold Settings.DependsOnTexts
    rw [same]
    exact typed .dependencies
  have texts : ∀ value ∈ settings.startRules, ∃ name, value = .text name := by
    rcases typed .startRules with null | ⟨items, list, texts⟩
    · rw [show options.startRules = .null from null] at starts
      rw [← Except.ok.inj starts]
      exact List.forall_mem_map.mpr fun name _ => ⟨name, rfl⟩
    · rw [show options.startRules = .list items from list] at starts
      rw [← Except.ok.inj starts]
      exact texts
  intro value member
  obtain ⟨name, rfl⟩ := texts value member
  rfl

end Options

namespace Arguments

variable {arguments : Arguments} {fields : List (Text × Value)}

theorem exists_of_textValue?_eq {value : Text → Value} {flag : Option Text} {v : Value}
    (given : textValue? value flag = some v) : ∃ t, v = value t := by
  rcases flag with _ | _ | ⟨c, t⟩
  · cases given
  · cases given
  · exact ⟨c :: t, (Option.some.inj given).symm⟩

/-- Flags give values that their options take. -/
theorem takes_flagValue {given : Options} (typed : OptionName.Takes .dependencies given.dependencies)
    {name : OptionName} {value : Value} (flagged : arguments.flagValue? given name = some value) :
    name.Takes value := by
  cases name with
  | startRules =>
    obtain ⟨t, rfl⟩ := exists_of_textValue?_eq flagged
    exact .inr ⟨_, rfl, List.forall_mem_map.mpr fun name _ => ⟨name, rfl⟩⟩
  | exportVar =>
    obtain ⟨t, rfl⟩ := exists_of_textValue?_eq flagged
    exact .inr ⟨t, rfl⟩
  | dependencies =>
    obtain ⟨fields, record, texts⟩ := typed
    simp only [flagValue?, record] at flagged
    split at flagged
    · cases flagged
    · cases flagged
      exact Dependencies.takes_overlaid texts _
  | cache | trace | output | format | collector => trivial

theorem takes_dependenciesOf (typed : Options.FieldsTyped fields) :
    OptionName.Takes .dependencies (dependenciesOf fields) := by
  unfold dependenciesOf
  cases found : Value.lookup? "dependencies" fields with
  | none => exact ⟨[], rfl, nofun⟩
  | some value => exact typed _ (Value.mem_of_lookup? found) .dependencies rfl

/-- Flags over options that are typed give options that are typed, and if not, one that there is not is
at fault. -/
theorem options_of_typed (arguments : Arguments) (typed : Options.FieldsTyped fields) :
    (∃ options, arguments.options fields = .ok options ∧ options.Typed) ∨
      ∃ key, arguments.options fields = .error (.compilation (.options (.unknown key))) := by
  let given : Options := { dependencies := dependenciesOf fields }
  have takes : OptionName.Takes .dependencies given.dependencies := takes_dependenciesOf typed
  have ⟨pairs, record, _⟩ := takes
  have overlaid : arguments.overlay fields = .ok (Options.putAll (arguments.flagValue? given) order fields) :=
    (overlay_eq_ok rfl).mpr ⟨fun _ => ⟨_, by rw [record]; rfl⟩, rfl⟩
  have typed := typed.putAll (fun _ _ => @takes_flagValue arguments given takes _ _) order
  unfold Arguments.options
  rw [overlaid]
  change (∃ options, (Options.withFields {} _).mapError _ = .ok options ∧ _) ∨
    ∃ key, (Options.withFields {} _).mapError _ = _
  cases read : Options.withFields {} (Options.putAll (arguments.flagValue? given) order fields) with
  | ok options => exact .inl ⟨options, rfl, Options.typed_of_fields typed read⟩
  | error error =>
    obtain ⟨key, rfl⟩ := Options.withFields_unknown read
    exact .inr ⟨key, rfl⟩

/-- Options of a command that are not there have a fault that is told, or a value of the wrong type. -/
theorem options_fails {fault : CommandFault} (fails : arguments.options fields = .error fault) :
    fault.IsTold ∨ fault.IsMistyped ∧ ¬Options.FieldsTyped fields := by
  by_cases typed : Options.FieldsTyped fields
  · rcases options_of_typed arguments typed with ⟨options, ok, -⟩ | ⟨key, unknown⟩
    · exact nomatch fails.symm.trans ok
    · cases fails.symm.trans unknown
      exact .inl trivial
  · rcases error_or_ok_of_bind fails with fails | ⟨after, -, fails⟩
    · cases overlaid : arguments.overlay fields with
      | ok => rw [overlaid] at fails; cases fails
      | error error =>
        rw [overlaid] at fails
        cases fails
        cases error with
        | notPairs => exact .inr ⟨trivial, typed⟩
        | notPair => exact .inl trivial
    · cases read : Options.ofValue (.record after) with
      | ok => rw [read] at fails; cases fails
      | error error =>
        rw [read] at fails
        cases fails
        obtain ⟨key, rfl⟩ := Options.withFields_unknown read
        exact .inl trivial

end Arguments

end PegCompiler
