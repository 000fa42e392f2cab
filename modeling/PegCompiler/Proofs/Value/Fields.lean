import Mathlib.Data.List.Nodup
import PegCompiler.Value.Json

/-!
The fields of a record. Setting a field adds its name behind all others, or leaves the names as they are;
so a record that is read from a JSON text has every name once (`Json.read_distinct`). Of several fields
that are set under one name the last one counts (`Value.lookup?_setAll`).
-/

namespace PegCompiler

/-- What is bound has failed, or what is done with it. -/
theorem error_or_ok_of_bind {ε α β : Type} {first : Except ε α} {next : α → Except ε β} {error : ε}
    (fails : (first >>= next) = .error error) :
    first = .error error ∨ ∃ a, first = .ok a ∧ next a = .error error := by
  cases first with
  | error =>
    cases fails
    exact .inl rfl
  | ok a => exact .inr ⟨a, rfl, fails⟩

/-- What is bound has given something. -/
theorem exists_of_bind {ε α β : Type} {first : Except ε α} {next : α → Except ε β} {b : β}
    (ok : (first >>= next) = .ok b) : ∃ a, first = .ok a ∧ next a = .ok b := by
  cases first with
  | error => cases ok
  | ok a => exact ⟨a, rfl, ok⟩

theorem exists_of_mapM_error {ε α β : Type} {f : α → Except ε β} {items : List α} {error : ε}
    (fails : items.mapM f = .error error) : ∃ item ∈ items, f item = .error error := by
  induction items with
  | nil => cases fails
  | cons item rest ih =>
    rw [List.mapM_cons] at fails
    rcases error_or_ok_of_bind fails with here | ⟨_, -, fails⟩
    · exact ⟨item, List.mem_cons_self .., here⟩
    · rcases error_or_ok_of_bind fails with others | ⟨_, -, fails⟩
      · obtain ⟨other, member, here⟩ := ih others
        exact ⟨other, List.mem_cons_of_mem _ member, here⟩
      · cases fails

namespace Value

/-- The names of the fields, in their order. -/
def names (fields : List (Text × Value)) : List Text := fields.map Prod.fst

theorem names_setField (name : Text) (value : Value) (fields : List (Text × Value)) :
    names (setField name value fields) =
      if name ∈ names fields then names fields else names fields ++ [name] := by
  induction fields with
  | nil => simp [setField, names]
  | cons field rest ih =>
    obtain ⟨key, old⟩ := field
    by_cases same : key = name
    · simp [setField, names, same]
    · have other : names ((key, old) :: rest) = key :: names rest := rfl
      rw [setField, if_neg same, other, show names ((key, old) :: setField name value rest) =
        key :: names (setField name value rest) from rfl, ih]
      simp only [List.mem_cons, Ne.symm same, false_or]
      split <;> rfl

theorem nodup_setField {fields : List (Text × Value)} (distinct : (names fields).Nodup) (name : Text)
    (value : Value) : (names (setField name value fields)).Nodup := by
  rw [names_setField]
  split
  · exact distinct
  · rename_i absent
    exact List.nodup_append.mpr ⟨distinct, List.nodup_singleton name, by
      rintro key member other same rfl
      exact absent (List.mem_singleton.mp same ▸ member)⟩

theorem mem_of_lookup? {name : Text} {value : Value} {fields : List (Text × Value)}
    (found : lookup? name fields = some value) : (name, value) ∈ fields := by
  induction fields with
  | nil => cases found
  | cons field rest ih =>
    rw [lookup?] at found
    split at found
    · rename_i same
      exact List.mem_cons.mpr (.inl (Prod.ext same.symm (Option.some.inj found).symm))
    · exact List.mem_cons_of_mem _ (ih found)

theorem mem_setField {name key : Text} {value held : Value} {fields : List (Text × Value)}
    (member : (key, held) ∈ setField name value fields) :
    key = name ∧ held = value ∨ (key, held) ∈ fields := by
  induction fields with
  | nil =>
    obtain ⟨rfl, rfl⟩ := Prod.mk.inj (List.mem_singleton.mp member)
    exact .inl ⟨rfl, rfl⟩
  | cons field rest ih =>
    rw [setField] at member
    split at member
    · rename_i same
      rcases List.mem_cons.mp member with here | others
      · obtain ⟨rfl, rfl⟩ := Prod.mk.inj here
        exact .inl ⟨same, rfl⟩
      · exact .inr (List.mem_cons_of_mem _ others)
    · rcases List.mem_cons.mp member with here | others
      · exact .inr (List.mem_cons.mpr (.inl here))
      · exact (ih others).imp_right (List.mem_cons_of_mem _)

theorem lookup?_append (name : Text) (first second : List (Text × Value)) :
    lookup? name (first ++ second) = (lookup? name first).or (lookup? name second) := by
  induction first with
  | nil => rfl
  | cons field rest ih =>
    rw [List.cons_append, lookup?, lookup?, ih]
    split <;> rfl

/-- Fields that are set one after another. -/
def setAll (entries fields : List (Text × Value)) : List (Text × Value) :=
  entries.foldl (fun fields entry => setField entry.1 entry.2 fields) fields

theorem mem_setAll {field : Text × Value} {entries fields : List (Text × Value)}
    (member : field ∈ setAll entries fields) : field ∈ entries ∨ field ∈ fields := by
  induction entries generalizing fields with
  | nil => exact .inr member
  | cons entry rest ih =>
    rcases ih member with others | set
    · exact .inl (List.mem_cons_of_mem _ others)
    · rcases mem_setField set with ⟨name, value⟩ | before
      · exact .inl (List.mem_cons.mpr (.inl (Prod.ext name value)))
      · exact .inr before

/-- The last one of a name counts. -/
theorem lookup?_setAll (name : Text) (entries fields : List (Text × Value)) :
    lookup? name (setAll entries fields) = (lookup? name entries.reverse).or (lookup? name fields) := by
  induction entries generalizing fields with
  | nil => rfl
  | cons entry rest ih =>
    change lookup? name (setAll rest (setField entry.1 entry.2 fields)) = _
    rw [ih, List.reverse_cons, lookup?_append, Option.or_assoc]
    congr 1
    by_cases same : name = entry.1
    · rw [same, lookup?_setField_self]
      simp [lookup?]
    · rw [lookup?_setField_of_ne same]
      simp [lookup?, Ne.symm same]

end Value

namespace Json

theorem fields_distinct {value : Reading Value} {fuel : Nat} {sofar found : List (Text × Value)}
    {t after : Text} (distinct : (Value.names sofar).Nodup)
    (read : fields value sofar fuel t = .ok (found, after)) : (Value.names found).Nodup := by
  induction fuel generalizing sofar t with
  | zero => cases read
  | succ fuel ih =>
    rw [fields] at read
    split at read
    · obtain ⟨⟨name, rest⟩, -, read⟩ := exists_of_bind read
      dsimp only at read
      split at read
      · obtain ⟨⟨first, rest⟩, -, read⟩ := exists_of_bind read
        have further := Value.nodup_setField distinct name first
        dsimp only at read
        split at read
        · cases read
          exact further
        · exact ih further read
        · cases read
      · cases read
    · cases read

theorem literal?_flat {t after : Text} {value : Value} (read : literal? t = some (value, after)) :
    value.isCollection = false := by
  obtain ⟨⟨name, given⟩, member, found⟩ := List.exists_of_findSome?_eq_some read
  obtain ⟨rest, -, same⟩ := Option.map_eq_some_iff.mp found
  cases same
  have flat : ∀ entry ∈ literals, entry.2.isCollection = false := by simp [literals, Value.isCollection]
  exact flat _ member

theorem number_flat {t after : Text} {value : Value} (read : number t = .ok (value, after)) :
    value.isCollection = false := by
  unfold number at read
  dsimp only at read
  split at read
  · cases read
  · split at read
    · split at read
      · cases read
      · cases read
        rfl
    · cases read
      rfl

theorem value_distinct {fuel : Nat} {t after : Text} {found : List (Text × Value)}
    (read : value fuel t = .ok (.record found, after)) : (Value.names found).Nodup := by
  cases fuel with
  | zero => cases read
  | succ fuel =>
    unfold value at read
    split at read
    · obtain ⟨body, -, read⟩ := exists_of_bind read
      cases read
    · split at read
      · cases read
      · obtain ⟨items, -, read⟩ := exists_of_bind read
        cases read
    · split at read
      · cases read
        exact List.nodup_nil
      · obtain ⟨⟨record, rest⟩, reads, read⟩ := exists_of_bind read
        cases read
        exact fields_distinct (show (Value.names []).Nodup from List.nodup_nil) reads
    · split at read
      · rename_i literal
        cases read
        cases literal?_flat literal
      · cases number_flat read

/-- A record that is read has every name once. -/
theorem read_distinct {t : Text} {found : List (Text × Value)} (read : Json.read t = .ok (.record found)) :
    (Value.names found).Nodup := by
  unfold Json.read at read
  split at read
  · cases read
  · obtain ⟨⟨value, rest⟩, first, read⟩ := exists_of_bind read
    dsimp only at read
    split at read
    · cases read
      exact value_distinct first
    · cases read

end Json

end PegCompiler
