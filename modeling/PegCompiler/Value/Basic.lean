import PegCompiler.Text.Quoted
import PegCompiler.Value.Double

/-!
Dynamic values. Option files hold them, and a parse gives one: what user code returns is not known
beforehand. `written` is the form of a value in emitted code and inside lists, `shown` its form in
a message, which differs for a text only. Truth values count as the numbers one and zero when
values are compared.
-/

namespace PegCompiler

inductive Value
  | null
  | bool (truth : Bool)
  | integer (n : Int)
  | float (x : Double)
  | text (t : Text)
  | list (items : List Value)
  | record (fields : List (Text × Value))
  deriving Repr, Inhabited

namespace Value

instance : Coe Text Value := ⟨text⟩

/-- The number that a value is; a truth value stands for one. -/
def number? : Value → Option Number
  | bool truth => some (.integer truth.toInt)
  | integer n => some (.integer n)
  | float x => some (.double x)
  | _ => none

/-- Nothing, zero and everything empty are false in a condition. -/
def isTrue : Value → Bool
  | null => false
  | bool truth => truth
  | integer n => n != 0
  | float x => x.isTrue
  | text t => !t.isEmpty
  | list items => !items.isEmpty
  | record fields => !fields.isEmpty

def isCollection : Value → Bool
  | list _ | record _ => true
  | _ => false

def lookup? (name : Text) : List (Text × Value) → Option Value
  | [] => none
  | (key, value) :: rest => if key = name then some value else lookup? name rest

/-- The field `name` is set to `value`; a name seen before keeps its place. -/
def setField (name : Text) (value : Value) : List (Text × Value) → List (Text × Value)
  | [] => [(name, value)]
  | (key, old) :: rest =>
    if key = name then (key, value) :: rest else (key, old) :: setField name value rest

theorem lookup?_setField_self (name : Text) (value : Value) (fields : List (Text × Value)) :
    lookup? name (setField name value fields) = some value := by
  induction fields with
  | nil => simp [setField, lookup?]
  | cons field rest ih => by_cases h : field.1 = name <;> simp [setField, lookup?, h, ih]

theorem lookup?_setField_of_ne {name other : Text} (h : other ≠ name) (value : Value)
    (fields : List (Text × Value)) :
    lookup? other (setField name value fields) = lookup? other fields := by
  induction fields with
  | nil => simp [setField, lookup?, Ne.symm h]
  | cons field rest ih =>
    by_cases hk : field.1 = name
    · simp [setField, lookup?, hk, Ne.symm h]
    · simp [setField, lookup?, hk, ih]

/-- The field `name` of a record. -/
def field? (name : Text) : Value → Option Value
  | record fields => lookup? name fields
  | _ => none

mutual

/-- Equality of values; the order of a record's fields does not matter. -/
def same : Value → Value → Bool
  | null, null => true
  | text a, text b => a == b
  | list as, list bs => sameItems as bs
  | record as, record bs => as.length == bs.length && sameFields as bs
  | bool a, b => b.number?.any (Number.same (.integer a.toInt))
  | integer a, b => b.number?.any (Number.same (.integer a))
  | float a, b => b.number?.any (Number.same (.double a))
  | _, _ => false

def sameItems : List Value → List Value → Bool
  | [], [] => true
  | a :: as, b :: bs => same a b && sameItems as bs
  | _, _ => false

/-- Every field of the first record has an equal one in the second. -/
def sameFields : List (Text × Value) → List (Text × Value) → Bool
  | [], _ => true
  | (name, a) :: rest, others =>
    (match lookup? name others with
      | some b => same a b
      | none => false) && sameFields rest others

end

instance : BEq Value := ⟨same⟩

mutual

def written : Value → Text
  | null => "None"
  | bool true => "True"
  | bool false => "False"
  | integer n => Text.ofInt n
  | float x => x.written
  | text t => t.quoted
  | list items => "[" ++ Text.join ", " (writtenItems items) ++ "]"
  | record fields => "\x7b" ++ Text.join ", " (writtenFields fields) ++ "\x7d"

def writtenItems : List Value → List Text
  | [] => []
  | item :: rest => written item :: writtenItems rest

def writtenFields : List (Text × Value) → List Text
  | [] => []
  | (name, value) :: rest => (name.quoted ++ ": " ++ written value) :: writtenFields rest

end

def shown : Value → Text
  | text t => t
  | value => written value

/-- The written form of a fixed row of values; a row of one keeps a comma. -/
def writtenRow : List Value → Text
  | [item] => "(" ++ written item ++ ",)"
  | items => "(" ++ Text.join ", " (items.map written) ++ ")"

end Value

end PegCompiler
