/-!
# JSON values

A value as an inductive type. An object is the list of its fields in the order in which their names
were first written, so a field of it is the first entry with its name.
-/

set_option autoImplicit false
set_option relaxedAutoImplicit false

namespace BoundNames

/-- A JSON number is an integer if it was written as one and fits in 64 bits, and a binary64 value
otherwise. -/
inductive Json.Number where
  | integer (value : Int)
  | float (value : Float)

/-- A JSON value. -/
inductive Json where
  | null
  | bool (value : Bool)
  | number (value : Json.Number)
  | string (value : String)
  | array (items : List Json)
  | object (fields : List (String × Json))

namespace Json

instance : Inhabited Json := ⟨null⟩

instance : Coe String Json := ⟨string⟩

instance : Coe Bool Json := ⟨bool⟩

/-- The number `n` as a JSON value. -/
def ofNat (n : Nat) : Json :=
  number (.integer n)

/-- The word for the sort of a value. -/
def sort : Json → String
  | null => "null"
  | bool _ => "boolean"
  | number _ => "number"
  | string _ => "string"
  | array _ => "array"
  | object _ => "object"

/-- Whether a value is `null`. -/
def isNull : Json → Bool
  | null => true
  | _ => false

/-- The text of a string value. -/
def text? : Json → Option String
  | string s => some s
  | _ => none

/-- The value of a number that was written as an integer and is not negative. -/
def nat? : Json → Option Nat
  | number (.integer (.ofNat n)) => some n
  | _ => none

/-- Whether a value is `true`. -/
def isTrue : Json → Bool
  | bool b => b
  | _ => false

/-- The first field with a name. -/
def field? (key : String) : List (String × Json) → Option Json
  | [] => none
  | (k, v) :: rest => if k = key then some v else field? key rest

/-- The text of the first field with a name, if that field is a string. -/
def textField? (key : String) (fields : List (String × Json)) : Option String :=
  (field? key fields).bind text?

/-- Whether the first field with a name is `true`. -/
def flag (key : String) (fields : List (String × Json)) : Bool :=
  ((field? key fields).map isTrue).getD false

/-- Adds a field. A name that is there already keeps its place and takes the new value. -/
def insertField (key : String) (value : Json) : List (String × Json) → List (String × Json)
  | [] => [(key, value)]
  | (k, v) :: rest => if k = key then (k, value) :: rest else (k, v) :: insertField key value rest

theorem field?_insertField_self (key : String) (value : Json) (fields : List (String × Json)) :
    field? key (insertField key value fields) = some value := by
  induction fields with
  | nil => simp [insertField, field?]
  | cons head rest ih =>
    by_cases h : head.1 = key
    · simp [insertField, field?, h]
    · simp [insertField, field?, h, ih]

theorem field?_insertField_of_ne {key other : String} (h : other ≠ key) (value : Json)
    (fields : List (String × Json)) :
    field? other (insertField key value fields) = field? other fields := by
  induction fields with
  | nil => simp [insertField, field?, Ne.symm h]
  | cons head rest ih =>
    by_cases hk : head.1 = key
    · simp [insertField, field?, hk, Ne.symm h]
    · by_cases ho : head.1 = other
      · simp [insertField, field?, ho, h]
      · simp [insertField, field?, hk, ho, ih]

end Json

end BoundNames
