/-
JSON values.

A value keeps what its text says, in the order of the text: object keys may repeat,
and numbers are integers or decimals as written.  An escape may name one half of a
surrogate pair, which is no character.  A text with such an escape is well-formed JSON
but names no string, so a string and a key are optional strings here.
-/

namespace Schemata

/-- A JSON value. -/
inductive Json where
  | null
  | bool (b : Bool)
  | integer (n : Int)
  /-- A number with a fraction or an exponent, or a negative zero, as written. -/
  | decimal (text : String)
  /-- A string, or a text in quotes that names none. -/
  | string (s? : Option String)
  | array (elements : List Json)
  | object (entries : List (Option String × Json))
deriving Repr, Inhabited

namespace Json

/-- The value of a string. -/
def ofString (s : String) : Json := .string (some s)

/-- The value of an object whose keys are strings. -/
def ofEntries (entries : List (String × Json)) : Json :=
  .object (entries.map fun (key, value) => (some key, value))

/-- White space between the parts of a JSON text. -/
def isBlank (c : Char) : Bool :=
  c = ' ' || c = '\t' || c = '\n' || c = '\r'

/-! ### Equality -/

mutual

/-- Whether two values are the same. -/
def same : Json → Json → Bool
  | null, null => true
  | bool a, bool b => a = b
  | integer a, integer b => a = b
  | decimal a, decimal b => a = b
  | string a, string b => a = b
  | array as, array bs => sameElements as bs
  | object as, object bs => sameEntries as bs
  | _, _ => false

/-- Whether two lists of values are the same. -/
def sameElements : List Json → List Json → Bool
  | [], [] => true
  | a :: as, b :: bs => same a b && sameElements as bs
  | _, _ => false

/-- Whether two lists of entries are the same. -/
def sameEntries : List (Option String × Json) → List (Option String × Json) → Bool
  | [], [] => true
  | (key, a) :: as, (key', b) :: bs => key = key' && same a b && sameEntries as bs
  | _, _ => false

end

mutual

theorem same_iff : (a b : Json) → (same a b = true ↔ a = b)
  | null, b => by cases b <;> simp [same]
  | bool _, b => by cases b <;> simp [same]
  | integer _, b => by cases b <;> simp [same]
  | decimal _, b => by cases b <;> simp [same]
  | string _, b => by cases b <;> simp [same]
  | array as, b => by cases b <;> simp [same, sameElements_iff as]
  | object as, b => by cases b <;> simp [same, sameEntries_iff as]

theorem sameElements_iff : (as bs : List Json) → (sameElements as bs = true ↔ as = bs)
  | [], bs => by cases bs <;> simp [sameElements]
  | a :: as, bs => by cases bs <;> simp [sameElements, same_iff a, sameElements_iff as]

theorem sameEntries_iff :
    (as bs : List (Option String × Json)) → (sameEntries as bs = true ↔ as = bs)
  | [], bs => by cases bs <;> simp [sameEntries]
  | (key, a) :: as, bs => by
      cases bs <;> simp [sameEntries, same_iff a, sameEntries_iff as, Prod.ext_iff]

end

instance : DecidableEq Json := fun a b => decidable_of_iff _ (same_iff a b)

end Json

end Schemata
