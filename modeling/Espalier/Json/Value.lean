/-
JSON values.

Two things are kept as they were read.  A number is its literal, since whether it
fits is for the reader of a field to say.  A string is the text that it spells,
or `none` when its escapes spell one half of a surrogate pair without the other:
such a string is grammatical, and may stand where nobody reads it, but is no text.
-/

namespace Espalier

/-- A JSON value. -/
inductive Json where
  | null
  | bool (value : Bool)
  | number (literal : String)
  | string (text : Option String)
  | array (items : List Json)
  | object (members : List (Option String × Json))
deriving Repr, Inhabited

namespace Json

/-- A string value. -/
def ofText (text : String) : Json :=
  .string (some text)

/-- A number value. -/
def ofNat (n : Nat) : Json :=
  .number (toString n)

/-- `null`, or a value. -/
def ofOption {α : Type} (write : α → Json) : Option α → Json
  | none => .null
  | some a => write a

/-- An array of values. -/
def ofList {α : Type} (write : α → Json) (items : List α) : Json :=
  .array (items.map write)

/-- An object with these members, in this order. -/
def ofMembers (members : List (String × Json)) : Json :=
  .object (members.map fun (name, value) => (some name, value))

/-- The text that a string spells. -/
def text? : Json → Option String
  | .string text => text
  | _ => none

/-- The number that an unsigned decimal literal writes.  A literal with a sign, a
fraction or an exponent writes none. -/
def nat? : Json → Option Nat
  | .number literal =>
      let digits := literal.toList
      if digits.all (·.isDigit) then some (Nat.ofDigitChars 10 digits 0) else none
  | _ => none

/-- A number of at most 32 bits. -/
def word? (json : Json) : Option UInt32 := do
  let n ← json.nat?
  if n < UInt32.size then some (UInt32.ofNat n) else none

/-- `null`, or a value that can be read. -/
def option? {α : Type} (read : Json → Option α) : Json → Option (Option α)
  | .null => some none
  | json => (read json).map some

/-- An array all of whose items can be read. -/
def list? {α : Type} (read : Json → Option α) : Json → Option (List α)
  | .array items => items.mapM read
  | _ => none

/-- An object all of whose names are texts. -/
def members? : Json → Option (List (String × Json))
  | .object members => members.mapM fun (name, value) => name.map (·, value)
  | _ => none

/-- The names of a closed set are written as a text, or as an object whose one
member has that name and the value `null`. -/
def name? : Json → Option String
  | .string text => text
  | .object [(name, .null)] => name
  | _ => none

/-- The value that a name has among some members: `some none` when no member has
the name, `none` when more than one has. -/
def single? (members : List (String × Json)) (name : String) : Option (Option Json) :=
  match members.filter (·.1 == name) with
  | [] => some none
  | [(_, value)] => some (some value)
  | _ => none

/-- The values of a record's fields, in the order of the given names, with `none`
for a field that is missing.  A record is an object, whose members may stand in
any order and among others, or an array of the first few fields in order. -/
def record? (names : List String) : Json → Option (List (Option Json))
  | .array items =>
      if items.length ≤ names.length then
        some (items.map some ++ List.replicate (names.length - items.length) none)
      else none
  | json => do
      let members ← json.members?
      names.mapM (single? members)

end Json

end Espalier
