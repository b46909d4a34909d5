/-
JSON texts: a value written out without any space, and a value read back from the
tokens of a text.

Reading keeps the arrays and objects that are still open on a stack, so a text may
nest as deeply as it likes.
-/
import Espalier.Json.Token

namespace Espalier.Json

/-! ### Writing -/

mutual

/-- The tokens of a value. -/
def tokens : Json → List Token
  | .null => [.null]
  | .bool value => [.bool value]
  | .number literal => [.number literal]
  | .string text => [.string text]
  | .array [] => [.beginArray, .endArray]
  | .array (item :: items) => .beginArray :: (item.tokens ++ itemTokens items)
  | .object [] => [.beginObject, .endObject]
  | .object ((name, value) :: members) =>
      .beginObject :: .string name :: .colon :: (value.tokens ++ memberTokens members)

/-- The tokens of an array behind its first item. -/
def itemTokens : List Json → List Token
  | [] => [.endArray]
  | item :: items => .comma :: (item.tokens ++ itemTokens items)

/-- The tokens of an object behind its first member. -/
def memberTokens : List (Option String × Json) → List Token
  | [] => [.endObject]
  | (name, value) :: members =>
      .comma :: .string name :: .colon :: (value.tokens ++ memberTokens members)

end

/-- A value written out. -/
def toText (json : Json) : String :=
  String.ofList (json.tokens.flatMap Token.spell)

/-! ### Reading -/

/-- An array or object that is still open. -/
inductive Frame where
  | array (items : Array Json)
  | object (members : Array (Option String × Json))
  /-- An object of which a member's value is being read. -/
  | member (members : Array (Option String × Json)) (name : Option String)
deriving Inhabited

/-- What has to come next. -/
inductive Expect where
  | value
  /-- A first item, or the end of the array. -/
  | firstItem
  /-- A first name, or the end of the object. -/
  | firstName
  | name
  | colon
  /-- A comma, or the end of what is open. -/
  | next
  /-- Nothing: the whole value has been read. -/
  | done (json : Json)
deriving Inhabited

/-- The state of a reader between two tokens. -/
structure Reader where
  stack : List Frame := []
  expect : Expect := .value
deriving Inhabited

namespace Reader

/-- Put a complete value where it belongs. -/
def complete (json : Json) : List Frame → Reader
  | .array items :: stack => ⟨.array (items.push json) :: stack, .next⟩
  | .member members name :: stack =>
      ⟨.object (members.push (name, json)) :: stack, .next⟩
  | stack => ⟨stack, .done json⟩

/-- Read the first token of a value. -/
def feedValue (stack : List Frame) : Token → Option Reader
  | .null => some (complete .null stack)
  | .bool value => some (complete (.bool value) stack)
  | .number literal => some (complete (.number literal) stack)
  | .string text => some (complete (.string text) stack)
  | .beginArray => some ⟨.array #[] :: stack, .firstItem⟩
  | .beginObject => some ⟨.object #[] :: stack, .firstName⟩
  | _ => none

/-- End the array or object that was opened last. -/
def close (token : Token) : List Frame → Option Reader
  | .array items :: stack =>
      if token = .endArray then some (complete (.array items.toList) stack) else none
  | .object members :: stack =>
      if token = .endObject then some (complete (.object members.toList) stack) else none
  | _ => none

/-- Read the name of a member. -/
def feedName (token : Token) : List Frame → Option Reader
  | .object members :: stack =>
      match token with
      | .string name => some ⟨.member members name :: stack, .colon⟩
      | _ => none
  | _ => none

/-- Read a comma, or the end of what is open. -/
def feedNext (token : Token) (stack : List Frame) : Option Reader :=
  match token, stack with
  | .comma, .array _ :: _ => some ⟨stack, .value⟩
  | .comma, .object _ :: _ => some ⟨stack, .name⟩
  | _, _ => close token stack

/-- Read a token. -/
def feed (reader : Reader) (token : Token) : Option Reader :=
  match reader.expect with
  | .value => feedValue reader.stack token
  | .firstItem =>
      if token = .endArray then close token reader.stack
      else feedValue reader.stack token
  | .firstName =>
      if token = .endObject then close token reader.stack
      else feedName token reader.stack
  | .name => feedName token reader.stack
  | .colon => if token = .colon then some ⟨reader.stack, .value⟩ else none
  | .next => feedNext token reader.stack
  | .done _ => none

end Reader

/-- The value that some tokens write. -/
def ofTokens? (tokens : List Token) : Option Json := do
  let reader ← tokens.foldlM Reader.feed {}
  match reader.expect with
  | .done json => some json
  | _ => none

/-- The value that a text writes.  Space may stand around it, but nothing else. -/
def ofText? (text : String) : Option Json := do
  let tokens ← tokens? text.toList
  ofTokens? tokens

end Espalier.Json
