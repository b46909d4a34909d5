/-
The settings of a markup parse as a JSON text,
`{"input_shorthands":["checkbox","radio"]}`.  The field may be missing; then the
standard shorthands hold.  Other fields do not matter.
-/
import Espalier.Json.Text
import Espalier.Markup.Shorthand

namespace Espalier.Markup.Settings

/-- The settings as a JSON value. -/
def toJson (settings : Settings) : Json :=
  .ofMembers [("input_shorthands", .ofList .ofText settings.shorthands)]

/-- The settings that a JSON value describes. -/
def ofJson? (json : Json) : Option Settings := do
  match ← json.record? ["input_shorthands"] with
  | [some shorthands] => return ⟨← shorthands.list? Json.text?⟩
  | _ => return standard

/-- The settings as a JSON text. -/
def toText (settings : Settings) : String :=
  settings.toJson.toText

/-- The settings that a JSON text describes. -/
def ofText? (text : String) : Option Settings := do
  ofJson? (← Json.ofText? text)

end Espalier.Markup.Settings
