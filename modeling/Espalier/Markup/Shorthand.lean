/-
Input shorthands: a tag such as `checkbox`, written bare, stands for an `input`
element with `type:checkbox` ahead of its other attributes, so that a type the
author writes still counts.
-/
import Espalier.Text.Split

namespace Espalier.Markup

open Espalier.Text

/-- Settings of a markup parse. -/
structure Settings where
  /-- Lower-case tag names that stand for an `input` element of that type. -/
  shorthands : List String :=
    ["checkbox", "radio", "text", "number", "password", "url"]
deriving DecidableEq, Repr, Inhabited

/-- The settings that hold when none are given. -/
def Settings.standard : Settings := {}

/-- Whether a lower-case tag name is a shorthand. -/
def Settings.isShorthand (settings : Settings) (tag : String) : Bool :=
  settings.shorthands.contains tag

/-- A tag as written, cut at its first `.` into the name and, if there is a `.`,
the class list behind it. -/
def cutTag (tag : String) : String × Option String :=
  match splitFirst '.' tag.toList with
  | some (name, classes) => (String.ofList name, some (String.ofList classes))
  | none => (tag, none)

/-- Expand a shorthand in a tag and its attribute block.  Letter case does not
matter to the name, the classes stay, and any other tag stays as it is. -/
def Settings.expand (settings : Settings) (tag params : String) : String × String :=
  let (name, classes) := cutTag tag
  let kind := name.toLower
  if settings.isShorthand kind then
    let tag :=
      match classes with
      | some classes => "input." ++ classes
      | none => "input"
    let params :=
      if params.isEmpty then "type:" ++ kind else "type:" ++ kind ++ "," ++ params
    (tag, params)
  else (tag, params)

end Espalier.Markup
