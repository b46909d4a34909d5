/-
A sink is what a markup parse builds into: four operations on some state, with
handles for the elements that it holds.  A document is a sink, and so is a
recorder that only writes down how it was called.
-/
import Espalier.Attributes
import Espalier.Tree.Error

namespace Espalier

/-- The four operations of a state `σ` whose elements have handles of type `η`.
An operation that fails may still have changed the state. -/
structure Sink (σ η : Type) where
  /-- Create an element from `tag.c1.c2` as the last child of a parent. -/
  insert (parent : η) (spec : String) : EStateM TreeError σ η
  /-- Apply attributes to an element. -/
  set (node : η) (attributes : Attributes) : EStateM TreeError σ Unit
  /-- Give an element its literal inner markup. -/
  html (node : η) (markup : String) : EStateM TreeError σ Unit
  /-- Bind a lookup key to an element. -/
  register (key : String) (node : η) : EStateM TreeError σ Unit

end Espalier
