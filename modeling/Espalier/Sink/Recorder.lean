/-
A sink without a tree: it hands out the handles 1, 2, 3, … and writes down every
call.  It can be told to refuse the call that comes after a given number of
others.
-/
import Espalier.Sink

namespace Espalier

/-- A call that a recorder has accepted. -/
inductive Call where
  | insert (parent : Nat) (spec : String)
  | set (node : Nat) (attributes : Attributes)
  | html (node : Nat) (markup : String)
  | register (node : Nat) (key : String)
deriving DecidableEq

/-- The calls so far, the number of inserts among them, and the number of calls
after which the next one is refused. -/
structure Recorder where
  calls : Array Call := #[]
  inserted : Nat := 0
  failAt : Option Nat := none
deriving DecidableEq

namespace Recorder

/-- Write a call down, or refuse it. -/
def record (call : Call) : EStateM TreeError Recorder Unit := do
  let recorder ← get
  if recorder.failAt = some recorder.calls.size then
    throw (.unknownNode (UInt32.ofNat recorder.calls.size))
  set { recorder with calls := recorder.calls.push call }

/-- The recorder's operations.  An accepted insert takes the next handle. -/
def sink : Sink Recorder Nat where
  insert parent spec := do
    record (.insert parent spec)
    let recorder ← get
    let node := recorder.inserted + 1
    set { recorder with inserted := node }
    return node
  set node attributes := record (.set node attributes)
  html node markup := record (.html node markup)
  register key node := record (.register node key)

end Recorder

end Espalier
