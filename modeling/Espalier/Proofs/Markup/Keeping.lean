/-
What every operation of a sink keeps, a markup parse into it keeps as well, also
when an operation fails on the way.
-/
import Espalier.Proofs.Markup.Replay

namespace Espalier

open Espalier.Program

variable {σ η : Type}

/-- Every operation of a sink keeps a property of the state. -/
structure Sink.Keeping (P : σ → Prop) (sink : Sink σ η) : Prop where
  insert : ∀ parent spec, Keeps P (sink.insert parent spec)
  set : ∀ node attributes, Keeps P (sink.set node attributes)
  html : ∀ node markup, Keeps P (sink.html node markup)
  register : ∀ key node, Keeps P (sink.register key node)

variable {P : σ → Prop} {sink : Sink σ η} (h : sink.Keeping P)
include h

theorem keeps_send (handles : Handles η) (call : Call) : Keeps P (call.send sink handles) := by
  cases call with
  | insert parent spec => exact (h.insert _ spec).bind fun _ => Keeps.pure _
  | set node attributes => exact (h.set _ attributes).bind fun _ => Keeps.pure _
  | html node markup => exact (h.html _ markup).bind fun _ => Keeps.pure _
  | register node key => exact (h.register key _).bind fun _ => Keeps.pure _

theorem keeps_replay (handles : Handles η) (calls : List Call) :
    Keeps P (replay sink handles calls) := by
  induction calls generalizing handles with
  | nil => exact Keeps.pure handles
  | cons call calls ih =>
      rw [replay_cons]
      exact (keeps_send h handles call).bind fun after => ih after

namespace Markup

variable (settings : Settings) (parent : η) (text : String)

theorem keeps_parse : Keeps P (parse sink settings parent text) := by
  cases hpairing : Pairing.ofText text.toList with
  | error fault =>
      intro s hs
      rw [parse_of_fault sink settings parent hpairing]
      exact hs
  | ok pairing =>
      obtain ⟨blocks, hfits, htext⟩ := accepted_iff.mp ⟨pairing, hpairing⟩
      let handles : Handles η := { of := fun _ => parent }
      have hparse : parse sink settings parent text = _ :=
        parse_eq_replay sink settings handles rfl hfits htext
      rw [hparse]
      exact ((keeps_replay h handles _).adaptExcept _).bind fun _ => Keeps.pure parent

theorem keeps_parseHeader : Keeps P (parseHeader sink settings parent text) := by
  let handles : Handles η := { of := fun _ => parent }
  have hparse : parseHeader sink settings parent text = _ :=
    parseHeader_eq_replay sink settings handles rfl text
  rw [hparse]
  exact ((keeps_replay h handles _).adaptExcept _).bind fun _ => Keeps.pure _

end Markup

end Espalier
