/-
How a recorder runs: it accepts every call and writes it down, and an insert gets
the next handle, except that it may refuse the call after a number of others.
-/
import Espalier.Proofs.Program
import Espalier.Sink.Recorder

namespace Espalier.Recorder

open Espalier.Program

/-- A recorder that has written more calls down, some of them inserts. -/
def wrote (recorder : Recorder) (calls : List Call) (inserts : Nat) : Recorder :=
  { recorder with
    calls := recorder.calls ++ calls.toArray
    inserted := recorder.inserted + inserts }

@[simp] theorem failAt_wrote (recorder : Recorder) (calls : List Call) (inserts : Nat) :
    (recorder.wrote calls inserts).failAt = recorder.failAt := rfl

@[simp] theorem inserted_wrote (recorder : Recorder) (calls : List Call) (inserts : Nat) :
    (recorder.wrote calls inserts).inserted = recorder.inserted + inserts := rfl

@[simp] theorem size_calls_wrote (recorder : Recorder) (calls : List Call) (inserts : Nat) :
    (recorder.wrote calls inserts).calls.size = recorder.calls.size + calls.length := by
  simp [wrote]

@[simp] theorem wrote_nil (recorder : Recorder) : recorder.wrote [] 0 = recorder := by
  simp [wrote]

@[simp] theorem wrote_wrote (recorder : Recorder) (front back : List Call)
    (first second : Nat) :
    (recorder.wrote front first).wrote back second =
      recorder.wrote (front ++ back) (first + second) := by
  simp [wrote, Nat.add_assoc]

variable {recorder : Recorder}

theorem record_of_ne (hroom : recorder.failAt ≠ some recorder.calls.size) (call : Call) :
    record call recorder = .ok () (recorder.wrote [call] 0) := by
  have hcalls : recorder.calls ++ [call].toArray = recorder.calls.push call := by simp
  rw [record, bind_of_ok (get_run recorder), if_neg hroom, wrote, hcalls]
  rfl

theorem record_of_eq (hfull : recorder.failAt = some recorder.calls.size) (call : Call) :
    record call recorder =
      .error (.unknownNode (UInt32.ofNat recorder.calls.size)) recorder := by
  rw [record, bind_of_ok (get_run recorder), if_pos hfull,
    bind_of_error (throw_run _ recorder)]

section Accepting

variable (hfail : recorder.failAt = none)
include hfail

theorem record_run (call : Call) :
    record call recorder = .ok () (recorder.wrote [call] 0) :=
  record_of_ne (by simp [hfail]) call

theorem insert_run (parent : Nat) (spec : String) :
    sink.insert parent spec recorder =
      .ok (recorder.inserted + 1) (recorder.wrote [.insert parent spec] 1) := by
  simp only [sink]
  rw [bind_of_ok (record_run hfail _)]
  rfl

theorem set_run (node : Nat) (attributes : Attributes) :
    sink.set node attributes recorder = .ok () (recorder.wrote [.set node attributes] 0) :=
  record_run hfail _

theorem html_run (node : Nat) (markup : String) :
    sink.html node markup recorder = .ok () (recorder.wrote [.html node markup] 0) :=
  record_run hfail _

theorem register_run (key : String) (node : Nat) :
    sink.register key node recorder = .ok () (recorder.wrote [.register node key] 0) :=
  record_run hfail _

end Accepting

end Espalier.Recorder
