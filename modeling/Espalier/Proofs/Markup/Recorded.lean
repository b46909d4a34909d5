/-
What a recorder sees of a parse: the calls of the text, up to the one that it
refuses.
-/
import Espalier.Proofs.Markup.Replay
import Espalier.Proofs.Sink.Recorder

namespace Espalier

open Espalier.Program

/-- A call with other handles. -/
def Call.rename (handle : Nat → Nat) : Call → Call
  | .insert parent spec => .insert (handle parent) spec
  | .set node attributes => .set (handle node) attributes
  | .html node markup => .html (handle node) markup
  | .register node key => .register (handle node) key

namespace Handles

/-- The handles that a recorder gives out below a parent: to every element its number. -/
def numbered (parent : Nat) : Handles Nat where
  of number := if number = 0 then parent else number

/-- The handles after some more inserts, when they were known beforehand. -/
def skip (handles : Handles Nat) (inserts : Nat) : Handles Nat :=
  { handles with count := handles.count + inserts }

theorem skip_skip (handles : Handles Nat) (first second : Nat) :
    (handles.skip first).skip second = handles.skip (first + second) := by
  simp [skip, Nat.add_assoc]

/-- A recorder counts the elements as the handles do. -/
structure Foretell (handles : Handles Nat) (recorder : Recorder) : Prop where
  count_eq : handles.count = recorder.inserted
  of_eq : ∀ number, handles.count < number → handles.of number = number

theorem foretell_numbered (parent : Nat) (failAt : Option Nat) :
    (numbered parent).Foretell { failAt } where
  count_eq := rfl
  of_eq _ hnumber := if_neg (Nat.ne_of_gt hnumber)

variable {handles : Handles Nat} {recorder : Recorder}

theorem Foretell.skip (h : handles.Foretell recorder) (calls : List Call) (inserts : Nat) :
    (handles.skip inserts).Foretell (recorder.wrote calls inserts) where
  count_eq := congrArg (· + inserts) h.count_eq
  of_eq number hnumber := h.of_eq number (Nat.lt_of_le_of_lt (Nat.le_add_right _ _) hnumber)

end Handles

namespace Recorder

variable {handles : Handles Nat} {recorder : Recorder}

/-- A call that a recorder accepts is written down. -/
theorem send_of_ne (h : handles.Foretell recorder)
    (hroom : recorder.failAt ≠ some recorder.calls.size) (call : Call) :
    call.send sink handles recorder =
      .ok (handles.skip ([call].countP Call.isInsert))
        (recorder.wrote [call.rename handles.of] ([call].countP Call.isInsert)) := by
  cases call with
  | insert parent spec =>
      have hinsert : sink.insert (handles.of parent) spec recorder =
          .ok (recorder.inserted + 1) (recorder.wrote [.insert (handles.of parent) spec] 1) :=
        bind_of_ok (record_of_ne hroom _) _
      have hnext : handles.of (handles.count + 1) = recorder.inserted + 1 := by
        rw [h.of_eq _ (Nat.lt_succ_self _), h.count_eq]
      have hadd : handles.add (recorder.inserted + 1) = handles.skip 1 := by
        rw [Handles.add, ← hnext, Function.update_eq_self, Handles.skip]
      rw [Call.send, bind_of_ok hinsert, hadd]
      rfl
  | set node attributes => exact bind_of_ok (record_of_ne hroom _) _
  | html node markup => exact bind_of_ok (record_of_ne hroom _) _
  | register node key => exact bind_of_ok (record_of_ne hroom _) _

theorem send_of_eq (hfull : recorder.failAt = some recorder.calls.size) (call : Call) :
    call.send sink handles recorder =
      .error (.unknownNode (UInt32.ofNat recorder.calls.size)) recorder := by
  cases call with
  | insert parent spec =>
      exact bind_of_error (bind_of_error (record_of_eq hfull _) _) _
  | set node attributes => exact bind_of_error (record_of_eq hfull _) _
  | html node markup => exact bind_of_error (record_of_eq hfull _) _
  | register node key => exact bind_of_error (record_of_eq hfull _) _

/-- A recorder that refuses none of some calls writes all of them down. -/
theorem replay_run (h : handles.Foretell recorder) {calls : List Call}
    (hroom : ∀ limit, recorder.failAt = some limit →
      recorder.calls.size + calls.length ≤ limit) :
    replay sink handles calls recorder =
      .ok (handles.skip (calls.countP Call.isInsert))
        (recorder.wrote (calls.map (Call.rename handles.of)) (calls.countP Call.isInsert)) := by
  induction calls generalizing handles recorder with
  | nil => simp [replay, Handles.skip, pure, EStateM.pure]
  | cons call calls ih =>
      have hhere : recorder.failAt ≠ some recorder.calls.size := by
        intro hfull
        have hlimit := hroom _ hfull
        rw [List.length_cons] at hlimit
        omega
      let middle := recorder.wrote [call.rename handles.of] ([call].countP Call.isInsert)
      have hlater : ∀ limit, middle.failAt = some limit →
          middle.calls.size + calls.length ≤ limit := by
        intro limit hfull
        have hlimit := hroom limit hfull
        simp only [middle, size_calls_wrote, List.length_cons, List.length_nil] at hlimit ⊢
        omega
      rw [replay_cons, bind_of_ok (send_of_ne h hhere call), ih (h.skip _ _) hlater,
        wrote_wrote, Handles.skip_skip, ← List.countP_append]
      rfl

/-- A recorder that refuses one of some calls has written down those before it. -/
theorem replay_refused (h : handles.Foretell recorder) {limit : Nat}
    (hfail : recorder.failAt = some limit) {calls : List Call}
    (hlow : recorder.calls.size ≤ limit) (hhigh : limit < recorder.calls.size + calls.length) :
    ∃ cut, replay sink handles calls recorder = .error (.unknownNode (UInt32.ofNat limit)) cut ∧
      cut.calls.toList = recorder.calls.toList ++
        (calls.map (Call.rename handles.of)).take (limit - recorder.calls.size) := by
  obtain ⟨front, call, back, rfl, hlength⟩ : ∃ front call back, calls = front ++ call :: back ∧
      front.length = limit - recorder.calls.size := by
    have hindex : limit - recorder.calls.size < calls.length := by omega
    refine ⟨calls.take (limit - recorder.calls.size), calls[limit - recorder.calls.size],
      calls.drop (limit - recorder.calls.size + 1), ?_, ?_⟩
    · rw [List.getElem_cons_drop, List.take_append_drop]
    · rw [List.length_take]
      omega
  have hroom : ∀ other, recorder.failAt = some other →
      recorder.calls.size + front.length ≤ other := by
    intro other hother
    rw [hfail] at hother
    obtain rfl := Option.some.inj hother
    omega
  have hfront := replay_run h hroom
  let cut := recorder.wrote (front.map (Call.rename handles.of)) (front.countP Call.isInsert)
  have hfull : cut.failAt = some cut.calls.size := by
    simp only [cut, failAt_wrote, size_calls_wrote, List.length_map, hfail, hlength]
    congr 1
    omega
  have hsize : cut.calls.size = limit := by
    rw [failAt_wrote, hfail] at hfull
    exact (Option.some.inj hfull).symm
  refine ⟨cut, ?_, ?_⟩
  · rw [replay_append, bind_of_ok hfront, replay_cons, bind_of_error (send_of_eq hfull call),
      hsize]
  · simp [cut, wrote, ← hlength]

end Recorder

namespace Markup

variable {α : Type}

/-- A run into a recorder that refuses no call, against the runs into recorders that
refuse the call after a number of others.  If there is such a call, the run ends with
it and has made the calls before it; otherwise nothing is different. -/
structure SeesPrefix (run : EStateM ParseError Recorder α) (answer : α) (whole : Recorder) :
    Prop where
  accepted : run {} = .ok answer whole
  unaffected : ∀ limit, whole.calls.size ≤ limit →
    run { failAt := some limit } = .ok answer { whole with failAt := some limit }
  refused : ∀ limit, limit < whole.calls.size →
    ∃ cut, run { failAt := some limit } =
        .error (.tree (.unknownNode (UInt32.ofNat limit))) cut ∧
      cut.calls.toList = whole.calls.toList.take limit

theorem seesPrefix_replay (parent : Nat) (calls : List Call) (answer : Handles Nat → α) :
    let handles := Handles.numbered parent
    let inserts := calls.countP Call.isInsert
    SeesPrefix (do
        let after ← (replay Recorder.sink handles calls).adaptExcept .tree
        return answer after)
      (answer (handles.skip inserts))
      (({} : Recorder).wrote (calls.map (Call.rename handles.of)) inserts) := by
  intro handles inserts
  constructor
  · have hroom : ∀ limit, ({} : Recorder).failAt = some limit →
        ({} : Recorder).calls.size + calls.length ≤ limit := nofun
    have hrun := Recorder.replay_run (Handles.foretell_numbered parent none) hroom
    exact bind_of_ok (adaptExcept_of_ok hrun _) _
  · intro limit hlimit
    let recorder : Recorder := { failAt := some limit }
    have hroom : ∀ other, recorder.failAt = some other →
        recorder.calls.size + calls.length ≤ other := by
      intro other hother
      obtain rfl := Option.some.inj hother
      simpa [recorder] using hlimit
    have hrun := Recorder.replay_run (Handles.foretell_numbered parent (some limit)) hroom
    exact bind_of_ok (adaptExcept_of_ok hrun _) _
  · intro limit hlimit
    let recorder : Recorder := { failAt := some limit }
    have hhigh : limit < recorder.calls.size + calls.length := by
      simpa [recorder] using hlimit
    obtain ⟨cut, hrun, hcalls⟩ := Recorder.replay_refused
      (Handles.foretell_numbered parent (some limit)) rfl (Nat.zero_le limit) hhigh
    refine ⟨cut, bind_of_error (adaptExcept_of_error hrun _) _, ?_⟩
    simpa [Recorder.wrote] using hcalls

/-- A recorder writes down the calls of the structure of a text. -/
theorem seesPrefix_parse (settings : Settings) (parent : Nat) {text : String}
    {blocks : Blocks} (hfits : blocks.Fits) (htext : text.toList = blocks.text) :
    SeesPrefix (parse Recorder.sink settings parent text) parent
      (({} : Recorder).wrote
        ((blocks.calls settings 0 0).map (Call.rename (Handles.numbered parent).of))
        ((blocks.calls settings 0 0).countP Call.isInsert)) := by
  have hparse : parse Recorder.sink settings parent text = _ :=
    parse_eq_replay Recorder.sink settings (.numbered parent) rfl hfits htext
  rw [hparse]
  exact seesPrefix_replay parent (blocks.calls settings 0 0) fun _ => parent

/-- When a call of a parse fails, the sink has seen the calls before it and sees
nothing more: a recorder that refuses a call has written down a prefix of what one
that refuses none writes down, the error is the refusal, and any sink at all gets its
calls from one list, one after the other up to the first that fails.  A text with a
brace fault leads to no call. -/
theorem parse_prefix (settings : Settings) (text : String) :
    (∀ fault, Pairing.ofText text.toList = .error fault → ∀ (parent : Nat) recorder,
      parse Recorder.sink settings parent text recorder = .error (.braces fault) recorder) ∧
    (Accepted text.toList →
      (∀ parent, ∃ whole,
        SeesPrefix (parse Recorder.sink settings parent text) parent whole) ∧
      ∃ calls, ∀ (σ η : Type) (sink : Sink σ η) (parent : η),
        parse sink settings parent text = (do
          let _ ← (replay sink { of := fun _ => parent } calls).adaptExcept .tree
          return parent)) ∧
    (∀ parent, ∃ last whole,
      SeesPrefix (parseHeader Recorder.sink settings parent text) last whole) ∧
    ∃ calls, ∀ (σ η : Type) (sink : Sink σ η) (parent : η), ∃ last : Handles η → Option η,
      parseHeader sink settings parent text = (do
        let after ← (replay sink { of := fun _ => parent } calls).adaptExcept .tree
        return last after) := by
  refine ⟨?_, ?_, ?_, ?_⟩
  · intro fault hfault parent recorder
    exact parse_of_fault Recorder.sink settings parent hfault recorder
  · intro haccepted
    obtain ⟨blocks, hfits, htext⟩ := accepted_iff.mp haccepted
    constructor
    · intro parent
      exact ⟨_, seesPrefix_parse settings parent hfits htext⟩
    · refine ⟨blocks.calls settings 0 0, ?_⟩
      intro σ η sink parent
      exact parse_eq_replay sink settings { of := fun _ => parent } rfl hfits htext
  · intro parent
    have hparse : parseHeader Recorder.sink settings parent text = _ :=
      parseHeader_eq_replay Recorder.sink settings (.numbered parent) rfl text
    rw [hparse]
    exact ⟨_, _, seesPrefix_replay parent (callsOf settings 0 0 (drafts text.toList)) _⟩
  · refine ⟨callsOf settings 0 0 (drafts text.toList), ?_⟩
    intro σ η sink parent
    exact ⟨_, parseHeader_eq_replay sink settings { of := fun _ => parent } rfl text⟩

/-- The third call of a list with an item is refused: the first two were made. -/
theorem parse_prefix_third_call :
    let text := "ul\x7bli#a\x7dp"
    Accepted text.toList ∧
      (∃ whole, parse Recorder.sink .standard 7 text {} = .ok 7 whole ∧
        whole.calls.toList = [.insert 7 "ul", .insert 1 "li", .register 2 "a", .insert 7 "p"]) ∧
      (∃ cut, parse Recorder.sink .standard 7 text { failAt := some 2 } =
          .error (.tree (.unknownNode 2)) cut ∧
        cut.calls.toList = [.insert 7 "ul", .insert 1 "li"]) ∧
      parse Recorder.sink .standard 7 "ul\x7b" { failAt := some 0 } =
        .error (.braces (.unclosed 2)) { failAt := some 0 } := by
  intro text
  let blocks : Blocks := .block "ul".toList (.last "li#a".toList) (.last ['p'])
  have hfits : blocks.Fits := by decide
  have htext : text.toList = blocks.text := by decide
  have haccepted : Accepted text.toList := accepted_iff.mpr ⟨blocks, hfits, htext⟩
  obtain ⟨-, hseen, -⟩ := parse_prefix .standard text
  obtain ⟨whole, hwhole⟩ := (hseen haccepted).1 7
  have hcalls : whole.calls.toList =
      [.insert 7 "ul", .insert 1 "li", .register 2 "a", .insert 7 "p"] := by
    have hrun := (seesPrefix_parse .standard 7 hfits htext).accepted
    have hlist : (blocks.calls .standard 0 0).map (Call.rename (Handles.numbered 7).of) =
        [.insert 7 "ul", .insert 1 "li", .register 2 "a", .insert 7 "p"] := by decide +kernel
    obtain ⟨-, rfl⟩ := EStateM.Result.ok.inj (hrun.symm.trans hwhole.accepted)
    simpa [Recorder.wrote] using hlist
  have hsize : 2 < whole.calls.size := by
    rw [← Array.length_toList, hcalls]
    decide
  obtain ⟨cut, hcut, htake⟩ := hwhole.refused 2 hsize
  rw [hcalls] at htake
  obtain ⟨hfault, -⟩ := parse_prefix .standard "ul\x7b"
  exact ⟨haccepted, ⟨whole, hwhole.accepted, hcalls⟩, ⟨cut, hcut, htake⟩,
    hfault (.unclosed 2) rfl 7 _⟩

end Markup

end Espalier
