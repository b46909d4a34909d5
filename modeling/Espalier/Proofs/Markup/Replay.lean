/-
The calls of a parse.  Which calls a text leads to does not depend on the sink: they
are a list, with numbers in the place of handles, and a parse into any sink makes
the calls of this list one after the other, up to the first that fails.
-/
import Mathlib.Logic.Function.Basic
import Espalier.Proofs.Markup.Declared
import Espalier.Sink.Recorder

namespace Espalier

open Espalier.Program

variable {σ η : Type}

/-! ### Making calls -/

/-- The handles that numbers stand for: 0 for the parent of a parse, and from 1 on
the elements that it has inserted so far. -/
structure Handles (η : Type) where
  count : Nat := 0
  of : Nat → η

/-- A newly inserted element gets the next number. -/
def Handles.add (handles : Handles η) (node : η) : Handles η where
  count := handles.count + 1
  of := Function.update handles.of (handles.count + 1) node

def Call.isInsert : Call → Bool
  | .insert _ _ => true
  | _ => false

/-- Make a call on a sink. -/
def Call.send (sink : Sink σ η) (handles : Handles η) :
    Call → EStateM TreeError σ (Handles η)
  | .insert parent spec => do
      let node ← sink.insert (handles.of parent) spec
      return handles.add node
  | .set node attributes => do
      sink.set (handles.of node) attributes
      return handles
  | .html node markup => do
      sink.html (handles.of node) markup
      return handles
  | .register node key => do
      sink.register key (handles.of node)
      return handles

/-- Make calls one after the other. -/
def replay (sink : Sink σ η) (handles : Handles η) (calls : List Call) :
    EStateM TreeError σ (Handles η) :=
  calls.foldlM (Call.send sink) handles

theorem replay_cons (sink : Sink σ η) (handles : Handles η) (call : Call)
    (calls : List Call) :
    replay sink handles (call :: calls) = (do
      let after ← call.send sink handles
      replay sink after calls) :=
  List.foldlM_cons

theorem replay_append (sink : Sink σ η) (handles : Handles η) (front back : List Call) :
    replay sink handles (front ++ back) = (do
      let after ← replay sink handles front
      replay sink after back) :=
  List.foldlM_append

/-- Handles stay, and there is one more for each insert. -/
structure Handles.Grown (calls : List Call) (before after : Handles η) : Prop where
  count_eq : after.count = before.count + calls.countP Call.isInsert
  of_eq : ∀ number ≤ before.count, after.of number = before.of number

theorem Handles.grown_send (sink : Sink σ η) (handles : Handles η) (call : Call) :
    Returns (handles.Grown [call]) (call.send sink handles) := by
  have hstay : ∀ x : EStateM TreeError σ Unit, call.isInsert = false →
      Returns (handles.Grown [call]) (do x; return handles) := by
    intro x hcall
    refine (Returns.trivial x).bind fun _ _ => Returns.pure ⟨?_, fun _ _ => rfl⟩
    simp [hcall]
  cases call with
  | insert parent spec =>
      refine (Returns.trivial _).bind fun node _ => Returns.pure ⟨rfl, ?_⟩
      intro number hnumber
      have hne : number ≠ handles.count + 1 := Nat.ne_of_lt (Nat.lt_succ_of_le hnumber)
      simp [Handles.add, hne]
  | set node attributes => exact hstay _ rfl
  | html node markup => exact hstay _ rfl
  | register node key => exact hstay _ rfl

theorem Handles.grown_replay (sink : Sink σ η) (handles : Handles η) (calls : List Call) :
    Returns (handles.Grown calls) (replay sink handles calls) := by
  induction calls generalizing handles with
  | nil => exact Returns.pure ⟨rfl, fun _ _ => rfl⟩
  | cons call calls ih =>
      rw [replay_cons]
      refine (handles.grown_send sink call).bind ?_
      intro middle hmiddle s after s' hafter
      have hgrown := ih middle s after s' hafter
      constructor
      · rw [hgrown.count_eq, hmiddle.count_eq, Nat.add_assoc, ← List.countP_append]
        rfl
      · intro number hnumber
        have hlater : number ≤ middle.count := by
          rw [hmiddle.count_eq]
          exact Nat.le_add_right_of_le hnumber
        rw [hgrown.of_eq number hlater, hmiddle.of_eq number hnumber]

namespace Markup

open Espalier.Text

/-! ### One declaration -/

/-- Make a call for a part of a declaration, if that part is written. -/
def whenWritten (part : String) (call : EStateM TreeError σ Unit) :
    EStateM TreeError σ Unit :=
  if part.isEmpty then return else call

/-- A declaration makes its calls one after the other. -/
theorem declare_eq (sink : Sink σ η) (settings : Settings) (parent : η) (draft : Draft) :
    declare sink settings parent draft = (do
      let (spec, params) := settings.expand draft.tag draft.params
      let node ← sink.insert parent spec
      whenWritten params (sink.set node (Attributes.ofBlock params))
      whenWritten draft.text
        (sink.html node (String.ofList (Text.unquote (Text.trim draft.text.toList))))
      whenWritten draft.key (sink.register draft.key node)
      return node) := by
  rw [declare]
  dsimp only
  congr 1
  funext node
  simp only [whenWritten]
  cases (settings.expand draft.tag draft.params).2.isEmpty <;> cases draft.text.isEmpty <;>
    cases draft.key.isEmpty <;> simp

/-- A call for a part of a declaration, if that part is written. -/
def callWhen (part : String) (call : Call) : List Call :=
  if part.isEmpty then [] else [call]

/-- The calls that a declaration leads to, as the element of a number. -/
def Draft.calls (settings : Settings) (parent node : Nat) (draft : Draft) : List Call :=
  let (spec, params) := settings.expand draft.tag draft.params
  .insert parent spec ::
    (callWhen params (.set node (Attributes.ofBlock params)) ++
      callWhen draft.text (.html node (String.ofList (unquote (trim draft.text.toList)))) ++
      callWhen draft.key (.register node draft.key))

theorem countP_callWhen {call : Call} (h : call.isInsert = false) (part : String) :
    (callWhen part call).countP Call.isInsert = 0 := by
  rw [callWhen]
  split
  · rfl
  · simp [h]

/-- A declaration inserts one element. -/
theorem Draft.countP_calls (settings : Settings) (parent node : Nat) (draft : Draft) :
    (draft.calls settings parent node).countP Call.isInsert = 1 := by
  simp only [Draft.calls, List.countP_cons, List.countP_append]
  rw [countP_callWhen rfl, countP_callWhen rfl, countP_callWhen rfl]
  rfl

theorem replay_callWhen (sink : Sink σ η) (handles : Handles η) (part : String)
    {call : Call} {x : EStateM TreeError σ Unit}
    (h : call.send sink handles = (do x; return handles)) :
    replay sink handles (callWhen part call) = (do whenWritten part x; return handles) := by
  rw [callWhen, whenWritten]
  split
  · rfl
  · simp [replay, h]

/-- A declaration makes its calls; the new element is the one of the next number. -/
theorem declare_eq_replay (sink : Sink σ η) (settings : Settings) (handles : Handles η)
    (parent : Nat) (draft : Draft) :
    declare sink settings (handles.of parent) draft = (do
      let after ← replay sink handles (draft.calls settings parent (handles.count + 1))
      return after.of (handles.count + 1)) := by
  have hadd : ∀ node, (handles.add node).of (handles.count + 1) = node := by
    simp [Handles.add]
  let params := (settings.expand draft.tag draft.params).2
  let markup := String.ofList (unquote (trim draft.text.toList))
  have hset : ∀ node, replay sink (handles.add node)
      (callWhen params (.set (handles.count + 1) (Attributes.ofBlock params))) = (do
        whenWritten params (sink.set node (Attributes.ofBlock params))
        return handles.add node) := by
    intro node
    apply replay_callWhen
    rw [Call.send, hadd]
  have hhtml : ∀ node, replay sink (handles.add node)
      (callWhen draft.text (.html (handles.count + 1) markup)) = (do
        whenWritten draft.text (sink.html node markup)
        return handles.add node) := by
    intro node
    apply replay_callWhen
    rw [Call.send, hadd]
  have hkey : ∀ node, replay sink (handles.add node)
      (callWhen draft.key (.register (handles.count + 1) draft.key)) = (do
        whenWritten draft.key (sink.register draft.key node)
        return handles.add node) := by
    intro node
    apply replay_callWhen
    rw [Call.send, hadd]
  simp only [params, markup] at hset hhtml hkey
  simp only [declare_eq, Draft.calls, replay_cons, Call.send, replay_append, hset, hhtml, hkey,
    hadd, bind_assoc, pure_bind]

/-! ### One header -/

/-- The calls that declarations under one parent lead to, when some elements have been
inserted before. -/
def callsOf (settings : Settings) (parent : Nat) : Nat → List Draft → List Call
  | _, [] => []
  | count, draft :: rest =>
      draft.calls settings parent (count + 1) ++ callsOf settings parent (count + 1) rest

/-- Every declaration inserts one element. -/
theorem countP_callsOf (settings : Settings) (parent count : Nat) (drafts : List Draft) :
    (callsOf settings parent count drafts).countP Call.isInsert = drafts.length := by
  induction drafts generalizing count with
  | nil => rfl
  | cons draft rest ih =>
      rw [callsOf, List.countP_append, Draft.countP_calls, ih, List.length_cons, Nat.add_comm]

theorem declareAll_eq_replay (sink : Sink σ η) (settings : Settings) {handles : Handles η}
    {parent : Nat} (hparent : parent ≤ handles.count) (last : Option η) (drafts : List Draft) :
    declareAll sink settings (handles.of parent) last drafts = (do
      let after ← replay sink handles (callsOf settings parent handles.count drafts)
      return if drafts.isEmpty then last else some (after.of after.count)) := by
  induction drafts generalizing handles last with
  | nil => rfl
  | cons draft rest ih =>
      rw [declareAll, declare_eq_replay, callsOf, replay_append]
      simp only [bind_assoc, pure_bind]
      apply (handles.grown_replay sink _).bind_congr
      intro middle hmiddle
      have hcount : middle.count = handles.count + 1 := by
        rw [hmiddle.count_eq, Draft.countP_calls]
      rw [← hmiddle.of_eq parent hparent, ← hcount, ih (by omega)]
      cases rest with
      | nil => rfl
      | cons next rest => rfl

/-- The handle that the elements of a header's block go under. -/
theorem growHeader_eq_replay (sink : Sink σ η) (settings : Settings) {handles : Handles η}
    {parent : Nat} (hparent : parent ≤ handles.count) (header : List Char) :
    growHeader sink settings (handles.of parent) header = (do
      let after ← replay sink handles (callsOf settings parent handles.count (drafts header))
      return if (drafts header).isEmpty then none else some (after.of after.count)) := by
  rw [growHeader, declareAll_eq_replay sink settings hparent]

/-! ### Whole texts -/

namespace Blocks

/-- The calls that a structure leads to below a parent, when some elements have been
inserted before: those of the header, those of the body below the last element of
the header, and those of the rest. -/
def calls (settings : Settings) : Nat → Nat → Blocks → List Call
  | parent, count, last header => callsOf settings parent count (drafts (trim header))
  | parent, count, block header body rest =>
      let inside := count + (drafts (trim header)).length
      let opener := if (drafts (trim header)).isEmpty then parent else inside
      callsOf settings parent count (drafts (trim header)) ++
        (calls settings opener inside body ++
          calls settings parent (inside + body.declarations.length) rest)

/-- Every declaration of a structure inserts one element. -/
theorem countP_calls (settings : Settings) (blocks : Blocks) (parent count : Nat) :
    (blocks.calls settings parent count).countP Call.isInsert = blocks.declarations.length := by
  induction blocks generalizing parent count with
  | last header => rw [calls, countP_callsOf, declarations]
  | block header body rest ihBody ihRest =>
      simp only [calls, declarations, List.countP_append, List.length_append, countP_callsOf,
        ihBody, ihRest]

/-- Growing a structure makes its calls. -/
theorem grow_eq_replay (sink : Sink σ η) (settings : Settings) (blocks : Blocks)
    {handles : Handles η} {parent : Nat} (hparent : parent ≤ handles.count) :
    blocks.grow sink settings (handles.of parent) = (do
      let _ ← replay sink handles (blocks.calls settings parent handles.count)) := by
  induction blocks generalizing handles parent with
  | last header =>
      simp only [grow, calls, growHeader_eq_replay sink settings hparent, bind_assoc, pure_bind]
  | block header body rest ihBody ihRest =>
      simp only [grow, calls, growHeader_eq_replay sink settings hparent, replay_append,
        bind_assoc, pure_bind]
      apply (handles.grown_replay sink _).bind_congr
      intro middle hmiddle
      have hcount : middle.count = handles.count + (drafts (trim header)).length := by
        rw [hmiddle.count_eq, countP_callsOf]
      let opener := if (drafts (trim header)).isEmpty then parent else middle.count
      have hopener : (if (drafts (trim header)).isEmpty then none
          else some (middle.of middle.count)).getD (handles.of parent) = middle.of opener := by
        simp only [opener]
        split
        · exact (hmiddle.of_eq parent hparent).symm
        · rfl
      have hinside : opener ≤ middle.count := by
        simp only [opener]
        split <;> omega
      rw [hopener, ihBody hinside, ← hcount]
      simp only [bind_assoc, pure_bind]
      apply (middle.grown_replay sink _).bind_congr
      intro after hafter
      have hlater : parent ≤ middle.count := by omega
      have hof : after.of parent = handles.of parent := by
        rw [hafter.of_eq parent hlater, hmiddle.of_eq parent hparent]
      have hcount' : after.count = middle.count + body.declarations.length := by
        rw [hafter.count_eq, countP_calls]
      rw [← hof, ← hcount', ihRest (by omega)]

end Blocks

/-- A parse of a text makes the calls of its structure, into any sink. -/
theorem parse_eq_replay (sink : Sink σ η) (settings : Settings) (handles : Handles η)
    (hcount : handles.count = 0) {text : String} {blocks : Blocks} (hfits : blocks.Fits)
    (htext : text.toList = blocks.text) :
    parse sink settings (handles.of 0) text = (do
      let _ ← (replay sink handles (blocks.calls settings 0 0)).adaptExcept .tree
      return handles.of 0) := by
  have hparent : 0 ≤ handles.count := Nat.zero_le _
  rw [parse_eq_grow sink settings _ hfits htext, blocks.grow_eq_replay sink settings hparent,
    hcount, adaptExcept_bind]
  simp only [bind_assoc]
  rfl

/-- So does a parse of a header. -/
theorem parseHeader_eq_replay (sink : Sink σ η) (settings : Settings) (handles : Handles η)
    (hcount : handles.count = 0) (text : String) :
    parseHeader sink settings (handles.of 0) text = (do
      let after ← (replay sink handles
        (callsOf settings 0 0 (drafts text.toList))).adaptExcept .tree
      return if (drafts text.toList).isEmpty then none else some (after.of after.count)) := by
  have hparent : 0 ≤ handles.count := Nat.zero_le _
  rw [parseHeader, growHeader_eq_replay sink settings hparent, hcount, adaptExcept_bind]
  rfl

end Markup

end Espalier
