/-
Quoted content never affects structure.  Two texts that differ in literal scalars only
have one brace structure, and a parse of either makes the same calls, but for the data
that the calls pass on.
-/
import Espalier.Proofs.Markup.Alike
import Espalier.Proofs.Markup.Recorded

namespace Espalier

/-- A call without the data that it passes on: its kind, and the handle that it goes
to. -/
def Call.outline : Call → Call
  | .insert parent _ => .insert parent ""
  | .set node _ => .set node ∅
  | .html node _ => .html node ""
  | .register node _ => .register node ""

theorem Call.outline_rename (handle : Nat → Nat) (call : Call) :
    (call.rename handle).outline = call.outline.rename handle := by
  cases call <;> rfl

namespace Markup

open Espalier.Text Espalier.Text.Quote

/-! ### Calls -/

section Calls

variable {settings : Settings}

theorem map_callWhen (f : Call → Call) (part : String) (call : Call) :
    (callWhen part call).map f = callWhen part (f call) := by
  simp only [callWhen]
  split <;> rfl

theorem callWhen_congr {part other : String} (h : part.isEmpty = other.isEmpty) (call : Call) :
    callWhen part call = callWhen other call := by
  simp only [callWhen, h]

/-- Declarations that are alike lead to the same calls, but for their data. -/
theorem Draft.Alike.outline_calls (hsettings : settings.Unmarked) {draft other : Draft}
    (h : draft.Alike other) (parent node : Nat) :
    (draft.calls settings parent node).map Call.outline =
      (other.calls settings parent node).map Call.outline := by
  have hparams : (settings.expand draft.tag draft.params).2.isEmpty =
      (settings.expand other.tag other.params).2.isEmpty := by
    simp only [Settings.isEmpty_params_expand, hsettings.isShorthand_congr h.tag_eq,
      h.params_eq]
  simp only [Draft.calls, List.map_cons, List.map_append, map_callWhen, Call.outline,
    callWhen_congr hparams, callWhen_congr h.text_eq, callWhen_congr h.key_eq]

theorem outline_callsOf (hsettings : settings.Unmarked) {drafts others : List Draft}
    (h : List.Forall₂ Draft.Alike drafts others) (parent count : Nat) :
    (callsOf settings parent count drafts).map Call.outline =
      (callsOf settings parent count others).map Call.outline := by
  induction h generalizing count with
  | nil => rfl
  | cons hdraft _ ih =>
      simp only [callsOf, List.map_append, hdraft.outline_calls hsettings, ih]

end Calls

/-! ### Structures -/

namespace Blocks

/-- Two structures of one shape whose headers differ in literal scalars only. -/
inductive Alike : Blocks → Blocks → Prop
  | last {header other : List Char} (hheader : outside.veil header = outside.veil other) :
      Alike (last header) (last other)
  | block {header other : List Char} {body body' rest rest' : Blocks}
      (hheader : outside.veil header = outside.veil other) (hbody : Alike body body')
      (hrest : Alike rest rest') : Alike (block header body rest) (block other body' rest')

theorem veil_text_block {header : List Char} {body rest : Blocks}
    (h : (block header body rest).Fits) :
    outside.veil (block header body rest).text =
      outside.veil header ++ some '{' ::
        (outside.veil body.text ++ some '}' :: outside.veil rest.text) := by
  obtain ⟨-, hheader, -, hinside, -⟩ := h
  have hopen : outside.literal '{' = false := rfl
  have hclose : outside.literal '}' = false := rfl
  simp [text, veil_append, hheader, hinside, veil_of_bare hopen, veil_of_bare hclose]

theorem braceFree_congr {header other : List Char}
    (h : outside.veil header = outside.veil other) (hfree : braceFree .outside header) :
    braceFree .outside other := by
  rw [braceFree, bareAll_eq_all_veil] at hfree ⊢
  rw [← h]
  exact hfree

/-- A text that differs from a structure in literal scalars only has a structure of the
same shape. -/
theorem exists_alike {blocks : Blocks} (h : blocks.Fits) {text : List Char}
    (hveil : outside.veil text = outside.veil blocks.text) :
    ∃ other : Blocks, other.Fits ∧ text = other.text ∧ blocks.Alike other := by
  induction blocks generalizing text with
  | last header => exact ⟨.last text, braceFree_congr hveil.symm h, rfl, .last hveil.symm⟩
  | block header body rest ihBody ihRest =>
      rw [veil_text_block h] at hveil
      obtain ⟨hfree, -, hbody, -, hrest⟩ := h
      obtain ⟨front, tail, rfl, hfront, htail⟩ := exists_split_of_veil hveil
      obtain ⟨tail, rfl, hclosed, htail⟩ := exists_cons_of_veil htail
      obtain ⟨inner, tail, rfl, hinner, htail⟩ := exists_split_of_veil htail
      obtain ⟨back, rfl, hinside, hback⟩ := exists_cons_of_veil htail
      obtain ⟨body', hbodyFits, rfl, hbodyAlike⟩ := ihBody hbody hinner
      obtain ⟨rest', hrestFits, rfl, hrestAlike⟩ := ihRest hrest hback
      exact ⟨.block front body' rest',
        ⟨braceFree_congr hfront.symm hfree, hclosed, hbodyFits, hinside, hrestFits⟩, rfl,
        .block hfront.symm hbodyAlike hrestAlike⟩

/-- The pairs of a structure, at positions that count scalars. -/
def spansAt : Nat → Blocks → List BracePair
  | _, last _ => []
  | start, block header body rest =>
      let opens := start + header.length
      let closes := opens + 1 + body.text.length
      ⟨opens, closes⟩ :: (spansAt (opens + 1) body ++ spansAt (closes + 1) rest)

variable {blocks other : Blocks}

theorem Alike.length_text (h : blocks.Alike other) :
    blocks.text.length = other.text.length := by
  induction h with
  | last hheader => exact length_eq_of_veil_eq hheader
  | block hheader _ _ ihBody ihRest =>
      simp [text, length_eq_of_veil_eq hheader, ihBody, ihRest]

theorem Alike.spansAt_eq (h : blocks.Alike other) (start : Nat) :
    blocks.spansAt start = other.spansAt start := by
  induction h generalizing start with
  | last _ => rfl
  | block hheader hbody _ ihBody ihRest =>
      simp only [spansAt, length_eq_of_veil_eq hheader, hbody.length_text, ihBody, ihRest]

/-- The declarations of such structures are alike, one by one. -/
theorem Alike.declarations (h : blocks.Alike other) :
    List.Forall₂ Draft.Alike blocks.declarations other.declarations := by
  induction h with
  | last hheader => exact alike_drafts (alike_trim hheader)
  | block hheader _ _ ihBody ihRest =>
      exact List.rel_append (alike_drafts (alike_trim hheader)) (List.rel_append ihBody ihRest)

theorem Alike.outline_calls {settings : Settings} (hsettings : settings.Unmarked)
    (h : blocks.Alike other) (parent count : Nat) :
    (blocks.calls settings parent count).map Call.outline =
      (other.calls settings parent count).map Call.outline := by
  induction h generalizing parent count with
  | last hheader => exact outline_callsOf hsettings (alike_drafts (alike_trim hheader)) _ _
  | @block header front body inner _ _ hheader hbody _ ihBody ihRest =>
      have hdrafts := alike_drafts (alike_trim hheader)
      have hheaderCalls := outline_callsOf hsettings hdrafts
      have hlength := hdrafts.length_eq
      have hempty : (drafts (trim header)).isEmpty = (drafts (trim front)).isEmpty := by
        rw [Bool.eq_iff_iff, List.isEmpty_iff_length_eq_zero, List.isEmpty_iff_length_eq_zero,
          hlength]
      have hbodyLength := hbody.declarations.length_eq
      simp only [calls, List.map_append, hheaderCalls, hlength, hempty, hbodyLength, ihBody, ihRest]

end Blocks

/-! ### Whole texts -/

/-- A pair of byte positions in a text, as the numbers of scalars before them. -/
def BracePair.inScalars (text : List Char) (pair : BracePair) : BracePair where
  opens := (takeBytes pair.opens text).length
  closes := (takeBytes pair.closes text).length

theorem Blocks.inScalars_pairsAt (blocks : Blocks) {whole front back : List Char}
    (hwhole : whole = front ++ (blocks.text ++ back)) {start : Nat}
    (hstart : start = byteLength front) :
    (blocks.pairsAt start).map (BracePair.inScalars whole) = blocks.spansAt front.length := by
  induction blocks generalizing front back start with
  | last header => rfl
  | block header body rest ihBody ihRest =>
      have hbody := ihBody (body_place hwhole) (body_start hstart)
      have hrest := ihRest (rest_place hwhole) (rest_start hstart)
      have hopens : takeBytes (start + byteLength header) whole = front ++ header := by
        have hsplit : whole = (front ++ header) ++
            ('{' :: (body.text ++ '}' :: rest.text) ++ back) := by
          simp [hwhole, text]
        rw [hsplit, hstart, ← byteLength_append, takeBytes_append]
      have hcloses : takeBytes (start + byteLength header + 1 + byteLength body.text) whole =
          front ++ header ++ ['{'] ++ body.text := by
        have hsplit : whole = (front ++ header ++ ['{'] ++ body.text) ++
            ('}' :: (rest.text ++ back)) := by
          simp [hwhole, text]
        rw [body_start hstart, ← byteLength_append, hsplit, takeBytes_append]
      simp only [pairsAt, spansAt, List.map_cons, List.map_append, hbody, hrest,
        BracePair.inScalars, hopens, hcloses, List.length_append, List.length_singleton]

/-- The pairs that the brace pass finds, counted in scalars. -/
theorem Blocks.inScalars_ofText {blocks : Blocks} (h : blocks.Fits) {pairing : Pairing}
    (hpairing : Pairing.ofText blocks.text = .ok pairing) :
    pairing.toList.map (BracePair.inScalars blocks.text) = blocks.spansAt 0 := by
  have hwhole : blocks.text = [] ++ (blocks.text ++ []) := by simp
  rw [Pairing.ofText_text h] at hpairing
  obtain rfl := Except.ok.inj hpairing
  exact blocks.inScalars_pairsAt hwhole rfl

/-- A text with its structure, and one that differs from it in literal scalars only. -/
theorem exists_blocks_of_sameBare {first second : List Char} (h : SameBare first second)
    (haccepted : Accepted first) :
    ∃ blocks other : Blocks, blocks.Fits ∧ other.Fits ∧ first = blocks.text ∧
      second = other.text ∧ blocks.Alike other := by
  obtain ⟨blocks, hfits, rfl⟩ := accepted_iff.mp haccepted
  obtain ⟨other, hother, rfl, halike⟩ := Blocks.exists_alike hfits h.veil_eq.symm
  exact ⟨blocks, other, hfits, hother, rfl, rfl, halike⟩

/-- Texts that differ in literal scalars only are accepted or not together; their pairs
stand at the same places, counted in scalars; and a recorder sees the same calls to the
same handles. -/
theorem parse_blind {settings : Settings} (hsettings : settings.Unmarked) {first second : String}
    (h : SameBare first.toList second.toList) :
    (Accepted first.toList ↔ Accepted second.toList) ∧
    (∀ pairing other, Pairing.ofText first.toList = .ok pairing →
      Pairing.ofText second.toList = .ok other →
        pairing.toList.map (BracePair.inScalars first.toList) =
          other.toList.map (BracePair.inScalars second.toList)) ∧
    (Accepted first.toList → ∀ parent, ∃ whole other,
      parse Recorder.sink settings parent first {} = .ok parent whole ∧
      parse Recorder.sink settings parent second {} = .ok parent other ∧
      whole.calls.toList.map Call.outline = other.calls.toList.map Call.outline) := by
  have haccepts : ∀ {first second : List Char}, SameBare first second → Accepted first →
      Accepted second := by
    intro first second h haccepted
    obtain ⟨_, other, _, hother, _, hsecond, _⟩ := exists_blocks_of_sameBare h haccepted
    exact accepted_iff.mpr ⟨other, hother, hsecond⟩
  refine ⟨⟨haccepts h, haccepts h.symm⟩, ?_, ?_⟩
  · intro pairing other hpairing hother
    obtain ⟨blocks, second, hfits, hsecond, hfirstText, hsecondText, halike⟩ :=
      exists_blocks_of_sameBare h ⟨pairing, hpairing⟩
    rw [hfirstText] at hpairing ⊢
    rw [hsecondText] at hother ⊢
    rw [Blocks.inScalars_ofText hfits hpairing, Blocks.inScalars_ofText hsecond hother,
      halike.spansAt_eq]
  · intro haccepted parent
    obtain ⟨blocks, other, hfits, hother, hfirst, hsecond, halike⟩ :=
      exists_blocks_of_sameBare h haccepted
    have hlogs : ∀ (handle : Nat → Nat) (calls : List Call),
        (calls.map (Call.rename handle)).map Call.outline =
          (calls.map Call.outline).map (Call.rename handle) := by
      intro handle calls
      simp [Function.comp_def, Call.outline_rename]
    refine ⟨_, _, (seesPrefix_parse settings parent hfits hfirst).accepted,
      (seesPrefix_parse settings parent hother hsecond).accepted, ?_⟩
    simp only [Recorder.wrote, Array.toList_append, List.nil_append]
    rw [hlogs, hlogs, halike.outline_calls hsettings]

/-- Quotes that hold other braces, dots and brackets, of other marks, and one that the
text leaves open. -/
theorem parse_blind_open_quote :
    let first := "a'\x7bb.c'\x7bp<k:'v>'>\x7di'x "
    let second := "a'a''b'\x7bp<k:\"<(\">\x7di'  "
    Settings.standard.Unmarked ∧ SameBare first.toList second.toList ∧
      Accepted second.toList ∧ ∃ whole other,
        parse Recorder.sink .standard 7 first {} = .ok 7 whole ∧
        parse Recorder.sink .standard 7 second {} = .ok 7 other ∧
        whole.calls.toList.map Call.outline =
          [.insert 7 "", .insert 1 "", .set 2 ∅, .insert 7 ""] ∧
        whole.calls.toList.map Call.outline = other.calls.toList.map Call.outline := by
  intro first second
  have hsettings : Settings.standard.Unmarked := by
    unfold Settings.Unmarked
    decide
  have hsame : SameBare first.toList second.toList := ⟨by decide, by decide, by decide⟩
  let blocks : Blocks := .block "a'\x7bb.c'".toList (.last "p<k:'v>'>".toList) (.last "i'x ".toList)
  have hfits : blocks.Fits := by decide
  have htext : first.toList = blocks.text := by decide
  have haccepted : Accepted first.toList := accepted_iff.mpr ⟨blocks, hfits, htext⟩
  obtain ⟨haccepts, -, hcalls⟩ := parse_blind hsettings hsame
  obtain ⟨whole, other, hwhole, hother, hsameCalls⟩ := hcalls haccepted 7
  have hlist : ((blocks.calls .standard 0 0).map (Call.rename (Handles.numbered 7).of)).map
      Call.outline = [.insert 7 "", .insert 1 "", .set 2 ∅, .insert 7 ""] := by
    decide +kernel
  have hrun := (seesPrefix_parse .standard 7 hfits htext).accepted
  refine ⟨hsettings, hsame, haccepts.mp haccepted, whole, other, hwhole, hother, ?_, hsameCalls⟩
  obtain ⟨-, rfl⟩ := EStateM.Result.ok.inj (hrun.symm.trans hwhole)
  simpa [Recorder.wrote] using hlist

end Markup

end Espalier
