/-
The shape of a parse's calls.  A log beside the state of a sink holds every call
together with the handle that an insert is answered with.  The calls of a parse come
in groups, one for each element, and the inserts come in depth-first order.
-/
import Espalier.Proofs.Markup.Forest
import Espalier.Proofs.Markup.Replay

namespace Espalier

open Espalier.Program

variable {ε σ η α β γ : Type}

/-! ### A log of answered calls -/

/-- Run a program beside a log, and write down what it answers. -/
def noting (x : EStateM ε σ α) (entry : α → γ) : EStateM ε (σ × List γ) α
  | (s, log) =>
    match x s with
    | .ok a s' => .ok a (s', log ++ [entry a])
    | .error e s' => .error e (s', log)

/-- A call that a sink has accepted; an insert with the handle of the new element. -/
inductive Answered (η : Type) where
  | insert (parent : η) (spec : String) (node : η)
  | set (node : η) (attributes : Attributes)
  | html (node : η) (markup : String)
  | register (node : η) (key : String)
deriving DecidableEq

/-- The sink that hands every call on to another and writes it down. -/
def Sink.logged (sink : Sink σ η) : Sink (σ × List (Answered η)) η where
  insert parent spec := noting (sink.insert parent spec) (.insert parent spec)
  set node attributes := noting (sink.set node attributes) fun _ => .set node attributes
  html node markup := noting (sink.html node markup) fun _ => .html node markup
  register key node := noting (sink.register key node) fun _ => .register node key

/-- A program beside a log succeeds, does to the state what a program without the log
does, and adds entries that fit its answer. -/
def Logs (P : α → List γ → Prop) (x : EStateM ε σ α) (y : EStateM ε (σ × List γ) α) : Prop :=
  ∀ s log, ∃ a s' entries,
    x s = .ok a s' ∧ y (s, log) = .ok a (s', log ++ entries) ∧ P a entries

namespace Logs

variable {P : α → List γ → Prop} {Q : β → List γ → Prop}

theorem pure {a : α} (h : P a []) :
    Logs P (pure a : EStateM ε σ α) (pure a : EStateM ε (σ × List γ) α) :=
  fun s log => ⟨a, s, [], rfl, by rw [List.append_nil]; rfl, h⟩

theorem bind {x : EStateM ε σ α} {y : EStateM ε (σ × List γ) α} {f : α → EStateM ε σ β}
    {g : α → EStateM ε (σ × List γ) β} (h : Logs P x y)
    (hrest : ∀ a front, P a front → Logs (fun b back => Q b (front ++ back)) (f a) (g a)) :
    Logs Q (x >>= f) (y >>= g) := by
  intro s log
  obtain ⟨a, middle, front, hx, hy, hfront⟩ := h s log
  obtain ⟨b, after, back, hf, hg, hback⟩ := hrest a front hfront middle (log ++ front)
  refine ⟨b, after, front ++ back, ?_, ?_, hback⟩
  · rw [bind_of_ok hx, hf]
  · rw [bind_of_ok hy, hg, List.append_assoc]

theorem mono {x : EStateM ε σ α} {y : EStateM ε (σ × List γ) α} {P' : α → List γ → Prop}
    (h : Logs P x y) (hmono : ∀ a entries, P a entries → P' a entries) : Logs P' x y := by
  intro s log
  obtain ⟨a, s', entries, hx, hy, hentries⟩ := h s log
  exact ⟨a, s', entries, hx, hy, hmono a entries hentries⟩

theorem noting {x : EStateM ε σ α} (h : Succeeds x) (entry : α → γ) :
    Logs (fun a entries => entries = [entry a]) x (noting x entry) := by
  intro s log
  obtain ⟨a, s', hrun⟩ := h s
  refine ⟨a, s', [entry a], hrun, ?_, rfl⟩
  simp only [Espalier.noting, hrun]

end Logs

/-! ### Groups of calls -/

/-- The calls for one element: its insert, and after it, on the new handle, at most
one call for each other part of a declaration. -/
structure Group (η : Type) where
  parent : η
  spec : String
  node : η
  attributes : Option Attributes
  markup : Option String
  key : Option String
deriving DecidableEq

/-- The calls of a group in their order. -/
def Group.calls (group : Group η) : List (Answered η) :=
  .insert group.parent group.spec group.node ::
    ((group.attributes.map (.set group.node)).toList ++
      ((group.markup.map (.html group.node)).toList ++
        (group.key.map (.register group.node)).toList))

/-- Groups whose inserts come in depth-first order.  A path leads from the element
inserted last through its parent and its further ancestors up to the element that all
of this is below; the next parent is somewhere on that path, and the new element is put
on top of it. -/
inductive DepthFirst : List η → List (Group η) → List η → Prop
  | done (path : List η) : DepthFirst path [] path
  | insert {path up last : List η} {group : Group η} {groups : List (Group η)}
      (on_path : group.parent :: up <:+ path)
      (rest : DepthFirst (group.node :: group.parent :: up) groups last) :
      DepthFirst path (group :: groups) last

theorem DepthFirst.append {path middle last : List η} {front back : List (Group η)}
    (hfront : DepthFirst path front middle) (hback : DepthFirst middle back last) :
    DepthFirst path (front ++ back) last := by
  induction hfront with
  | done path => exact hback
  | insert on_path _ ih => exact .insert on_path (ih hback)

/-- Groups that start wherever a path has led below an element, and lead no further up
than that element. -/
def Under (parent : η) (groups : List (Group η)) : Prop :=
  ∀ path up, parent :: up <:+ path → ∃ last, DepthFirst path groups last ∧ parent :: up <:+ last

namespace Under

variable {parent : η} {groups front back : List (Group η)}

theorem nil (parent : η) : Under parent [] :=
  fun path _ hpath => ⟨path, .done path, hpath⟩

theorem append (hfront : Under parent front) (hback : Under parent back) :
    Under parent (front ++ back) := by
  intro path up hpath
  obtain ⟨middle, hmiddle, hbelow⟩ := hfront path up hpath
  obtain ⟨last, hlast, hstays⟩ := hback middle up hbelow
  exact ⟨last, hmiddle.append hlast, hstays⟩

/-- What is under a new element is under its parent. -/
theorem cons {group : Group η} (h : Under group.node groups) :
    Under group.parent (group :: groups) := by
  intro path up hpath
  obtain ⟨last, hlast, hstays⟩ :=
    h (group.node :: group.parent :: up) (group.parent :: up) List.suffix_rfl
  exact ⟨last, .insert hpath hlast, (List.suffix_cons _ _).trans hstays⟩

end Under

/-- Groups under an element that can be followed by whatever is under another one, such
as the last of the elements of a header. -/
def Opens (parent : η) (groups : List (Group η)) (node : η) : Prop :=
  ∀ body, Under node body → Under parent (groups ++ body)

/-! ### The groups of a parse -/

namespace Markup

variable {sink : Sink σ η}

/-- What a part of a declaration says, if that part is written. -/
def written (part : String) (value : α) : Option α :=
  if part.isEmpty then none else some value

theorem logs_whenWritten {x : EStateM TreeError σ Unit} (h : Succeeds x) (part : String)
    (value : α) (entry : α → Answered η) :
    Logs (fun _ entries => entries = ((written part value).map entry).toList)
      (whenWritten part x) (whenWritten part (noting x fun _ => entry value)) := by
  simp only [whenWritten, written]
  split
  · exact .pure rfl
  · exact .noting h _

/-- A declaration makes the calls of one group. -/
theorem logs_declare (h : NeverFails sink) (settings : Settings) (parent : η)
    (draft : Draft) :
    Logs (fun node entries => ∃ group : Group η, group.parent = parent ∧ group.node = node ∧
        entries = group.calls)
      (declare sink settings parent draft) (declare sink.logged settings parent draft) := by
  simp only [declare_eq]
  obtain ⟨spec, params⟩ := settings.expand draft.tag draft.params
  let attributes := Attributes.ofBlock params
  let markup := String.ofList (Text.unquote (Text.trim draft.text.toList))
  apply (Logs.noting (h.insert parent spec) _).bind
  rintro node _ rfl
  apply (logs_whenWritten (h.set node attributes) params attributes (.set node)).bind
  rintro _ _ rfl
  apply (logs_whenWritten (h.html node markup) draft.text markup (.html node)).bind
  rintro _ _ rfl
  apply (logs_whenWritten (h.register draft.key node) draft.key draft.key (.register node)).bind
  rintro _ _ rfl
  apply Logs.pure
  refine ⟨⟨parent, spec, node, written params attributes, written draft.text markup,
    written draft.key draft.key⟩, rfl, rfl, ?_⟩
  rw [List.append_nil]
  rfl

/-- Declarations make the calls of sibling groups, the last of which can be followed by
what is under it. -/
theorem logs_declareAll (h : NeverFails sink) (settings : Settings) (parent : η)
    (last : Option η) (drafts : List Draft) :
    Logs (fun last' entries => ∃ groups : List (Group η), entries = groups.flatMap Group.calls ∧
        (groups = [] ∧ last' = last ∨ ∃ node, last' = some node ∧ Opens parent groups node))
      (declareAll sink settings parent last drafts)
      (declareAll sink.logged settings parent last drafts) := by
  induction drafts generalizing last with
  | nil => exact .pure ⟨[], rfl, .inl ⟨rfl, rfl⟩⟩
  | cons draft rest ih =>
      rw [declareAll, declareAll]
      apply (logs_declare h settings parent draft).bind
      rintro _ _ ⟨group, rfl, rfl, rfl⟩
      refine (ih (some group.node)).mono ?_
      rintro last' _ ⟨groups, rfl, hgroups⟩
      refine ⟨group :: groups, rfl, .inr ?_⟩
      obtain ⟨rfl, rfl⟩ | ⟨node, hnode, hopens⟩ := hgroups
      · exact ⟨group.node, rfl, fun body hbody => hbody.cons⟩
      · have hgroup : Under group.parent [group] := (Under.nil _).cons
        exact ⟨node, hnode, fun body hbody => hgroup.append (hopens body hbody)⟩

theorem logs_growHeader (h : NeverFails sink) (settings : Settings) (parent : η)
    (header : List Char) :
    Logs (fun last entries => ∃ groups : List (Group η), entries = groups.flatMap Group.calls ∧
        Opens parent groups (last.getD parent))
      (growHeader sink settings parent header)
      (growHeader sink.logged settings parent header) := by
  refine (logs_declareAll h settings parent none (drafts header)).mono ?_
  rintro last _ ⟨groups, rfl, hgroups⟩
  refine ⟨groups, rfl, ?_⟩
  obtain ⟨rfl, rfl⟩ | ⟨node, rfl, hopens⟩ := hgroups
  · exact fun body hbody => hbody
  · exact hopens

/-- A structure makes the calls of groups under its parent. -/
theorem Blocks.logs_grow (h : NeverFails sink) (settings : Settings) (parent : η)
    (blocks : Blocks) :
    Logs (fun _ entries => ∃ groups : List (Group η), entries = groups.flatMap Group.calls ∧
        Under parent groups)
      (blocks.grow sink settings parent) (blocks.grow sink.logged settings parent) := by
  induction blocks generalizing parent with
  | last header =>
      apply (logs_growHeader h settings parent (Text.trim header)).bind
      rintro last _ ⟨groups, rfl, hopens⟩
      refine .pure ⟨groups, List.append_nil _, ?_⟩
      rw [← List.append_nil groups]
      exact hopens [] (.nil _)
  | block header body rest ihBody ihRest =>
      apply (logs_growHeader h settings parent (Text.trim header)).bind
      rintro last _ ⟨groups, rfl, hopens⟩
      apply (ihBody (last.getD parent)).bind
      rintro _ _ ⟨inside, rfl, hinside⟩
      refine (ihRest parent).mono ?_
      rintro _ _ ⟨behind, rfl, hbehind⟩
      refine ⟨groups ++ inside ++ behind, ?_, (hopens inside hinside).append hbehind⟩
      simp only [List.flatMap_append, List.append_assoc]

/-- The calls of a parse into a sink that never fails.  They are those of a list of
groups: an insert, and after it at most one `set`, at most one `html` and at most one
`register`, in this order and on the handle that the insert was answered with.  The
inserts come in depth-first order from the given parent on: the parent of the first is
the given one, and the parent of any other is the element inserted just before it, the
parent of that one, or another element on its path up to the given parent.  The path is
made of the answered handles as they come, and the sink need not hand out new ones. -/
theorem parse_depthFirst {sink : Sink σ η} (h : NeverFails sink) (settings : Settings)
    (parent : η) {text : String} (haccepted : Accepted text.toList) (s : σ) :
    ∃ s' groups path,
      parse sink settings parent text s = .ok parent s' ∧
        parse sink.logged settings parent text (s, []) =
          .ok parent (s', groups.flatMap Group.calls) ∧
        DepthFirst [parent] groups path := by
  obtain ⟨blocks, hfits, htext⟩ := accepted_iff.mp haccepted
  obtain ⟨_, s', _, hplain, hlogged, groups, rfl, hunder⟩ :=
    blocks.logs_grow h settings parent s []
  obtain ⟨path, hpath, -⟩ := hunder [parent] [] List.suffix_rfl
  refine ⟨s', groups, path, ?_, ?_, hpath⟩
  · rw [parse_eq_grow sink settings parent hfits htext, bind_of_ok (adaptExcept_of_ok hplain _)]
    rfl
  · rw [parse_eq_grow _ settings parent hfits htext, bind_of_ok (adaptExcept_of_ok hlogged _)]
    rfl

/-- A sink that numbers the elements as they come, and a text with a block inside a
block and an element behind it. -/
theorem parse_depthFirst_counter :
    let counter : Sink Nat Nat :=
      { insert := fun _ _ count => .ok (count + 1) (count + 1)
        set := fun _ _ => pure ()
        html := fun _ _ => pure ()
        register := fun _ _ => pure () }
    let text := "a\x7bb<x>(y)#k\x7bc\x7d\x7dd"
    NeverFails counter ∧ Accepted text.toList ∧
      parse counter.logged ⟨[]⟩ 0 text (0, []) = .ok 0 (4,
        [.insert 0 "a" 1, .insert 1 "b" 2, .set 2 (.ofBlock "x"), .html 2 "y",
          .register 2 "k", .insert 2 "c" 3, .insert 0 "d" 4]) ∧
      ∃ s' groups path,
        parse counter ⟨[]⟩ 0 text 0 = .ok 0 s' ∧
          parse counter.logged ⟨[]⟩ 0 text (0, []) = .ok 0 (s', groups.flatMap Group.calls) ∧
          DepthFirst [0] groups path := by
  intro counter text
  have hnever : NeverFails counter :=
    ⟨fun _ _ s => ⟨_, _, rfl⟩, fun _ _ => .pure (), fun _ _ => .pure (), fun _ _ => .pure ()⟩
  let blocks : Blocks :=
    .block ['a'] (.block "b<x>(y)#k".toList (.last ['c']) (.last [])) (.last ['d'])
  have hfits : blocks.Fits := by decide
  have htext : text.toList = blocks.text := by decide
  have haccepted : Accepted text.toList := accepted_iff.mpr ⟨blocks, hfits, htext⟩
  have hlog : parse counter.logged ⟨[]⟩ 0 text (0, []) = .ok 0 (4,
      [.insert 0 "a" 1, .insert 1 "b" 2, .set 2 (.ofBlock "x"), .html 2 "y",
        .register 2 "k", .insert 2 "c" 3, .insert 0 "d" 4]) := by
    rw [parse_eq_grow counter.logged ⟨[]⟩ 0 hfits htext]
    rfl
  exact ⟨hnever, haccepted, hlog, parse_depthFirst hnever ⟨[]⟩ 0 haccepted 0⟩

end Markup

end Espalier
