/-
Paths as names of nodes.  A path spells the nodes from the top of a tree down, each by its
tag and its number among the siblings with that tag.  A step tells a node from its siblings,
and its text can be taken apart again, whatever the tag is; where no tag holds the slash
that stands between steps, a path names one node of the tree.
-/
import Espalier.Proofs.Json.Fields
import Espalier.Proofs.Text.Bare
import Espalier.Proofs.Tree.Navigation

namespace Espalier.Document

open Relation
open Espalier.Program

variable {document : Document} {node : NodeId} {held : Node}

/-! ### Steps -/

/-- The text of the step to the node with a number among the nodes with its tag. -/
def stepText (tag : String) (number : Nat) : String :=
  tag ++ "[" ++ toString number ++ "]"

/-- The number of a node is one more than there are siblings with its tag in front of it. -/
inductive IsStep (document : Document) (node : NodeId) : String → Prop
  | top {held : Node} (hnode : document.arena.get? node = some held)
      (hparent : held.parent = none) : IsStep document node (stepText held.tag 1)
  | under {held above : Node} {parent : NodeId} {front back : List NodeId}
      (hnode : document.arena.get? node = some held) (hparent : held.parent = some parent)
      (habove : document.arena.get? parent = some above)
      (hsplit : above.children = front ++ node :: back) :
      IsStep document node
        (stepText held.tag (1 + front.countP (document.arena.passes (·.tag == held.tag))))

theorem Sound.exists_isStep (h : document.Sound) (hnode : document.arena.get? node = some held) :
    ∃ step, document.IsStep node step := by
  cases hparent : held.parent with
  | none => exact ⟨_, .top hnode hparent⟩
  | some parent =>
      obtain ⟨above, habove, hmem⟩ := h.exists_above hnode hparent
      obtain ⟨front, back, hsplit⟩ := List.append_of_mem hmem
      exact ⟨_, .under hnode hparent habove hsplit⟩

/-- Among the siblings with its tag a node comes after those that stand in front of it. -/
theorem findIdx?_alike (hlabel : document.arena.shape.Labelled)
    (hnode : document.arena.get? node = some held) {front back : List NodeId}
    (hfront : node ∉ front) :
    (((front ++ node :: back).filterMap document.arena.get?).filter
      (·.tag == held.tag)).findIdx? (·.id == held.id) =
        some (front.countP (document.arena.passes (·.tag == held.tag))) := by
  have hnone : ((front.filterMap document.arena.get?).filter (·.tag == held.tag)).findIdx?
      (·.id == held.id) = none := by
    rw [List.findIdx?_eq_none_iff]
    intro other hother
    obtain ⟨id, hid, hget⟩ := List.mem_filterMap.mp (List.mem_filter.mp hother).1
    have hlabel₁ : other.id = id := hlabel _ _ (Arena.shape_of_get? hget)
    have hlabel₂ : held.id = node := hlabel _ _ (Arena.shape_of_get? hnode)
    rw [hlabel₁, hlabel₂, beq_eq_false_iff_ne]
    exact ne_of_mem_of_not_mem hid hfront
  have hcount : ((front.filterMap document.arena.get?).filter (·.tag == held.tag)).length =
      front.countP (document.arena.passes (·.tag == held.tag)) := by
    rw [← List.countP_eq_length_filter, List.countP_filterMap]
    congr 1
    funext id
    rw [Arena.passes]
    cases document.arena.get? id with
    | none => rfl
    | some other => rfl
  rw [List.filterMap_append, List.filterMap_cons_some hnode, List.filter_append,
    List.findIdx?_append, hnone, hcount]
  simp [List.findIdx?_cons]

theorem Sound.step_of_isStep (h : document.Sound) (hnode : document.arena.get? node = some held)
    {step : String} (hstep : document.IsStep node step) : document.step held = .ok step := by
  cases hstep with
  | top hnode' hparent =>
      obtain rfl := Option.some.inj (hnode.symm.trans hnode')
      have hnumber : document.stepNumber held = .ok 1 := by
        rw [stepNumber, hparent]
        rfl
      exact exceptBind_of_ok hnumber _
  | @under _ above parent front back hnode' hparent habove hsplit =>
      obtain rfl := Option.some.inj (hnode.symm.trans hnode')
      have hnodup : above.children.Nodup := h.shape.nodup (Arena.shape_of_get? habove)
      rw [hsplit] at hnodup
      have hfront : node ∉ front := by
        intro hmem
        exact (List.nodup_append.mp hnodup).2.2 node hmem node List.mem_cons_self rfl
      have hnumber : document.stepNumber held =
          .ok (1 + front.countP (document.arena.passes (·.tag == held.tag))) := by
        rw [stepNumber, hparent]
        dsimp only
        rw [exceptBind_of_ok (children_of_some habove), hsplit, findIdx?_alike h.shape.labelled hnode hfront, Nat.add_comm]
        rfl
      exact exceptBind_of_ok hnumber _

/-! ### The path along a chain -/

/-- The steps of a chain of nodes, from the last node up. -/
def Steps (document : Document) (ids : List NodeId) (steps : List String) : Prop :=
  List.Forall₂ document.IsStep ids steps

theorem Lineage.exists_steps {ancestors : List NodeId} (h : document.Lineage node ancestors)
    (hsound : document.Sound) : ∃ steps, document.Steps (node :: ancestors) steps := by
  induction h with
  | top hnode _ =>
      obtain ⟨step, hstep⟩ := hsound.exists_isStep hnode
      exact ⟨[step], .cons hstep .nil⟩
  | under hnode _ _ ih =>
      obtain ⟨step, hstep⟩ := hsound.exists_isStep hnode
      obtain ⟨steps, hsteps⟩ := ih
      exact ⟨step :: steps, .cons hstep hsteps⟩

/-- With more levels than ancestors no node of the chain is left out. -/
theorem Lineage.stepsDown_eq {ancestors : List NodeId} {steps : List String}
    (h : document.Lineage node ancestors) (hsound : document.Sound)
    (hsteps : document.Steps (node :: ancestors) steps) {levels : Nat}
    (hlevels : ancestors.length < levels) (later : List String) :
    document.stepsDown levels node later = .ok (steps.reverse ++ later) := by
  induction h generalizing levels steps later with
  | top hnode hparent =>
      obtain ⟨levels, rfl⟩ := Nat.exists_eq_succ_of_ne_zero (Nat.ne_of_gt hlevels)
      obtain _ | ⟨hstep, _ | _⟩ := hsteps
      rw [stepsDown, exceptBind_of_ok (fetch_of_some hnode),
        exceptBind_of_ok (hsound.step_of_isStep hnode hstep), hparent]
      rfl
  | under hnode hparent _ ih =>
      obtain ⟨levels, rfl⟩ :=
        Nat.exists_eq_succ_of_ne_zero (Nat.ne_of_gt (Nat.zero_lt_of_lt hlevels))
      obtain _ | ⟨hstep, hrest⟩ := hsteps
      rw [stepsDown, exceptBind_of_ok (fetch_of_some hnode),
        exceptBind_of_ok (hsound.step_of_isStep hnode hstep), hparent]
      dsimp only
      rw [ih hrest (Nat.lt_of_succ_lt_succ hlevels), List.reverse_cons, List.append_assoc]
      rfl

/-- A chain of nodes is no longer than the arena, so its whole path is written. -/
theorem Lineage.path_eq {ancestors : List NodeId} {steps : List String}
    (h : document.Lineage node ancestors) (hsound : document.Sound)
    (hsteps : document.Steps (node :: ancestors) steps) :
    document.path node = .ok ("/" ++ String.intercalate "/" steps.reverse) := by
  have hlength := Nat.lt_succ_of_lt (h.length_lt hsound)
  have hdown := h.stepsDown_eq hsound hsteps hlength []
  rw [List.append_nil] at hdown
  exact exceptBind_of_ok hdown _

theorem Sound.exists_steps (h : document.Sound) (hnode : document.arena.get? node = some held) :
    ∃ (ancestors : List NodeId) (steps : List String), document.Lineage node ancestors ∧
      document.Steps (node :: ancestors) steps := by
  obtain ⟨ancestors, hlineage⟩ := h.exists_lineage hnode
  obtain ⟨steps, hsteps⟩ := hlineage.exists_steps h
  exact ⟨ancestors, steps, hlineage, hsteps⟩

theorem Sound.exists_path (h : document.Sound) (hnode : document.arena.get? node = some held) :
    ∃ text, document.path node = .ok text := by
  obtain ⟨ancestors, steps, hlineage, hsteps⟩ := h.exists_steps hnode
  exact ⟨_, hlineage.path_eq h hsteps⟩

/-! ### Reading a path -/

/-- The last opening bracket of a step stands in front of the number. -/
theorem stepText_inj {tag tag' : String} {number number' : Nat}
    (h : stepText tag number = stepText tag' number') : tag = tag' ∧ number = number' := by
  have hfree : ∀ number : Nat, '[' ∉ (toString number).toList ++ [']'] := by
    intro number hmem
    rcases List.mem_append.mp hmem with hdigit | hclose
    · exact absurd (Json.isDigit_toString number _ hdigit) (by decide)
    · exact absurd hclose (by decide)
  have hlists : tag.toList ++ '[' :: ((toString number).toList ++ [']']) =
      tag'.toList ++ '[' :: ((toString number').toList ++ [']']) := by
    simpa [stepText] using congrArg String.toList h
  rcases Text.append_cons_eq_append_cons hlists with htag | ⟨_, -, hback⟩ | ⟨_, -, hback⟩
  · rw [htag] at hlists
    have hdigits : Nat.toDigits 10 number = Nat.toDigits 10 number' := by
      simpa using hlists
    have hnumber := congrArg (Nat.ofDigitChars 10 · 0) hdigits
    simp only [Nat.ofDigitChars_ten_toDigits] at hnumber
    exact ⟨String.toList_inj.mp htag, hnumber⟩
  · exact absurd (hback ▸ List.mem_append_right _ List.mem_cons_self) (hfree number)
  · exact absurd (hback ▸ List.mem_append_right _ List.mem_cons_self) (hfree number')

theorem slash_not_mem_stepText {tag : String} (htag : '/' ∉ tag.toList) (number : Nat) :
    '/' ∉ (stepText tag number).toList := by
  intro hmem
  have hcases : '/' ∈ tag.toList ∨ '/' ∈ (toString number).toList := by
    simpa [stepText] using hmem
  rcases hcases with htag' | hdigit
  · exact htag htag'
  · exact absurd (Json.isDigit_toString number _ hdigit) (by decide)

/-- Steps that hold no slash are the pieces of a path between its slashes. -/
theorem steps_eq_of_path_eq {first second : List String} (hfirst : first ≠ [])
    (hsecond : second ≠ []) (hfree : ∀ step ∈ first ++ second, '/' ∉ step.toList)
    (h : "/" ++ String.intercalate "/" first = "/" ++ String.intercalate "/" second) :
    first = second := by
  have hpieces : ∀ {steps : List String}, steps ≠ [] → (∀ step ∈ steps, '/' ∉ step.toList) →
      Text.pieces '/' (String.intercalate "/" steps).toList = steps.map String.toList := by
    intro steps hne hsteps
    rw [String.toList_intercalate]
    apply Text.pieces_intercalate (by simpa using hne)
    simpa using hsteps
  have htexts : (String.intercalate "/" first).toList =
      (String.intercalate "/" second).toList := by
    rw [← String.toList_inj, String.toList_append, String.toList_append] at h
    exact List.append_cancel_left h
  rw [List.forall_mem_append] at hfree
  have hlists := hpieces hfirst hfree.1
  rw [htexts, hpieces hsecond hfree.2] at hlists
  exact (List.map_inj_right fun _ _ => String.toList_inj.mp).mp hlists.symm

theorem slash_not_mem_of_steps {ids : List NodeId} {steps : List String}
    (h : document.Steps ids steps)
    (htags : ∀ id ∈ ids, ∀ held, document.arena.get? id = some held → '/' ∉ held.tag.toList) :
    ∀ step ∈ steps, '/' ∉ step.toList := by
  induction h with
  | nil => simp
  | cons hstep _ ih =>
      rw [List.forall_mem_cons] at htags ⊢
      refine ⟨?_, ih htags.2⟩
      cases hstep with
      | top hnode _ => exact slash_not_mem_stepText (htags.1 _ hnode) _
      | under hnode _ _ _ => exact slash_not_mem_stepText (htags.1 _ hnode) _

/-! ### One node for each path -/

theorem IsStep.exists_front {step : String} (h : document.IsStep node step)
    (hnode : document.arena.get? node = some held) {parent : NodeId}
    (hparent : held.parent = some parent) :
    ∃ above front back, document.arena.get? parent = some above ∧
      above.children = front ++ node :: back ∧
      step = stepText held.tag (1 + front.countP (document.arena.passes (·.tag == held.tag))) := by
  cases h with
  | top hnode' hnone =>
      obtain rfl := Option.some.inj (hnode.symm.trans hnode')
      rw [hparent] at hnone
      contradiction
  | under hnode' hparent' habove hsplit =>
      obtain rfl := Option.some.inj (hnode.symm.trans hnode')
      obtain rfl := Option.some.inj (hparent.symm.trans hparent')
      exact ⟨_, _, _, habove, hsplit, rfl⟩

/-- A node counts among the siblings in front of a later one with its tag. -/
theorem countP_lt_of_append_cons {tag : String}
    (hnode : document.arena.get? node = some held) (htag : held.tag = tag)
    (front between : List NodeId) :
    front.countP (document.arena.passes (·.tag == tag)) <
      (front ++ node :: between).countP (document.arena.passes (·.tag == tag)) := by
  have hpasses : document.arena.passes (·.tag == tag) node := by
    rw [Arena.passes, hnode]
    exact beq_iff_eq.mpr htag
  rw [List.countP_append, List.countP_cons_of_pos hpasses]
  omega

/-- A step tells a node from its siblings. -/
theorem eq_of_isStep {step : String} {first second parent : NodeId} {held₁ held₂ : Node}
    (hfirst : document.arena.get? first = some held₁) (hparent₁ : held₁.parent = some parent)
    (hsecond : document.arena.get? second = some held₂) (hparent₂ : held₂.parent = some parent)
    (hstep₁ : document.IsStep first step) (hstep₂ : document.IsStep second step) :
    first = second := by
  obtain ⟨above, front₁, back₁, habove, hsplit₁, rfl⟩ := hstep₁.exists_front hfirst hparent₁
  obtain ⟨_, front₂, back₂, habove', hsplit₂, htext⟩ := hstep₂.exists_front hsecond hparent₂
  obtain rfl := Option.some.inj (habove.symm.trans habove')
  obtain ⟨htag, hnumber⟩ := stepText_inj htext
  rw [← htag] at hnumber
  -- of two places in the child list, the later one has the greater number
  rcases Text.append_cons_eq_append_cons (hsplit₁.symm.trans hsplit₂) with
    hfront | ⟨between, hfront, -⟩ | ⟨between, hfront, -⟩
  · rw [hsplit₁, hfront] at hsplit₂
    exact (List.cons.inj (List.append_cancel_left hsplit₂)).1
  · have hlt := countP_lt_of_append_cons hfirst rfl front₁ between
    rw [← hfront] at hlt
    omega
  · have hlt := countP_lt_of_append_cons hsecond htag.symm front₂ between
    rw [← hfront] at hlt
    omega

/-- In one tree the steps lead to one node. -/
theorem Lineage.eq_of_steps {first second : NodeId} {ancestors₁ ancestors₂ : List NodeId}
    {steps : List String} (h₁ : document.Lineage first ancestors₁)
    (h₂ : document.Lineage second ancestors₂)
    (hsteps₁ : document.Steps (first :: ancestors₁) steps)
    (hsteps₂ : document.Steps (second :: ancestors₂) steps)
    (htop : topOf first ancestors₁ = topOf second ancestors₂) : first = second := by
  induction h₁ generalizing second ancestors₂ steps with
  | top =>
      obtain _ | ⟨-, _ | _⟩ := hsteps₁
      obtain _ | ⟨-, _ | _⟩ := hsteps₂
      exact htop
  | under hfirst hparent₁ _ ih =>
      obtain _ | ⟨hstep₁, hrest₁⟩ := hsteps₁
      obtain _ | ⟨hstep₂, hrest₂⟩ := hsteps₂
      cases h₂ with
      | top => cases hrest₂ with | nil => cases hrest₁
      | under hsecond hparent₂ habove =>
          -- the steps above are the same, so the parents are one node
          obtain rfl := ih habove hrest₁ hrest₂ htop
          exact eq_of_isStep hfirst hparent₁ hsecond hparent₂ hstep₁ hstep₂

theorem Lineage.steps_unique {ancestors : List NodeId} {first second : List String}
    (h : document.Lineage node ancestors) (hsound : document.Sound)
    (hfirst : document.Steps (node :: ancestors) first)
    (hsecond : document.Steps (node :: ancestors) second) : first = second := by
  have hlength := Nat.lt_succ_self ancestors.length
  have hdown := h.stepsDown_eq hsound hfirst hlength []
  rw [h.stepsDown_eq hsound hsecond hlength [], List.append_nil, List.append_nil] at hdown
  exact (List.reverse_inj.mp (Except.ok.inj hdown)).symm

/-- The chain above a node of the tree stays in the tree and ends at the root. -/
theorem Lineage.of_below_root {ancestors : List NodeId} (h : document.Lineage node ancestors)
    (hsound : document.Sound) (hroot : document.arena.shape.Below document.root node) :
    topOf node ancestors = document.root ∧
      ∀ id ∈ node :: ancestors, document.arena.shape.Below document.root id := by
  have hbelow : ∀ id ∈ node :: ancestors, document.arena.shape.Below id node :=
    fun _ => (h.mem_iff hsound).mp
  have htop := hbelow (topOf node ancestors) (List.getLast_mem _)
  refine ⟨hsound.shape.top_unique h.isTop_topOf hsound.root htop hroot, ?_⟩
  intro id hid
  rcases hsound.shape.below_total hroot (hbelow id hid) with hdown | hup
  · exact hdown
  · rw [hsound.shape.eq_of_below_top hsound.root hup]
    exact ReflTransGen.refl

/-- No tag of the tree holds the character that stands between the steps of a path. -/
def NoSlashes (document : Document) : Prop :=
  ∀ id held, document.Descends document.root id → document.arena.get? id = some held →
    '/' ∉ held.tag.toList

/-- Two nodes of the tree with one path are one node. -/
theorem Sound.eq_of_path_eq (h : document.Sound) (htags : document.NoSlashes)
    {first second : NodeId} (hfirst : document.Descends document.root first)
    (hsecond : document.Descends document.root second)
    (hpath : document.path first = document.path second) : first = second := by
  have hplain : ∀ node, document.Descends document.root node →
      ∃ (ancestors : List NodeId) (steps : List String), document.Lineage node ancestors ∧
        document.Steps (node :: ancestors) steps ∧
        Lineage.topOf node ancestors = document.root ∧ ∀ step ∈ steps, '/' ∉ step.toList := by
    intro node hnode
    have hbelow := h.below_of_descends hnode
    obtain ⟨held, hheld⟩ :=
      Option.isSome_iff_exists.mp (h.isSome_of_below h.isSome_root hbelow)
    obtain ⟨ancestors, steps, hlineage, hsteps⟩ := h.exists_steps hheld
    obtain ⟨htop, hall⟩ := hlineage.of_below_root h hbelow
    refine ⟨ancestors, steps, hlineage, hsteps, htop, ?_⟩
    apply slash_not_mem_of_steps hsteps
    intro id hid held hid'
    exact htags id held ((h.descends_iff hid').mpr (hall id hid)) hid'
  obtain ⟨ancestors₁, steps₁, hlineage₁, hsteps₁, htop₁, hfree₁⟩ := hplain first hfirst
  obtain ⟨ancestors₂, steps₂, hlineage₂, hsteps₂, htop₂, hfree₂⟩ := hplain second hsecond
  rw [hlineage₁.path_eq h hsteps₁, hlineage₂.path_eq h hsteps₂] at hpath
  have hne₁ : steps₁.reverse ≠ [] := by
    cases hsteps₁
    simp
  have hne₂ : steps₂.reverse ≠ [] := by
    cases hsteps₂
    simp
  have hfree : ∀ step ∈ steps₁.reverse ++ steps₂.reverse, '/' ∉ step.toList := by
    rw [List.forall_mem_append]
    simpa using ⟨hfree₁, hfree₂⟩
  have hsteps := List.reverse_inj.mp
    (steps_eq_of_path_eq hne₁ hne₂ hfree (Except.ok.inj hpath))
  exact hlineage₁.eq_of_steps hlineage₂ hsteps₁ (hsteps ▸ hsteps₂) (htop₁.trans htop₂.symm)

/-- Every node has a path, whatever calls led to a document, in detached trees too.  Its steps
are those of the nodes from the top of the tree down to the node, each with a tag and a number
that counts the siblings with this tag as far as the node.  Where no tag of the tree holds a
slash, no two nodes of the tree have the same path; tags that are empty, or that look like the
brackets and numbers of a step, do no harm. -/
theorem reachable_paths (h : Reachable document) (hsize : document.size ≤ UInt32.size) :
    (∀ x, (document.arena.get? x).isSome → ∃ (ancestors : List NodeId) (steps : List String),
      document.Lineage x ancestors ∧
      (∀ other, document.Steps (x :: ancestors) other ↔ other = steps) ∧
      document.path x = .ok ("/" ++ String.intercalate "/" steps.reverse)) ∧
    (document.NoSlashes → ∀ x y, document.Descends document.root x →
      document.Descends document.root y → x ≠ y → document.path x ≠ document.path y) := by
  have hsound := soundInRoom_of_reachable h hsize
  constructor
  · intro x hx
    obtain ⟨held, hheld⟩ := Option.isSome_iff_exists.mp hx
    obtain ⟨ancestors, steps, hlineage, hsteps⟩ := hsound.exists_steps hheld
    refine ⟨ancestors, steps, hlineage, ?_, hlineage.path_eq hsound hsteps⟩
    intro other
    constructor
    · exact fun hother => hlineage.steps_unique hsound hother hsteps
    · rintro rfl
      exact hsteps
  · intro htags x y hx hy hne hpath
    exact hne (hsound.eq_of_path_eq htags hx hy hpath)

/-- Two blocks with an item between them: the item in the second block. -/
theorem reachable_paths_second_block :
    let calls : List Operation :=
      [.insert 0 "div", .insert 0 "p", .insert 0 "div", .insert 3 "span"]
    let document := calls.foldl Operation.apply (new "body")
    Reachable document ∧ document.size = 5 ∧
      document.path 4 = .ok "/body[1]/div[2]/span[1]" ∧
      ∀ x, document.Descends document.root x → x ≠ 4 →
        document.path x ≠ .ok "/body[1]/div[2]/span[1]" := by
  intro calls document
  have hreach : Reachable document :=
    ((((Reachable.new "body").step (.insert 0 "div")).step (.insert 0 "p")).step
      (.insert 0 "div")).step (.insert 3 "span")
  have hsize : document.size = 5 := rfl
  have hall : ∀ node ∈ document.arena.nodes, '/' ∉ node.tag.toList := by decide +kernel
  have htags : document.NoSlashes := by
    intro id held _ hheld
    exact hall held (Array.mem_of_getElem? hheld)
  have hpath : document.path 4 = .ok "/body[1]/div[2]/span[1]" := by decide +kernel
  have hspan : document.Descends document.root 4 :=
    ⟨[0, 1, 2, 3, 4], by decide +kernel, by decide⟩
  obtain ⟨-, hapart⟩ := reachable_paths hreach (by rw [hsize]; decide)
  refine ⟨hreach, hsize, hpath, ?_⟩
  intro x hx hne
  rw [← hpath]
  exact hapart htags x 4 hx hspan hne

end Espalier.Document
