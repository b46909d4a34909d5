/-
The changes that operations make to the links.  A new node is grafted under
another, a node is unlinked from its parent, and the children of a node are
abandoned together; each of these keeps a sound shape sound.
-/
import Espalier.Proofs.Tree.Links

namespace Espalier

/-! ### Changes of one node's links -/

namespace Links

def orphan (links : Links) : Links :=
  { links with parent := none }

def adopt (parent : NodeId) (links : Links) : Links :=
  { links with parent := some parent }

def relist (children : List NodeId) (links : Links) : Links :=
  { links with children }

def strike (child : NodeId) (links : Links) : Links :=
  { links with children := links.children.filter (· != child) }

def enter (child : NodeId) (index : Nat) (links : Links) : Links :=
  { links with
    children := links.children.insertIdx (min index links.children.length) child }

theorem mem_enter {links : Links} {child other : NodeId} {index : Nat} :
    other ∈ (links.enter child index).children ↔ other = child ∨ other ∈ links.children :=
  List.mem_insertIdx (Nat.min_le_right _ _)

theorem nodup_enter {links : Links} (h : links.children.Nodup) {child : NodeId}
    (hchild : child ∉ links.children) (index : Nat) :
    (links.enter child index).children.Nodup := by
  rw [enter, (List.perm_insertIdx child _ (Nat.min_le_right _ _)).nodup_iff]
  exact List.nodup_cons.mpr ⟨hchild, h⟩

end Links

namespace Shape

variable {shape : Shape}

/-- A shape in which the links of one node are changed. -/
def modify (shape : Shape) (id : NodeId) (relink : Links → Links) : Shape :=
  fun other => if other = id then (shape other).map relink else shape other

section Modify

variable {id : NodeId} {relink : Links → Links}

theorem modify_of_eq_some {other : NodeId} {links : Links} (h : shape other = some links) :
    shape.modify id relink other = some (if other = id then relink links else links) := by
  rw [modify]
  split
  · rw [h, Option.map_some]
  · exact h

theorem exists_of_modify {other : NodeId} {links : Links}
    (h : shape.modify id relink other = some links) :
    ∃ old, shape other = some old ∧ links = if other = id then relink old else old := by
  rw [modify] at h
  split at h
  · next hid =>
      obtain ⟨old, hold, rfl⟩ := Option.map_eq_some_iff.mp h
      exact ⟨old, hold, (if_pos hid).symm⟩
  · next hid => exact ⟨links, h, (if_neg hid).symm⟩

theorem isSome_modify (shape : Shape) (id : NodeId) (relink : Links → Links)
    (other : NodeId) : (shape.modify id relink other).isSome = (shape other).isSome := by
  rw [modify]
  split
  · rw [Option.isSome_map]
  · rfl

theorem Labelled.modify (h : shape.Labelled)
    (hrelink : ∀ links, (relink links).label = links.label) (id : NodeId) :
    (shape.modify id relink).Labelled := by
  intro other links hother
  obtain ⟨old, hold, rfl⟩ := exists_of_modify hother
  split
  · rw [hrelink]
    exact h other old hold
  · exact h other old hold

theorem Top.modify {top : NodeId} (h : shape.Top top)
    (hrelink : ∀ links, links.parent = none → (relink links).parent = none) (id : NodeId) :
    (shape.modify id relink).Top top := by
  obtain ⟨links, hlinks, hnone⟩ := h
  refine ⟨_, modify_of_eq_some hlinks, ?_⟩
  split
  · exact hrelink links hnone
  · exact hnone

theorem childrenOf_modify_of_ne {other : NodeId} (hne : other ≠ id) :
    (shape.modify id relink).childrenOf other = shape.childrenOf other := by
  rw [childrenOf, modify, if_neg hne, childrenOf]

/-- A change that does not touch the child lists leaves them as they are. -/
theorem childrenOf_modify (hrelink : ∀ links, (relink links).children = links.children) :
    (shape.modify id relink).childrenOf = shape.childrenOf := by
  funext other
  rw [childrenOf, modify]
  split
  · cases hother : shape other with
    | none => simp [childrenOf, hother]
    | some links => simp [childrenOf, hother, hrelink]
  · rfl

theorem childrenOf_modify_strike (shape : Shape) (parent child : NodeId) :
    (shape.modify parent (Links.strike child)).childrenOf parent =
      (shape.childrenOf parent).filter (· != child) := by
  rw [childrenOf, modify, if_pos rfl, childrenOf]
  cases shape parent with
  | none => rfl
  | some links => rfl

theorem childrenOf_modify_relist_nil (shape : Shape) (node : NodeId) :
    (shape.modify node (Links.relist [])).childrenOf node = [] := by
  rw [childrenOf, modify, if_pos rfl]
  cases shape node with
  | none => rfl
  | some links => rfl

/-- A change that does not touch the child lists leaves who lists whom as it is. -/
theorem child_modify_iff (hrelink : ∀ links, (relink links).children = links.children)
    {up low : NodeId} : (shape.modify id relink).Child up low ↔ shape.Child up low := by
  rw [Child, childrenOf_modify hrelink, Child]

theorem child_orphan_iff {child up low : NodeId} :
    (shape.modify child Links.orphan).Child up low ↔ shape.Child up low := by
  have horphan : ∀ links : Links, links.orphan.children = links.children := fun _ => rfl
  exact child_modify_iff horphan

theorem child_adopt_iff {parent child up low : NodeId} :
    (shape.modify child (Links.adopt parent)).Child up low ↔ shape.Child up low := by
  have hadopt : ∀ links : Links, (links.adopt parent).children = links.children := fun _ => rfl
  exact child_modify_iff hadopt

theorem child_enter_iff {parent : NodeId} (hparent : (shape parent).isSome) (child : NodeId)
    (index : Nat) {up low : NodeId} :
    (shape.modify parent (Links.enter child index)).Child up low ↔
      (up = parent ∧ low = child) ∨ shape.Child up low := by
  rw [Child, Child]
  by_cases hup : up = parent
  · subst hup
    obtain ⟨links, hlinks⟩ := Option.isSome_iff_exists.mp hparent
    have hentered : shape.modify up (Links.enter child index) up =
        some (links.enter child index) := by
      rw [modify_of_eq_some hlinks, if_pos rfl]
    rw [childrenOf_of_eq_some hentered, childrenOf_of_eq_some hlinks, Links.mem_enter]
    simp
  · rw [childrenOf_modify_of_ne hup]
    simp [hup]

theorem child_strike_iff {parent child up low : NodeId} :
    (shape.modify parent (Links.strike child)).Child up low ↔
      shape.Child up low ∧ ¬ (up = parent ∧ low = child) := by
  rw [Child, Child]
  by_cases hup : up = parent
  · subst hup
    rw [childrenOf_modify_strike, List.mem_filter]
    simp
  · rw [childrenOf_modify_of_ne hup]
    simp [hup]

theorem Labelled.orphan (h : shape.Labelled) (child : NodeId) :
    (shape.modify child Links.orphan).Labelled := by
  have horphan : ∀ links : Links, links.orphan.label = links.label := fun _ => rfl
  exact h.modify horphan child

theorem Top.orphan {top : NodeId} (h : shape.Top top) (child : NodeId) :
    (shape.modify child Links.orphan).Top top := by
  have horphan : ∀ links : Links, links.parent = none → links.orphan.parent = none :=
    fun _ _ => rfl
  exact h.modify horphan child

end Modify

/-! ### Changes of a shape -/

/-- A shape with a new node, which a node that is there lists at some index. -/
def graft (shape : Shape) (parent : NodeId) (above : Links) (id : NodeId)
    (index : Nat) : Shape :=
  fun other =>
    if other = id then some ⟨id, some parent, []⟩
    else if other = parent then some (above.enter id index)
    else shape other

/-- A shape in which a node no longer lists another one, and that one has no
parent. -/
def unlink (shape : Shape) (parent child : NodeId) : Shape :=
  (shape.modify child Links.orphan).modify parent (Links.strike child)

/-- A shape in which a node is unlinked from its parent, if it has one. -/
def cutOff (shape : Shape) (node : NodeId) : Shape :=
  match (shape node).bind Links.parent with
  | none => shape
  | some parent => shape.unlink parent node

/-- A shape in which some nodes have no parent, though others may list them. -/
def abandon (shape : Shape) (children : List NodeId) : Shape :=
  children.foldl (fun shape child => shape.modify child Links.orphan) shape

/-- A shape in which a node lists nothing, and what it listed has no parent. -/
def cleared (shape : Shape) (node : NodeId) : Shape :=
  (shape.modify node (Links.relist [])).abandon (shape.childrenOf node)

/-! ### Grafting -/

/-- A new node has no place in the old shape. -/
theorem Sound.not_mem_of_fresh (h : shape.Sound) {id : NodeId} (hfresh : shape id = none)
    {other : NodeId} {links : Links} (hother : shape other = some links) :
    id ∉ links.children := by
  intro hid
  obtain ⟨below, hbelow, -⟩ := h.listed hother id hid
  rw [hfresh] at hbelow
  contradiction

section Graft

variable {parent id : NodeId} {above : Links} {index : Nat}
  (hparent : shape parent = some above)

theorem graft_cases {other : NodeId} {links : Links}
    (h : shape.graft parent above id index other = some links) :
    (other = id ∧ links = ⟨id, some parent, []⟩) ∨
      (other = parent ∧ links = above.enter id index) ∨ shape other = some links := by
  rw [graft] at h
  split at h
  · next hid => exact Or.inl ⟨hid, (Option.some.inj h).symm⟩
  · split at h
    · next hother => exact Or.inr (Or.inl ⟨hother, (Option.some.inj h).symm⟩)
    · exact Or.inr (Or.inr h)

include hparent

/-- What was there is there, with its parent and all that it listed. -/
theorem exists_graft (hfresh : shape id = none) {other : NodeId} {links : Links}
    (h : shape other = some links) :
    ∃ after, shape.graft parent above id index other = some after ∧
      after.parent = links.parent ∧ ∀ child ∈ links.children, child ∈ after.children := by
  have hne : other ≠ id := by
    rintro rfl
    rw [hfresh] at h
    contradiction
  rw [graft, if_neg hne]
  by_cases hother : other = parent
  · rw [hother, hparent] at h
    obtain rfl : above = links := Option.some.inj h
    refine ⟨above.enter id index, if_pos hother, rfl, ?_⟩
    intro child hchild
    exact Links.mem_enter.mpr (Or.inr hchild)
  · exact ⟨links, by rw [if_neg hother, h], rfl, fun _ hchild => hchild⟩

theorem Sound.graft (h : shape.Sound) (hfresh : shape id = none) (hlater : parent < id)
    (index : Nat) : (shape.graft parent above id index).Sound := by
  have hne : parent ≠ id := by
    rintro rfl
    exact absurd hlater (UInt32.lt_irrefl _)
  have hnew : id ∉ above.children := h.not_mem_of_fresh hfresh hparent
  constructor
  · intro other links hother
    rcases graft_cases hother with ⟨rfl, rfl⟩ | ⟨rfl, rfl⟩ | hold
    · rfl
    · exact h.labelled _ above hparent
    · exact h.labelled other links hold
  · intro other links hother child hchild
    have hkept : ∀ {old}, shape other = some old → child ∈ old.children →
        ∃ below, shape.graft parent above id index child = some below ∧
          below.parent = some other := by
      intro old hold hmem
      obtain ⟨below, hbelow, hup⟩ := h.listed hold child hmem
      obtain ⟨after, hafter, hsame, -⟩ := exists_graft hparent hfresh hbelow
      exact ⟨after, hafter, hsame.trans hup⟩
    rcases graft_cases hother with ⟨rfl, rfl⟩ | ⟨rfl, rfl⟩ | hold
    · exact absurd hchild List.not_mem_nil
    · rcases Links.mem_enter.mp hchild with rfl | hmem
      · exact ⟨_, if_pos rfl, rfl⟩
      · exact hkept hparent hmem
    · exact hkept hold hchild
  · intro other links hother
    rcases graft_cases hother with ⟨rfl, rfl⟩ | ⟨rfl, rfl⟩ | hold
    · exact List.nodup_nil
    · exact Links.nodup_enter (h.nodup hparent) hnew index
    · exact h.nodup hold
  · intro other links hother up hup
    have hkept : ∀ {old}, shape other = some old → old.parent = some up →
        up < other ∧ ∃ top, shape.graft parent above id index up = some top ∧
          other ∈ top.children := by
      intro old hold hold'
      obtain ⟨hlt, top, htop, hmem⟩ := h.linked hold hold'
      obtain ⟨after, hafter, -, hall⟩ := exists_graft hparent hfresh htop
      exact ⟨hlt, after, hafter, hall other hmem⟩
    rcases graft_cases hother with ⟨rfl, rfl⟩ | ⟨rfl, rfl⟩ | hold
    · obtain rfl : parent = up := Option.some.inj hup
      refine ⟨hlater, above.enter other index, ?_, Links.mem_enter.mpr (Or.inl rfl)⟩
      rw [Shape.graft, if_neg hne, if_pos rfl]
    · exact hkept hparent hup
    · exact hkept hold hup

theorem Top.graft {top : NodeId} (h : shape.Top top) (hfresh : shape id = none)
    (index : Nat) : (shape.graft parent above id index).Top top := by
  obtain ⟨links, hlinks, hnone⟩ := h
  obtain ⟨after, hafter, hsame, -⟩ := exists_graft hparent hfresh hlinks
  exact ⟨after, hafter, hsame.trans hnone⟩

end Graft

/-! ### Unlinking -/

section Unlink

variable {parent child : NodeId}

/-- The parent no longer lists the child, and nothing else changes in who lists whom. -/
theorem child_unlink_iff {up low : NodeId} :
    (shape.unlink parent child).Child up low ↔
      shape.Child up low ∧ ¬ (up = parent ∧ low = child) := by
  rw [unlink, child_strike_iff, child_orphan_iff]

theorem unlink_cases (hne : parent ≠ child) {other : NodeId} {links : Links}
    (h : shape.unlink parent child other = some links) :
    ∃ old, shape other = some old ∧
      ((other = child ∧ links = old.orphan) ∨ (other = parent ∧ links = old.strike child) ∨
        (other ≠ child ∧ other ≠ parent ∧ links = old)) := by
  obtain ⟨middle, hmiddle, rfl⟩ := exists_of_modify h
  obtain ⟨old, hold, rfl⟩ := exists_of_modify hmiddle
  refine ⟨old, hold, ?_⟩
  by_cases hchild : other = child
  · have hparent : other ≠ parent := fun heq => hne (heq.symm.trans hchild)
    rw [if_pos hchild, if_neg hparent]
    exact Or.inl ⟨hchild, rfl⟩
  · rw [if_neg hchild]
    by_cases hparent : other = parent
    · rw [if_pos hparent]
      exact Or.inr (Or.inl ⟨hparent, rfl⟩)
    · rw [if_neg hparent]
      exact Or.inr (Or.inr ⟨hchild, hparent, rfl⟩)

/-- What was there is there; only the unlinked node has lost its parent, and only
it is no longer listed. -/
theorem exists_unlink {other : NodeId} {links : Links} (h : shape other = some links) :
    ∃ after, shape.unlink parent child other = some after ∧
      (other ≠ child → after.parent = links.parent) ∧
      ∀ id ∈ links.children, id ≠ child → id ∈ after.children := by
  refine ⟨_, modify_of_eq_some (modify_of_eq_some h), ?_, ?_⟩
  · intro hother
    rw [if_neg hother]
    split
    · rfl
    · rfl
  · intro id hid hkeep
    have hmiddle : id ∈ (if other = child then links.orphan else links).children := by
      split
      · exact hid
      · exact hid
    split
    · exact List.mem_filter.mpr ⟨hmiddle, by simpa using hkeep⟩
    · exact hmiddle

theorem Sound.unlink (h : shape.Sound) {above : Links} (hparent : shape parent = some above)
    (hchild : child ∈ above.children) : (shape.unlink parent child).Sound := by
  obtain ⟨held, hheld, hheldUp⟩ := h.listed hparent child hchild
  have hne : parent ≠ child := by
    rintro rfl
    exact absurd (h.linked hheld hheldUp).1 (UInt32.lt_irrefl _)
  -- nothing but the parent lists the child
  have honly : ∀ {other old}, shape other = some old → child ∈ old.children →
      other = parent := by
    intro other old hold hmem
    obtain ⟨below, hbelow, hup⟩ := h.listed hold child hmem
    obtain rfl : held = below := Option.some.inj (hheld.symm.trans hbelow)
    exact Option.some.inj (hup.symm.trans hheldUp)
  constructor
  · intro other links hother
    obtain ⟨old, hold, ⟨-, rfl⟩ | ⟨-, rfl⟩ | ⟨-, -, rfl⟩⟩ := unlink_cases hne hother
    · exact h.labelled other old hold
    · exact h.labelled other old hold
    · exact h.labelled other links hold
  · intro other links hother id hid
    obtain ⟨old, hold, hcases⟩ := unlink_cases hne hother
    have hmem : id ∈ old.children ∧ id ≠ child := by
      rcases hcases with ⟨rfl, rfl⟩ | ⟨rfl, rfl⟩ | ⟨-, hnot, rfl⟩
      · refine ⟨hid, ?_⟩
        rintro rfl
        exact hne (honly hold hid).symm
      · simpa using List.mem_filter.mp hid
      · refine ⟨hid, ?_⟩
        rintro rfl
        exact hnot (honly hold hid)
    obtain ⟨below, hbelow, hup⟩ := h.listed hold id hmem.1
    obtain ⟨after, hafter, hsame, -⟩ := exists_unlink hbelow
    exact ⟨after, hafter, (hsame hmem.2).trans hup⟩
  · intro other links hother
    obtain ⟨old, hold, hcases⟩ := unlink_cases hne hother
    have hnodup := h.nodup hold
    rcases hcases with ⟨-, rfl⟩ | ⟨-, rfl⟩ | ⟨-, -, rfl⟩
    · exact hnodup
    · exact hnodup.filter _
    · exact hnodup
  · intro other links hother up hup
    obtain ⟨old, hold, hcases⟩ := unlink_cases hne hother
    have hkeep : other ≠ child ∧ old.parent = some up := by
      rcases hcases with ⟨-, rfl⟩ | ⟨rfl, rfl⟩ | ⟨hother, -, rfl⟩
      · contradiction
      · exact ⟨hne, hup⟩
      · exact ⟨hother, hup⟩
    obtain ⟨hlt, top, htop, hmem⟩ := h.linked hold hkeep.2
    obtain ⟨after, hafter, -, hall⟩ := exists_unlink htop
    exact ⟨hlt, after, hafter, hall other hmem hkeep.1⟩

theorem Labelled.unlink (h : shape.Labelled) (parent child : NodeId) :
    (shape.unlink parent child).Labelled := by
  have hstrike : ∀ links : Links, (links.strike child).label = links.label := fun _ => rfl
  exact (h.orphan child).modify hstrike parent

theorem Top.unlink {top : NodeId} (h : shape.Top top) (parent child : NodeId) :
    (shape.unlink parent child).Top top := by
  have hstrike : ∀ links : Links, links.parent = none →
      (links.strike child).parent = none := fun _ hnone => hnone
  exact (h.orphan child).modify hstrike parent

end Unlink

theorem Sound.cutOff (h : shape.Sound) (node : NodeId) : (shape.cutOff node).Sound := by
  rw [Shape.cutOff]
  split
  · exact h
  · next parent hparent =>
      obtain ⟨links, hlinks, hup⟩ := Option.bind_eq_some_iff.mp hparent
      obtain ⟨-, above, habove, hmem⟩ := h.linked hlinks hup
      exact h.unlink habove hmem

theorem Top.cutOff {top : NodeId} (h : shape.Top top) (node : NodeId) :
    (shape.cutOff node).Top top := by
  rw [Shape.cutOff]
  split
  · exact h
  · next parent _ => exact h.unlink parent node

theorem Labelled.cutOff (h : shape.Labelled) (node : NodeId) :
    (shape.cutOff node).Labelled := by
  rw [Shape.cutOff]
  split
  · exact h
  · next parent _ => exact h.unlink parent node

theorem isSome_cutOff (shape : Shape) (node id : NodeId) :
    (shape.cutOff node id).isSome = (shape id).isSome := by
  rw [cutOff]
  cases (shape node).bind Links.parent with
  | none => rfl
  | some parent => exact (isSome_modify _ parent _ id).trans (isSome_modify shape node _ id)

/-! ### Clearing -/

theorem isSome_abandon (shape : Shape) (children : List NodeId) (id : NodeId) :
    (shape.abandon children id).isSome = (shape id).isSome := by
  induction children generalizing shape with
  | nil => rfl
  | cons child children ih => exact (ih _).trans (isSome_modify shape child Links.orphan id)

/-- A shape whose node lists what it lists already. -/
theorem modify_relist_childrenOf (shape : Shape) (node : NodeId) :
    shape.modify node (Links.relist (shape.childrenOf node)) = shape := by
  funext other
  rw [modify]
  split
  · next heq =>
      subst heq
      cases hother : shape other with
      | none => rfl
      | some links => simp [childrenOf_of_eq_some hother, Links.relist]
  · rfl

theorem modify_relist_relist (shape : Shape) (node : NodeId) (before after : List NodeId) :
    (shape.modify node (Links.relist before)).modify node (Links.relist after) =
      shape.modify node (Links.relist after) := by
  funext other
  simp only [modify]
  split
  · rw [Option.map_map]
    rfl
  · rfl

/-- Abandoning what a node listed, when the node lists it no longer, leaves the
links in step. -/
theorem Sound.abandon {node : NodeId} {links : Links} {children : List NodeId}
    (h : (shape.modify node (Links.relist children)).Sound) (hnode : shape node = some links)
    (hnone : links.children = []) : (shape.abandon children).Sound := by
  induction children generalizing shape links with
  | nil =>
      rw [← hnone, ← childrenOf_of_eq_some hnode, modify_relist_childrenOf] at h
      exact h
  | cons child children ih =>
      have hlist : shape.modify node (Links.relist (child :: children)) node =
          some (links.relist (child :: children)) := by
        rw [modify_of_eq_some hnode, if_pos rfl]
      obtain ⟨below, hbelow, hup⟩ := h.listed hlist child List.mem_cons_self
      have hne : node ≠ child := by
        rintro rfl
        exact absurd (h.linked hbelow hup).1 (UInt32.lt_irrefl _)
      have hkept : shape.modify child Links.orphan node = some links := by
        rw [modify_of_eq_some hnode, if_neg hne]
      have hrest : (child :: children).filter (· != child) = children := by
        have hnodup : (child :: children).Nodup := h.nodup hlist
        rw [List.nodup_cons] at hnodup
        have hkeep : ∀ other ∈ children, (other != child) = true := by
          intro other hother
          have hother' : other ≠ child := fun heq => hnodup.1 (heq ▸ hother)
          simpa using hother'
        simpa using List.filter_eq_self.mpr hkeep
      have hunlink : (shape.modify child Links.orphan).modify node (Links.relist children) =
          (shape.modify node (Links.relist (child :: children))).unlink node child := by
        funext other
        simp only [Shape.unlink, modify]
        by_cases hother : other = node
        · subst hother
          simp [hne, hnode, Links.relist, Links.strike, hrest]
        · simp [hother]
      apply ih _ hkept hnone
      rw [hunlink]
      exact h.unlink hlist List.mem_cons_self

theorem Sound.cleared (h : shape.Sound) (node : NodeId) : (shape.cleared node).Sound := by
  rw [Shape.cleared]
  cases hnode : shape node with
  | none =>
      have hsame : shape.modify node (Links.relist []) = shape := by
        have hnone : shape.childrenOf node = [] := by simp [childrenOf, hnode]
        rw [← hnone, modify_relist_childrenOf]
      rw [hsame, childrenOf, hnode]
      exact h
  | some links =>
      have hempty : shape.modify node (Links.relist []) node = some (links.relist []) := by
        rw [modify_of_eq_some hnode, if_pos rfl]
      apply Sound.abandon _ hempty rfl
      rw [modify_relist_relist, modify_relist_childrenOf]
      exact h

theorem Top.abandon {top : NodeId} (h : shape.Top top) (children : List NodeId) :
    (shape.abandon children).Top top := by
  induction children generalizing shape with
  | nil => exact h
  | cons child children ih => exact ih (h.orphan child)

theorem Top.cleared {top : NodeId} (h : shape.Top top) (node : NodeId) :
    (shape.cleared node).Top top := by
  have hrelist : ∀ links : Links, links.parent = none → (links.relist []).parent = none :=
    fun _ hnone => hnone
  exact (h.modify hrelist node).abandon _

end Shape

/-! ### The changes of an arena -/

namespace Arena

variable {arena : Arena}

theorem shape_update {change : Node → Node} {relink : Links → Links}
    (h : ∀ node, (change node).links = relink node.links) (arena : Arena) (id : NodeId) :
    (arena.update id change).shape = arena.shape.modify id relink := by
  funext other
  rw [shape, get?_update, Shape.modify]
  by_cases hother : other = id
  · rw [if_pos hother.symm, if_pos hother, shape, Option.map_map, Option.map_map]
    congr 1
    funext node
    exact h node
  · rw [if_neg fun heq => hother heq.symm, if_neg hother, shape]

theorem shape_orphan (arena : Arena) (child : NodeId) :
    (arena.update child ({ · with parent := none })).shape =
      arena.shape.modify child Links.orphan := by
  apply shape_update
  intro node
  rfl

theorem shape_unlink (arena : Arena) (parent child : NodeId) :
    ((arena.update child ({ · with parent := none })).update parent fun node =>
      { node with children := node.children.filter (· != child) }).shape =
      arena.shape.unlink parent child := by
  rw [Shape.unlink, ← shape_orphan]
  apply shape_update
  intro node
  rfl

theorem shape_relist (arena : Arena) (node : NodeId) (children : List NodeId) :
    (arena.update node ({ · with children })).shape =
      arena.shape.modify node (Links.relist children) := by
  apply shape_update
  intro node
  rfl

theorem shape_link (arena : Arena) (parent child : NodeId) (index : Nat) :
    (arena.link parent child index).shape =
      (arena.shape.modify parent (Links.enter child index)).modify child
        (Links.adopt parent) := by
  let listed (node : Node) : Node :=
    { node with
      children := node.children.insertIdx (min index node.children.length) child }
  have hlisted : (arena.update parent listed).shape =
      arena.shape.modify parent (Links.enter child index) :=
    shape_update (fun _ => rfl) arena parent
  rw [← hlisted]
  apply shape_update
  intro node
  rfl

/-- Linking a node that was just added under another grafts it. -/
theorem shape_add_link (hsize : arena.size < UInt32.size) {make : NodeId → Node}
    (hmake : ∀ id, (make id).links = ⟨id, none, []⟩) {parent : NodeId} {above : Links}
    (hparent : arena.shape parent = some above) (index : Nat) :
    ((arena.add make).link parent arena.nextId index).shape =
      arena.shape.graft parent above arena.nextId index := by
  have hne : arena.nextId ≠ parent := by
    rintro heq
    rw [← heq, shape_nextId hsize] at hparent
    contradiction
  funext other
  rw [shape_link, Shape.modify, Shape.modify, shape_add hsize, hmake, Shape.graft]
  by_cases hid : other = arena.nextId
  · rw [if_pos hid, if_pos hid, if_pos hid, if_neg (hid ▸ hne)]
    rfl
  · rw [if_neg hid, if_neg hid, if_neg hid]
    by_cases hother : other = parent
    · rw [if_pos hother, if_pos hother, hother, hparent]
      rfl
    · rw [if_neg hother, if_neg hother]

end Arena

end Espalier
