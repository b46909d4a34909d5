/-
The nodes below a node, and the order in which a recursion over the child lists
meets them.  The recursion goes a number of levels deep, so it is defined for
every shape, cyclic ones too; a chain without repeated nodes is short enough to
stay within the levels that a walk has.
-/
import Mathlib.Data.List.Chain
import Mathlib.Data.List.Nodup
import Mathlib.Data.List.Perm.Subperm
import Espalier.Proofs.Tree.Links

namespace Espalier.Shape

open Relation

variable {shape : Shape}

/-- A node and what it lists, directly or through others. -/
def Below (shape : Shape) : NodeId → NodeId → Prop :=
  ReflTransGen shape.Child

/-- No node lies below itself. -/
def Acyclic (shape : Shape) : Prop :=
  ∀ id, ¬ TransGen shape.Child id id

theorem lt_of_transGen
    (hyounger : ∀ {above below}, shape.Child above below → above < below)
    {above below : NodeId} (h : TransGen shape.Child above below) : above < below := by
  induction h with
  | single hchild => exact hyounger hchild
  | tail _ hchild ih => exact UInt32.lt_trans ih (hyounger hchild)

/-- Where children are younger than the nodes that list them there are no cycles. -/
theorem acyclic_of_lt
    (hyounger : ∀ {above below}, shape.Child above below → above < below) :
    shape.Acyclic :=
  fun _ hcycle => UInt32.lt_irrefl _ (lt_of_transGen hyounger hcycle)

/-- The ids of the nodes below a node in document order, down to a number of
levels. -/
def preorder (shape : Shape) : Nat → NodeId → List NodeId
  | 0, _ => []
  | levels + 1, id => id :: (shape.childrenOf id).flatMap (preorder shape levels)

theorem below_of_mem_preorder {levels : Nat} {start id : NodeId}
    (h : id ∈ shape.preorder levels start) : shape.Below start id := by
  induction levels generalizing start with
  | zero => simp [preorder] at h
  | succ levels ih =>
      rw [preorder, List.mem_cons, List.mem_flatMap] at h
      rcases h with rfl | ⟨child, hchild, hid⟩
      · exact ReflTransGen.refl
      · exact ReflTransGen.head hchild (ih hid)

theorem mem_preorder_of_isChain {levels : Nat} {start : NodeId} {path : List NodeId}
    (hchain : (start :: path).IsChain shape.Child) (hlength : path.length < levels) :
    (start :: path).getLast (List.cons_ne_nil _ _) ∈ shape.preorder levels start := by
  induction path generalizing start levels with
  | nil =>
      obtain ⟨levels, rfl⟩ := Nat.exists_eq_succ_of_ne_zero (Nat.ne_of_gt hlength)
      simp [preorder]
  | cons child path ih =>
      obtain ⟨levels, rfl⟩ :=
        Nat.exists_eq_succ_of_ne_zero (Nat.ne_of_gt (Nat.zero_lt_of_lt hlength))
      rw [List.isChain_cons_cons] at hchain
      rw [preorder, List.mem_cons, List.mem_flatMap, List.getLast_cons_cons]
      exact Or.inr ⟨child, hchain.1, ih hchain.2 (Nat.lt_of_succ_lt_succ hlength)⟩

/-- Where every listed id names a node, everything below a node is a node. -/
theorem isSome_of_below
    (hclosed : ∀ {above below}, shape.Child above below → (shape below).isSome)
    {start id : NodeId} (hstart : (shape start).isSome) (h : shape.Below start id) :
    (shape id).isSome := by
  cases h with
  | refl => exact hstart
  | tail _ hchild => exact hclosed hchild

theorem isSome_of_above {start id : NodeId} (hid : (shape id).isSome)
    (h : shape.Below start id) : (shape start).isSome := by
  rcases ReflTransGen.cases_head h with rfl | ⟨child, hchild, -⟩
  · exact hid
  · obtain ⟨links, hlinks, -⟩ := exists_of_child hchild
    simp [hlinks]

/-- What lies below a node is reached by a chain that visits no node twice. -/
theorem exists_simple_chain {start id : NodeId} (h : shape.Below start id) :
    ∃ path, (start :: path).IsChain shape.Child ∧ (start :: path).Nodup ∧
      (start :: path).getLast (List.cons_ne_nil _ _) = id := by
  induction h using ReflTransGen.head_induction_on with
  | refl => exact ⟨[], by simp⟩
  | @head start child hstep _ ih =>
      obtain ⟨path, hchain, hnodup, hlast⟩ := ih
      by_cases hmem : start ∈ child :: path
      · -- the chain comes back to its start, so it can begin there
        obtain ⟨front, back, hsplit⟩ := List.append_of_mem hmem
        refine ⟨back, ?_, ?_, ?_⟩
        · rw [hsplit] at hchain
          exact hchain.right_of_append
        · rw [hsplit] at hnodup
          exact hnodup.of_append_right
        · rw [← hlast]
          simp only [hsplit]
          rw [List.getLast_append_of_ne_nil]
      · refine ⟨child :: path, ?_, ?_, ?_⟩
        · exact List.isChain_cons_cons.mpr ⟨hstep, hchain⟩
        · exact List.nodup_cons.mpr ⟨hmem, hnodup⟩
        · rw [List.getLast_cons_cons, hlast]

/-- Every node of a chain but its last has a child. -/
theorem isSome_of_mem_dropLast {path : List NodeId} (hchain : path.IsChain shape.Child)
    {id : NodeId} (hid : id ∈ path.dropLast) : (shape id).isSome := by
  induction path with
  | nil => simp at hid
  | cons first rest ih =>
      cases rest with
      | nil => simp at hid
      | cons second rest =>
          rw [List.isChain_cons_cons] at hchain
          rw [List.dropLast_cons_cons, List.mem_cons] at hid
          rcases hid with rfl | hid
          · obtain ⟨links, hlinks, -⟩ := exists_of_child hchain.1
            simp [hlinks]
          · exact ih hchain.2 hid

end Espalier.Shape

namespace Espalier.Arena

open Relation

/-- Distinct ids of nodes are no more than there are nodes. -/
theorem length_le_size {arena : Arena} {ids : List NodeId} (hnodup : ids.Nodup)
    (h : ∀ id ∈ ids, (arena.shape id).isSome) : ids.length ≤ arena.size := by
  have hnat : (ids.map UInt32.toNat).Nodup :=
    hnodup.map fun _ _ heq => UInt32.toNat_inj.mp heq
  have hsubset : ids.map UInt32.toNat ⊆ List.range arena.size := by
    intro index hindex
    obtain ⟨id, hid, rfl⟩ := List.mem_map.mp hindex
    have hsome := h id hid
    rw [shape, Option.isSome_map, isSome_get?_iff] at hsome
    exact List.mem_range.mpr hsome
  simpa using (List.subperm_of_subset hnat hsubset).length_le

/-- The ids of the nodes below a node, in document order, as deep as a walk
goes. -/
def preorder (arena : Arena) (start : NodeId) : List NodeId :=
  arena.shape.preorder (arena.size + 1) start

/-- Without cycles nothing lies deeper than a walk goes: what is passed up from the
children to their node, with one level more, reaches the start. -/
theorem induct_levels {arena : Arena} (hacyclic : arena.shape.Acyclic)
    {P : Nat → NodeId → Prop}
    (hstep : ∀ levels id,
      (∀ child ∈ arena.shape.childrenOf id, P levels child) → P (levels + 1) id)
    (start : NodeId) : P (arena.size + 1) start := by
  -- the nodes on the way down are distinct, so there are too few of them to go too deep
  suffices hdown : ∀ levels (above : List NodeId) id, above.Nodup →
      (∀ up ∈ above, (arena.shape up).isSome ∧ TransGen arena.shape.Child up id) →
      above.length + levels = arena.size + 1 → P levels id from
    hdown (arena.size + 1) [] start List.nodup_nil (by simp) (Nat.zero_add _)
  intro levels
  induction levels with
  | zero =>
      intro above id hnodup habove hlength
      have hle := length_le_size hnodup fun up hup => (habove up hup).1
      omega
  | succ levels ih =>
      intro above id hnodup habove hlength
      apply hstep
      intro child hchild
      obtain ⟨links, hlinks, -⟩ := Shape.exists_of_child hchild
      have hnew : id ∉ above := fun hmem => hacyclic id (habove id hmem).2
      apply ih (id :: above) child (List.nodup_cons.mpr ⟨hnew, hnodup⟩)
      · intro up hup
        rcases List.mem_cons.mp hup with rfl | hup
        · exact ⟨by simp [hlinks], TransGen.single hchild⟩
        · exact ⟨(habove up hup).1, (habove up hup).2.tail hchild⟩
      · rw [List.length_cons]
        omega

/-- A walk goes deep enough to meet everything below its start. -/
theorem mem_preorder_iff {arena : Arena} {start id : NodeId} :
    id ∈ arena.preorder start ↔ arena.shape.Below start id := by
  constructor
  · intro h
    exact Shape.below_of_mem_preorder h
  · intro h
    obtain ⟨path, hchain, hnodup, rfl⟩ := Shape.exists_simple_chain h
    have hlength : ((start :: path).dropLast).length ≤ arena.size :=
      length_le_size (hnodup.sublist (List.dropLast_sublist _)) fun id hid =>
        Shape.isSome_of_mem_dropLast hchain hid
    rw [List.length_dropLast, List.length_cons] at hlength
    exact Shape.mem_preorder_of_isChain hchain (Nat.lt_succ_of_le hlength)

end Espalier.Arena

namespace Espalier.Shape

open Relation

variable {shape : Shape}

/-! ### Sound shapes are forests -/

theorem Sound.parent_of_child (h : shape.Sound) {above below : NodeId}
    (hchild : shape.Child above below) :
    above < below ∧ ∃ links, shape below = some links ∧ links.parent = some above := by
  obtain ⟨links, habove, hmem⟩ := exists_of_child hchild
  obtain ⟨under, hbelow, hparent⟩ := h.listed habove below hmem
  exact ⟨(h.linked hbelow hparent).1, under, hbelow, hparent⟩

theorem Sound.isSome_of_child (h : shape.Sound) {above below : NodeId}
    (hchild : shape.Child above below) : (shape below).isSome := by
  obtain ⟨-, links, hlinks, -⟩ := h.parent_of_child hchild
  simp [hlinks]

theorem Sound.isSome_of_transGen (h : shape.Sound) {above below : NodeId}
    (hbelow : TransGen shape.Child above below) : (shape below).isSome := by
  obtain ⟨_, -, hlast⟩ := TransGen.tail'_iff.mp hbelow
  exact h.isSome_of_child hlast

theorem Sound.eq_of_child (h : shape.Sound) {first second below : NodeId}
    (hfirst : shape.Child first below) (hsecond : shape.Child second below) :
    first = second := by
  obtain ⟨-, links, hlinks, hparent⟩ := h.parent_of_child hfirst
  obtain ⟨-, links', hlinks', hparent'⟩ := h.parent_of_child hsecond
  grind

theorem Sound.lt_of_transGen (h : shape.Sound) {above below : NodeId}
    (hbelow : TransGen shape.Child above below) : above < below :=
  Shape.lt_of_transGen (fun hchild => (h.parent_of_child hchild).1) hbelow

theorem Sound.acyclic (h : shape.Sound) : shape.Acyclic :=
  acyclic_of_lt fun hchild => (h.parent_of_child hchild).1

theorem Sound.le_of_below (h : shape.Sound) {above below : NodeId}
    (hbelow : shape.Below above below) : above ≤ below := by
  rcases reflTransGen_iff_eq_or_transGen.mp hbelow with rfl | hproper
  · exact UInt32.le_refl _
  · exact UInt32.le_of_lt (h.lt_of_transGen hproper)

/-- Of two nodes above a third, one is above the other. -/
theorem Sound.below_total (h : shape.Sound) {first second below : NodeId}
    (hfirst : shape.Below first below) (hsecond : shape.Below second below) :
    shape.Below first second ∨ shape.Below second first := by
  have hunique : Relator.RightUnique (Function.swap shape.Child) :=
    fun _ _ _ hleft hright => h.eq_of_child hleft hright
  rcases ReflTransGen.total_of_right_unique hunique hfirst.swap hsecond.swap with
    hup | hup
  · exact Or.inr (reflTransGen_swap.mp hup)
  · exact Or.inl (reflTransGen_swap.mp hup)

/-- Two children of one node have nothing below them in common. -/
theorem Sound.siblings_disjoint (h : shape.Sound) {above first second below : NodeId}
    (hfirst : shape.Child above first) (hsecond : shape.Child above second)
    (hleft : shape.Below first below) (hright : shape.Below second below) :
    first = second := by
  have hnever : ∀ {elder younger : NodeId}, shape.Child above elder →
      shape.Child above younger → shape.Below elder younger → elder = younger := by
    intro elder younger helder hyounger hbelow
    rcases reflTransGen_iff_eq_or_transGen.mp hbelow with heq | hproper
    · exact heq.symm
    · -- the parent of the younger one would lie below the elder one
      obtain ⟨parent, hup, hlast⟩ := TransGen.tail'_iff.mp hproper
      obtain rfl := h.eq_of_child hlast hyounger
      have hle := h.le_of_below hup
      have hlt := (h.parent_of_child helder).1
      exact absurd hlt (UInt32.not_lt.mpr hle)
  rcases h.below_total hleft hright with hbelow | hbelow
  · exact hnever hfirst hsecond hbelow
  · exact (hnever hsecond hfirst hbelow).symm

theorem Sound.nodup_childrenOf (h : shape.Sound) (id : NodeId) :
    (shape.childrenOf id).Nodup := by
  cases hid : shape id with
  | none => simp [childrenOf, hid]
  | some links =>
      rw [childrenOf_of_eq_some hid]
      exact h.nodup hid

theorem Sound.nodup_preorder (h : shape.Sound) (levels : Nat) (start : NodeId) :
    (shape.preorder levels start).Nodup := by
  induction levels generalizing start with
  | zero => simp [preorder]
  | succ levels ih =>
      rw [preorder, List.nodup_cons, List.nodup_flatMap]
      refine ⟨?_, ?_, ?_⟩
      · intro hmem
        obtain ⟨child, hchild, hbelow⟩ := List.mem_flatMap.mp hmem
        exact h.acyclic start
          (TransGen.head' hchild (below_of_mem_preorder hbelow))
      · intro child _
        exact ih child
      · apply (h.nodup_childrenOf start).pairwise_of_forall_ne
        intro first hfirst second hsecond hne id hleft hright
        exact hne (h.siblings_disjoint hfirst hsecond (below_of_mem_preorder hleft)
          (below_of_mem_preorder hright))

/-! ### The tops of the trees -/

/-- Every node lies below a top. -/
theorem Sound.exists_top (h : shape.Sound) {id : NodeId} (hid : (shape id).isSome) :
    ∃ top, shape.Top top ∧ shape.Below top id := by
  induction hage : id.toNat using Nat.strongRecOn generalizing id with
  | ind age ih =>
      obtain ⟨links, hlinks⟩ := Option.isSome_iff_exists.mp hid
      cases hparent : links.parent with
      | none => exact ⟨id, ⟨links, hlinks, hparent⟩, ReflTransGen.refl⟩
      | some parent =>
          obtain ⟨hlt, above, habove, hmem⟩ := h.linked hlinks hparent
          have hyounger : parent.toNat < age := hage ▸ UInt32.lt_iff_toNat_lt.mp hlt
          obtain ⟨top, htop, hbelow⟩ := ih parent.toNat hyounger (by simp [habove]) rfl
          exact ⟨top, htop, hbelow.tail (child_of_mem habove hmem)⟩

/-- Above a node there are the node itself and what is above its parent. -/
theorem Sound.below_child_iff (h : shape.Sound) {parent child : NodeId}
    (hchild : shape.Child parent child) {id : NodeId} :
    shape.Below id child ↔ id = child ∨ shape.Below id parent := by
  constructor
  · intro hbelow
    rcases ReflTransGen.cases_tail hbelow with heq | ⟨other, hother, hlast⟩
    · exact .inl heq.symm
    · obtain rfl := h.eq_of_child hlast hchild
      exact .inr hother
  · rintro (rfl | hbelow)
    · exact ReflTransGen.refl
    · exact hbelow.tail hchild

/-- A top lies below no other node. -/
theorem Sound.eq_of_below_top (h : shape.Sound) {id top : NodeId} (htop : shape.Top top)
    (hbelow : shape.Below id top) : id = top := by
  rcases ReflTransGen.cases_tail hbelow with heq | ⟨parent, -, hlast⟩
  · exact heq.symm
  · obtain ⟨-, links, hlinks, hparent⟩ := h.parent_of_child hlast
    obtain ⟨links', hlinks', hnone⟩ := htop
    grind

/-- No node lies below two tops. -/
theorem Sound.top_unique (h : shape.Sound) {first second below : NodeId}
    (hfirst : shape.Top first) (hsecond : shape.Top second)
    (hleft : shape.Below first below) (hright : shape.Below second below) :
    first = second := by
  rcases h.below_total hleft hright with hbelow | hbelow
  · exact h.eq_of_below_top hsecond hbelow
  · exact (h.eq_of_below_top hfirst hbelow).symm

end Espalier.Shape
