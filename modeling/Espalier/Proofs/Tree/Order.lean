/-
The document order of trees, without a bound on how deep they are.  Where no node lies
below itself every tree has one order, and a walk meets the nodes in it.  The order goes
through all the ways down from the top of a tree, from left to right.
-/
import Espalier.Proofs.Tree.Descent

namespace Espalier.Shape

variable {shape : Shape}

/-- The trees below some tops hold these nodes, in document order. -/
inductive Lists (shape : Shape) : List NodeId → List NodeId → Prop
  | nil : Lists shape [] []
  | cons {id : NodeId} {tops below rest : List NodeId}
      (hbelow : Lists shape (shape.childrenOf id) below) (hrest : Lists shape tops rest) :
      Lists shape (id :: tops) (id :: (below ++ rest))

namespace Lists

theorem append {front back order order' : List NodeId} (h : shape.Lists front order)
    (h' : shape.Lists back order') : shape.Lists (front ++ back) (order ++ order') := by
  induction h with
  | nil => exact h'
  | cons hbelow _ _ ih =>
      rw [List.cons_append, List.cons_append, List.append_assoc]
      exact cons hbelow ih

/-- Only the child lists of the nodes in the trees count. -/
theorem congr {shape' : Shape} {tops order : List NodeId} (h : shape.Lists tops order)
    (hsame : ∀ id ∈ order, shape'.childrenOf id = shape.childrenOf id) :
    shape'.Lists tops order := by
  induction h with
  | nil => exact nil
  | cons hbelow hrest ihBelow ihRest =>
      have hid := hsame _ List.mem_cons_self
      have hinner := ihBelow fun id hmem =>
        hsame id (List.mem_cons_of_mem _ (List.mem_append_left _ hmem))
      have hlater := ihRest fun id hmem =>
        hsame id (List.mem_cons_of_mem _ (List.mem_append_right _ hmem))
      rw [← hid] at hinner
      exact cons hinner hlater

/-- Nodes without children are in the order in which they stand. -/
theorem of_leaves {ids : List NodeId} (h : ∀ id ∈ ids, shape.childrenOf id = []) :
    shape.Lists ids ids := by
  induction ids with
  | nil => exact nil
  | cons id ids ih =>
      have hbelow : shape.Lists (shape.childrenOf id) [] := by
        rw [h id List.mem_cons_self]
        exact nil
      have hrest := ih fun other hother => h other (List.mem_cons_of_mem id hother)
      exact cons hbelow hrest

theorem length_le {tops order : List NodeId} (h : shape.Lists tops order) :
    tops.length ≤ order.length := by
  induction h with
  | nil => exact Nat.le_refl 0
  | cons _ _ _ ih =>
      rw [List.length_cons, List.length_cons, List.length_append]
      omega

/-- Trees that hold no more nodes than their tops have no children. -/
theorem childrenOf_eq_nil {tops order : List NodeId} (h : shape.Lists tops order)
    (hlength : order.length ≤ tops.length) : ∀ id ∈ tops, shape.childrenOf id = [] := by
  induction h with
  | nil => simp
  | cons hbelow hrest _ ih =>
      have hleast := hrest.length_le
      rw [List.length_cons, List.length_cons, List.length_append] at hlength
      intro id hid
      rcases List.mem_cons.mp hid with rfl | hid
      · have hnone := hbelow.length_le
        exact List.length_eq_zero_iff.mp (by omega)
      · exact ih (by omega) id hid

/-- A node of the trees is one of their tops, or one of the nodes before it lists it. -/
theorem exists_above {tops order front back : List NodeId} {id : NodeId}
    (h : shape.Lists tops order) (hsplit : order = front ++ id :: back) :
    id ∈ tops ∨ ∃ above ∈ front, shape.Child above id := by
  induction h generalizing front back with
  | nil => exact absurd hsplit.symm (by simp)
  | @cons top tops below rest _ _ ihBelow ihRest =>
      cases front with
      | nil =>
          obtain ⟨rfl, -⟩ := List.cons.inj hsplit
          exact Or.inl List.mem_cons_self
      | cons first front =>
          obtain ⟨rfl, hrest⟩ := List.cons.inj hsplit
          -- the node stands among what is below the first top, or among the rest
          rcases List.append_eq_append_iff.mp hrest with
            ⟨inner, hfront, hlater⟩ | ⟨inner, hinner, hcons⟩
          · rcases ihRest hlater with htop | ⟨above, habove, hchild⟩
            · exact Or.inl (List.mem_cons_of_mem _ htop)
            · have hmem : above ∈ front := hfront ▸ List.mem_append_right below habove
              exact Or.inr ⟨above, List.mem_cons_of_mem _ hmem, hchild⟩
          · cases inner with
            | nil =>
                have hfirst : rest = [] ++ id :: back := hcons.symm
                rcases ihRest hfirst with htop | ⟨_, hnone, -⟩
                · exact Or.inl (List.mem_cons_of_mem _ htop)
                · exact absurd hnone List.not_mem_nil
            | cons =>
                obtain ⟨rfl, -⟩ := List.cons.inj hcons
                rcases ihBelow hinner with htop | ⟨above, habove, hchild⟩
                · exact Or.inr ⟨_, List.mem_cons_self, htop⟩
                · exact Or.inr ⟨above, List.mem_cons_of_mem _ habove, hchild⟩

/-- Trees have one document order. -/
theorem unique {tops first second : List NodeId} (h : shape.Lists tops first)
    (h' : shape.Lists tops second) : first = second := by
  induction h generalizing second with
  | nil => cases h' with | nil => rfl
  | cons _ _ ihBelow ihRest =>
      cases h' with
      | cons hbelow hrest => rw [ihBelow hbelow, ihRest hrest]

/-- The orders of trees that stand beside each other are joined. -/
theorem flatMap {tops : List NodeId} {order : NodeId → List NodeId}
    (h : ∀ id ∈ tops, shape.Lists [id] (order id)) :
    shape.Lists tops (tops.flatMap order) := by
  induction tops with
  | nil => exact nil
  | cons id tops ih =>
      have hrest := ih fun other hother => h other (List.mem_cons_of_mem id hother)
      rw [List.flatMap_cons]
      exact (h id List.mem_cons_self).append hrest

/-- The first node of an order is its first top; then come the children of that node,
in front of the other tops. -/
theorem exists_of_cons {tops order : List NodeId} {id : NodeId}
    (h : shape.Lists tops (id :: order)) :
    ∃ rest, tops = id :: rest ∧ shape.Lists (shape.childrenOf id ++ rest) order := by
  cases h with
  | cons hbelow hrest => exact ⟨_, rfl, hbelow.append hrest⟩

/-- A node of an order stands in front of what is below it. -/
theorem exists_block {tops order : List NodeId} (h : shape.Lists tops order) {id : NodeId}
    (hid : id ∈ order) : ∃ front below back, order = front ++ (id :: below) ++ back ∧
      shape.Lists (shape.childrenOf id) below := by
  induction h with
  | nil => exact absurd hid List.not_mem_nil
  | @cons top tops below rest hbelow _ ihBelow ihRest =>
      rcases List.mem_cons.mp hid with rfl | hid
      · exact ⟨[], below, rest, by simp, hbelow⟩
      · rcases List.mem_append.mp hid with hmem | hmem
        · obtain ⟨front, inner, back, rfl, hinner⟩ := ihBelow hmem
          exact ⟨top :: front, inner, back ++ rest, by simp, hinner⟩
        · obtain ⟨front, inner, back, rfl, hinner⟩ := ihRest hmem
          exact ⟨top :: (below ++ front), inner, back, by simp, hinner⟩

theorem forall_mem {P : NodeId → Prop} {tops order : List NodeId} (h : shape.Lists tops order)
    (htops : ∀ id ∈ tops, P id)
    (hclosed : ∀ {above below}, P above → shape.Child above below → P below) :
    ∀ id ∈ order, P id := by
  induction h with
  | nil => exact htops
  | cons _ _ ihBelow ihRest =>
      rw [List.forall_mem_cons] at htops
      intro other hother
      rcases List.mem_cons.mp hother with rfl | hother
      · exact htops.1
      · rcases List.mem_append.mp hother with hmem | hmem
        · exact ihBelow (fun _ hchild => hclosed htops.1 hchild) other hmem
        · exact ihRest htops.2 other hmem

/-- Where some nodes are gone, together with all that is below them, the others keep their
order. -/
theorem prune {shape' : Shape} {gone tops order : List NodeId} (h : shape.Lists tops order)
    (hclosed : ∀ {above below}, above ∈ gone → shape.Child above below → below ∈ gone)
    (hkept : ∀ id, id ∉ gone →
      shape'.childrenOf id = (shape.childrenOf id).filter (· ∉ gone)) :
    shape'.Lists (tops.filter (· ∉ gone)) (order.filter (· ∉ gone)) := by
  induction h with
  | nil => exact nil
  | @cons id tops below rest hbelow _ ihBelow ihRest =>
      by_cases hid : id ∈ gone
      · have hbelow' : ∀ other ∈ below, other ∈ gone :=
          hbelow.forall_mem (fun _ hchild => hclosed hid hchild) hclosed
        have hnone : below.filter (· ∉ gone) = [] := by simpa using hbelow'
        rw [List.filter_cons_of_neg (by simpa using hid),
          List.filter_cons_of_neg (by simpa using hid), List.filter_append, hnone]
        exact ihRest
      · rw [← hkept id hid] at ihBelow
        simpa [hid] using cons ihBelow ihRest

end Lists

/-! ### Ways down -/

/-- Where a way down from a node leads, which names a place in a child list at each step. -/
def end? (shape : Shape) (start : NodeId) : List Nat → Option NodeId
  | [] => some start
  | place :: way => (shape.childrenOf start)[place]?.bind fun child => end? shape child way

/-- Where a way leads that begins with the place of one of several tops. -/
def ends? (shape : Shape) (tops : List NodeId) : List Nat → Option NodeId
  | [] => none
  | place :: way => tops[place]?.bind fun top => shape.end? top way

/-- A way into the tops behind the first one, as a way into all of them. -/
def pastFirst : List Nat → List Nat
  | [] => []
  | place :: way => (place + 1) :: way

theorem ends?_pastFirst (id : NodeId) (tops : List NodeId) (way : List Nat) :
    shape.ends? (id :: tops) (pastFirst way) = shape.ends? tops way := by
  cases way with
  | nil => rfl
  | cons place way => simp [pastFirst, ends?]

theorem pastFirst_lt {first second : List Nat} (h : first < second) :
    pastFirst first < pastFirst second := by
  cases first with
  | nil =>
      cases second with
      | nil => exact h
      | cons place way => simp [pastFirst]
  | cons place way =>
      cases second with
      | nil => simp at h
      | cons place' way' => simpa [pastFirst, List.cons_lt_cons_iff] using h

/-- These are all the ways into some tops, from left to right. -/
structure Ways (shape : Shape) (tops : List NodeId) (ways : List (List Nat)) : Prop where
  sorted : ways.Pairwise (· < ·)
  mem_iff : ∀ way, way ∈ ways ↔ (shape.ends? tops way).isSome

namespace Ways

variable {id : NodeId} {tops : List NodeId} {inner later : List (List Nat)}

theorem exists_cons (h : shape.Ways tops later) {way : List Nat} (hway : way ∈ later) :
    ∃ place tail, way = place :: tail := by
  cases way with
  | nil => simpa [ends?] using (h.mem_iff []).mp hway
  | cons place tail => exact ⟨place, tail, rfl⟩

theorem nil : shape.Ways [] [] where
  sorted := List.Pairwise.nil
  mem_iff way := by
    cases way with
    | nil => simp [ends?]
    | cons place tail => simp [ends?]

/-- The first top comes first, then the ways to what is below it, then the others. -/
theorem cons (h : shape.Ways (shape.childrenOf id) inner) (h' : shape.Ways tops later) :
    shape.Ways (id :: tops) ([0] :: (inner.map (0 :: ·) ++ later.map pastFirst)) := by
  constructor
  · rw [List.pairwise_cons, List.pairwise_append, List.pairwise_map, List.pairwise_map]
    refine ⟨?_, ?_, ?_, ?_⟩
    · intro way hway
      rcases List.mem_append.mp hway with hway | hway
      · obtain ⟨_, hin, rfl⟩ := List.mem_map.mp hway
        obtain ⟨place, tail, rfl⟩ := h.exists_cons hin
        simp
      · obtain ⟨_, hin, rfl⟩ := List.mem_map.mp hway
        obtain ⟨place, tail, rfl⟩ := h'.exists_cons hin
        simp [pastFirst, List.cons_lt_cons_iff]
    · exact h.sorted.imp fun hlt => List.cons_lt_cons_iff.mpr (.inr ⟨rfl, hlt⟩)
    · exact h'.sorted.imp pastFirst_lt
    · intro first hfirst second hsecond
      obtain ⟨_, -, rfl⟩ := List.mem_map.mp hfirst
      obtain ⟨_, hin, rfl⟩ := List.mem_map.mp hsecond
      obtain ⟨place, tail, rfl⟩ := h'.exists_cons hin
      simp [pastFirst, List.cons_lt_cons_iff]
  · intro way
    rw [List.mem_cons, List.mem_append, List.mem_map, List.mem_map]
    constructor
    · rintro (rfl | ⟨way, hin, rfl⟩ | ⟨way, hin, rfl⟩)
      · rfl
      · obtain ⟨place, tail, rfl⟩ := h.exists_cons hin
        exact (h.mem_iff _).mp hin
      · rw [ends?_pastFirst]
        exact (h'.mem_iff way).mp hin
    · intro hthere
      -- a way leads to the first top, below it, or into the others
      match way, hthere with
      | [], hthere => exact absurd hthere (by simp [ends?])
      | [0], _ => exact .inl rfl
      | 0 :: place :: tail, hthere =>
          exact .inr (.inl ⟨place :: tail, (h.mem_iff _).mpr hthere, rfl⟩)
      | (place + 1) :: tail, hthere =>
          exact .inr (.inr ⟨place :: tail, (h'.mem_iff _).mpr hthere, rfl⟩)

theorem map_ends?_cons (h : shape.Ways (shape.childrenOf id) inner) :
    ([0] :: (inner.map (0 :: ·) ++ later.map pastFirst)).map (shape.ends? (id :: tops)) =
      some id :: (inner.map (shape.ends? (shape.childrenOf id)) ++
        later.map (shape.ends? tops)) := by
  have hfirst : inner.map (shape.ends? (id :: tops) ∘ (0 :: ·)) =
      inner.map (shape.ends? (shape.childrenOf id)) := by
    apply List.map_congr_left
    intro way hin
    obtain ⟨place, tail, rfl⟩ := h.exists_cons hin
    rfl
  have hothers : shape.ends? (id :: tops) ∘ pastFirst = shape.ends? tops := by
    funext way
    exact ends?_pastFirst id tops way
  rw [List.map_cons, List.map_append, List.map_map, List.map_map, hfirst, hothers]
  rfl

end Ways

/-- An order goes through the ways into its trees. -/
theorem Lists.exists_ways {tops order : List NodeId} (h : shape.Lists tops order) :
    ∃ ways, shape.Ways tops ways ∧ order.map some = ways.map (shape.ends? tops) := by
  induction h with
  | nil => exact ⟨[], .nil, rfl⟩
  | cons _ _ ihBelow ihRest =>
      obtain ⟨inner, hinner, hmap⟩ := ihBelow
      obtain ⟨later, hlater, hmap'⟩ := ihRest
      refine ⟨_, hinner.cons hlater, ?_⟩
      rw [hinner.map_ends?_cons, List.map_cons, List.map_append, hmap, hmap']

/-- The order of a tree goes through the ways down from its top, from left to right. -/
theorem Lists.exists_ways_down {start : NodeId} {order : List NodeId}
    (h : shape.Lists [start] order) :
    ∃ ways : List (List Nat), ways.Pairwise (· < ·) ∧
      (∀ way, way ∈ ways ↔ (shape.end? start way).isSome) ∧
      order.map some = ways.map (shape.end? start) := by
  cases h with
  | @cons _ _ below _ hbelow hrest =>
      cases hrest
      obtain ⟨inner, hinner, hmap⟩ := hbelow.exists_ways
      refine ⟨[] :: inner, ?_, ?_, ?_⟩
      · refine List.pairwise_cons.mpr ⟨?_, hinner.sorted⟩
        intro way hway
        obtain ⟨place, tail, rfl⟩ := hinner.exists_cons hway
        exact List.nil_lt_cons place tail
      · intro way
        cases way with
        | nil => simp [end?]
        | cons place tail =>
            rw [List.mem_cons, or_iff_right (List.cons_ne_nil place tail)]
            exact hinner.mem_iff _
      · have hsame : inner.map (shape.end? start) =
            inner.map (shape.ends? (shape.childrenOf start)) := by
          apply List.map_congr_left
          intro way hin
          obtain ⟨place, tail, rfl⟩ := hinner.exists_cons hin
          rfl
        rw [List.append_nil, List.map_cons, List.map_cons, hmap, hsame]
        rfl

end Espalier.Shape

namespace Espalier.Arena

variable {arena : Arena}

/-- A walk meets the nodes of a tree without cycles in document order. -/
theorem lists_preorder (hacyclic : arena.shape.Acyclic) (start : NodeId) :
    arena.shape.Lists [start] (arena.preorder start) := by
  apply induct_levels hacyclic (P := fun levels id =>
    arena.shape.Lists [id] (arena.shape.preorder levels id))
  intro levels id ih
  rw [Shape.preorder, ← List.append_nil (List.flatMap _ _)]
  exact .cons (.flatMap ih) .nil

theorem preorder_eq (hacyclic : arena.shape.Acyclic) {start : NodeId} {order : List NodeId}
    (horder : arena.shape.Lists [start] order) : arena.preorder start = order :=
  (lists_preorder hacyclic start).unique horder

end Espalier.Arena
