/-
Finding one's way in a tree.  Going up follows the parent links, going down reads the child
lists, and the descendants come from a walk.  In a sound document the three tell the same
story: what lies above a node is one chain up to the top of its tree.
-/
import Mathlib.Logic.Function.Iterate
import Espalier.Proofs.Tree.Queries

namespace Espalier.Document

open Relation
open Espalier.Program

variable {document : Document} {node : NodeId} {held : Node}

/-! ### The chain above a node -/

/-- The node above another, if there is one. -/
def above? (document : Document) (node : NodeId) : Option NodeId :=
  (document.parent node).toOption.join

/-- The nodes above a node, the nearest one first. -/
inductive Lineage (document : Document) : NodeId → List NodeId → Prop
  | top {node : NodeId} {held : Node} (hnode : document.arena.get? node = some held)
      (hparent : held.parent = none) : Lineage document node []
  | under {node parent : NodeId} {held : Node} {ancestors : List NodeId}
      (hnode : document.arena.get? node = some held) (hparent : held.parent = some parent)
      (habove : Lineage document parent ancestors) : Lineage document node (parent :: ancestors)

theorem Sound.exists_lineage (h : document.Sound) (hnode : document.arena.get? node = some held) :
    ∃ ancestors, document.Lineage node ancestors := by
  -- a parent is older than its children
  induction hage : node.toNat using Nat.strongRecOn generalizing node held with
  | ind age ih =>
      cases hparent : held.parent with
      | none => exact ⟨[], .top hnode hparent⟩
      | some parent =>
          obtain ⟨above, habove, -⟩ := h.exists_above hnode hparent
          obtain ⟨hlt, -⟩ := h.shape.linked (Arena.shape_of_get? hnode) hparent
          have hyounger : parent.toNat < age := hage ▸ UInt32.lt_iff_toNat_lt.mp hlt
          obtain ⟨ancestors, hlineage⟩ := ih parent.toNat hyounger habove rfl
          exact ⟨parent :: ancestors, .under hnode hparent hlineage⟩

namespace Lineage

variable {ancestors : List NodeId}

/-- The last node of a chain is the top of the tree. -/
def topOf (node : NodeId) (ancestors : List NodeId) : NodeId :=
  (node :: ancestors).getLast (List.cons_ne_nil _ _)

theorem ascend_eq (h : document.Lineage node ancestors) (levels : Nat) :
    document.ascend levels node =
      match (node :: ancestors)[levels]? with
      | some found => .ok found
      | none => .error (.noParent (topOf node ancestors)) := by
  induction h generalizing levels with
  | top hnode hparent =>
      cases levels with
      | zero => rfl
      | succ levels =>
          rw [ascend, exceptBind_of_ok (fetch_of_some hnode), hparent]
          rfl
  | under hnode hparent _ ih =>
      cases levels with
      | zero => rfl
      | succ levels =>
          rw [ascend, exceptBind_of_ok (fetch_of_some hnode), hparent]
          exact ih levels

theorem iterate_above? (h : document.Lineage node ancestors) (hsound : document.Sound)
    (levels : Nat) :
    (Option.bind · document.above?)^[levels] (some node) = (node :: ancestors)[levels]? := by
  have hnothing : ∀ levels, (Option.bind · document.above?)^[levels] none = none :=
    Function.iterate_fixed rfl
  induction h generalizing levels with
  | top hnode hparent =>
      cases levels with
      | zero => rfl
      | succ levels =>
          rw [Function.iterate_succ_apply, Option.bind_some, above?,
            hsound.parent_of_some hnode, hparent]
          exact hnothing levels
  | under hnode hparent _ ih =>
      cases levels with
      | zero => rfl
      | succ levels =>
          rw [Function.iterate_succ_apply, Option.bind_some, above?,
            hsound.parent_of_some hnode, hparent]
          exact ih levels

theorem isTop_topOf (h : document.Lineage node ancestors) :
    document.arena.shape.Top (topOf node ancestors) := by
  induction h with
  | top hnode hparent => exact ⟨_, Arena.shape_of_get? hnode, hparent⟩
  | under _ _ _ ih => exact ih

theorem mem_iff (h : document.Lineage node ancestors) (hsound : document.Sound) {id : NodeId} :
    id ∈ node :: ancestors ↔ document.arena.shape.Below id node := by
  induction h with
  | top hnode hparent =>
      have htop : document.arena.shape.Top _ := ⟨_, Arena.shape_of_get? hnode, hparent⟩
      rw [List.mem_singleton]
      constructor
      · rintro rfl
        exact ReflTransGen.refl
      · exact hsound.shape.eq_of_below_top htop
  | under hnode hparent _ ih =>
      obtain ⟨above, habove, hmem⟩ := hsound.exists_above hnode hparent
      rw [List.mem_cons, ih, hsound.shape.below_child_iff (Arena.child_of_mem habove hmem)]

theorem nodup (h : document.Lineage node ancestors) (hsound : document.Sound) :
    (node :: ancestors).Nodup := by
  induction h with
  | top => exact List.nodup_singleton _
  | under hnode hparent hlineage ih =>
      obtain ⟨above, habove, hmem⟩ := hsound.exists_above hnode hparent
      have hchild := Arena.child_of_mem habove hmem
      refine List.nodup_cons.mpr ⟨?_, ih⟩
      intro hagain
      exact hsound.shape.acyclic _ (TransGen.tail' ((hlineage.mem_iff hsound).mp hagain) hchild)

theorem ancestor_eq_ok_iff (h : document.Lineage node ancestors) {levels : Nat} {id : NodeId} :
    document.ancestor node levels = .ok id ↔ ancestors[max levels 1 - 1]? = some id := by
  have hlevels : max levels 1 = (max levels 1 - 1) + 1 := by omega
  rw [ancestor, h.ascend_eq, hlevels, List.getElem?_cons_succ, Nat.add_sub_cancel]
  cases ancestors[max levels 1 - 1]? with
  | none => simp
  | some found => simp

theorem isSome (h : document.Lineage node ancestors) : (document.arena.shape node).isSome := by
  cases h with
  | top hnode _ => exact Option.isSome_of_eq_some (Arena.shape_of_get? hnode)
  | under hnode _ _ => exact Option.isSome_of_eq_some (Arena.shape_of_get? hnode)

theorem length_lt (h : document.Lineage node ancestors) (hsound : document.Sound) :
    ancestors.length < document.size :=
  Arena.length_le_size (h.nodup hsound) fun _ hid =>
    Shape.isSome_of_above h.isSome ((h.mem_iff hsound).mp hid)

end Lineage

/-! ### Down again -/

/-- A walk from a node meets another. -/
def Descends (document : Document) (start id : NodeId) : Prop :=
  ∃ nodes, document.descendants start = .ok nodes ∧ id ∈ nodes

/-- A walk meets what lies below its start; from no node it does not set out. -/
theorem Sound.below_of_descends (h : document.Sound) {start id : NodeId}
    (hdescends : document.Descends start id) : document.arena.shape.Below start id := by
  obtain ⟨nodes, hnodes, hmem⟩ := hdescends
  cases hstart : document.arena.get? start with
  | none =>
      rw [Document.descendants, Document.find, Arena.find_of_none hstart] at hnodes
      contradiction
  | some first =>
      rw [h.descendants (Option.isSome_of_eq_some (Arena.shape_of_get? hstart))] at hnodes
      obtain rfl := Except.ok.inj hnodes
      exact Arena.mem_preorder_iff.mp hmem

theorem Sound.descends_iff (h : document.Sound) (hnode : document.arena.get? node = some held)
    {start : NodeId} : document.Descends start node ↔ document.arena.shape.Below start node := by
  constructor
  · exact h.below_of_descends
  · intro hbelow
    have hthere := Shape.isSome_of_above
      (Option.isSome_of_eq_some (Arena.shape_of_get? hnode)) hbelow
    exact ⟨_, h.descendants hthere, Arena.mem_preorder_iff.mpr hbelow⟩

/-- The ancestors of a node are the other nodes that have it among their descendants. -/
theorem Lineage.mem_ancestors_iff {ancestors : List NodeId}
    (h : document.Lineage node ancestors) (hsound : document.Sound)
    (hnode : document.arena.get? node = some held) {id : NodeId} :
    id ∈ ancestors ↔ document.Descends id node ∧ node ≠ id := by
  have hself : node ∉ ancestors := (List.nodup_cons.mp (h.nodup hsound)).1
  rw [hsound.descends_iff hnode, ← h.mem_iff hsound, List.mem_cons]
  constructor
  · intro hid
    refine ⟨.inr hid, ?_⟩
    rintro rfl
    exact hself hid
  · rintro ⟨heq | hid, hne⟩
    · exact absurd heq.symm hne
    · exact hid

theorem Sound.exists_place_of_parent (h : document.Sound) {parent : NodeId}
    (hparent : document.parent node = .ok (some parent)) :
    ∃ above, ∃ place : Nat, document.arena.get? parent = some above ∧
      above.children[place]? = some node := by
  obtain ⟨links, hlinks, hmem⟩ := Shape.exists_of_child (h.parent_eq_some_iff.mp hparent)
  obtain ⟨above, habove, rfl⟩ := Arena.exists_of_shape_eq_some hlinks
  obtain ⟨place, hplace⟩ := List.mem_iff_getElem?.mp hmem
  exact ⟨above, place, habove, hplace⟩

/-- No child list is too long for each of its places to have an index of 32 bits. -/
theorem Sound.exists_index (h : document.Sound) (hsize : document.size ≤ UInt32.size)
    (hnode : document.arena.get? node = some held) {place : Nat}
    (hplace : place < held.children.length) :
    ∃ index : Int32, index.toInt = place ∨ index.toInt = place - held.children.length := by
  have hlength : held.children.length ≤ document.size := by
    apply Arena.length_le_size (h.shape.nodup (Arena.shape_of_get? hnode))
    exact fun child hchild => h.shape.isSome_of_child (Arena.child_of_mem hnode hchild)
  have hbound : UInt32.size = 2 ^ 32 := rfl
  by_cases hnear : place < 2 ^ 31
  · exact ⟨.ofInt place, .inl (Int32.toInt_ofInt_of_le (by omega) (by omega))⟩
  · exact ⟨.ofInt (place - held.children.length),
      .inr (Int32.toInt_ofInt_of_le (by omega) (by omega))⟩

theorem Sound.parent_iff_child (h : document.Sound) (hsize : document.size ≤ UInt32.size)
    {parent : NodeId} :
    document.parent node = .ok (some parent) ↔
      ∃ index : Int32, document.child parent index.toInt = .ok node := by
  constructor
  · intro hparent
    obtain ⟨above, place, habove, hplace⟩ := h.exists_place_of_parent hparent
    obtain ⟨hthere, -⟩ := List.getElem?_eq_some_iff.mp hplace
    obtain ⟨index, hindex⟩ := h.exists_index hsize habove hthere
    exact ⟨index, child_of_place habove hplace hindex⟩
  · rintro ⟨index, hchild⟩
    cases hnode : document.arena.get? parent with
    | none =>
        rw [child, exceptBind_of_error (children_of_none hnode)] at hchild
        contradiction
    | some above =>
        obtain ⟨place, hplace, -⟩ := (child_eq_ok_iff hnode).mp hchild
        have hmem := List.mem_of_getElem? hplace
        exact h.parent_eq_some_iff.mpr (Arena.child_of_mem hnode hmem)

/-- A node has one place among the children of its parent. -/
theorem Sound.exists_unique_place (h : document.Sound) {parent : NodeId}
    (hparent : document.parent node = .ok (some parent)) :
    ∃ children, document.children parent = .ok children ∧ ∃ place < children.length,
      ∀ index : Int,
        if index = place ∨ index = place - children.length then
          document.child parent index = .ok node
        else document.child parent index = .error (.noChild parent index) ∨
          ∃ other, other ≠ node ∧ document.child parent index = .ok other := by
  obtain ⟨above, place, habove, hplace⟩ := h.exists_place_of_parent hparent
  obtain ⟨hthere, hget⟩ := List.getElem?_eq_some_iff.mp hplace
  refine ⟨above.children, children_of_some habove, place, hthere, ?_⟩
  intro index
  split
  · next hindex => exact child_of_place habove hplace hindex
  · next hindex =>
      by_cases houtside : index < -above.children.length ∨ above.children.length ≤ index
      · exact .inl (child_of_outside habove houtside)
      · rw [not_or, Int.not_lt, Int.not_le] at houtside
        obtain ⟨other, hother⟩ := exists_child habove houtside.1 houtside.2
        refine .inr ⟨other, ?_, hother⟩
        rintro rfl
        -- the list holds no node twice, so the two places are one
        obtain ⟨place', hplace', hindex'⟩ := (child_eq_ok_iff habove).mp hother
        have hnodup : above.children.Nodup := h.shape.nodup (Arena.shape_of_get? habove)
        have heq := (List.getElem?_inj hthere hnodup).mp (hplace.trans hplace'.symm)
        exact hindex (heq ▸ hindex')

/-! ### Both ways -/

/-- The links of a node up and down, its children by index and the walk below it agree,
whatever calls led to a document, in detached trees too.  A parent is the node among whose
children the node is, by some index of 32 bits; there it is found at one index from the front
and at the one from the back that means the same, and at no other integer.  Above a node there
are so many others, and an ancestor a number of levels above it is found as long as there are
so many levels, by going to the parent again and again; past that the top of the tree is
reported.  The ancestors are the other nodes that have it among their descendants. -/
theorem reachable_navigates (h : Reachable document) (hsize : document.size ≤ UInt32.size) :
    (∀ x y, document.parent x = .ok (some y) ↔
      ∃ index : Int32, document.child y index.toInt = .ok x) ∧
    (∀ x y, document.parent x = .ok (some y) →
      ∃ children, document.children y = .ok children ∧ ∃ place < children.length,
        ∀ index : Int,
          if index = place ∨ index = place - children.length then
            document.child y index = .ok x
          else document.child y index = .error (.noChild y index) ∨
            ∃ other, other ≠ x ∧ document.child y index = .ok other) ∧
    ∀ x, (document.arena.get? x).isSome → ∃ (ancestors : List NodeId) (top : NodeId),
      ancestors.Nodup ∧ (∀ y, y ∈ ancestors ↔ document.Descends y x ∧ x ≠ y) ∧
      (document.parent top = .ok none ∧ document.Descends top x) ∧
      (∀ levels, document.ancestor x levels =
        match (Option.bind · document.above?)^[max levels 1] (some x) with
        | some y => .ok y
        | none => .error (.noParent top)) ∧
      (∀ levels, (∃ y, document.ancestor x levels = .ok y) ↔
        max levels 1 ≤ ancestors.length) ∧
      ∀ y, (∃ levels, 1 ≤ levels ∧ levels < UInt64.size ∧ document.ancestor x levels = .ok y) ↔
        document.Descends y x ∧ x ≠ y := by
  have hsound := soundInRoom_of_reachable h hsize
  refine ⟨fun x y => hsound.parent_iff_child hsize,
    fun x y hparent => hsound.exists_unique_place hparent, ?_⟩
  intro x hx
  obtain ⟨held, hheld⟩ := Option.isSome_iff_exists.mp hx
  obtain ⟨ancestors, hlineage⟩ := hsound.exists_lineage hheld
  have htop := hlineage.isTop_topOf
  obtain ⟨toplinks, htoplinks, hnone⟩ := htop
  obtain ⟨topheld, htopheld, rfl⟩ := Arena.exists_of_shape_eq_some htoplinks
  refine ⟨ancestors, Lineage.topOf x ancestors, (hlineage.nodup hsound).of_cons,
    fun y => hlineage.mem_ancestors_iff hsound hheld, ⟨?_, ?_⟩, ?_, ?_, ?_⟩
  · rw [hsound.parent_of_some htopheld]
    exact congrArg Except.ok hnone
  · apply (hsound.descends_iff hheld).mpr
    exact (hlineage.mem_iff hsound).mp (List.getLast_mem _)
  · intro levels
    rw [hlineage.iterate_above? hsound, ancestor, hlineage.ascend_eq]
  · intro levels
    simp only [hlineage.ancestor_eq_ok_iff]
    rw [← Option.isSome_iff_exists, isSome_getElem?]
    omega
  · intro y
    rw [← hlineage.mem_ancestors_iff hsound hheld, List.mem_iff_getElem?]
    simp only [hlineage.ancestor_eq_ok_iff]
    constructor
    · rintro ⟨levels, -, -, hfound⟩
      exact ⟨_, hfound⟩
    · rintro ⟨place, hplace⟩
      obtain ⟨hthere, -⟩ := List.getElem?_eq_some_iff.mp hplace
      have hlength := hlineage.length_lt hsound
      have hbound : UInt32.size < UInt64.size := by decide
      have hlevels : max (place + 1) 1 - 1 = place := by omega
      exact ⟨place + 1, Nat.succ_pos place, by omega, hlevels.symm ▸ hplace⟩

/-- A list of two items that was taken out of the tree: the second item is still found under
the list, which is now a top, so that there is one level to go up. -/
theorem reachable_navigates_detached_list :
    let calls : List Operation := [.insert 0 "ul", .insert 1 "li", .insert 1 "li", .remove 1]
    let document := calls.foldl Operation.apply (new "body")
    Reachable document ∧ document.size = 4 ∧ document.parent 3 = .ok (some 1) ∧
      (∃ index : Int32, document.child 1 index.toInt = .ok 3) ∧
      ∀ levels, (∃ y, document.ancestor 3 levels = .ok y) ↔ levels ≤ 1 := by
  intro calls document
  have hreach : Reachable document :=
    ((((Reachable.new "body").step (.insert 0 "ul")).step (.insert 1 "li")).step
      (.insert 1 "li")).step (.remove 1)
  have hsize : document.size = 4 := (size_remove 1 _).trans rfl
  have hparent : document.parent 3 = .ok (some 1) := by decide +kernel
  have hone : document.ancestor 3 1 = .ok 1 := by decide +kernel
  have htwo : document.ancestor 3 2 = .error (.noParent 1) := by decide +kernel
  obtain ⟨hlink, -, hup⟩ := reachable_navigates hreach (by rw [hsize]; decide)
  obtain ⟨ancestors, _, -, -, -, -, hlevels, -⟩ := hup 3 (by decide +kernel)
  refine ⟨hreach, hsize, hparent, (hlink 3 1).mp hparent, ?_⟩
  have hleast : 1 ≤ ancestors.length := (hlevels 1).mp ⟨1, hone⟩
  have hmost : ¬ 2 ≤ ancestors.length := by
    rw [← Nat.max_eq_left (show 1 ≤ 2 by decide), ← hlevels 2, htwo]
    simp
  intro levels
  rw [hlevels]
  omega

end Espalier.Document
