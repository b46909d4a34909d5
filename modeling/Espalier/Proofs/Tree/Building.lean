/-
What is built below a node of a document.  New nodes get the next ids, in document
order.  The nodes that are there stay as they are, apart from two things: the parent
lists the new tops behind its old children, and a node whose key is declared again
forgets it.
-/
import Espalier.Proofs.Tree.Bindings
import Espalier.Proofs.Tree.Order

namespace Espalier

/-! ### Keys declared in turn -/

/-- The last of some nodes, numbered from `first` on, that is declared with a key, when
these are the keys in turn.  The empty key stands for a node without one. -/
def lastNamed (key : String) (first : Nat) (keys : List String) : Option NodeId :=
  if key = "" then none
  else ((keys.zipIdx first).reverse.find? (·.1 == key)).map (UInt32.ofNat ·.2)

/-- A key is declared again among these. -/
def rebound (keys : List String) (key : String) : Bool :=
  key != "" && keys.contains key

theorem lastNamed_nil (key : String) (first : Nat) : lastNamed key first [] = none := by
  simp [lastNamed]

theorem lastNamed_append (key : String) (first : Nat) (front back : List String) :
    lastNamed key first (front ++ back) =
      (lastNamed key (first + front.length) back).or (lastNamed key first front) := by
  by_cases hkey : key = ""
  · simp [lastNamed, hkey]
  · simp [lastNamed, hkey, List.zipIdx_append, List.find?_append, Option.map_or]

theorem filter_rebound_of_eq_false {keys : List String} (h : ∀ key, rebound keys key = false)
    (held : Option String) : (held.filter fun key => !rebound keys key) = held := by
  cases held with
  | none => rfl
  | some key => simp [Option.filter, h]

theorem rebound_nil (key : String) : rebound [] key = false := by
  simp [rebound]

/-- A node without a key declares none again. -/
theorem rebound_blank (key : String) : rebound [""] key = false := by
  simp [rebound]

theorem lastNamed_singleton (key name : String) (first : Nat) :
    lastNamed key first [name] =
      if key ≠ "" ∧ name = key then some (UInt32.ofNat first) else none := by
  by_cases hkey : key = ""
  · simp [lastNamed, hkey]
  · by_cases hname : name = key
    · simp [lastNamed, hkey, hname]
    · simp [lastNamed, hkey, hname]

theorem rebound_append (front back : List String) (key : String) :
    rebound (front ++ back) key = (rebound front key || rebound back key) := by
  simp only [rebound, List.contains_eq_mem, List.mem_append, Bool.decide_or,
    Bool.and_or_distrib_left]

namespace Document

open Espalier.Program

variable {document : Document}

/-- The ids that the next nodes get. -/
def nextIds (document : Document) (count : Nat) : List NodeId :=
  (List.range' document.size count).map UInt32.ofNat

@[simp] theorem nextIds_zero (document : Document) : document.nextIds 0 = [] := rfl

theorem nextIds_one (document : Document) : document.nextIds 1 = [document.arena.nextId] := rfl

theorem nextIds_add {before middle : Document} {count : Nat}
    (hsize : middle.size = before.size + count) (more : Nat) :
    before.nextIds (count + more) = before.nextIds count ++ middle.nextIds more := by
  rw [nextIds, nextIds, nextIds, ← List.map_append, hsize, List.range'_append_1]

/-- Also where ids come round, the next ones are ids of nodes when the nodes are there. -/
theorem toNat_lt_of_mem_nextIds {count : Nat} {id : NodeId}
    (hid : id ∈ document.nextIds count) : id.toNat < document.size + count := by
  obtain ⟨index, hindex, rfl⟩ := List.mem_map.mp hid
  rw [List.mem_range'_1] at hindex
  rw [UInt32.toNat_ofNat']
  exact Nat.lt_of_le_of_lt (Nat.mod_le _ _) hindex.2

theorem toNat_of_mem_nextIds {count : Nat} (hroom : document.size + count ≤ UInt32.size)
    {id : NodeId} (hid : id ∈ document.nextIds count) :
    document.size ≤ id.toNat ∧ id.toNat < document.size + count := by
  obtain ⟨index, hindex, rfl⟩ := List.mem_map.mp hid
  rw [List.mem_range'_1] at hindex
  rw [UInt32.toNat_ofNat_of_lt' (Nat.lt_of_lt_of_le hindex.2 hroom)]
  exact hindex

theorem nodup_nextIds {count : Nat} (hroom : document.size + count ≤ UInt32.size) :
    (document.nextIds count).Nodup := by
  apply nodup_map_ofNat List.nodup_range'
  intro index hindex
  exact Nat.lt_of_lt_of_le (List.mem_range'_1.mp hindex).2 hroom

theorem isSome_iff {id : NodeId} :
    (document.arena.get? id).isSome ↔ id.toNat < document.size :=
  Arena.isSome_get?_iff

/-- A node that is there has none of the next ids. -/
theorem ne_of_mem_nextIds {count : Nat} (hroom : document.size + count ≤ UInt32.size)
    {id new : NodeId} {node : Node} (hnew : new ∈ document.nextIds count)
    (hnode : document.arena.get? id = some node) : id ≠ new := by
  rintro rfl
  have hold := isSome_iff.mp (Option.isSome_of_eq_some hnode)
  have hlater := (toNat_of_mem_nextIds hroom hnew).1
  omega

theorem childrenOf_of_get? {id : NodeId} {node : Node} (h : document.arena.get? id = some node) :
    document.arena.shape.childrenOf id = node.children :=
  Shape.childrenOf_of_eq_some (Arena.shape_of_get? h)

/-! ### Built documents -/

/-- A document in which new nodes were built below a parent.  They are declared with
these keys in turn, and these are the new children of the parent. -/
structure Built (parent : NodeId) (keys : List String) (tops : List NodeId)
    (before after : Document) : Prop where
  root : after.root = before.root
  kept : ∀ id node, before.arena.get? id = some node → after.arena.get? id = some
    { node with
      children := node.children ++ (if id = parent then tops else [])
      key := node.key.filter fun key => !rebound keys key }
  lists : after.arena.shape.Lists tops (before.nextIds keys.length)
  resolve : ∀ key, after.resolve key = (lastNamed key before.size keys).or (before.resolve key)
  bound : after.KeysBound

/-- A document grows by as many nodes as there are keys.  If every node has an id of
its own, and keys lead to the nodes that remember them, the new nodes are built below
the parent. -/
structure Grows (parent : NodeId) (keys : List String) (tops : List NodeId)
    (before after : Document) : Prop where
  size : after.size = before.size + keys.length
  built : before.KeysBound → after.size ≤ UInt32.size → Built parent keys tops before after

namespace Built

variable {parent : NodeId} {keys : List String} {tops : List NodeId} {before after : Document}

theorem childrenOf (h : Built parent keys tops before after) {id : NodeId}
    (hid : id.toNat < before.size) :
    after.arena.shape.childrenOf id =
      before.arena.shape.childrenOf id ++ (if id = parent then tops else []) := by
  obtain ⟨node, hnode⟩ := Option.isSome_iff_exists.mp (isSome_iff.mpr hid)
  rw [childrenOf_of_get? hnode, childrenOf_of_get? (h.kept id node hnode)]

/-- Trees that do not hold the parent keep their order. -/
theorem lists_of_lists (h : Built parent keys tops before after) {trees order : List NodeId}
    (hlists : before.arena.shape.Lists trees order)
    (hold : ∀ id ∈ order, id.toNat < before.size ∧ id ≠ parent) :
    after.arena.shape.Lists trees order := by
  apply hlists.congr
  intro id hid
  obtain ⟨hlt, hne⟩ := hold id hid
  rw [h.childrenOf hlt, if_neg hne, List.append_nil]

/-- What is built below the last of some nodes without children comes behind them. -/
theorem lists_concat (h : Built parent keys tops before after) {front : List NodeId}
    (hleaves : ∀ id ∈ front ++ [parent], before.arena.shape.childrenOf id = [])
    (hold : ∀ id ∈ front ++ [parent], id.toNat < before.size)
    (hnodup : (front ++ [parent]).Nodup) :
    after.arena.shape.Lists (front ++ [parent])
      (front ++ [parent] ++ before.nextIds keys.length) := by
  have hfront : before.arena.shape.Lists front front :=
    .of_leaves fun id hid => hleaves id (List.mem_append_left _ hid)
  have hkept := h.lists_of_lists hfront fun id hid =>
    ⟨hold id (List.mem_append_left _ hid),
      (List.nodup_append.mp hnodup).2.2 id hid parent (List.mem_singleton.mpr rfl)⟩
  have hchildren : after.arena.shape.childrenOf parent = tops := by
    rw [h.childrenOf (hold parent List.mem_concat_self),
      hleaves parent List.mem_concat_self, if_pos rfl, List.nil_append]
  have htree : after.arena.shape.Lists [parent]
      (parent :: (before.nextIds keys.length ++ [])) :=
    .cons (hchildren ▸ h.lists) .nil
  simpa using hkept.append htree

/-- The new nodes stand behind the old ones in the order of the parent's tree. -/
theorem preorder_eq (h : Built parent keys tops before after)
    (hbefore : before.arena.shape.Sound) (hafter : after.arena.shape.Sound)
    (hparent : parent.toNat < before.size) :
    after.arena.preorder parent =
      before.arena.preorder parent ++ before.nextIds keys.length := by
  have hthere : (before.arena.shape parent).isSome := by
    rw [Arena.isSome_shape_iff]
    exact isSome_iff.mpr hparent
  have hnodup := hbefore.nodup_preorder (before.arena.size + 1) parent
  have hlists := Arena.lists_preorder hbefore.acyclic parent
  have hold : ∀ id ∈ before.arena.preorder parent, id.toNat < before.size := by
    intro id hid
    rw [← isSome_iff, ← Arena.isSome_shape_iff]
    exact Shape.isSome_of_below hbefore.isSome_of_child hthere (Arena.mem_preorder_iff.mp hid)
  rw [← Arena.preorder] at hnodup
  generalize before.arena.preorder parent = order at hnodup hlists hold ⊢
  cases hlists with
  | cons hbelow hrest =>
      cases hrest
      rw [List.append_nil] at hnodup hold ⊢
      -- the parent stands at the front only, so what it listed keeps its order
      have hkept := h.lists_of_lists hbelow fun id hid =>
        ⟨hold id (List.mem_cons_of_mem _ hid),
          fun heq => (List.nodup_cons.mp hnodup).1 (heq ▸ hid)⟩
      have hall := hkept.append h.lists
      have hchildren := h.childrenOf hparent
      rw [if_pos rfl] at hchildren
      rw [← hchildren] at hall
      rw [Arena.preorder_eq hafter.acyclic (.cons hall .nil), List.append_nil, List.cons_append]

section Append

/-! A build may go on below the same parent, or below a new node. -/

variable {other : NodeId} {keys' : List String} {tops' tops'' : List NodeId} {last : Document}
  (h : Built parent keys tops before after) (h' : Built other keys' tops' after last)
include h h'

theorem kept_append {id : NodeId} {node : Node} (hnode : before.arena.get? id = some node)
    (htops : (if id = parent then tops else []) ++ (if id = other then tops' else []) =
      if id = parent then tops'' else []) :
    last.arena.get? id = some
      { node with
        children := node.children ++ (if id = parent then tops'' else [])
        key := node.key.filter fun key => !rebound (keys ++ keys') key } := by
  rw [h'.kept id _ (h.kept id node hnode), ← htops]
  simp [rebound_append, Option.filter_filter]

theorem resolve_append (hsize : after.size = before.size + keys.length) (key : String) :
    last.resolve key =
      (lastNamed key before.size (keys ++ keys')).or (before.resolve key) := by
  rw [h'.resolve, h.resolve, hsize, lastNamed_append, Option.or_assoc]

end Append

end Built

namespace Grows

variable {parent target : NodeId} {keys keys' : List String} {tops tops' : List NodeId}
  {first second third : Document}

theorem refl (parent : NodeId) (document : Document) : Grows parent [] [] document document where
  size := rfl
  built hbound _ :=
    { root := rfl
      kept := by
        intro id node hnode
        simp [hnode, filter_rebound_of_eq_false rebound_nil]
      lists := .nil
      resolve := by
        intro key
        rw [lastNamed_nil, Option.none_or]
      bound := hbound }

theorem isSome (h : Grows parent keys tops first second) {id : NodeId}
    (hid : (first.arena.get? id).isSome) : (second.arena.get? id).isSome := by
  rw [isSome_iff] at hid ⊢
  rw [h.size]
  exact Nat.lt_add_right _ hid

theorem isSome_of_mem_nextIds (h : Grows parent keys tops first second) {id : NodeId}
    (hid : id ∈ first.nextIds keys.length) : (second.arena.get? id).isSome := by
  rw [isSome_iff, h.size]
  exact toNat_lt_of_mem_nextIds hid

/-- A second build below the same parent. -/
theorem trans (h : Grows parent keys tops first second)
    (h' : Grows parent keys' tops' second third) (hparent : parent.toNat < first.size) :
    Grows parent (keys ++ keys') (tops ++ tops') first third := by
  have hsize := h.size
  have hsize' := h'.size
  refine ⟨by rw [List.length_append]; omega, ?_⟩
  intro hbound hroom
  have hfirst := h.built hbound (by omega)
  have hsecond := h'.built hfirst.bound hroom
  have hnew : ∀ id ∈ first.nextIds keys.length, id.toNat < second.size ∧ id ≠ parent := by
    intro id hid
    have hrange := toNat_of_mem_nextIds (by omega) hid
    refine ⟨by omega, ?_⟩
    rintro rfl
    omega
  constructor
  · exact hsecond.root.trans hfirst.root
  · intro id node hnode
    apply hfirst.kept_append hsecond hnode
    split
    · rfl
    · rfl
  · rw [List.length_append, nextIds_add hsize]
    exact (hsecond.lists_of_lists hfirst.lists hnew).append hsecond.lists
  · exact hfirst.resolve_append hsecond hsize
  · exact hsecond.bound

/-- A second build below the last of some new nodes without children. -/
theorem nest (h : Grows parent keys (first.nextIds keys.length) first second)
    (hlast : (first.nextIds keys.length).getLast? = some target)
    (h' : Grows target keys' tops' second third) :
    Grows parent (keys ++ keys') (first.nextIds keys.length) first third := by
  have hsize := h.size
  have hsize' := h'.size
  refine ⟨by rw [List.length_append]; omega, ?_⟩
  intro hbound hroom
  have hfirst := h.built hbound (by omega)
  have hsecond := h'.built hfirst.bound hroom
  have hroom' : first.size + keys.length ≤ UInt32.size := by omega
  have hmem : target ∈ first.nextIds keys.length := List.mem_of_getLast? hlast
  constructor
  · exact hsecond.root.trans hfirst.root
  · intro id node hnode
    have hne := ne_of_mem_nextIds hroom' hmem hnode
    apply hfirst.kept_append hsecond hnode
    rw [if_neg hne, List.append_nil]
  · -- the new nodes of the first build are leaves, as each of them is a top
    have hleaves := hfirst.lists.childrenOf_eq_nil (Nat.le_refl _)
    have hnodup := nodup_nextIds hroom'
    have hold : ∀ id ∈ first.nextIds keys.length, id.toNat < second.size := by
      intro id hid
      rw [hsize]
      exact toNat_lt_of_mem_nextIds hid
    obtain ⟨front, hfront⟩ := List.getLast?_eq_some_iff.mp hlast
    rw [List.length_append, nextIds_add hsize]
    rw [hfront] at hleaves hold hnodup ⊢
    exact hsecond.lists_concat hleaves hold hnodup
  · exact hfirst.resolve_append hsecond hsize
  · exact hsecond.bound

/-- A change of a new node that leaves its place and its key alone. -/
theorem edit (h : Grows parent keys tops first second) {change : Node → Node}
    (hchange : ∀ node : Node, (change node).stripped = node.stripped)
    (hnew : target ∈ first.nextIds keys.length) :
    Grows parent keys tops first
      { second with arena := second.arena.update target change } := by
  have hkey : ∀ node : Node, (change node).key = node.key :=
    fun node => Node.key_of_stripped (hchange node)
  have htree := sameTree_update (fun node => Node.links_of_stripped (hchange node)) second target
  refine ⟨htree.size.trans h.size, ?_⟩
  intro hbound hroom
  rw [htree.size] at hroom
  have hbuilt := h.built hbound hroom
  constructor
  · exact hbuilt.root
  · intro id node hnode
    have hne := ne_of_mem_nextIds (h.size ▸ hroom) hnew hnode
    rw [Arena.get?_update, if_neg hne.symm]
    exact hbuilt.kept id node hnode
  · rw [htree.shape]
    exact hbuilt.lists
  · exact hbuilt.resolve
  · exact hbuilt.bound.congr (keyOf_update hkey second target) rfl

end Grows

/-! ### The calls of a build -/

/-- Inserting an element grows its parent by it. -/
theorem insert_run {parent : NodeId} (h : (document.arena.get? parent).isSome)
    (spec : String) :
    ∃ after, insert parent spec document = .ok document.arena.nextId after ∧
      Grows parent [""] [document.arena.nextId] document after := by
  obtain ⟨above, habove⟩ := Option.isSome_iff_exists.mp h
  let after : Document :=
    { document with
      arena := (document.arena.add (newNode spec above)).link parent document.arena.nextId
        above.children.length }
  have hrun : insert parent spec document = .ok document.arena.nextId after := by
    exact insert_of_some habove spec
  have hgrown : after.size = document.size + 1 := by
    simp [after, Document.size]
  refine ⟨after, hrun, hgrown, ?_⟩
  intro hbound hroom
  have hsize : document.arena.size < UInt32.size := by
    rw [hgrown, Document.size] at hroom
    omega
  have hget : ∀ id, after.arena.get? id = _ :=
    Arena.get?_add_link hsize (newNode spec above) habove above.children.length
  have hnew : ∀ {id node}, document.arena.get? id = some node →
      id ≠ document.arena.nextId := Arena.ne_nextId hsize
  constructor
  · rfl
  · intro id node hnode
    rw [hget, if_neg (hnew hnode), filter_rebound_of_eq_false rebound_blank]
    by_cases hid : id = parent
    · rw [hid, habove] at hnode
      obtain rfl := Option.some.inj hnode
      simp [hid, List.insertIdx_length_self]
    · simp [hid, hnode]
  · apply Shape.Lists.of_leaves
    intro id hid
    obtain rfl := List.mem_singleton.mp hid
    have hadded := hget document.arena.nextId
    rw [if_pos rfl] at hadded
    rw [childrenOf_of_get? hadded]
    exact congrArg Links.children (links_newNode spec above _)
  · intro key
    have hnone : lastNamed key document.size [""] = none := by
      simp [lastNamed_singleton, eq_comm]
    rw [hnone, Option.none_or]
    rfl
  · exact hbound.congr (keyOf_add_link document parent above spec _) rfl

/-- A new node is declared with a key when the key is registered for it. -/
theorem Grows.register_run {parent : NodeId} {middle : Document}
    (h : Grows parent [""] [document.arena.nextId] document middle) {key : String}
    (hkey : key ≠ "") :
    ∃ after, register document.arena.nextId key middle = .ok document.arena.nextId after ∧
      Grows parent [key] [document.arena.nextId] document after := by
  have hnew : document.arena.nextId ∈ document.nextIds 1 := List.mem_singleton.mpr rfl
  obtain ⟨held, hheld⟩ := Option.isSome_iff_exists.mp (h.isSome_of_mem_nextIds hnew)
  have hkeeps := (structural_sameTree middle).register document.arena.nextId key middle
    (SameTree.refl middle)
  have hrun := register_of_some hheld key
  rw [hrun] at hkeeps
  refine ⟨_, hrun, hkeeps.size.trans h.size, ?_⟩
  intro hbound hroom
  have hroom' : middle.size ≤ UInt32.size := hkeeps.size ▸ hroom
  have hbuilt := h.built hbound hroom'
  obtain ⟨after, hrun', htree, hbound', hresolve, hget⟩ := hbuilt.bound.register hheld key
  rw [hrun] at hrun'
  obtain ⟨-, rfl⟩ := EStateM.Result.ok.inj hrun'
  constructor
  · exact hbuilt.root
  · intro id node hnode
    have hne : id ≠ document.arena.nextId :=
      ne_of_mem_nextIds (h.size ▸ hroom') hnew hnode
    have hkeys : (fun other => (!rebound [""] other) && (other != key)) =
        fun other => !rebound [key] other := by
      funext other
      rw [rebound_blank]
      by_cases hother : other = key
      · simp [rebound, hother, hkey]
      · simp [rebound, hother]
    rw [hget, hbuilt.kept id node hnode, Option.map_some, if_neg hne]
    simp only [Option.filter_filter, hkeys]
  · rw [htree.shape]
    exact hbuilt.lists
  · intro other
    rw [hresolve, hbuilt.resolve, lastNamed_singleton, lastNamed_singleton]
    by_cases hother : key = other
    · subst hother
      simp [hkey]
      rfl
    · simp [hother, eq_comm]
  · exact hbound'

end Document

end Espalier
