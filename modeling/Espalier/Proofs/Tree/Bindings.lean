/-
The keys that nodes remember, against the bindings of the registry.  In a reached
document a key that a node remembers leads to that node, so no two nodes remember
one key: registering it for another node takes it from the node that had it.
-/
import Espalier.Proofs.Tree.Release

namespace Espalier

namespace Node

/-- Forgetting a key empties the key field, if it holds that key. -/
theorem loseKey_eq (node : Node) (key : String) :
    node.loseKey key = { node with key := node.key.filter (· != key) } := by
  cases node with
  | mk id ns parent children tag classes properties style content held =>
      cases held with
      | none => rfl
      | some other =>
          by_cases hother : other = key
          · simp [loseKey, hother, Option.filter]
          · simp [loseKey, hother, Option.filter]

end Node

namespace Document

open Espalier.Program

variable {document : Document}

/-! ### How a key is registered -/

/-- The nodes after another node than this one has lost a key. -/
def released (document : Document) (node : NodeId) (key : String) : Arena :=
  match document.resolve key with
  | none => document.arena
  | some old =>
      if old ≠ node then document.arena.update old (·.loseKey key) else document.arena

theorem get?_released (document : Document) (node : NodeId) (key : String) (id : NodeId) :
    (document.released node key).get? id = (document.arena.get? id).map fun found =>
      if id ≠ node ∧ document.resolve key = some id then found.loseKey key else found := by
  rw [released]
  cases hholder : document.resolve key with
  | none => simp
  | some old =>
      by_cases hid : old = id
      · subst hid
        by_cases hold : old = node
        · simp [hold]
        · simp [hold, Arena.get?_update]
      · by_cases hold : old = node
        · simp [hold, hold ▸ hid]
        · simp [hold, Arena.get?_update, hid]

theorem register_of_none {node : NodeId} (h : document.arena.get? node = none) (key : String) :
    register node key document = .error (.unknownNode node) document := by
  rw [register, bind_of_error (fetchM_of_none h)]

theorem register_of_some {node : NodeId} {held : Node}
    (h : document.arena.get? node = some held) (key : String) :
    register node key document = .ok node
      { document with
        arena := (document.released node key).update node ({ · with key := some key })
        registry := document.registry.bind key node } := by
  have hlast : ∀ middle : Document, middle.arena = document.released node key →
      middle.registry = document.registry.bind key node → middle.root = document.root →
      edit node ({ · with key := some key }) middle = .ok node
        { document with
          arena := (document.released node key).update node ({ · with key := some key })
          registry := document.registry.bind key node } := by
    intro middle harena hregistry hroot
    have hfound := get?_released document node key node
    rw [h, ← harena] at hfound
    rw [edit_of_some hfound, harena]
    cases middle
    simp_all
  rw [register, bind_of_ok (fetchM_of_some h), bind_of_ok (get_run document)]
  rw [released] at hlast ⊢
  cases hholder : document.resolve key with
  | none =>
      simp only [hholder] at hlast ⊢
      exact hlast _ rfl rfl rfl
  | some old =>
      simp only [hholder] at hlast ⊢
      by_cases hold : old = node
      · simp only [hold, ne_eq, not_true_eq_false, if_false] at hlast ⊢
        exact hlast _ rfl rfl rfl
      · simp only [ne_eq, hold, not_false_eq_true, if_true] at hlast ⊢
        exact hlast _ rfl rfl rfl

/-! ### Keys that lead to the nodes that remember them -/

/-- A key that a node remembers leads to that node. -/
def KeysBound (document : Document) : Prop :=
  ∀ id key, document.keyOf id = some key → document.resolve key = some id

theorem KeysBound.congr {before after : Document} (h : before.KeysBound)
    (hkeyOf : after.keyOf = before.keyOf) (hregistry : after.registry = before.registry) :
    after.KeysBound := by
  intro id key hkey
  rw [hkeyOf] at hkey
  rw [resolve, hregistry]
  exact h id key hkey

/-- The nodes that keep their keys keep the bindings of these keys. -/
theorem Releases.keysBound {before after : Document} {gone : NodeId → Prop}
    (h : Releases gone before after) (hbound : before.KeysBound) : after.KeysBound := by
  intro id key hkey
  by_cases hid : gone id
  · rw [h.keyOf_gone id hid] at hkey
    contradiction
  · rw [h.keyOf_kept id hid] at hkey
    exact (h.resolve_iff key id).mpr ⟨hbound id key hkey, fun hgone => hid hgone.1⟩

/-- Registering a key binds it to the node, which remembers it in place of any other;
every other node that remembers the key forgets it. -/
theorem KeysBound.register {node : NodeId} {held : Node} (h : document.KeysBound)
    (hnode : document.arena.get? node = some held) (key : String) :
    ∃ after, register node key document = .ok node after ∧ SameTree document after ∧
      after.KeysBound ∧
      (∀ other, after.resolve other =
        if key = other then some node else document.resolve other) ∧
      ∀ id, after.arena.get? id = (document.arena.get? id).map fun found =>
        { found with key := if id = node then some key else found.key.filter (· != key) } := by
  let after : Document :=
    { document with
      arena := (document.released node key).update node ({ · with key := some key })
      registry := document.registry.bind key node }
  have hrun : Document.register node key document = .ok node after := register_of_some hnode key
  have hkeeps := (structural_sameTree document).register node key document
    (SameTree.refl document)
  rw [hrun] at hkeeps
  have hresolve : ∀ other, after.resolve other =
      if key = other then some node else document.resolve other :=
    fun other => Registry.resolve_bind _ key other node
  have hget : ∀ id, after.arena.get? id = (document.arena.get? id).map fun found =>
      { found with key := if id = node then some key else found.key.filter (· != key) } := by
    intro id
    simp only [after, Arena.get?_update, get?_released, Option.map_map]
    by_cases hid : id = node
    · simp [hid, Function.comp_def]
    · have hne : ¬ node = id := fun heq => hid heq.symm
      rw [if_neg hne]
      cases hfound : document.arena.get? id with
      | none => rfl
      | some found =>
          by_cases hholder : document.resolve key = some id
          · simp [hid, hholder, Node.loseKey_eq]
          · -- the key leads elsewhere, so this node remembers another one or none
            have hother : found.key ≠ some key := fun hkey =>
              hholder (h id key (by simp [keyOf, hfound, hkey]))
            have hfilter : found.key.filter (· != key) = found.key := by
              cases hkey : found.key with
              | none => rfl
              | some other =>
                  have hdiffers : other ≠ key := fun heq => hother (heq ▸ hkey)
                  simp [Option.filter, hdiffers]
            simp [hid, hholder, hfilter]
  refine ⟨after, hrun, hkeeps, ?_, hresolve, hget⟩
  intro id other hkey
  rw [hresolve]
  rw [keyOf, hget] at hkey
  obtain ⟨_, hafter, hother⟩ := Option.bind_eq_some_iff.mp hkey
  obtain ⟨found, hfound, rfl⟩ := Option.map_eq_some_iff.mp hafter
  by_cases hid : id = node
  · simp only [hid, if_true, Option.some.injEq] at hother
    rw [if_pos hother, hid]
  · simp only [hid, if_false, Option.filter_eq_some_iff] at hother
    have hne : ¬ key = other := by
      rintro rfl
      simp at hother
    rw [if_neg hne]
    exact h id other (by simp [keyOf, hfound, hother.1])

/-- A new node that remembers no key: no id had led to it before. -/
theorem keyOf_add {make : NodeId → Node} (hmake : ∀ id, (make id).key = none)
    (document : Document) :
    ({ document with arena := document.arena.add make } : Document).keyOf = document.keyOf := by
  funext id
  simp only [keyOf, Arena.get?, Arena.add, Array.getElem?_push]
  split
  · next hlast => simp [hlast, hmake]
  · rfl

theorem key_newNode (spec : String) (above : Node) (id : NodeId) :
    (newNode spec above id).key = none := by
  obtain ⟨tag, ns, hnew⟩ := stripped_newNode spec above id
  exact Node.key_of_stripped hnew

theorem updateProof_keyOf (keys : NodeId → Option String) :
    UpdateProof fun document => document.keyOf = keys := by
  intro document change _ hkey hkeys id
  exact (keyOf_update hkey document id).trans hkeys

theorem keyOf_add_link (document : Document) (parent : NodeId) (above : Node) (spec : String)
    (index : Nat) :
    keyOf { document with
      arena := (document.arena.add (newNode spec above)).link parent
        document.arena.nextId index } = document.keyOf :=
  (updateProof_keyOf document.keyOf).link (keyOf_add (key_newNode spec above) document)
    parent document.arena.nextId index

/-! ### Reached documents -/

/-- The nodes that are there for no id, once the ids have run out, remember no key. -/
def Keyless (document : Document) : Prop :=
  ∀ index node, UInt32.size ≤ index → document.arena.nodes[index]? = some node →
    node.key = none

theorem Keyless.update (h : document.Keyless) (id : NodeId) (change : Node → Node) :
    Keyless { document with arena := document.arena.update id change } := by
  intro index node hindex hnode
  have hne : id.toNat ≠ index := Nat.ne_of_lt (Nat.lt_of_lt_of_le id.toNat_lt hindex)
  simp only [Arena.update, Array.getElem?_modify, hne, if_false] at hnode
  exact h index node hindex hnode

theorem structural_keyless : Structural Keyless where
  update _ change _ h id := h.update id change
  registry _ h _ := h

/-- The keys of the nodes and the registry agree. -/
structure KeysAgree (document : Document) : Prop where
  bound : document.KeysBound
  exists_of_resolve : ∀ key id, document.resolve key = some id →
    (document.arena.get? id).isSome
  keyless : document.Keyless

theorem KeysAgree.update (h : document.KeysAgree) {change : Node → Node}
    (hkey : ∀ node, (change node).key = node.key) (id : NodeId) :
    KeysAgree { document with arena := document.arena.update id change } where
  bound := h.bound.congr (keyOf_update hkey document id) rfl
  exists_of_resolve key other hother := by
    have hthere := h.exists_of_resolve key other hother
    rw [Arena.isSome_get?_iff] at hthere ⊢
    simpa using hthere
  keyless := h.keyless.update id change

theorem KeysAgree.add (h : document.KeysAgree) {make : NodeId → Node}
    (hmake : ∀ id, (make id).key = none) :
    KeysAgree { document with arena := document.arena.add make } where
  bound := h.bound.congr (keyOf_add hmake document) rfl
  exists_of_resolve key id hid := by
    have hthere := h.exists_of_resolve key id hid
    rw [Arena.isSome_get?_iff] at hthere ⊢
    simpa using Nat.lt_succ_of_lt hthere
  keyless index node hindex hnode := by
    simp only [Arena.add, Array.getElem?_push] at hnode
    split at hnode
    · obtain rfl := Option.some.inj hnode
      exact hmake _
    · exact h.keyless index node hindex hnode

theorem KeysAgree.register (node : NodeId) (key : String) :
    Keeps KeysAgree (register node key) := by
  intro document h
  have hkeyless := structural_keyless.register node key document h.keyless
  cases hnode : document.arena.get? node with
  | none =>
      rw [register_of_none hnode]
      exact h
  | some held =>
      obtain ⟨after, hrun, htree, hbound, hresolve, -⟩ := h.bound.register hnode key
      rw [hrun] at hkeyless ⊢
      refine ⟨hbound, ?_, hkeyless⟩
      intro other id hid
      apply (htree.isSome_get?_iff id).mpr
      rw [stateAfter, hresolve] at hid
      split at hid
      · obtain rfl := Option.some.inj hid
        simp [hnode]
      · exact h.exists_of_resolve other id hid

theorem KeysAgree.forgetKey (node : NodeId) : Keeps KeysAgree (forgetKey node) := by
  intro document h
  have hkeyless := structural_keyless.forgetKey node document h.keyless
  cases hnode : document.arena.get? node with
  | none =>
      rw [Document.forgetKey, bind_of_error (fetchM_of_none hnode)]
      exact h
  | some held =>
      have hthere : (document.arena.get? node).isSome := by simp [hnode]
      obtain ⟨after, hrun, htree, hreleases⟩ := forgetKey_run hthere
      rw [hrun] at hkeyless ⊢
      refine ⟨hreleases.keysBound h.bound, ?_, hkeyless⟩
      intro key id hid
      apply (htree.isSome_get?_iff id).mpr
      exact h.exists_of_resolve key id ((hreleases.resolve_iff key id).mp hid).1

theorem stable_keysAgree : Stable KeysAgree where
  update _ _ _ hkey h id := h.update hkey id
  add _ _ _ hmake h := h.add hmake
  register := KeysAgree.register
  forgetKey := KeysAgree.forgetKey

theorem keysAgree_new (rootTag : String) : KeysAgree (new rootTag) := by
  have hblank : KeysAgree { arena := {}, root := ({} : Arena).nextId } := by
    refine ⟨?_, ?_, ?_⟩
    · intro id key hkey
      simp [keyOf, Arena.get?] at hkey
    · intro key id hid
      simp [resolve] at hid
    · intro index node _ hnode
      simp at hnode
  exact hblank.add fun _ => rfl

/-- What the nodes of a reached document remember agrees with the registry, however
many nodes there are. -/
theorem keysAgree_of_reachable (h : Reachable document) : document.KeysAgree :=
  stable_keysAgree.kept.of_reachable keysAgree_new h

/-- A document is sound and its keys are bound, as long as every node has an id of its
own. -/
def KeyedInRoom (document : Document) : Prop :=
  document.size ≤ UInt32.size → document.Sound ∧ document.KeysBound

/-- In a reached document every key that a node remembers leads to that node, as long
as every node has an id of its own. -/
theorem keyedInRoom_of_reachable (h : Reachable document) : KeyedInRoom document :=
  fun hroom => ⟨soundInRoom_of_reachable h hroom, (keysAgree_of_reachable h).bound⟩

/-- A key that a node remembers leads back to the place of that node. -/
theorem KeysAgree.resolve_of_getElem? (h : document.KeysAgree) {index : Nat} {node : Node}
    (hnode : document.arena.nodes[index]? = some node) {key : String}
    (hkey : node.key = some key) :
    (document.resolve key).map UInt32.toNat = some index := by
  have hindex : index < UInt32.size := by
    by_contra hover
    rw [h.keyless index node (Nat.le_of_not_lt hover) hnode] at hkey
    contradiction
  have hnat : (UInt32.ofNat index).toNat = index := UInt32.toNat_ofNat_of_lt' hindex
  have hheld : document.keyOf (UInt32.ofNat index) = some key := by
    simp [keyOf, Arena.get?, hnat, hnode, hkey]
  rw [h.bound _ key hheld, Option.map_some, hnat]

theorem KeysAgree.isSome_resolveNode (h : document.KeysAgree) (key : String) :
    (document.resolveNode key).isSome = (document.resolve key).isSome := by
  rw [resolveNode]
  cases hkey : document.resolve key with
  | none => rfl
  | some id => exact h.exists_of_resolve key id hkey

/-- In a reached document a key that a node remembers leads to that node, be the node
detached or not, so that no two nodes remember one key.  Whatever a key leads to is
there, so that a key's node is found exactly when the key is bound.  And registering
a key for a node that is there binds the key to it, and no other key changes. -/
theorem reachable_keysAgree (h : Reachable document) :
    (∀ (index : Nat) (node : Node) (key : String),
      document.arena.nodes[index]? = some node → node.key = some key →
        (document.resolve key).map UInt32.toNat = some index) ∧
    (∀ (first second : Nat) (node other : Node) (key : String),
      document.arena.nodes[first]? = some node → document.arena.nodes[second]? = some other →
        node.key = some key → other.key = some key → first = second) ∧
    (∀ key id, document.resolve key = some id → (document.arena.get? id).isSome) ∧
    (∀ key, (document.resolveNode key).isSome = (document.resolve key).isSome) ∧
    ∀ node key, (document.arena.get? node).isSome →
      ∃ after, register node key document = .ok node after ∧
        after.resolve key = some node ∧
          ∀ other, other ≠ key → after.resolve other = document.resolve other := by
  have hagree := keysAgree_of_reachable h
  refine ⟨?_, ?_, hagree.exists_of_resolve, hagree.isSome_resolveNode, ?_⟩
  · intro index node key hnode hkey
    exact hagree.resolve_of_getElem? hnode hkey
  · intro first second node other key hnode hother hkey hkey'
    have hfirst := hagree.resolve_of_getElem? hnode hkey
    have hsecond := hagree.resolve_of_getElem? hother hkey'
    exact Option.some.inj (hfirst.symm.trans hsecond)
  · intro node key hnode
    obtain ⟨held, hheld⟩ := Option.isSome_iff_exists.mp hnode
    obtain ⟨after, hrun, -, -, hresolve, -⟩ := hagree.bound.register hheld key
    refine ⟨after, hrun, by simp [hresolve], ?_⟩
    intro other hother
    simp [hresolve, hother.symm]

/-- A key goes from one node to another, which is then registered under a second one:
the first node forgets it, and the second remembers the later key only. -/
theorem reachable_keysAgree_stolen :
    let calls : List Operation := [.insert 0 "p", .insert 0 "q", .register 1 "a",
      .register 2 "a", .register 2 "b"]
    let document := calls.foldl Operation.apply (new "body")
    Reachable document ∧ document.keyOf 1 = none ∧ document.keyOf 2 = some "b" ∧
      document.resolve "a" = some 2 ∧
      (∀ (index : Nat) (node : Node) (key : String),
        document.arena.nodes[index]? = some node → node.key = some key →
          (document.resolve key).map UInt32.toNat = some index) ∧
      (document.resolveNode "a").isSome ∧
      ∃ after, register 1 "a" document = .ok 1 after ∧ after.resolve "a" = some 1 ∧
        after.resolve "b" = some 2 := by
  intro calls document
  have hreach : Reachable document :=
    (((((Reachable.new "body").step (.insert 0 "p")).step (.insert 0 "q")).step
      (.register 1 "a")).step (.register 2 "a")).step (.register 2 "b")
  have ha : document.resolve "a" = some 2 := by decide
  have hb : document.resolve "b" = some 2 := by decide
  obtain ⟨hbound, -, -, hnodes, hregister⟩ := reachable_keysAgree hreach
  obtain ⟨after, hrun, hkey, hothers⟩ := hregister 1 "a" (by decide)
  refine ⟨hreach, by decide, by decide, ha, hbound, ?_, after, hrun, hkey, ?_⟩
  · simp [hnodes, ha]
  · rw [hothers "b" (by decide), hb]

end Document

end Espalier
