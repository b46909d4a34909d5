/-
Written trees read back.  A node is read from its JSON value whatever the order in which its
maps were written, and a whole tree gives the nodes that can be reached from its root, in
document order.
-/
import Espalier.Proofs.Attributes.Entries
import Espalier.Proofs.Json.Fields
import Espalier.Proofs.Tree.Order
import Espalier.Proofs.Tree.Queries
import Espalier.Tree.Snapshot

namespace Espalier

open Json

/-! ### Parts of a node -/

theorem Namespace.ofName?_toName (ns : Namespace) : ofName? ns.toName = some ns := by
  cases ns <;> decide

theorem Content.valid_toJson (content : Content) : content.toJson.Valid := by
  cases content <;>
  · apply valid_ofMembers
    simp only [List.mem_cons, List.not_mem_nil, or_false, forall_eq_or_imp, forall_eq]
    exact ⟨valid_ofText _, valid_ofText _⟩

theorem Content.ofJson?_toJson (content : Content) : ofJson? content.toJson = some content := by
  have hread : ∀ kind value : String,
      record? ["kind", "value"] (.ofMembers [("kind", .ofText kind), ("value", .ofText value)]) =
        some [some (.ofText kind), some (.ofText value)] := fun kind value =>
    @record?_ofMembers_zip ["kind", "value"] [.ofText kind, .ofText value] (by decide) rfl
  cases content with
  | html markup =>
      rw [toJson, ofJson?, hread]
      rfl
  | text plain =>
      rw [toJson, ofJson?, hread]
      rfl

namespace Attributes

theorem valid_jsonOfEntries (entries : List (String × String)) :
    (jsonOfEntries entries).Valid := by
  apply valid_ofMembers
  rw [List.forall_mem_map]
  exact fun entry _ => valid_ofText entry.2

theorem ofJson?_jsonOfEntries (entries : List (String × String)) :
    ofJson? (jsonOfEntries entries) = some (ofEntries entries) := by
  rw [ofJson?, jsonOfEntries, members?_ofMembers, Option.bind_eq_bind, Option.bind_some,
    List.mapM_map, @mapM_eq_some_map _ _ _ id, List.map_id]
  · rfl
  · exact fun _ _ => rfl

end Attributes

namespace Node

theorem valid_wordJson (id : NodeId) : (wordJson id).Valid :=
  valid_ofNat id.toNat

theorem word?_wordJson (id : NodeId) : (wordJson id).word? = some id :=
  word?_ofNat id

/-- The values of the fields of a node. -/
theorem valid_jsonWith (node : Node) (properties style : List (String × String)) :
    (node.jsonWith properties style).Valid := by
  apply valid_ofMembers
  intro member hmember
  have hvalue := (List.of_mem_zip hmember).2
  simp only [List.mem_cons, List.not_mem_nil, or_false] at hvalue
  rcases hvalue with h | h | h | h | h | h | h | h | h | h <;> rw [h]
  · exact valid_wordJson node.id
  · exact valid_ofText _
  · exact valid_ofOption valid_wordJson node.parent
  · exact valid_ofList fun id _ => valid_wordJson id
  · exact valid_ofText node.tag
  · exact valid_ofList fun name _ => valid_ofText name
  · exact Attributes.valid_jsonOfEntries properties
  · exact Attributes.valid_jsonOfEntries style
  · exact valid_ofOption Content.valid_toJson node.content
  · exact valid_ofOption valid_ofText node.key

/-- A node is read back, in whatever order its maps were written. -/
theorem ofJson?_jsonWith (node : Node) {properties style : List (String × String)}
    (hproperties : properties.Perm node.properties.toList)
    (hstyle : style.Perm node.style.toList) :
    ofJson? (node.jsonWith properties style) = some node := by
  have hword : ∀ id, wordJson id ≠ .null := fun _ => nofun
  have hcontent : ∀ content : Content, content.toJson ≠ .null := by
    rintro (_ | _) <;> exact nofun
  have hparent := option?_ofOption hword word?_wordJson node.parent
  have hchildren : (ofList wordJson node.children).list? word? = some node.children :=
    list?_ofList fun id _ => word?_wordJson id
  have hclasses : (ofList ofText node.classes).list? Json.text? = some node.classes :=
    list?_ofList fun _ _ => rfl
  have hvalue := option?_ofOption hcontent Content.ofJson?_toJson node.content
  have htext : ∀ text, ofText text ≠ .null := fun _ => nofun
  have hkey : (ofOption ofText node.key).option? Json.text? = some node.key :=
    option?_ofOption htext (fun _ => rfl) node.key
  have hwhole : (guard (isWhole (node.jsonWith properties style)) : Option Unit) = some () := rfl
  have hname : (ofText node.ns.toName).name? = some node.ns.toName := rfl
  have htag : (ofText node.tag).text? = some node.tag := rfl
  rw [ofJson?, hwhole, jsonWith, record?_ofMembers_zip (by decide) rfl]
  simp [optional?, word?_wordJson, hname, Namespace.ofName?_toName, hparent,
    hchildren, htag, hclasses, hvalue, hkey, Attributes.ofJson?_jsonOfEntries,
    Attributes.ofEntries_of_perm hproperties, Attributes.ofEntries_of_perm hstyle]

end Node

/-! ### Written trees -/

/-- A value writes a node, with its maps in some order. -/
def Node.Writes (node : Node) (json : Json) : Prop :=
  ∃ properties style, properties.Perm node.properties.toList ∧
    style.Perm node.style.toList ∧ json = node.jsonWith properties style

theorem Node.writes_toJson (node : Node) : node.Writes node.toJson :=
  ⟨_, _, .refl _, .refl _, rfl⟩

theorem Node.Writes.valid {node : Node} {json : Json} (h : node.Writes json) : json.Valid := by
  obtain ⟨properties, style, -, -, rfl⟩ := h
  exact node.valid_jsonWith properties style

theorem Node.Writes.ofJson? {node : Node} {json : Json} (h : node.Writes json) :
    Node.ofJson? json = some node := by
  obtain ⟨properties, style, hproperties, hstyle, rfl⟩ := h
  exact node.ofJson?_jsonWith hproperties hstyle

/-- A text writes a root id and some nodes, with the maps of every node in some order. -/
def WritesTree (root : NodeId) (nodes : List Node) (text : String) : Prop :=
  ∃ items, List.Forall₂ Node.Writes nodes items ∧
    text = (Json.ofMembers [("root", Node.wordJson root), ("nodes", .array items)]).toText

/-- A text reads as an object of a root id and a list, whose values read one by one as some
nodes. -/
def ReadsTree (root : NodeId) (nodes : List Node) (text : String) : Prop :=
  ∃ word items, Json.ofText? text = some (.ofMembers [("root", word), ("nodes", .array items)]) ∧
    word.word? = some root ∧ items.mapM Node.ofJson? = some nodes

theorem forall_valid_of_writes {nodes : List Node} {items : List Json}
    (h : List.Forall₂ Node.Writes nodes items) : ∀ item ∈ items, item.Valid := by
  induction h with
  | nil => exact fun _ hnone => absurd hnone List.not_mem_nil
  | cons hwrites _ ih => exact List.forall_mem_cons.mpr ⟨hwrites.valid, ih⟩

theorem mapM_ofJson?_of_writes {nodes : List Node} {items : List Json}
    (h : List.Forall₂ Node.Writes nodes items) : items.mapM Node.ofJson? = some nodes := by
  induction h with
  | nil => rfl
  | cons hwrites _ ih =>
      rw [List.mapM_cons, hwrites.ofJson?, ih]
      rfl

theorem WritesTree.readsTree {root : NodeId} {nodes : List Node} {text : String}
    (h : WritesTree root nodes text) : ReadsTree root nodes text := by
  obtain ⟨items, hitems, rfl⟩ := h
  refine ⟨Node.wordJson root, items, ofText?_toText (valid_ofMembers ?_),
    Node.word?_wordJson root, mapM_ofJson?_of_writes hitems⟩
  rw [List.forall_mem_cons, List.forall_mem_singleton]
  exact ⟨Node.valid_wordJson root, .array (forall_valid_of_writes hitems)⟩

namespace Document

variable {document : Document}

theorem exists_writes_of_reachable {nodes : List Node} (h : document.reachable = .ok nodes) :
    ∃ text, document.toText = .ok text ∧ WritesTree document.root nodes text := by
  refine ⟨_, toText_of_reachable h, nodes.map Node.toJson, ?_, rfl⟩
  rw [List.forall₂_map_right_iff]
  exact List.forall₂_same.mpr fun node _ => node.writes_toJson

/-! ### The nodes of a written tree -/

theorem map_id_of_map_some (h : document.arena.shape.Labelled) {ids : List NodeId}
    {nodes : List Node} (hsome : nodes.map some = ids.map document.arena.get?) :
    nodes.map Node.id = ids := by
  induction nodes generalizing ids with
  | nil => exact (List.map_eq_nil_iff.mp hsome.symm).symm
  | cons node nodes ih =>
      obtain ⟨id, rest, rfl, hnode, hrest⟩ := List.map_eq_cons_iff.mp hsome.symm
      rw [List.map_cons, ih hrest.symm]
      congr 1
      exact h id node.links (Arena.shape_of_get? hnode)

/-- A list holds the nodes that can be reached from the root, every one once and in document
order. -/
structure Surveys (document : Document) (nodes : List Node) : Prop where
  held : ∀ node ∈ nodes, document.arena.get? node.id = some node
  ordered : document.arena.shape.Lists [document.root] (nodes.map Node.id)
  nodup : (nodes.map Node.id).Nodup
  mem_iff : ∀ id, id ∈ nodes.map Node.id ↔ document.arena.shape.Below document.root id
  /-- A node stands behind its parent. -/
  above : ∀ front node back, nodes = front ++ node :: back → node.id ≠ document.root →
    ∃ up ∈ front, node.parent = some up.id
  /-- The children of a node are in the list. -/
  closed : ∀ node ∈ nodes, ∀ child ∈ node.children, ∃ below ∈ nodes, below.id = child

/-- What a walk through a sound document meets. -/
theorem Sound.surveys (h : document.Sound) {nodes : List Node}
    (hsome : nodes.map some =
      (document.arena.preorder document.root).map document.arena.get?) :
    document.Surveys nodes := by
  have hids := map_id_of_map_some h.shape.labelled hsome
  have hheld : ∀ node ∈ nodes, document.arena.get? node.id = some node := by
    rw [← hids, List.map_map, List.map_inj_left] at hsome
    exact fun node hnode => (hsome node hnode).symm
  have hordered : document.arena.shape.Lists [document.root] (nodes.map Node.id) :=
    hids ▸ Arena.lists_preorder h.shape.acyclic document.root
  have hmem : ∀ id, id ∈ nodes.map Node.id ↔
      document.arena.shape.Below document.root id := by
    intro id
    rw [hids]
    exact Arena.mem_preorder_iff
  refine ⟨hheld, hordered, hids ▸ h.shape.nodup_preorder _ _, hmem, ?_, ?_⟩
  · intro front node back hsplit hne
    have hsplitIds : nodes.map Node.id = front.map Node.id ++ node.id :: back.map Node.id := by
      rw [hsplit, List.map_append, List.map_cons]
    rcases hordered.exists_above hsplitIds with htop | ⟨above, habove, hchild⟩
    · exact absurd (List.mem_singleton.mp htop) hne
    · obtain ⟨up, hup, rfl⟩ := List.mem_map.mp habove
      obtain ⟨-, links, hlinks, hparent⟩ := h.shape.parent_of_child hchild
      have hnode : node ∈ nodes := hsplit ▸ List.mem_append_right _ List.mem_cons_self
      rw [Arena.shape_of_get? (hheld node hnode)] at hlinks
      obtain rfl := Option.some.inj hlinks
      exact ⟨up, hup, hparent⟩
  · intro node hnode child hchild
    have hlisted : document.arena.shape.Child node.id child := by
      rw [Shape.Child, Shape.childrenOf_of_eq_some (Arena.shape_of_get? (hheld node hnode))]
      exact hchild
    have hbelow := (hmem node.id).mp (List.mem_map_of_mem hnode)
    exact List.mem_map.mp ((hmem child).mpr (hbelow.tail hlisted))

/-- A reached document can be written down, as the object of its root id and of the nodes that
can be reached from the root, every one once and in document order.  From whatever text writes
these, with the maps of the nodes in any order, the same root id and the same nodes are read.

Ids are 32-bit numbers, and the bound is the number of nodes that can have ids of their
own. -/
theorem reachable_toText_reads (h : Reachable document) (hsize : document.size ≤ UInt32.size) :
    ∃ nodes text, document.toText = .ok text ∧ WritesTree document.root nodes text ∧
      (∀ other, WritesTree document.root nodes other → ReadsTree document.root nodes other) ∧
      document.reachable = .ok nodes ∧
      document.descendants document.root = .ok (nodes.map Node.id) ∧
      document.Surveys nodes := by
  have hsound := soundInRoom_of_reachable h hsize
  obtain ⟨nodes, hreachable, hsome⟩ := hsound.exists_reachable
  obtain ⟨text, htext, hwrites⟩ := exists_writes_of_reachable hreachable
  refine ⟨nodes, text, htext, hwrites, fun _ hother => hother.readsTree, hreachable, ?_,
    hsound.surveys hsome⟩
  rw [map_id_of_map_some hsound.shape.labelled hsome]
  exact hsound.descendants hsound.isSome_root

/-- A list whose one item has a quoted title and a key; a paragraph beside it has been removed,
and is not written. -/
theorem reachable_toText_reads_removed :
    let title : Attributes := .ofEntries [("title", "the \"first\"\nitem"), ("lang", "en")]
    let calls : List Operation :=
      [.insert 0 "ul.menu", .insertWith 1 "li" title, .insert 0 "p", .setText 2 "a\\b",
        .register 2 "first", .remove 3]
    let document := calls.foldl Operation.apply (new "body")
    Reachable document ∧ document.size = 4 ∧
      ∃ nodes text, document.toText = .ok text ∧ ReadsTree document.root nodes text ∧
        nodes.map (fun node => (node.tag, node.links)) =
          [("body", ⟨0, none, [1]⟩), ("ul", ⟨1, some 0, [2]⟩), ("li", ⟨2, some 1, []⟩)] ∧
        document.Surveys nodes := by
  intro title calls document
  have hreach : Reachable document := (Reachable.new "body").foldl calls
  have hsize : document.size = 4 := by decide +kernel
  have hlinks : document.reachable.toOption.map (·.map fun node => (node.tag, node.links)) =
      some [("body", ⟨0, none, [1]⟩), ("ul", ⟨1, some 0, [2]⟩), ("li", ⟨2, some 1, []⟩)] := by
    decide +kernel
  obtain ⟨nodes, text, htext, hwrites, hreads, hreachable, -, hsurveys⟩ :=
    reachable_toText_reads hreach (by rw [hsize]; decide)
  rw [hreachable] at hlinks
  exact ⟨hreach, hsize, nodes, text, htext, hreads text hwrites, Option.some.inj hlinks, hsurveys⟩

end Document

end Espalier
