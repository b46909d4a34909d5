/-
When a call on a document fails.  The calls that look a node up after they have
changed something find it, as the links of a reached document fit together; so a
call fails for its arguments alone, and then before it changes anything.
-/
import Espalier.Proofs.Tree.Bindings
import Espalier.Proofs.Tree.Paths

namespace Espalier

open Espalier.Program

/-! ### The calls -/

/-- A call that asks something about a document. -/
inductive Query where
  | fetch (node : NodeId)
  | children (node : NodeId)
  | child (node : NodeId) (index : Int)
  | parent (node : NodeId)
  | ancestor (node : NodeId) (levels : Nat)
  | descendants (start : NodeId)
  | find (start : NodeId) (test : Node → Bool)
  | findTag (start : NodeId) (tag : String)
  | outlineFrom (settings : OutlineSettings) (start : NodeId)
  | outline (settings : OutlineSettings)
  | path (node : NodeId)
  | toText

/-- A call that changes a document through its own operations. -/
inductive Change where
  | insert (parent : NodeId) (spec : String)
  | insertWith (parent : NodeId) (spec : String) (attributes : Attributes)
  | append (node : NodeId) (spec : String)
  | prepend (node : NodeId) (spec : String)
  | setAttributes (node : NodeId) (attributes : Attributes)
  | setStyle (node : NodeId) (style : Attributes)
  | setCss (node : NodeId) (css : String)
  | addClass (node : NodeId) (name : String)
  | removeClass (node : NodeId) (name : Option String)
  | setHtml (node : NodeId) (markup : String)
  | setText (node : NodeId) (text : String)
  | register (node : NodeId) (key : String)
  | clear (node : NodeId)
  | remove (node : NodeId)

namespace Query

/-- Whether a query has an answer. -/
def ask : Query → Document → Except TreeError Unit
  | fetch node, document => do let _ ← document.fetch node
  | children node, document => do let _ ← document.children node
  | child node index, document => do let _ ← document.child node index
  | parent node, document => do let _ ← document.parent node
  | ancestor node levels, document => do let _ ← document.ancestor node levels
  | descendants start, document => do let _ ← document.descendants start
  | find start test, document => do let _ ← document.find start test
  | findTag start tag, document => do let _ ← document.findTag start tag
  | outlineFrom settings start, document => do let _ ← document.outlineFrom settings start
  | outline settings, document => do let _ ← document.outline settings
  | path node, document => do let _ ← document.path node
  | toText, document => do let _ ← document.toText

/-- The node that a query is about; a query about the whole tree addresses none. -/
def node? : Query → Option NodeId
  | fetch node | children node | child node _ | parent node | ancestor node _
  | descendants node | find node _ | findTag node _ | outlineFrom _ node | path node => some node
  | outline _ | toText => none

/-- A query is refused: it is about no node of the document, it climbs past the top
of a tree, or it wants a child beyond the first or the last. -/
inductive Refused (document : Document) : Query → TreeError → Prop where
  | unknown {query : Query} {node : NodeId} (hnode : query.node? = some node)
      (hnone : document.arena.get? node = none) : Refused document query (.unknownNode node)
  | pastTop {node top : NodeId} {levels steps : Nat} (hclimb : document.Climbs steps node top)
      (htop : document.arena.shape.Top top) (hsteps : steps < max levels 1) :
      Refused document (.ancestor node levels) (.noParent top)
  | noChild {node : NodeId} {held : Node} {index : Int}
      (hnode : document.arena.get? node = some held)
      (hindex : index < -held.children.length ∨ held.children.length ≤ index) :
      Refused document (.child node index) (.noChild node index)

variable {document : Document}

theorem ask_of_none {query : Query} {node : NodeId} (hnode : query.node? = some node)
    (hnone : document.arena.get? node = none) :
    query.ask document = .error (.unknownNode node) := by
  cases query <;> simp only [node?, Option.some.injEq, reduceCtorEq] at hnode <;> subst hnode
  case fetch => exact exceptBind_of_error (Document.fetch_of_none hnone) _
  case children => exact exceptBind_of_error (Document.children_of_none hnone) _
  case child =>
      have hchildren := Document.children_of_none hnone
      exact exceptBind_of_error (exceptBind_of_error hchildren _) _
  case parent => exact exceptBind_of_error (Document.parent_of_none hnone) _
  case ancestor levels =>
      have hlevels : 0 < max levels 1 := by omega
      exact exceptBind_of_error (Document.ascend_of_none hnone hlevels) _
  case descendants => exact exceptBind_of_error (Arena.find_of_none hnone _) _
  case find => exact exceptBind_of_error (Arena.find_of_none hnone _) _
  case findTag => exact exceptBind_of_error (Arena.find_of_none hnone _) _
  case outlineFrom => exact exceptBind_of_error (Document.outlineFrom_of_none hnone _) _
  case path => exact exceptBind_of_error (Document.path_of_none hnone) _

theorem Refused.ask_eq {query : Query} {error : TreeError} (h : query.Refused document error) :
    query.ask document = .error error := by
  cases h with
  | unknown hnode hnone => exact ask_of_none hnode hnone
  | pastTop hclimb htop hsteps =>
      exact exceptBind_of_error (Document.ascend_of_climbs hclimb htop hsteps) _
  | noChild hnode hindex =>
      exact exceptBind_of_error (Document.child_of_outside hnode hindex) _

/-- A query about a sound document that is not refused has an answer. -/
theorem exists_ask (h : document.Sound) {query : Query}
    (haccepted : ∀ error, ¬ query.Refused document error) :
    ∃ answer, query.ask document = .ok answer := by
  have hthere : ∀ node, query.node? = some node → ∃ held, document.arena.get? node = some held := by
    intro node hnode
    apply Option.ne_none_iff_exists'.mp
    intro hnone
    exact haccepted _ (.unknown hnode hnone)
  have hplace : ∀ node, query.node? = some node → (document.arena.shape node).isSome := by
    intro node hnode
    obtain ⟨held, hheld⟩ := hthere node hnode
    simp [Arena.shape, hheld]
  cases query with
  | fetch node =>
      obtain ⟨held, hheld⟩ := hthere node rfl
      exact ⟨(), exceptBind_of_ok (Document.fetch_of_some hheld) _⟩
  | children node =>
      obtain ⟨held, hheld⟩ := hthere node rfl
      exact ⟨(), exceptBind_of_ok (Document.children_of_some hheld) _⟩
  | child node index =>
      obtain ⟨held, hheld⟩ := hthere node rfl
      have hinside : ¬ (index < -held.children.length ∨ held.children.length ≤ index) :=
        fun hindex => haccepted _ (.noChild hheld hindex)
      have hlow : -held.children.length ≤ index := by omega
      have hhigh : index < held.children.length := by omega
      obtain ⟨found, hfound⟩ := Document.exists_child hheld hlow hhigh
      exact ⟨(), exceptBind_of_ok hfound _⟩
  | parent node =>
      obtain ⟨held, hheld⟩ := hthere node rfl
      obtain ⟨answer, hanswer⟩ := h.exists_parent hheld
      exact ⟨(), exceptBind_of_ok hanswer _⟩
  | ancestor node levels =>
      obtain ⟨held, hheld⟩ := hthere node rfl
      rcases h.ascend_cases (max levels 1) hheld with ⟨found, hfound⟩ | ⟨_, _, hclimb, htop, hsteps⟩
      · exact ⟨(), exceptBind_of_ok hfound _⟩
      · exact absurd (.pastTop hclimb htop hsteps) (haccepted _)
  | descendants start => exact ⟨(), exceptBind_of_ok (h.descendants (hplace start rfl)) _⟩
  | find start test => exact ⟨(), exceptBind_of_ok (h.find (hplace start rfl) test) _⟩
  | findTag start tag => exact ⟨(), exceptBind_of_ok (h.find (hplace start rfl) _) _⟩
  | outlineFrom settings start =>
      obtain ⟨text, htext⟩ := h.exists_outlineFrom (hplace start rfl) settings
      exact ⟨(), exceptBind_of_ok htext _⟩
  | outline settings =>
      obtain ⟨text, htext⟩ := h.exists_outlineFrom h.isSome_root settings
      exact ⟨(), exceptBind_of_ok htext _⟩
  | path node =>
      obtain ⟨held, hheld⟩ := hthere node rfl
      obtain ⟨text, htext⟩ := h.exists_path hheld
      exact ⟨(), exceptBind_of_ok htext _⟩
  | toText =>
      obtain ⟨text, htext⟩ := h.exists_toText
      exact ⟨(), exceptBind_of_ok htext _⟩

/-- A query about a node that is there, beside those that count its parents or its
children, is not refused. -/
theorem not_refused {query : Query} {node : NodeId} (hnode : (document.arena.get? node).isSome)
    (haddressed : ∀ other, query.node? = some other → other = node)
    (hancestor : ∀ levels, query ≠ .ancestor node levels)
    (hchild : ∀ index, query ≠ .child node index) (error : TreeError) :
    ¬ query.Refused document error := by
  intro hrefused
  cases hrefused with
  | unknown hother hnone =>
      rw [haddressed _ hother] at hnone
      exact absurd hnone (Option.isSome_iff_ne_none.mp hnode)
  | @pastTop other _ levels _ _ _ _ =>
      obtain rfl := haddressed other rfl
      exact hancestor levels rfl
  | @noChild other _ index _ _ =>
      obtain rfl := haddressed other rfl
      exact hchild index rfl

end Query

/-! ### Changes -/

namespace Change

/-- A change of a document; what it answers with is left out. -/
def run : Change → DocumentM Unit
  | insert parent spec => do let _ ← Document.insert parent spec
  | insertWith parent spec attributes => do
      let _ ← Document.insertWith parent spec attributes
  | append node spec => do let _ ← Document.append node spec
  | prepend node spec => do let _ ← Document.prepend node spec
  | setAttributes node attributes => do let _ ← Document.setAttributes node attributes
  | setStyle node style => do let _ ← Document.setStyle node style
  | setCss node css => do let _ ← Document.setCss node css
  | addClass node name => do let _ ← Document.addClass node name
  | removeClass node name => do let _ ← Document.removeClass node name
  | setHtml node markup => do let _ ← Document.setHtml node markup
  | setText node text => do let _ ← Document.setText node text
  | register node key => do let _ ← Document.register node key
  | clear node => do let _ ← Document.clear node
  | remove node => Document.remove node

/-- The node that a change addresses. -/
def node : Change → NodeId
  | insert node _ | insertWith node _ _ | append node _ | prepend node _
  | setAttributes node _ | setStyle node _ | setCss node _ | addClass node _
  | removeClass node _ | setHtml node _ | setText node _ | register node _
  | clear node | remove node => node

/-- A change is refused: it addresses no node of the document, it wants a sibling for
the top of a tree, or it removes the root. -/
inductive Refused (document : Document) : Change → TreeError → Prop where
  | unknown {change : Change} (hnone : document.arena.get? change.node = none) :
      Refused document change (.unknownNode change.node)
  | appendTop {node : NodeId} {spec : String} (htop : document.arena.shape.Top node) :
      Refused document (.append node spec) (.noParent node)
  | prependTop {node : NodeId} {spec : String} (htop : document.arena.shape.Top node) :
      Refused document (.prepend node spec) (.noParent node)
  | root : Refused document (.remove document.root) (.rootRemoval document.root)

variable {document : Document}

theorem run_of_none (h : document.Sound) {change : Change}
    (hnone : document.arena.get? change.node = none) :
    change.run document = .error (.unknownNode change.node) document := by
  cases change with
  | insert parent spec => exact bind_of_error (Document.insert_of_none hnone spec) _
  | insertWith parent spec attributes =>
      have hinsert := Document.insert_of_none hnone spec
      exact bind_of_error (bind_of_error hinsert _) _
  | append node spec =>
      have hplace := Document.position_of_none hnone
      exact bind_of_error (bind_of_error hplace _) _
  | prepend node spec =>
      have hplace := Document.position_of_none hnone
      exact bind_of_error (bind_of_error hplace _) _
  | setAttributes node attributes => exact bind_of_error (Document.edit_of_none hnone _) _
  | setStyle node style => exact bind_of_error (Document.edit_of_none hnone _) _
  | setCss node css => exact bind_of_error (Document.edit_of_none hnone _) _
  | addClass node name => exact bind_of_error (Document.edit_of_none hnone _) _
  | removeClass node name => exact bind_of_error (Document.edit_of_none hnone _) _
  | setHtml node markup => exact bind_of_error (Document.edit_of_none hnone _) _
  | setText node text => exact bind_of_error (Document.edit_of_none hnone _) _
  | register node key => exact bind_of_error (Document.register_of_none hnone key) _
  | clear node => exact bind_of_error (Document.clear_of_none hnone) _
  | remove node =>
      have hroot : node ≠ document.root := by
        rintro rfl
        have hthere := Arena.isSome_shape_iff.mp h.isSome_root
        exact absurd hnone (Option.isSome_iff_ne_none.mp hthere)
      exact Document.remove_of_none hroot hnone

theorem Refused.run_eq (h : document.Sound) {change : Change} {error : TreeError}
    (hrefused : change.Refused document error) : change.run document = .error error document := by
  cases hrefused with
  | unknown hnone => exact run_of_none h hnone
  | appendTop htop => exact bind_of_error (bind_of_error (Document.position_of_top htop) _) _
  | prependTop htop => exact bind_of_error (bind_of_error (Document.position_of_top htop) _) _
  | root => exact Document.remove_of_eq rfl

/-- A change of a sound document that is not refused goes through. -/
theorem exists_run (h : document.Sound) {change : Change}
    (haccepted : ∀ error, ¬ change.Refused document error) :
    ∃ answer after, change.run document = .ok answer after := by
  obtain ⟨held, hheld⟩ : ∃ held, document.arena.get? change.node = some held := by
    apply Option.ne_none_iff_exists'.mp
    intro hnone
    exact haccepted _ (.unknown hnone)
  cases change with
  | insert parent spec => exact ⟨(), _, bind_of_ok (Document.insert_of_some hheld spec) _⟩
  | insertWith parent spec attributes =>
      let middle : Document :=
        { document with
          arena := (document.arena.add (Document.newNode spec held)).link parent
            document.arena.nextId held.children.length }
      have hinsert : Document.insert parent spec document = .ok document.arena.nextId middle :=
        Document.insert_of_some hheld spec
      obtain ⟨added, hadded⟩ : ∃ added, middle.arena.get? document.arena.nextId = some added :=
        Option.isSome_iff_exists.mp (Arena.isSome_get?_add_link _ parent held.children.length)
      have hset := Document.edit_of_some hadded (·.setAttributes attributes.toList)
      exact ⟨(), _, bind_of_ok ((bind_of_ok hinsert _).trans hset) _⟩
  | append node spec =>
      have htop : ¬ document.arena.shape.Top node := fun htop => haccepted _ (.appendTop htop)
      obtain ⟨parent, above, index, habove, hplace⟩ := h.exists_position hheld htop
      have hinsert := Document.insertAt_of_some habove spec (index + 1)
      exact ⟨(), _, bind_of_ok ((bind_of_ok hplace _).trans hinsert) _⟩
  | prepend node spec =>
      have htop : ¬ document.arena.shape.Top node := fun htop => haccepted _ (.prependTop htop)
      obtain ⟨parent, above, index, habove, hplace⟩ := h.exists_position hheld htop
      have hinsert := Document.insertAt_of_some habove spec index
      exact ⟨(), _, bind_of_ok ((bind_of_ok hplace _).trans hinsert) _⟩
  | setAttributes node attributes => exact ⟨(), _, bind_of_ok (Document.edit_of_some hheld _) _⟩
  | setStyle node style => exact ⟨(), _, bind_of_ok (Document.edit_of_some hheld _) _⟩
  | setCss node css => exact ⟨(), _, bind_of_ok (Document.edit_of_some hheld _) _⟩
  | addClass node name => exact ⟨(), _, bind_of_ok (Document.edit_of_some hheld _) _⟩
  | removeClass node name => exact ⟨(), _, bind_of_ok (Document.edit_of_some hheld _) _⟩
  | setHtml node markup => exact ⟨(), _, bind_of_ok (Document.edit_of_some hheld _) _⟩
  | setText node text => exact ⟨(), _, bind_of_ok (Document.edit_of_some hheld _) _⟩
  | register node key => exact ⟨(), _, bind_of_ok (Document.register_of_some hheld key) _⟩
  | clear node =>
      obtain ⟨after, hrun, -⟩ := h.exists_clear hheld
      exact ⟨(), after, bind_of_ok hrun _⟩
  | remove node =>
      have hroot : node ≠ document.root := by
        rintro rfl
        exact haccepted _ .root
      obtain ⟨after, hrun, -⟩ := h.exists_remove hroot hheld
      exact ⟨(), after, hrun⟩

/-- A change of a node that is there, beside those that want its parent, is not
refused, unless it removes the root. -/
theorem not_refused {change : Change} (hnode : (document.arena.get? change.node).isSome)
    (happend : ∀ spec, change ≠ .append change.node spec)
    (hprepend : ∀ spec, change ≠ .prepend change.node spec)
    (hroot : change ≠ .remove document.root) (error : TreeError) :
    ¬ change.Refused document error := by
  intro hrefused
  cases hrefused with
  | unknown hnone => exact absurd hnone (Option.isSome_iff_ne_none.mp hnode)
  | appendTop _ => exact happend _ rfl
  | prependTop _ => exact hprepend _ rfl
  | root => exact hroot rfl

end Change

/-! ### Reached documents -/

namespace Document

variable {document : Document}

/-- In a reached document, as long as every node has an id of its own, a query fails
exactly when it is refused, a change fails exactly when it is refused and then leaves
the document as it was, and what addresses a node that is there goes through, but
for the few calls that want more of the node than that. -/
theorem reachable_refused (h : Reachable document) (hsize : document.size ≤ UInt32.size) :
    (∀ query error, query.ask document = .error error ↔ Query.Refused document query error) ∧
    (∀ change error after, change.run document = .error error after ↔
      Change.Refused document change error ∧ after = document) ∧
    ∀ node, (document.arena.get? node).isSome →
      (∀ spec attributes key, ∀ change ∈ [Change.insert node spec,
          .insertWith node spec attributes, .clear node, .register node key],
        ∃ after, change.run document = .ok () after) ∧
      (node ≠ document.root → ∃ after, (Change.remove node).run document = .ok () after) ∧
      ∀ test settings, ∀ query ∈ [Query.descendants node, .find node test,
          .outlineFrom settings node, .outline settings, .path node, .toText],
        query.ask document = .ok () := by
  have hsound := soundInRoom_of_reachable h hsize
  refine ⟨?_, ?_, ?_⟩
  · intro query
    exact except_eq_error_iff (fun _ hrefused => hrefused.ask_eq) (Query.exists_ask hsound)
  · intro change
    exact run_eq_error_iff (fun _ hrefused => hrefused.run_eq hsound) (Change.exists_run hsound)
  · intro node hnode
    refine ⟨?_, ?_, ?_⟩
    · intro spec attributes key change hchange
      simp only [List.mem_cons, List.not_mem_nil, or_false] at hchange
      have haccepted : ∀ error, ¬ Change.Refused document change error := by
        rcases hchange with rfl | rfl | rfl | rfl <;>
          exact Change.not_refused hnode nofun nofun nofun
      obtain ⟨_, after, hrun⟩ := Change.exists_run hsound haccepted
      exact ⟨after, hrun⟩
    · intro hroot
      have hother : Change.remove node ≠ .remove document.root := by simpa using hroot
      have haccepted : ∀ error, ¬ Change.Refused document (.remove node) error :=
        Change.not_refused hnode nofun nofun hother
      obtain ⟨_, after, hrun⟩ := Change.exists_run hsound haccepted
      exact ⟨after, hrun⟩
    · intro test settings query hquery
      simp only [List.mem_cons, List.not_mem_nil, or_false] at hquery
      have haccepted : ∀ error, ¬ Query.Refused document query error := by
        rcases hquery with rfl | rfl | rfl | rfl | rfl | rfl <;>
          exact Query.not_refused hnode (by simp [Query.node?]) nofun nofun
      obtain ⟨_, hrun⟩ := Query.exists_ask hsound haccepted
      exact hrun

/-- Calls on a list with one item: those that are refused say why. -/
theorem reachable_refused_list :
    let calls : List Operation := [.insert 0 "ul", .insert 1 "li"]
    let document := calls.foldl Operation.apply (new "body")
    Reachable document ∧ document.size ≤ UInt32.size ∧
      (Change.append 0 "p").run document = .error (.noParent 0) document ∧
      (Change.insert 7 "p").run document = .error (.unknownNode 7) document ∧
      (Query.ancestor 2 3).ask document = .error (.noParent 0) ∧
      (Query.child 1 (-2)).ask document = .error (.noChild 1 (-2)) ∧
      (∃ after, (Change.remove 1).run document = .ok () after) ∧
      (Query.path 2).ask document = .ok () := by
  intro calls document
  have hreach : Reachable document :=
    ((Reachable.new "body").step (.insert 0 "ul")).step (.insert 1 "li")
  have hsize : document.size ≤ UInt32.size := by decide
  have htop : document.arena.shape.Top 0 := ⟨⟨0, none, [1]⟩, by decide, rfl⟩
  obtain ⟨hquery, hchange, hrest⟩ := reachable_refused hreach hsize
  have hlist : (document.arena.get? 1).map Node.links = some ⟨1, some 0, [2]⟩ := by decide
  have hitem : (document.arena.get? 2).map Node.links = some ⟨2, some 1, []⟩ := by decide
  obtain ⟨list, hlist, hparent⟩ := Option.map_eq_some_iff.mp hlist
  obtain ⟨item, hitem, habove⟩ := Option.map_eq_some_iff.mp hitem
  have hclimb : document.Climbs 2 2 0 :=
    .up hitem (congrArg Links.parent habove)
      (.up hlist (congrArg Links.parent hparent) (.here 0))
  have hchildren : list.children = [2] := congrArg Links.children hparent
  refine ⟨hreach, hsize, ?_, ?_, ?_, ?_, ?_, ?_⟩
  · exact (hchange _ _ _).mpr ⟨.appendTop htop, rfl⟩
  · exact (hchange _ _ _).mpr ⟨.unknown (by decide), rfl⟩
  · exact (hquery _ _).mpr (.pastTop hclimb htop (by decide))
  · exact (hquery _ _).mpr (.noChild hlist (by rw [hchildren]; decide))
  · exact (hrest 1 (by decide)).2.1 (by decide)
  · exact (hrest 2 (by decide)).2.2 (fun _ => true) {} _ (by simp)

end Document

end Espalier
