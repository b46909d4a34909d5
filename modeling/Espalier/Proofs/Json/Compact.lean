/-
Compact texts.  A node or the settings of a parse, written down, give a text that is set out
here as it stands, without the values and tokens that the writer goes through: fields in their
order, no space, and in a string only what has to be escaped.  From such a text the node or the
settings are read back.
-/
import Espalier.Markup.Settings
import Espalier.Proofs.Tree.Snapshot

namespace Espalier

/-! ### Texts -/

namespace Json

variable {α : Type}

/-- A text as a string literal. -/
def quoted (text : String) : String :=
  "\"" ++ String.ofList (text.toList.flatMap escape) ++ "\""

/-- Written items in brackets. -/
def bracketed (items : List String) : String :=
  "[" ++ String.intercalate "," items ++ "]"

/-- Written members, each behind its name, in braces. -/
def braced (members : List (String × String)) : String :=
  "\x7b" ++ String.intercalate "," (members.map fun (name, value) => quoted name ++ ":" ++ value)
    ++ "\x7d"

/-- What is written where there may be nothing. -/
def orNull (write : α → String) : Option α → String
  | none => "null"
  | some a => write a

theorem intercalate_cons_eq_flatMap (separator : α) (first : List α) (rest : List (List α)) :
    [separator].intercalate (first :: rest) = first ++ rest.flatMap (separator :: ·) := by
  induction rest generalizing first with
  | nil => simp
  | cons second rest ih =>
      rw [List.intercalate_cons_cons, ih, List.flatMap_cons]
      simp

theorem toList_toText (json : Json) : json.toText.toList = json.tokens.flatMap Token.spell := by
  rw [toText, String.toList_ofList]

theorem toList_quoted (text : String) : (quoted text).toList = spellString (some text) := by
  have hmark : "\"".toList = ['"'] := by decide
  have hspell : spellString (some text) = '"' :: (text.toList.flatMap escape ++ ['"']) := rfl
  rw [hspell]
  simp only [quoted, String.toList_append, String.toList_ofList, hmark, List.cons_append,
    List.nil_append]

theorem toText_ofText (text : String) : (ofText text).toText = quoted text := by
  rw [← String.toList_inj, toList_toText, toList_quoted, ofText, tokens, List.flatMap_singleton,
    Token.spell]

theorem toText_ofNat (n : Nat) : (ofNat n).toText = toString n := by
  rw [← String.toList_inj, toList_toText, ofNat, tokens, List.flatMap_singleton, Token.spell]

theorem toText_ofOption (write : α → Json) (o : Option α) :
    (ofOption write o).toText = orNull (fun a => (write a).toText) o := by
  cases o with
  | none => rfl
  | some a => rfl

theorem flatMap_spell_itemTokens (items : List Json) :
    (itemTokens items).flatMap Token.spell =
      items.flatMap (fun item => ',' :: item.toText.toList) ++ [']'] := by
  induction items with
  | nil => rfl
  | cons item items ih =>
      simp only [itemTokens, List.flatMap_cons, List.flatMap_append, ih, Token.spell,
        toList_toText]
      simp

theorem flatMap_spell_memberTokens (members : List (String × Json)) :
    (memberTokens (members.map fun (name, value) => (some name, value))).flatMap Token.spell =
      members.flatMap (fun (name, value) =>
        ',' :: (quoted name ++ ":" ++ value.toText).toList) ++ ['\x7d'] := by
  have hcolon : ":".toList = [':'] := by decide
  induction members with
  | nil => rfl
  | cons member members ih =>
      simp only [List.map_cons, memberTokens, List.flatMap_cons, List.flatMap_append, ih,
        Token.spell, toList_toText, toList_quoted, String.toList_append, hcolon]
      simp

theorem toText_ofList (write : α → Json) (items : List α) :
    (ofList write items).toText = bracketed (items.map fun a => (write a).toText) := by
  have hcomma : ",".toList = [','] := by decide
  rw [← String.toList_inj, toList_toText, bracketed, ofList, String.toList_append,
    String.toList_append, String.toList_intercalate, hcomma]
  cases items with
  | nil => rfl
  | cons first rest =>
      simp only [List.map_cons, tokens, List.flatMap_cons, List.flatMap_append,
        flatMap_spell_itemTokens, intercalate_cons_eq_flatMap, Token.spell]
      simp [List.flatMap_map, toList_toText]

theorem toText_ofMembers (members : List (String × Json)) :
    (ofMembers members).toText =
      braced (members.map fun (name, value) => (name, value.toText)) := by
  have hcomma : ",".toList = [','] := by decide
  rw [← String.toList_inj, toList_toText, braced, ofMembers, String.toList_append,
    String.toList_append, String.toList_intercalate, hcomma]
  cases members with
  | nil => rfl
  | cons first rest =>
      simp only [List.map_cons, tokens, List.flatMap_cons, List.flatMap_append,
        flatMap_spell_memberTokens, intercalate_cons_eq_flatMap, Token.spell, ← toList_quoted]
      simp [List.flatMap_map, toList_toText]

end Json

open Json

/-! ### Nodes -/

namespace Content

/-- Content as it is written. -/
def compact : Content → String
  | .html markup => braced [("kind", quoted "html"), ("value", quoted markup)]
  | .text plain => braced [("kind", quoted "text"), ("value", quoted plain)]

theorem toText_toJson (content : Content) : content.toJson.toText = content.compact := by
  cases content with
  | html markup =>
      simp only [toJson, toText_ofMembers, List.map_cons, List.map_nil, toText_ofText, compact]
  | text plain =>
      simp only [toJson, toText_ofMembers, List.map_cons, List.map_nil, toText_ofText, compact]

end Content

namespace Attributes

/-- The entries of a map as they are written in an order. -/
def compact (entries : List (String × String)) : String :=
  braced (entries.map fun (name, value) => (name, quoted value))

theorem toText_jsonOfEntries (entries : List (String × String)) :
    (jsonOfEntries entries).toText = compact entries := by
  have hwritten : ∀ entry ∈ entries, (entry.1, (ofText entry.2).toText) =
      (entry.1, quoted entry.2) := by
    intro entry _
    rw [toText_ofText]
  rw [jsonOfEntries, toText_ofMembers, List.map_map, compact]
  exact congrArg braced (List.map_inj_left.mpr hwritten)

end Attributes

namespace Node

/-- A node as it is written, with its properties and its style in an order. -/
def compact (node : Node) (properties style : List (String × String)) : String :=
  let word (id : NodeId) : String := toString id.toNat
  braced [
    ("node_id", word node.id),
    ("namespace", quoted (if node.isSvg then "Svg" else "Html")),
    ("parent_id", orNull word node.parent),
    ("children_ids", bracketed (node.children.map word)),
    ("tag_name", quoted node.tag),
    ("classes", bracketed (node.classes.map quoted)),
    ("properties", Attributes.compact properties),
    ("style", Attributes.compact style),
    ("content", orNull Content.compact node.content),
    ("key", orNull quoted node.key)]

theorem toText_jsonWith (node : Node) (properties style : List (String × String)) :
    (node.jsonWith properties style).toText = node.compact properties style := by
  have hns : node.ns.toName = if node.isSvg then "Svg" else "Html" := by
    rw [isSvg]
    cases node.ns <;> rfl
  simp only [jsonWith, fieldNames, List.zip_cons_cons, List.zip_nil_right, toText_ofMembers,
    List.map_cons, List.map_nil, wordJson, toText_ofNat, toText_ofText, toText_ofOption,
    toText_ofList, Attributes.toText_jsonOfEntries, Content.toText_toJson, hns, compact]

/-- A node is read from what is written for it. -/
theorem ofText?_compact (node : Node) {properties style : List (String × String)}
    (hproperties : properties.Perm node.properties.toList)
    (hstyle : style.Perm node.style.toList) :
    ofText? (node.compact properties style) = some node := by
  rw [ofText?, ← toText_jsonWith, Json.ofText?_toText (node.valid_jsonWith properties style),
    Option.bind_eq_bind, Option.bind_some, node.ofJson?_jsonWith hproperties hstyle]

end Node

/-! ### Settings -/

namespace Markup.Settings

/-- The settings as they are written. -/
def compact (settings : Settings) : String :=
  braced [("input_shorthands", bracketed (settings.shorthands.map quoted))]

theorem valid_toJson (settings : Settings) : settings.toJson.Valid := by
  apply valid_ofMembers
  rw [List.forall_mem_singleton]
  exact valid_ofList fun name _ => valid_ofText name

theorem ofJson?_toJson (settings : Settings) : ofJson? settings.toJson = some settings := by
  have hnames : (ofList ofText settings.shorthands).list? Json.text? = some settings.shorthands :=
    list?_ofList fun _ _ => rfl
  have hrecord : settings.toJson.record? ["input_shorthands"] =
      some [some (ofList ofText settings.shorthands)] :=
    @record?_ofMembers_zip ["input_shorthands"] [ofList ofText settings.shorthands] (by decide) rfl
  simp [ofJson?, hrecord, hnames]

theorem toText_eq_compact (settings : Settings) : settings.toText = settings.compact := by
  simp only [toText, toJson, toText_ofMembers, List.map_cons, List.map_nil, toText_ofList,
    toText_ofText, compact]

theorem ofText?_compact (settings : Settings) : ofText? settings.compact = some settings := by
  rw [← toText_eq_compact, toText, ofText?, Json.ofText?_toText settings.valid_toJson,
    Option.bind_eq_bind, Option.bind_some, settings.ofJson?_toJson]

end Markup.Settings

/-- From the text of a node, in whatever order its maps are written, the node is read back,
whatever its values are and whether they fit together or not; and from the text of settings the
settings.  Of a node the writer gives the text that has the maps in their own order. -/
theorem compact_texts_read_back :
    (∀ (node : Node) (properties style : List (String × String)),
      properties.Perm node.properties.toList → style.Perm node.style.toList →
      Node.ofText? (node.compact properties style) = some node) ∧
    (∀ node : Node, node.toText = node.compact node.properties.toList node.style.toList) ∧
    ∀ settings : Markup.Settings, settings.toText = settings.compact ∧
      Markup.Settings.ofText? settings.compact = some settings := by
  refine ⟨?_, ?_, ?_⟩
  · intro node properties style hproperties hstyle
    exact node.ofText?_compact hproperties hstyle
  · intro node
    exact node.toText_jsonWith _ _
  · intro settings
    exact ⟨settings.toText_eq_compact, settings.ofText?_compact⟩

/-- A node whose links lead nowhere, with a control character, a quote mark and a backslash in
its texts and its properties written last name first. -/
theorem compact_texts_read_back_dangling :
    let entries := [("lang", "en"), ("alt", "\x01\n")]
    let node : Node := {
      id := 7
      ns := .svg
      parent := some 4294967295
      children := [7, 7]
      tag := "A.\"b\""
      classes := ["x", "", "x"]
      properties := .ofEntries entries
      content := some (.text "c:\\")
      key := some "" }
    let text := "\x7b\"node_id\":7,\"namespace\":\"Svg\",\"parent_id\":4294967295," ++
      "\"children_ids\":[7,7],\"tag_name\":\"A.\\\"b\\\"\",\"classes\":[\"x\",\"\",\"x\"]," ++
      "\"properties\":\x7b\"lang\":\"en\",\"alt\":\"\\u0001\\n\"\x7d,\"style\":\x7b\x7d," ++
      "\"content\":\x7b\"kind\":\"text\",\"value\":\"c:\\\\\"\x7d,\"key\":\"\"\x7d"
    Node.ofText? text = some node := by
  intro entries node text
  have hproperties : entries.Perm node.properties.toList := by decide +kernel
  have hstyle : [].Perm node.style.toList := by decide +kernel
  have htext : text = node.compact entries [] := by decide +kernel
  rw [htext]
  exact compact_texts_read_back.1 node entries [] hproperties hstyle

end Espalier
