/-
A written value reads back.  The reader takes the tokens of a value in as one step: it goes
from expecting the value to what the complete value leads to, whatever is open around it.
-/
import Espalier.Json.Text
import Espalier.Proofs.Json.Tokens

namespace Espalier.Json

/-! ### The tokens of a value -/

/-- All number literals of a value are numbers. -/
inductive Valid : Json → Prop
  | null : Valid .null
  | bool (value : Bool) : Valid (.bool value)
  | number {literal : String} (h : isNumber literal.toList) : Valid (.number literal)
  | string (text : Option String) : Valid (.string text)
  | array {items : List Json} (h : ∀ item ∈ items, Valid item) : Valid (.array items)
  | object {members : List (Option String × Json)} (h : ∀ member ∈ members, Valid member.2) :
      Valid (.object members)

/-- Tokens that can be told apart when they are written one after the other. -/
structure Distinct (tokens : List Token) : Prop where
  valid : ∀ token ∈ tokens, token.Valid
  apart : tokens.IsChain Apart

theorem Distinct.singleton {token : Token} (h : token.Valid) : Distinct [token] :=
  ⟨by simpa using h, .singleton token⟩

/-- A token that is no word can stand in front of any others. -/
theorem Distinct.cons {mark : Token} {rest : List Token} (hvalid : mark.Valid)
    (hmark : mark.isWord = false) (h : Distinct rest) : Distinct (mark :: rest) := by
  refine ⟨List.forall_mem_cons.mpr ⟨hvalid, h.valid⟩, ?_⟩
  exact List.isChain_cons.mpr ⟨fun _ _ => .inl hmark, h.apart⟩

theorem Distinct.append {front back : List Token} (hfront : Distinct front)
    (hback : Distinct back) (hmark : ∀ mark ∈ back.head?, mark.isWord = false) :
    Distinct (front ++ back) := by
  refine ⟨List.forall_mem_append.mpr ⟨hfront.valid, hback.valid⟩, ?_⟩
  exact List.isChain_append.mpr ⟨hfront.apart, hback.apart, fun _ _ mark h => .inr (hmark mark h)⟩

theorem head?_itemTokens (items : List Json) :
    ∀ mark ∈ (itemTokens items).head?, mark.isWord = false := by
  cases items <;> simp [itemTokens, Token.isWord]

theorem head?_memberTokens (members : List (Option String × Json)) :
    ∀ mark ∈ (memberTokens members).head?, mark.isWord = false := by
  rcases members with - | ⟨⟨name, value⟩, members⟩ <;> simp [memberTokens, Token.isWord]

mutual

theorem distinct_tokens : (json : Json) → json.Valid → Distinct json.tokens
  | .null, _ => .singleton trivial
  | .bool value, _ => .singleton trivial
  | .number literal, .number h => .singleton h
  | .string text, _ => .singleton trivial
  | .array [], _ => .cons trivial rfl (.singleton trivial)
  | .array (item :: items), .array h => by
      rw [List.forall_mem_cons] at h
      have hitem := distinct_tokens item h.1
      have hitems := distinct_itemTokens items h.2
      exact .cons trivial rfl (hitem.append hitems (head?_itemTokens items))
  | .object [], _ => .cons trivial rfl (.singleton trivial)
  | .object ((name, value) :: members), .object h => by
      rw [List.forall_mem_cons] at h
      have hvalue := distinct_tokens value h.1
      have hmembers := distinct_memberTokens members h.2
      have hrest := hvalue.append hmembers (head?_memberTokens members)
      exact .cons trivial rfl (.cons trivial rfl (.cons trivial rfl hrest))

theorem distinct_itemTokens : (items : List Json) → (∀ item ∈ items, item.Valid) →
    Distinct (itemTokens items)
  | [], _ => .singleton trivial
  | item :: items, h => by
      rw [List.forall_mem_cons] at h
      have hitem := distinct_tokens item h.1
      have hitems := distinct_itemTokens items h.2
      exact .cons trivial rfl (hitem.append hitems (head?_itemTokens items))

theorem distinct_memberTokens : (members : List (Option String × Json)) →
    (∀ member ∈ members, member.2.Valid) → Distinct (memberTokens members)
  | [], _ => .singleton trivial
  | (name, value) :: members, h => by
      rw [List.forall_mem_cons] at h
      have hvalue := distinct_tokens value h.1
      have hmembers := distinct_memberTokens members h.2
      have hrest := hvalue.append hmembers (head?_memberTokens members)
      exact .cons trivial rfl (.cons trivial rfl (.cons trivial rfl hrest))

end

/-! ### The reader -/

namespace Reader

theorem foldlM_feed_cons {token : Token} {reader middle : Reader}
    (h : feed reader token = some middle) (rest : List Token) :
    (token :: rest).foldlM feed reader = rest.foldlM feed middle := by
  rw [List.foldlM_cons, h]
  rfl

theorem foldlM_feed_append {front : List Token} {reader middle : Reader}
    (h : front.foldlM feed reader = some middle) (back : List Token) :
    (front ++ back).foldlM feed reader = back.foldlM feed middle := by
  rw [List.foldlM_append, h]
  rfl

/-- No value begins with the end of an array. -/
theorem exists_tokens (json : Json) :
    ∃ token rest, json.tokens = token :: rest ∧ token ≠ .endArray := by
  rcases json with - | - | - | - | (- | ⟨item, items⟩) | (- | ⟨⟨name, value⟩, members⟩) <;>
    exact ⟨_, _, by rw [tokens], by simp⟩

/-- The first item of an array is read like any other value. -/
theorem foldlM_feed_firstItem (json : Json) (stack : List Frame) :
    json.tokens.foldlM feed ⟨stack, .firstItem⟩ = json.tokens.foldlM feed ⟨stack, .value⟩ := by
  obtain ⟨token, rest, htokens, hne⟩ := exists_tokens json
  have hfeed : feed ⟨stack, .firstItem⟩ token = feed ⟨stack, .value⟩ token := by
    simp [feed, hne]
  rw [htokens, List.foldlM_cons, List.foldlM_cons, hfeed]

/-- The tokens in front of a member's value. -/
theorem foldlM_feed_member {reader : Reader} {name : Option String} {stack : List Frame}
    {front : Array (Option String × Json)}
    (h : feed reader (.string name) = some ⟨.member front name :: stack, .colon⟩)
    (rest : List Token) :
    (.string name :: .colon :: rest).foldlM feed reader =
      rest.foldlM feed ⟨.member front name :: stack, .value⟩ := by
  have hcolon : feed ⟨.member front name :: stack, .colon⟩ .colon =
      some ⟨.member front name :: stack, .value⟩ := rfl
  rw [foldlM_feed_cons h, foldlM_feed_cons hcolon]

mutual

/-- A value is read in one step. -/
theorem foldlM_feed_tokens : (json : Json) → (stack : List Frame) →
    json.tokens.foldlM feed ⟨stack, .value⟩ = some (complete json stack)
  | .null, _ => rfl
  | .bool _, _ => rfl
  | .number _, _ => rfl
  | .string _, _ => rfl
  | .array [], _ => rfl
  | .array (item :: items), stack => by
      have hopen : feed ⟨stack, .value⟩ .beginArray = some ⟨.array #[] :: stack, .firstItem⟩ := rfl
      have hitem := foldlM_feed_tokens item (.array #[] :: stack)
      rw [← foldlM_feed_firstItem] at hitem
      rw [tokens, foldlM_feed_cons hopen, foldlM_feed_append hitem]
      exact foldlM_feed_itemTokens items #[item] stack
  | .object [], _ => rfl
  | .object ((name, value) :: members), stack => by
      have hopen : feed ⟨stack, .value⟩ .beginObject =
          some ⟨.object #[] :: stack, .firstName⟩ := rfl
      have hname : feed ⟨.object #[] :: stack, .firstName⟩ (.string name) =
          some ⟨.member #[] name :: stack, .colon⟩ := rfl
      have hvalue := foldlM_feed_tokens value (.member #[] name :: stack)
      rw [tokens, foldlM_feed_cons hopen, foldlM_feed_member hname, foldlM_feed_append hvalue]
      exact foldlM_feed_memberTokens members #[(name, value)] stack

/-- What stands behind the items of an array that have been read. -/
theorem foldlM_feed_itemTokens : (items : List Json) → (front : Array Json) →
    (stack : List Frame) →
    (itemTokens items).foldlM feed ⟨.array front :: stack, .next⟩ =
      some (complete (.array (front.toList ++ items)) stack)
  | [], front, stack => by
      rw [List.append_nil]
      rfl
  | item :: items, front, stack => by
      have hcomma : feed ⟨.array front :: stack, .next⟩ .comma =
          some ⟨.array front :: stack, .value⟩ := rfl
      have hitem := foldlM_feed_tokens item (.array front :: stack)
      have hitems := foldlM_feed_itemTokens items (front.push item) stack
      rw [Array.toList_push, List.append_assoc, List.singleton_append] at hitems
      rw [itemTokens, foldlM_feed_cons hcomma, foldlM_feed_append hitem]
      exact hitems

/-- What stands behind the members of an object that have been read. -/
theorem foldlM_feed_memberTokens : (members : List (Option String × Json)) →
    (front : Array (Option String × Json)) → (stack : List Frame) →
    (memberTokens members).foldlM feed ⟨.object front :: stack, .next⟩ =
      some (complete (.object (front.toList ++ members)) stack)
  | [], front, stack => by
      rw [List.append_nil]
      rfl
  | (name, value) :: members, front, stack => by
      have hcomma : feed ⟨.object front :: stack, .next⟩ .comma =
          some ⟨.object front :: stack, .name⟩ := rfl
      have hname : feed ⟨.object front :: stack, .name⟩ (.string name) =
          some ⟨.member front name :: stack, .colon⟩ := rfl
      have hvalue := foldlM_feed_tokens value (.member front name :: stack)
      have hmembers := foldlM_feed_memberTokens members (front.push (name, value)) stack
      rw [Array.toList_push, List.append_assoc, List.singleton_append] at hmembers
      rw [memberTokens, foldlM_feed_cons hcomma, foldlM_feed_member hname,
        foldlM_feed_append hvalue]
      exact hmembers

end

end Reader

theorem ofTokens?_tokens (json : Json) : ofTokens? json.tokens = some json := by
  have hread := Reader.foldlM_feed_tokens json []
  rw [ofTokens?, hread]
  rfl

/-- A written value is read back. -/
theorem ofText?_toText {json : Json} (h : json.Valid) : ofText? json.toText = some json := by
  have hdistinct := distinct_tokens json h
  rw [ofText?, toText, String.toList_ofList,
    tokens?_flatMap_spell hdistinct.valid hdistinct.apart]
  exact ofTokens?_tokens json

end Espalier.Json
