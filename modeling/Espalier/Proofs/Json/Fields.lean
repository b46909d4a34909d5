/-
What is written into a value is read from it: numbers, lists, optional values and the fields
of a record.
-/
import Mathlib.Data.List.Nodup
import Mathlib.Data.List.TakeWhile
import Espalier.Proofs.Json.RoundTrip

namespace Espalier

open Json

variable {α β : Type}

/-- A reader that accepts every item of a list reads the whole list. -/
theorem mapM_eq_some_map {read : α → Option β} {value : α → β} {items : List α}
    (h : ∀ item ∈ items, read item = some (value item)) :
    items.mapM read = some (items.map value) := by
  induction items with
  | nil => rfl
  | cons item items ih =>
      rw [List.forall_mem_cons] at h
      rw [List.mapM_cons, h.1, ih h.2]
      rfl

namespace Json

/-! ### Numbers -/

/-- The numeral of a positive number does not begin with a zero. -/
theorem exists_toDigits {n : Nat} (h : 0 < n) :
    ∃ c cs, Nat.toDigits 10 n = c :: cs ∧ c ≠ '0' := by
  induction n using Nat.strongRecOn with
  | ind n ih =>
      by_cases hsmall : n < 10
      · have hnonzero : ∀ k < 10, 0 < k → k.digitChar ≠ '0' := by decide
        exact ⟨_, _, Nat.toDigits_of_lt_base hsmall, hnonzero n hsmall h⟩
      · obtain ⟨c, cs, hdigits, hc⟩ := ih (n / 10) (by omega) (by omega)
        refine ⟨c, cs ++ [(n % 10).digitChar], ?_, hc⟩
        rw [Nat.toDigits_of_base_le (by decide) (by omega), hdigits, List.cons_append]

theorem toList_toString (n : Nat) : (toString n).toList = Nat.toDigits 10 n := by
  rw [Nat.toString_eq_repr, Nat.toList_repr]

theorem isDigit_toString (n : Nat) : ∀ c ∈ (toString n).toList, c.isDigit := by
  intro c hc
  rw [toList_toString] at hc
  exact Nat.isDigit_of_mem_toDigits (by decide) (by decide) hc

theorem isNumber_toString (n : Nat) : isNumber (toString n).toList := by
  rcases Nat.eq_zero_or_pos n with rfl | hpos
  · decide
  · have hdigits := isDigit_toString n
    obtain ⟨c, cs, hcons, hzero⟩ := exists_toDigits hpos
    rw [toList_toString, hcons, List.forall_mem_cons] at hdigits
    rw [toList_toString, hcons]
    have hsign : c ≠ '-' := by
      rintro rfl
      exact absurd hdigits.1 (by decide)
    have hnone : cs.dropWhile (·.isDigit) = [] := List.dropWhile_eq_nil_iff.mpr hdigits.2
    simp [isNumber, hsign, isUnsignedNumber, hdigits.1, hnone, isFractionPart,
      isExponentPart]

theorem valid_ofNat (n : Nat) : (ofNat n).Valid :=
  .number (isNumber_toString n)

theorem nat?_ofNat (n : Nat) : (ofNat n).nat? = some n := by
  have hall : (toString n).toList.all (·.isDigit) = true :=
    List.all_eq_true.mpr (isDigit_toString n)
  rw [ofNat, nat?]
  simp only [hall, if_true]
  rw [toList_toString, Nat.ofDigitChars_ten_toDigits]

theorem word?_ofNat (word : UInt32) : (ofNat word.toNat).word? = some word := by
  rw [word?, nat?_ofNat]
  simp [word.toNat_lt_size]

/-! ### Lists and optional values -/

theorem valid_ofText (text : String) : (ofText text).Valid :=
  .string (some text)

theorem valid_ofList {write : α → Json} {items : List α} (h : ∀ a ∈ items, (write a).Valid) :
    (ofList write items).Valid :=
  .array (List.forall_mem_map.mpr h)

theorem list?_ofList {write : α → Json} {read : Json → Option α} {items : List α}
    (h : ∀ a ∈ items, read (write a) = some a) : (ofList write items).list? read = some items := by
  rw [ofList, list?, List.mapM_map]
  have hitems := @mapM_eq_some_map _ _ (read ∘ write) id items h
  rw [List.map_id] at hitems
  exact hitems

theorem valid_ofOption {write : α → Json} (h : ∀ a, (write a).Valid) (o : Option α) :
    (ofOption write o).Valid := by
  cases o with
  | none => exact .null
  | some a => exact h a

theorem option?_ofOption {write : α → Json} {read : Json → Option α}
    (hnull : ∀ a, write a ≠ .null) (h : ∀ a, read (write a) = some a) (o : Option α) :
    (ofOption write o).option? read = some o := by
  cases o with
  | none => rfl
  | some a =>
      rw [ofOption, option?]
      · rw [h, Option.map_some]
      · exact hnull a

/-! ### Records -/

theorem valid_ofMembers {members : List (String × Json)} (h : ∀ member ∈ members, member.2.Valid) :
    (ofMembers members).Valid := by
  apply Valid.object
  rw [List.forall_mem_map]
  exact h

theorem members?_ofMembers (members : List (String × Json)) :
    (ofMembers members).members? = some members := by
  rw [ofMembers, members?, List.mapM_map]
  have hmembers := @mapM_eq_some_map (String × Json) _ some id members fun _ _ => rfl
  rw [List.map_id] at hmembers
  exact hmembers

/-- A name that only one member has leads to the value of that member. -/
theorem single?_of_mem {members : List (String × Json)} (hnodup : (members.map Prod.fst).Nodup)
    {member : String × Json} (h : member ∈ members) :
    single? members member.1 = some (some member.2) := by
  have hfilter : members.filter (·.1 == member.1) = [member] := by
    induction members with
    | nil => contradiction
    | cons first rest ih =>
        rw [List.map_cons, List.nodup_cons, List.mem_map, not_exists] at hnodup
        rcases List.mem_cons.mp h with rfl | hrest
        · have hnone : rest.filter (·.1 == member.1) = [] := by
            rw [List.filter_eq_nil_iff]
            intro other hother
            have hne := hnodup.1 other
            simpa [hother] using hne
          rw [List.filter_cons_of_pos (by simp), hnone]
        · have hne : ¬ first.1 = member.1 := fun heq => hnodup.1 member ⟨hrest, heq.symm⟩
          rw [List.filter_cons_of_neg (by simpa using hne), ih hnodup.2 hrest]
  rw [single?, hfilter]

/-- The fields of a record are read in the order of their names. -/
theorem record?_ofMembers_zip {names : List String} {values : List Json} (hnodup : names.Nodup)
    (hlength : names.length = values.length) :
    (ofMembers (names.zip values)).record? names = some (values.map some) := by
  have hnames : (names.zip values).map Prod.fst = names :=
    List.map_fst_zip (Nat.le_of_eq hlength)
  have hvalues : (names.zip values).map Prod.snd = values :=
    List.map_snd_zip (Nat.le_of_eq hlength.symm)
  have hsingle : (names.zip values).mapM (single? (names.zip values) ∘ Prod.fst) =
      some ((names.zip values).map (some ∘ Prod.snd)) := by
    apply mapM_eq_some_map
    intro member hmember
    exact single?_of_mem (hnames.symm ▸ hnodup) hmember
  have hrecord : (ofMembers (names.zip values)).record? names =
      (ofMembers (names.zip values)).members?.bind fun members => names.mapM (single? members) :=
    rfl
  rw [← List.mapM_map, ← List.map_map, hnames, hvalues] at hsingle
  rw [hrecord, members?_ofMembers, Option.bind_some, hsingle]

end Json

end Espalier
