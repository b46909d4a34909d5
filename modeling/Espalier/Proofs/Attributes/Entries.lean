/-
What a list of entries describes: the map with the last value of each name.
-/
import Espalier.Attributes

namespace Espalier.Attributes

theorem getElem?_assign (attributes : Attributes) (entries : List (String × String))
    (name : String) :
    (assign attributes entries)[name]? =
      (entries.reverse.lookup name).or attributes[name]? := by
  induction entries generalizing attributes with
  | nil => rfl
  | cons entry rest ih =>
      obtain ⟨key, value⟩ := entry
      rw [assign_cons, ih, List.reverse_cons, List.lookup_append, Option.or_assoc,
        Std.ExtTreeMap.getElem?_insert]
      congr 1
      by_cases hname : key = name
      · simp [hname]
      · have hbeq : (name == key) = false := beq_false_of_ne (Ne.symm hname)
        simp [hname, List.lookup_cons, hbeq]

/-- The last entry of a name counts. -/
theorem getElem?_ofEntries (entries : List (String × String)) (name : String) :
    (ofEntries entries)[name]? = entries.reverse.lookup name := by
  rw [ofEntries, getElem?_assign, Std.ExtTreeMap.getElem?_empty, Option.or_none]

/-- An entry in front of others is a default: it counts only if they have none of its
name. -/
theorem ofEntries_cons (name value : String) (entries : List (String × String)) :
    ofEntries ((name, value) :: entries) =
      if name ∈ ofEntries entries then ofEntries entries
      else (ofEntries entries).insert name value := by
  have hcons : ∀ other, (ofEntries ((name, value) :: entries))[other]? =
      (ofEntries entries)[other]?.or (if name = other then some value else none) := by
    intro other
    rw [ofEntries, assign_cons, getElem?_assign, getElem?_ofEntries,
      Std.ExtTreeMap.getElem?_insert, Std.ExtTreeMap.getElem?_empty]
    simp
  apply Std.ExtTreeMap.ext_getElem?
  intro other
  rw [hcons]
  by_cases hmem : name ∈ ofEntries entries
  · obtain ⟨own, hown⟩ := Option.isSome_iff_exists.mp
      (Std.ExtTreeMap.mem_iff_isSome_getElem?.mp hmem)
    rw [if_pos hmem]
    by_cases hname : name = other
    · rw [← hname, hown, Option.some_or]
    · rw [if_neg hname, Option.or_none]
  · have hnone : (ofEntries entries)[name]? = none := Std.ExtTreeMap.getElem?_eq_none hmem
    rw [if_neg hmem, Std.ExtTreeMap.getElem?_insert]
    by_cases hname : name = other
    · simp [← hname, hnone]
    · simp [hname]

/-- The entries of a map describe it in any order. -/
theorem ofEntries_of_perm {entries : List (String × String)} {attributes : Attributes}
    (h : entries.Perm attributes.toList) : ofEntries entries = attributes := by
  have hinsert : ofEntries entries = (∅ : Attributes).insertMany entries :=
    Std.ExtTreeMap.insertMany_list_eq_foldl.symm
  have hdistinct : entries.Pairwise fun first second => ¬ compare first.1 second.1 = .eq :=
    (Std.ExtTreeMap.distinct_keys_toList : attributes.toList.Pairwise _).perm h.symm
      fun hne heq => hne (Std.OrientedCmp.eq_symm heq)
  apply Std.ExtTreeMap.ext_getElem?
  intro name
  rw [hinsert]
  cases hname : attributes[name]? with
  | some value =>
      have hmem : (name, value) ∈ entries :=
        h.mem_iff.mpr (Std.ExtTreeMap.mem_toList_iff_getElem?_eq_some.mpr hname)
      exact Std.ExtTreeMap.getElem?_insertMany_list_of_mem Std.ReflCmp.compare_self hdistinct hmem
  | none =>
      have hnone : (entries.map Prod.fst).contains name = false := by
        rw [← Bool.not_eq_true, List.contains_iff_mem, List.mem_map]
        rintro ⟨⟨_, value⟩, hmem, rfl⟩
        have hsome := Std.ExtTreeMap.mem_toList_iff_getElem?_eq_some.mp (h.mem_iff.mp hmem)
        rw [hname] at hsome
        contradiction
      rw [Std.ExtTreeMap.getElem?_insertMany_list_of_contains_eq_false hnone,
        Std.ExtTreeMap.getElem?_empty]

/-! ### The entries of a map, in any order -/

theorem mem_toList_iff {attributes : Attributes} {entry : String × String} :
    entry ∈ attributes.toList ↔ attributes[entry.1]? = some entry.2 :=
  Std.ExtTreeMap.mem_toList_iff_getElem?_eq_some

theorem not_mem_toList_empty (entry : String × String) : entry ∉ (∅ : Attributes).toList := by
  rw [mem_toList_iff, Std.ExtTreeMap.getElem?_empty]
  exact Option.some_ne_none entry.2 ∘ Eq.symm

/-- What an overwritten map holds, the old map or an entry gave it. -/
theorem mem_or_mem_of_mem_assign {attributes : Attributes} {entries : List (String × String)}
    {entry : String × String} (h : entry ∈ (assign attributes entries).toList) :
    entry ∈ entries ∨ entry ∈ attributes.toList := by
  rw [mem_toList_iff, getElem?_assign, Option.or_eq_some_iff] at h
  rcases h with hlookup | ⟨-, hold⟩
  · obtain ⟨front, back, hsplit, -⟩ := List.lookup_eq_some_iff.mp hlookup
    left
    rw [← List.mem_reverse, hsplit]
    exact List.mem_append_right front List.mem_cons_self
  · exact .inr (mem_toList_iff.mpr hold)

theorem nodup_toList (attributes : Attributes) : attributes.toList.Nodup := by
  have hdistinct : attributes.toList.Pairwise fun first second =>
      ¬ compare first.1 second.1 = .eq := Std.ExtTreeMap.distinct_keys_toList
  apply hdistinct.imp
  rintro first second hne rfl
  exact hne Std.ReflCmp.compare_self

theorem lookup_reverse_of_perm {entries : List (String × String)} {attributes : Attributes}
    (h : entries.Perm attributes.toList) (name : String) :
    entries.reverse.lookup name = attributes[name]? := by
  rw [← getElem?_ofEntries, ofEntries_of_perm h]

theorem getElem?_assign_of_perm {entries : List (String × String)} {attributes : Attributes}
    (h : entries.Perm attributes.toList) (old : Attributes) (name : String) :
    (assign old entries)[name]? = attributes[name]?.or old[name]? := by
  rw [getElem?_assign, lookup_reverse_of_perm h]

/-- Leaving names out of some entries hides these names. -/
theorem lookup_filter (keep : String → Bool) (entries : List (String × String)) (name : String) :
    (entries.filter fun entry => keep entry.1).lookup name =
      if keep name then entries.lookup name else none := by
  induction entries with
  | nil => simp
  | cons entry entries ih =>
      obtain ⟨key, value⟩ := entry
      by_cases hname : name = key
      · subst hname
        cases hkeep : keep name with
        | false => simpa [hkeep] using ih
        | true => simp [hkeep]
      · have hbeq : (name == key) = false := beq_false_of_ne hname
        rw [List.filter_cons, List.lookup_cons, hbeq]
        split
        · rw [List.lookup_cons, hbeq, ih]
        · exact ih

/-- A map has at most one entry of a name. -/
theorem filter_name_of_perm {entries : List (String × String)} {attributes : Attributes}
    (h : entries.Perm attributes.toList) (name : String) :
    entries.filter (·.1 == name) = (attributes[name]?.map fun value => (name, value)).toList := by
  have hnodup : entries.Nodup := h.nodup_iff.mpr (nodup_toList attributes)
  have hmem : ∀ entry, entry ∈ entries.filter (·.1 == name) ↔
      entry.1 = name ∧ attributes[name]? = some entry.2 := by
    intro entry
    rw [List.mem_filter, h.mem_iff, mem_toList_iff, beq_iff_eq]
    constructor
    · rintro ⟨hvalue, rfl⟩
      exact ⟨rfl, hvalue⟩
    · rintro ⟨rfl, hvalue⟩
      exact ⟨hvalue, rfl⟩
  cases hname : attributes[name]? with
  | none =>
      apply List.eq_nil_iff_forall_not_mem.mpr
      intro entry hentry
      have hvalue := ((hmem entry).mp hentry).2
      rw [hname] at hvalue
      contradiction
  | some value =>
      apply List.perm_singleton.mp
      apply (List.perm_ext_iff_of_nodup (hnodup.filter _) (List.pairwise_singleton _ _)).mpr
      rintro ⟨key, other⟩
      rw [hmem, hname]
      simp [eq_comm]

theorem toList_ofEntries_singleton (entry : String × String) :
    (ofEntries [entry]).toList = [entry] := by
  obtain ⟨key, value⟩ := entry
  apply List.perm_singleton.mp
  apply (List.perm_ext_iff_of_nodup (nodup_toList _) (List.pairwise_singleton _ _)).mpr
  rintro ⟨name, other⟩
  rw [mem_toList_iff, getElem?_ofEntries, List.mem_singleton, List.reverse_singleton,
    List.lookup_cons]
  by_cases hname : name = key
  · simp [hname, eq_comm]
  · simp [hname, beq_false_of_ne hname]

end Espalier.Attributes
