import Coinage.Table
import Mathlib.Data.List.Sort

namespace Coinage

-- Lists in the order of different characters are equal if they have the same entries.
theorem eq_of_mem_iff {α : Type} {key : α → Char} {first second : List α}
    (hfirst : first.Pairwise fun entry later => key entry < key later)
    (hsecond : second.Pairwise fun entry later => key entry < key later)
    (h : ∀ entry, entry ∈ first ↔ entry ∈ second) : first = second := by
  have hirrefl : Std.Irrefl fun entry later : α => key entry < key later :=
    ⟨fun entry => Char.lt_irrefl (key entry)⟩
  have hantisymm : Std.Antisymm fun entry later : α => key entry < key later :=
    ⟨fun _ _ hlt hgt => absurd hgt (Char.lt_asymm hlt)⟩
  exact hfirst.eq_of_mem_iff hsecond h

namespace Table

variable {α : Type}

theorem lookup_cons (c d : Char) (value : α) (rest : List (Char × α)) :
    ((c, value) :: rest).lookup d = if d = c then some value else rest.lookup d := by
  rw [List.lookup_cons]
  by_cases hd : d = c
  · simp [hd]
  · rw [if_neg hd, beq_false_of_ne hd]

theorem lookup_insertEntry (c d : Char) (value : α) (entries : List (Char × α)) :
    (insertEntry c value entries).lookup d = if d = c then some value else entries.lookup d := by
  induction entries with
  | nil => exact lookup_cons c d value []
  | cons entry rest ih =>
    obtain ⟨e, other⟩ := entry
    rw [insertEntry]
    split
    · exact lookup_cons c d value _
    split
    · rename_i _ hlt
      have hne : e ≠ c := Char.ne_of_lt hlt
      rw [lookup_cons, lookup_cons, ih]
      by_cases hd : d = e
      · rw [if_pos hd, if_pos hd, if_neg (hd ▸ hne)]
      · rw [if_neg hd, if_neg hd]
    · rename_i hnlt hngt
      obtain rfl : c = e := Char.le_antisymm (Char.not_lt.mp hngt) (Char.not_lt.mp hnlt)
      rw [lookup_cons, lookup_cons]
      by_cases hd : d = c
      · rw [if_pos hd, if_pos hd]
      · rw [if_neg hd, if_neg hd, if_neg hd]

@[simp] theorem get?_insert (table : Table α) (c d : Char) (value : α) :
    (table.insert c value).get? d = if d = c then some value else table.get? d :=
  lookup_insertEntry c d value table.entries

theorem lookup_filter_ne (c d : Char) (entries : List (Char × α)) :
    (entries.filter (·.1 != c)).lookup d = if d = c then none else entries.lookup d := by
  induction entries with
  | nil => simp
  | cons entry rest ih =>
    obtain ⟨e, value⟩ := entry
    by_cases he : e = c
    · rw [List.filter_cons_of_neg (by simp [he]), ih, lookup_cons]
      by_cases hd : d = c
      · rw [if_pos hd, if_pos hd]
      · rw [if_neg hd, if_neg hd, if_neg (he ▸ hd)]
    · rw [List.filter_cons_of_pos (by simp [he]), lookup_cons, lookup_cons, ih]
      by_cases hd : d = e
      · rw [if_pos hd, if_pos hd, if_neg (hd ▸ he)]
      · rw [if_neg hd, if_neg hd]

@[simp] theorem get?_erase (table : Table α) (c d : Char) :
    (table.erase c).get? d = if d = c then none else table.get? d :=
  lookup_filter_ne c d table.entries

theorem mem_iff_lookup {c : Char} {value : α} {entries : List (Char × α)}
    (h : entries.Pairwise fun first second => first.1 < second.1) :
    (c, value) ∈ entries ↔ entries.lookup c = some value := by
  induction entries with
  | nil => simp
  | cons entry rest ih =>
    obtain ⟨d, other⟩ := entry
    obtain ⟨hhead, hrest⟩ := List.pairwise_cons.mp h
    rw [lookup_cons, List.mem_cons, ih hrest, Prod.mk.injEq]
    by_cases hc : c = d
    · have hnone : rest.lookup c ≠ some value := by
        intro hsome
        have hlt := hhead _ ((ih hrest).mpr hsome)
        exact Char.lt_irrefl _ (hc ▸ hlt)
      rw [if_pos hc, Option.some.injEq]
      constructor
      · rintro (⟨-, rfl⟩ | hsome)
        · rfl
        · exact absurd hsome hnone
      · rintro rfl
        exact .inl ⟨hc, rfl⟩
    · simp [hc]

theorem mem_entries {table : Table α} {c : Char} {value : α} :
    (c, value) ∈ table.entries ↔ table.get? c = some value :=
  mem_iff_lookup table.ascending

theorem mem_keys {table : Table α} {c : Char} :
    c ∈ table.keys ↔ ∃ value, table.get? c = some value := by
  simp [keys, mem_entries]

-- A table is known by what it holds at each character.
theorem ext_get? {first second : Table α} (h : ∀ c, first.get? c = second.get? c) :
    first = second := by
  have hentries : first.entries = second.entries := by
    refine eq_of_mem_iff first.ascending second.ascending fun ⟨c, value⟩ => ?_
    rw [mem_entries, mem_entries, h]
  cases first
  cases second
  cases hentries
  rfl

theorem mem_keys_foldl_insert {c : Char} {entries : List (Char × α)} {table : Table α} :
    c ∈ (entries.foldl (fun table entry => table.insert entry.1 entry.2) table).keys ↔
      c ∈ entries.map Prod.fst ∨ c ∈ table.keys := by
  induction entries generalizing table with
  | nil => simp
  | cons entry rest ih =>
    have hinsert : c ∈ (table.insert entry.1 entry.2).keys ↔ c = entry.1 ∨ c ∈ table.keys := by
      rw [mem_keys, mem_keys, get?_insert]
      by_cases hc : c = entry.1 <;> simp [hc]
    rw [List.foldl_cons, ih, hinsert, List.map_cons, List.mem_cons, or_left_comm, or_assoc]

theorem mem_keys_ofList {c : Char} {entries : List (Char × α)} :
    c ∈ (ofList entries).keys ↔ c ∈ entries.map Prod.fst := by
  rw [ofList, mem_keys_foldl_insert]
  exact or_iff_left List.not_mem_nil

-- What is found first among the keys is the smallest of its kind.
theorem le_of_find?_keys {table : Table α} {condition : Char → Bool} {c d : Char}
    (h : table.keys.find? condition = some c) (hd : d ∈ table.keys) (hcondition : condition d) :
    c ≤ d := by
  obtain ⟨-, before, after, hkeys, hbefore⟩ := List.find?_eq_some_iff_append.mp h
  have hascending : table.keys.Pairwise (· < ·) := List.pairwise_map.mpr table.ascending
  rw [hkeys] at hd hascending
  obtain ⟨-, hrest, -⟩ := List.pairwise_append.mp hascending
  rcases List.mem_append.mp hd with hd | hd
  · have hnot := hbefore d hd
    rw [hcondition] at hnot
    cases hnot
  · rcases List.mem_cons.mp hd with rfl | hd
    · exact Char.le_refl d
    · exact Char.not_lt.mp (Char.lt_asymm ((List.pairwise_cons.mp hrest).1 d hd))

theorem lookup_eq_none {c : Char} {entries : List (Char × α)} (h : ∀ entry ∈ entries, c < entry.1) :
    entries.lookup c = none := by
  refine List.lookup_eq_none_iff.mpr fun entry he => ?_
  simpa using Char.ne_of_lt (h entry he)

theorem get?_foldl_insert {entries : List (Char × α)}
    (h : entries.Pairwise fun first second => first.1 < second.1) (table : Table α) (c : Char) :
    (entries.foldl (fun table entry => table.insert entry.1 entry.2) table).get? c =
      (entries.lookup c).or (table.get? c) := by
  induction entries generalizing table with
  | nil => rfl
  | cons entry rest ih =>
    obtain ⟨d, value⟩ := entry
    obtain ⟨hhead, hrest⟩ := List.pairwise_cons.mp h
    rw [List.foldl_cons, ih hrest, get?_insert, lookup_cons]
    by_cases hc : c = d
    · rw [if_pos hc, if_pos hc, lookup_eq_none (hc ▸ hhead)]
      rfl
    · rw [if_neg hc, if_neg hc]

-- A table is made again from its entries.
theorem ofList_entries (table : Table α) : ofList table.entries = table := by
  refine ext_get? fun c => ?_
  rw [ofList, get?_foldl_insert table.ascending]
  exact Option.or_none

end Table

end Coinage
