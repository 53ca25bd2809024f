import Coinage.Text

namespace Coinage

-- A finite map from characters. The entries stand in the order of their code
-- points, each character once, so equal maps are equal as values.
structure Table (α : Type) where
  entries : List (Char × α)
  ascending : entries.Pairwise fun first second => first.1 < second.1
deriving DecidableEq

namespace Table

variable {α : Type}

def empty : Table α :=
  ⟨[], .nil⟩

-- Puts an entry in its place. An entry for the same character gives way.
def insertEntry (c : Char) (value : α) : List (Char × α) → List (Char × α)
  | [] => [(c, value)]
  | (d, other) :: rest =>
    if c < d then
      (c, value) :: (d, other) :: rest
    else if d < c then
      (d, other) :: insertEntry c value rest
    else
      (c, value) :: rest

theorem mem_insertEntry {c : Char} {value : α} {entries : List (Char × α)} {entry : Char × α}
    (h : entry ∈ insertEntry c value entries) : entry = (c, value) ∨ entry ∈ entries := by
  induction entries with
  | nil => simpa [insertEntry] using h
  | cons head rest ih =>
    simp only [insertEntry] at h
    split at h
    · simpa using h
    · split at h
      · rcases List.mem_cons.mp h with hhead | hrest
        · simp [hhead]
        · rcases ih hrest with hnew | hold
          · exact .inl hnew
          · exact .inr (List.mem_cons_of_mem _ hold)
      · rcases List.mem_cons.mp h with hnew | hrest
        · exact .inl hnew
        · exact .inr (List.mem_cons_of_mem _ hrest)

theorem pairwise_insertEntry (c : Char) (value : α) {entries : List (Char × α)}
    (h : entries.Pairwise fun first second => first.1 < second.1) :
    (insertEntry c value entries).Pairwise fun first second => first.1 < second.1 := by
  induction entries with
  | nil => simp [insertEntry]
  | cons head rest ih =>
    have hrest := List.pairwise_cons.mp h
    simp only [insertEntry]
    split
    · rename_i hlt
      refine List.pairwise_cons.mpr ⟨fun entry he => ?_, h⟩
      rcases List.mem_cons.mp he with rfl | hmem
      · exact hlt
      · exact Char.lt_trans hlt (hrest.1 entry hmem)
    · split
      · rename_i hlt
        refine List.pairwise_cons.mpr ⟨fun entry he => ?_, ih hrest.2⟩
        rcases mem_insertEntry he with rfl | hmem
        · exact hlt
        · exact hrest.1 entry hmem
      · rename_i hnlt hngt
        have heq : c = head.1 := Char.le_antisymm (Char.not_lt.mp hngt) (Char.not_lt.mp hnlt)
        exact List.pairwise_cons.mpr ⟨fun entry he => heq ▸ hrest.1 entry he, hrest.2⟩

def insert (table : Table α) (c : Char) (value : α) : Table α :=
  ⟨insertEntry c value table.entries, pairwise_insertEntry c value table.ascending⟩

def erase (table : Table α) (c : Char) : Table α :=
  ⟨table.entries.filter (·.1 != c), table.ascending.filter _⟩

def get? (table : Table α) (c : Char) : Option α :=
  table.entries.lookup c

-- The characters with an entry, in order.
def keys (table : Table α) : Text :=
  table.entries.map Prod.fst

def ofList (entries : List (Char × α)) : Table α :=
  entries.foldl (fun table entry => table.insert entry.1 entry.2) empty

end Table

end Coinage
