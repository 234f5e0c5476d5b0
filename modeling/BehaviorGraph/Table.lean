/-
# Finite tables

A table maps finitely many keys to values and lists its entries in the order in which they were last
inserted: **inserting a key again moves it to the end**.  Most tables here are read by key only; the
option tables of passes are also shown in order.
-/
namespace BehaviorGraph

/-- A finite map whose entries are listed in order of insertion. -/
structure Table (κ ν : Type) where
  entries : List (κ × ν)
deriving DecidableEq

namespace Table

variable {κ ν : Type} [DecidableEq κ]

/-- The table without entries. -/
def empty : Table κ ν := ⟨[]⟩

/-- The value of a key. -/
def get? (table : Table κ ν) (key : κ) : Option ν :=
  (table.entries.find? fun entry => decide (entry.1 = key)).map Prod.snd

/-- Whether a key has a value. -/
def contains (table : Table κ ν) (key : κ) : Bool := (table.get? key).isSome

/-- Forget a key. -/
def erase (table : Table κ ν) (key : κ) : Table κ ν :=
  ⟨table.entries.filter fun entry => !decide (entry.1 = key)⟩

/-- Give a key a value; its entry is then the last. -/
def insert (table : Table κ ν) (key : κ) (value : ν) : Table κ ν :=
  ⟨(table.erase key).entries ++ [(key, value)]⟩

/-- The table of a list of pairs, of which later ones win. -/
def ofList (pairs : List (κ × ν)) : Table κ ν :=
  pairs.foldl (fun table pair => table.insert pair.1 pair.2) empty

/-- Change every value. -/
def mapValues (table : Table κ ν) (f : ν → ν) : Table κ ν :=
  ⟨table.entries.map fun entry => (entry.1, f entry.2)⟩

/-- The number of entries. -/
def size (table : Table κ ν) : Nat := table.entries.length

def isEmpty (table : Table κ ν) : Bool := table.entries.isEmpty

/-! ## Reading back what was written -/

theorem get?_empty (key : κ) : (empty : Table κ ν).get? key = none := rfl

/-- A key that was forgotten has no value. -/
theorem get?_erase_self (table : Table κ ν) (key : κ) : (table.erase key).get? key = none := by
  simp [get?, erase]

/-- Forgetting a key leaves the others alone. -/
theorem get?_erase_of_ne (table : Table κ ν) {key other : κ} (h : other ≠ key) :
    (table.erase key).get? other = table.get? other := by
  simp only [get?, erase, List.find?_filter]
  congr 2
  funext entry
  by_cases hentry : entry.1 = other
  · simp [hentry, h]
  · simp [hentry]

/-- **The value that was given last counts.** -/
theorem get?_insert_self (table : Table κ ν) (key : κ) (value : ν) :
    (table.insert key value).get? key = some value := by
  have hnone : (table.erase key).entries.find? (fun entry => decide (entry.1 = key)) = none := by
    simpa [get?] using table.get?_erase_self key
  simp [get?, insert, List.find?_append, hnone]

/-- Giving a key a value leaves the others alone. -/
theorem get?_insert_of_ne (table : Table κ ν) {key other : κ} (value : ν) (h : other ≠ key) :
    (table.insert key value).get? other = table.get? other := by
  have hlast : ([(key, value)] : List (κ × ν)).find? (fun entry => decide (entry.1 = other))
      = none :=
    by simp [Ne.symm h]
  rw [← table.get?_erase_of_ne h]
  simp [get?, insert, List.find?_append, hlast]

/-! ## Entries -/

theorem mem_erase_iff {table : Table κ ν} {key : κ} {entry : κ × ν} :
    entry ∈ (table.erase key).entries ↔ entry ∈ table.entries ∧ entry.1 ≠ key := by
  simp [erase]

theorem mem_insert_iff {table : Table κ ν} {key : κ} {value : ν} {entry : κ × ν} :
    entry ∈ (table.insert key value).entries
      ↔ (entry ∈ table.entries ∧ entry.1 ≠ key) ∨ entry = (key, value) := by
  rw [← mem_erase_iff, insert, List.mem_append, List.mem_singleton]

/-- No key has two entries. -/
def UniqueKeys (table : Table κ ν) : Prop := (table.entries.map Prod.fst).Nodup

omit [DecidableEq κ] in
theorem uniqueKeys_empty : (empty : Table κ ν).UniqueKeys := List.nodup_nil

theorem UniqueKeys.erase {table : Table κ ν} (h : table.UniqueKeys) (key : κ) :
    (table.erase key).UniqueKeys :=
  (List.filter_sublist.map Prod.fst).nodup h

/-- Inserting makes room first, so a key keeps one entry. -/
theorem UniqueKeys.insert {table : Table κ ν} (h : table.UniqueKeys) (key : κ) (value : ν) :
    (table.insert key value).UniqueKeys := by
  unfold UniqueKeys Table.insert
  rw [List.map_append, List.map_singleton]
  refine List.nodup_append.mpr ⟨h.erase key, by simp, ?_⟩
  intro a ha b hb
  obtain ⟨entry, hentry, rfl⟩ := List.mem_map.mp ha
  rw [List.mem_singleton.mp hb]
  exact (mem_erase_iff.mp hentry).2

/-- A value that is found stands in an entry. -/
theorem mem_entries_of_get? {table : Table κ ν} {key : κ} {value : ν}
    (h : table.get? key = some value) :
    (key, value) ∈ table.entries := by
  obtain ⟨entry, hfound, rfl⟩ := Option.map_eq_some_iff.mp h
  have hkey : entry.1 = key := by simpa using List.find?_some hfound
  exact hkey ▸ List.mem_of_find?_eq_some hfound

/-- Where keys have one entry each, **the value of a key is the one its entry says**. -/
theorem UniqueKeys.get?_eq_some_iff {table : Table κ ν} (h : table.UniqueKeys) {key : κ}
    {value : ν} : table.get? key = some value ↔ (key, value) ∈ table.entries := by
  obtain ⟨entries⟩ := table
  unfold UniqueKeys at h
  unfold get?
  induction entries with
  | nil => simp
  | cons entry entries ih =>
    obtain ⟨first, second⟩ := entry
    rw [List.map_cons, List.nodup_cons] at h
    have ih := ih h.2
    by_cases hkey : first = key
    · subst hkey
      have hrest : (first, value) ∉ entries := fun hmem =>
        h.1 (List.mem_map.mpr ⟨(first, value), hmem, rfl⟩)
      simp [hrest, eq_comm]
    · simpa [hkey, Ne.symm hkey] using ih

end Table

end BehaviorGraph
