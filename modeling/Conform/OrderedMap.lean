/-!
# Maps that remember the order of insertion

Objects, fields and members are read in the order in which they were written,
so a sorted or hashed map would lose information.  This module keeps a map from
strings as the list of its entries: a new key goes to the end, a known key keeps
its place and takes the new value.

## Main definitions

* `Entries`: the bare list of entries, with `get?`, `insert` and `erase`.
* `Entries.getThenInsert?`, `Entries.getThenErase?`: changes that hand out the old value.
* `OrderedMap`: entries whose keys are pairwise distinct.

## Main results

* `Entries.keys_insert`, `Entries.keys_erase`: what an operation does to the keys.
* `Entries.get?_insert`, `Entries.get?_erase`: what it does to the values.
-/

namespace Conform

universe u v

/-- Entries in the order in which they were written. -/
abbrev Entries (α : Type u) := List (String × α)

namespace Entries

variable {α : Type u} {β : Type v}

/-- The keys, in order. -/
def keys (entries : Entries α) : List String := entries.map Prod.fst

/-- The value of the first entry with the given key. -/
def get? : Entries α → String → Option α
  | [], _ => none
  | (name, value) :: rest, key => if name = key then some value else get? rest key

/-- Replaces the value of a known key in place; appends an unknown key. -/
def insert : Entries α → String → α → Entries α
  | [], key, value => [(key, value)]
  | (name, old) :: rest, key, value =>
    if name = key then (name, value) :: rest else (name, old) :: insert rest key value

/-- Removes the first entry with the given key. -/
def erase : Entries α → String → Entries α
  | [], _ => []
  | (name, value) :: rest, key => if name = key then rest else (name, value) :: erase rest key

/-- Inserts in one pass, and hands out the value that the key had. -/
def getThenInsert? : Entries α → String → α → Option α × Entries α
  | [], key, value => (none, [(key, value)])
  | (name, old) :: rest, key, value =>
    if name = key then (some old, (name, value) :: rest)
    else
      let (previous, entries) := getThenInsert? rest key value
      (previous, (name, old) :: entries)

/-- Erases in one pass, and hands out the value that the key had. -/
def getThenErase? : Entries α → String → Option α × Entries α
  | [], _ => (none, [])
  | (name, value) :: rest, key =>
    if name = key then (some value, rest)
    else
      let (erased, entries) := getThenErase? rest key
      (erased, (name, value) :: entries)

/-- Whether some entry has the given key. -/
def contains (entries : Entries α) (key : String) : Bool := (entries.get? key).isSome

/-- Inserts the pairs one after the other: a repeated key keeps the place of its
first pair and takes the value of its last. -/
def collect (pairs : List (String × α)) : Entries α :=
  pairs.foldl (fun entries pair => entries.insert pair.1 pair.2) []

/-- Applies a function to every value. -/
def mapValues (f : α → β) (entries : Entries α) : Entries β :=
  entries.map fun entry => (entry.1, f entry.2)

@[simp] theorem keys_nil : keys ([] : Entries α) = [] := rfl

@[simp] theorem keys_cons (entry : String × α) (rest : Entries α) :
    keys (entry :: rest) = entry.1 :: keys rest := rfl

@[simp] theorem keys_mapValues (f : α → β) (entries : Entries α) :
    keys (mapValues f entries) = keys entries := by
  simp [keys, mapValues]

@[simp] theorem get?_nil (key : String) : get? ([] : Entries α) key = none := rfl

/-- A key is present exactly when it is listed. -/
theorem isSome_get?_iff (entries : Entries α) (key : String) :
    (entries.get? key).isSome ↔ key ∈ entries.keys := by
  induction entries with
  | nil => simp
  | cons entry rest ih =>
    by_cases h : entry.1 = key
    · simp [get?, h]
    · simp [get?, h, ih, Ne.symm h]

theorem mem_keys_iff_exists (entries : Entries α) (key : String) :
    key ∈ entries.keys ↔ ∃ value, entries.get? key = some value := by
  rw [← isSome_get?_iff, Option.isSome_iff_exists]

/-- A known key leaves the keys as they are; a new one goes to the end. -/
theorem keys_insert (entries : Entries α) (key : String) (value : α) :
    (entries.insert key value).keys =
      if key ∈ entries.keys then entries.keys else entries.keys ++ [key] := by
  induction entries with
  | nil => simp [insert]
  | cons entry rest ih =>
    by_cases h : entry.1 = key
    · simp [insert, h]
    · by_cases hk : key ∈ keys rest
      · simp [insert, h, ih, hk]
      · simp [insert, h, ih, hk, Ne.symm h]

/-- Inserting changes the value of one key. -/
theorem get?_insert (entries : Entries α) (key : String) (value : α) (other : String) :
    (entries.insert key value).get? other =
      if key = other then some value else entries.get? other := by
  induction entries with
  | nil => simp [insert, get?]
  | cons entry rest ih =>
    by_cases h : entry.1 = key
    · by_cases ho : key = other <;> simp [insert, get?, h, ho]
    · by_cases ho : entry.1 = other
      · subst ho
        simp [insert, get?, h, Ne.symm h]
      · simp [insert, get?, h, ho, ih]

/-- The value of a key is that of an entry. -/
theorem mem_of_get? {entries : Entries α} {key : String} {value : α}
    (h : entries.get? key = some value) : (key, value) ∈ entries := by
  induction entries with
  | nil => cases h
  | cons entry rest ih =>
    by_cases hk : entry.1 = key
    · simp only [get?, hk, if_true] at h
      obtain rfl := Option.some.inj h
      exact hk ▸ List.mem_cons_self ..
    · simp only [get?, hk, if_false] at h
      exact List.mem_cons_of_mem _ (ih h)

/-- Where keys are distinct every entry gives the value of its key. -/
theorem get?_of_mem {entries : Entries α} (distinct : entries.keys.Nodup) {key : String}
    {value : α} (h : (key, value) ∈ entries) : entries.get? key = some value := by
  induction entries with
  | nil => cases h
  | cons entry rest ih =>
    obtain ⟨hnew, hrest⟩ := List.nodup_cons.1 distinct
    rcases List.mem_cons.1 h with rfl | h
    · simp [get?]
    · have hne : entry.1 ≠ key := fun heq => hnew (heq ▸ List.mem_map_of_mem h)
      simp only [get?, hne, if_false]
      exact ih hrest h

/-- Inserting the value that a key has changes nothing. -/
theorem insert_self {entries : Entries α} {key : String} {value : α}
    (h : entries.get? key = some value) : entries.insert key value = entries := by
  induction entries with
  | nil => cases h
  | cons entry rest ih =>
    by_cases hk : entry.1 = key
    · simp only [get?, hk, if_true] at h
      obtain rfl := Option.some.inj h
      obtain rfl := hk
      simp [insert]
    · simp only [get?, hk, if_false] at h
      simp [insert, hk, ih h]

/-- The keys after a removal. -/
theorem keys_erase (entries : Entries α) (key : String) :
    (entries.erase key).keys = entries.keys.erase key := by
  induction entries with
  | nil => rfl
  | cons entry rest ih =>
    by_cases h : entry.1 = key
    · simp [erase, h]
    · simp [erase, h, ih]

/-- A removed key is gone from distinct keys; the others keep their values. -/
theorem get?_erase {entries : Entries α} (distinct : entries.keys.Nodup) (key other : String) :
    (entries.erase key).get? other = if key = other then none else entries.get? other := by
  induction entries with
  | nil => simp [erase]
  | cons entry rest ih =>
    obtain ⟨hfresh, hrest⟩ := List.nodup_cons.1 distinct
    by_cases h : entry.1 = key
    · by_cases ho : key = other
      · have : get? rest other = none := by
          rw [← Option.not_isSome_iff_eq_none, isSome_get?_iff, ← ho, ← h]
          exact hfresh
        simp [erase, h, ho, this]
      · simp [erase, get?, h, ho]
    · by_cases ho : entry.1 = other
      · subst ho
        simp [erase, get?, h, Ne.symm h]
      · simp [erase, get?, h, ho, ih hrest]

/-- One pass does what reading and inserting do. -/
theorem getThenInsert?_eq (entries : Entries α) (key : String) (value : α) :
    entries.getThenInsert? key value = (entries.get? key, entries.insert key value) := by
  induction entries with
  | nil => rfl
  | cons entry rest ih =>
    by_cases h : entry.1 = key
    · simp [getThenInsert?, get?, insert, h]
    · simp [getThenInsert?, get?, insert, h, ih]

/-- One pass does what reading and erasing do. -/
theorem getThenErase?_eq (entries : Entries α) (key : String) :
    entries.getThenErase? key = (entries.get? key, entries.erase key) := by
  induction entries with
  | nil => rfl
  | cons entry rest ih =>
    by_cases h : entry.1 = key
    · simp [getThenErase?, get?, erase, h]
    · simp [getThenErase?, get?, erase, h, ih]

/-- Inserting keeps the keys distinct. -/
theorem nodup_keys_insert {entries : Entries α} (distinct : entries.keys.Nodup) (key : String)
    (value : α) : (entries.insert key value).keys.Nodup := by
  rw [keys_insert]
  split
  · exact distinct
  · rename_i fresh
    rw [List.nodup_append]
    refine ⟨distinct, by simp, ?_⟩
    rintro a ha b hb rfl
    exact fresh (List.mem_singleton.1 hb ▸ ha)

/-- Removing keeps the keys distinct. -/
theorem nodup_keys_erase {entries : Entries α} (distinct : entries.keys.Nodup) (key : String) :
    (entries.erase key).keys.Nodup := by
  rw [keys_erase]
  exact distinct.erase key

/-- Collected entries have distinct keys. -/
theorem nodup_keys_collect (pairs : List (String × α)) : (collect pairs).keys.Nodup := by
  suffices ∀ (entries : Entries α), entries.keys.Nodup →
      (pairs.foldl (fun entries pair => entries.insert pair.1 pair.2) entries).keys.Nodup from
    this [] List.nodup_nil
  induction pairs with
  | nil => exact fun _ h => h
  | cons pair rest ih => exact fun entries h => ih _ (nodup_keys_insert h pair.1 pair.2)

end Entries

/-- Entries with pairwise distinct keys. -/
structure OrderedMap (α : Type u) where
  /-- The entries, in the order in which their keys were first inserted. -/
  entries : Entries α
  /-- No key occurs twice. -/
  nodup : entries.keys.Nodup

namespace OrderedMap

variable {α : Type u} {β : Type v}

/-- The map without entries. -/
def empty : OrderedMap α := ⟨[], List.nodup_nil⟩

instance : Inhabited (OrderedMap α) := ⟨empty⟩

/-- The keys, in order. -/
def keys (map : OrderedMap α) : List String := map.entries.keys

/-- The number of entries. -/
def size (map : OrderedMap α) : Nat := map.entries.length

/-- Whether there is no entry. -/
def isEmpty (map : OrderedMap α) : Bool := map.entries.isEmpty

/-- The value of a key. -/
def get? (map : OrderedMap α) (key : String) : Option α := map.entries.get? key

/-- Whether a key is present. -/
def contains (map : OrderedMap α) (key : String) : Bool := map.entries.contains key

/-- Gives a key a value, keeping the key's place when it is known. -/
def insert (map : OrderedMap α) (key : String) (value : α) : OrderedMap α :=
  ⟨map.entries.insert key value, Entries.nodup_keys_insert map.nodup key value⟩

/-- Removes a key. -/
def erase (map : OrderedMap α) (key : String) : OrderedMap α :=
  ⟨map.entries.erase key, Entries.nodup_keys_erase map.nodup key⟩

/-- Inserts, and hands out the value that the key had. -/
def getThenInsert? (map : OrderedMap α) (key : String) (value : α) : Option α × OrderedMap α :=
  let result := map.entries.getThenInsert? key value
  (result.1, ⟨result.2, by
    simpa only [result, Entries.getThenInsert?_eq] using
      Entries.nodup_keys_insert map.nodup key value⟩)

/-- Erases, and hands out the value that the key had. -/
def getThenErase? (map : OrderedMap α) (key : String) : Option α × OrderedMap α :=
  let result := map.entries.getThenErase? key
  (result.1, ⟨result.2, by
    simpa only [result, Entries.getThenErase?_eq] using Entries.nodup_keys_erase map.nodup key⟩)

/-- The map of the given pairs, inserted one after the other. -/
def ofList (pairs : List (String × α)) : OrderedMap α :=
  ⟨Entries.collect pairs, Entries.nodup_keys_collect pairs⟩

/-- Applies a function to every value. -/
def mapValues (f : α → β) (map : OrderedMap α) : OrderedMap β :=
  ⟨Entries.mapValues f map.entries, by rw [Entries.keys_mapValues]; exact map.nodup⟩

theorem keys_insert (map : OrderedMap α) (key : String) (value : α) :
    (map.insert key value).keys = if key ∈ map.keys then map.keys else map.keys ++ [key] :=
  Entries.keys_insert _ _ _

theorem get?_insert (map : OrderedMap α) (key : String) (value : α) (other : String) :
    (map.insert key value).get? other = if key = other then some value else map.get? other :=
  Entries.get?_insert _ _ _ _

theorem insert_self {map : OrderedMap α} {key : String} {value : α}
    (h : map.get? key = some value) : map.insert key value = map := by
  obtain ⟨entries, nodup⟩ := map
  simp only [insert, Entries.insert_self h]

theorem mem_of_get? {map : OrderedMap α} {key : String} {value : α}
    (h : map.get? key = some value) : (key, value) ∈ map.entries :=
  Entries.mem_of_get? h

theorem get?_of_mem {map : OrderedMap α} {key : String} {value : α}
    (h : (key, value) ∈ map.entries) : map.get? key = some value :=
  Entries.get?_of_mem map.nodup h

theorem keys_erase (map : OrderedMap α) (key : String) :
    (map.erase key).keys = map.keys.erase key :=
  Entries.keys_erase _ _

theorem get?_erase (map : OrderedMap α) (key other : String) :
    (map.erase key).get? other = if key = other then none else map.get? other :=
  Entries.get?_erase map.nodup _ _

theorem getThenInsert?_eq (map : OrderedMap α) (key : String) (value : α) :
    map.getThenInsert? key value = (map.get? key, map.insert key value) := by
  simp only [getThenInsert?, Entries.getThenInsert?_eq, get?, insert]

theorem getThenErase?_eq (map : OrderedMap α) (key : String) :
    map.getThenErase? key = (map.get? key, map.erase key) := by
  simp only [getThenErase?, Entries.getThenErase?_eq, get?, erase]

end OrderedMap

end Conform
