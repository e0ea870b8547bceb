/-!
# Maps from names to values, in name order

A `NameMap α` is a finite map whose keys are texts. Its entries are kept in strictly increasing
order of their keys, which is the order in which every listing of the library shows them, so two
maps with the same look-ups are the same value (`NameMap.ext_get?`). Texts are compared character
by character, by code point.
-/

namespace ApiDoc

/-- Entries in strictly increasing order of their keys. -/
abbrev InKeyOrder {α : Type} (entries : List (String × α)) : Prop :=
  entries.Pairwise fun a b => a.1 < b.1

/-- A finite map from texts to values, listed in key order. -/
structure NameMap (α : Type) where
  entries : List (String × α)
  sorted : InKeyOrder entries

namespace NameMap

variable {α β : Type}

@[ext] theorem ext {m n : NameMap α} (h : m.entries = n.entries) : m = n := by
  cases m
  cases n
  simp_all

instance [DecidableEq α] : DecidableEq (NameMap α) := fun m n =>
  if h : m.entries = n.entries then isTrue (ext h)
  else isFalse fun e => h (e ▸ rfl)

def empty : NameMap α := ⟨[], List.Pairwise.nil⟩

instance : Inhabited (NameMap α) := ⟨empty⟩

instance : EmptyCollection (NameMap α) := ⟨empty⟩

/-! ### Look-up -/

/-- The value of the first entry with the key. -/
def lookupIn (key : String) : List (String × α) → Option α
  | [] => none
  | (k, v) :: rest => if k = key then some v else lookupIn key rest

def get? (m : NameMap α) (key : String) : Option α := lookupIn key m.entries

def contains (m : NameMap α) (key : String) : Bool := (m.get? key).isSome

def keys (m : NameMap α) : List String := m.entries.map Prod.fst

def values (m : NameMap α) : List α := m.entries.map Prod.snd

def size (m : NameMap α) : Nat := m.entries.length

def isEmpty (m : NameMap α) : Bool := m.entries.isEmpty

/-! ### Writing one entry -/

/-- The entries with one set: put at its place, or replacing the value under its key. -/
def insertIn (key : String) (value : α) : List (String × α) → List (String × α)
  | [] => [(key, value)]
  | (k, v) :: rest =>
    if key < k then (key, value) :: (k, v) :: rest
    else if k = key then (key, value) :: rest
    else (k, v) :: insertIn key value rest

theorem mem_insertIn {key : String} {value : α} {entries : List (String × α)} {e : String × α}
    (h : e ∈ insertIn key value entries) : e = (key, value) ∨ e ∈ entries := by
  induction entries with
  | nil => simpa [insertIn] using h
  | cons head rest ih =>
    obtain ⟨k, v⟩ := head
    rw [insertIn] at h
    split at h
    · simpa using h
    · split at h
      · rcases List.mem_cons.mp h with h | h
        · exact .inl h
        · exact .inr (List.mem_cons_of_mem _ h)
      · rcases List.mem_cons.mp h with h | h
        · exact .inr (h ▸ List.mem_cons_self)
        · exact (ih h).imp_right (List.mem_cons_of_mem _)

theorem sorted_insertIn (key : String) (value : α) {entries : List (String × α)}
    (h : InKeyOrder entries) : InKeyOrder (insertIn key value entries) := by
  induction entries with
  | nil => simp [insertIn, InKeyOrder]
  | cons head rest ih =>
    obtain ⟨k, v⟩ := head
    obtain ⟨hhead, hrest⟩ := List.pairwise_cons.mp h
    rw [insertIn]
    split
    · next hlt =>
      refine List.pairwise_cons.mpr ⟨fun e he => ?_, h⟩
      rcases List.mem_cons.mp he with rfl | he
      · exact hlt
      · exact String.lt_trans hlt (hhead e he)
    · next hlt =>
      split
      · next heq =>
        subst heq
        exact List.pairwise_cons.mpr ⟨fun e he => hhead e he, hrest⟩
      · next hne =>
        refine List.pairwise_cons.mpr ⟨fun e he => ?_, ih hrest⟩
        rcases mem_insertIn he with rfl | he
        · have hle : k ≤ key := String.not_lt.mp hlt
          by_cases hkk : k < key
          · exact hkk
          · exact absurd (String.le_antisymm hle (String.not_lt.mp hkk)) hne
        · exact hhead e he

def insert (m : NameMap α) (key : String) (value : α) : NameMap α :=
  ⟨insertIn key value m.entries, sorted_insertIn key value m.sorted⟩

def erase (m : NameMap α) (key : String) : NameMap α :=
  ⟨m.entries.filter fun e => e.1 ≠ key, m.sorted.filter _⟩

/-! ### Working on all entries -/

def mapEntries (f : String → α → β) (m : NameMap α) : NameMap β :=
  ⟨m.entries.map fun e => (e.1, f e.1 e.2), m.sorted.map _ fun _ _ h => h⟩

def map (f : α → β) (m : NameMap α) : NameMap β := m.mapEntries fun _ v => f v

/-- The map with a function applied to the value under a key; unchanged if the key is absent. -/
def modify (m : NameMap α) (key : String) (f : α → α) : NameMap α :=
  m.mapEntries fun k v => if k = key then f v else v

def filter (keep : String → α → Bool) (m : NameMap α) : NameMap α :=
  ⟨m.entries.filter fun e => keep e.1 e.2, m.sorted.filter _⟩

/-- The map of a list of entries; of two with one key the later counts. -/
def ofList (entries : List (String × α)) : NameMap α :=
  entries.foldl (fun m e => m.insert e.1 e.2) empty

/-! ### How each operation shows in a look-up -/

@[simp] theorem get?_empty (key : String) : (empty : NameMap α).get? key = none := rfl

theorem lookupIn_insertIn_self (key : String) (value : α) (entries : List (String × α)) :
    lookupIn key (insertIn key value entries) = some value := by
  induction entries with
  | nil => simp [insertIn, lookupIn]
  | cons head rest ih =>
    obtain ⟨k, v⟩ := head
    rw [insertIn]
    split
    · simp [lookupIn]
    · split
      · simp [lookupIn]
      · next hne => simp [lookupIn, hne, ih]

theorem lookupIn_insertIn_of_ne {key other : String} (h : key ≠ other) (value : α)
    (entries : List (String × α)) :
    lookupIn other (insertIn key value entries) = lookupIn other entries := by
  induction entries with
  | nil => simp [insertIn, lookupIn, h]
  | cons head rest ih =>
    obtain ⟨k, v⟩ := head
    rw [insertIn]
    split
    · simp [lookupIn, h]
    · split
      · next heq =>
        subst heq
        simp [lookupIn, h]
      · simp [lookupIn, ih]

@[simp] theorem get?_insert_self (m : NameMap α) (key : String) (value : α) :
    (m.insert key value).get? key = some value :=
  lookupIn_insertIn_self key value m.entries

theorem get?_insert_of_ne (m : NameMap α) {key other : String} (h : key ≠ other) (value : α) :
    (m.insert key value).get? other = m.get? other :=
  lookupIn_insertIn_of_ne h value m.entries

theorem lookupIn_map (f : String → α → β) (key : String) (entries : List (String × α)) :
    lookupIn key (entries.map fun e => (e.1, f e.1 e.2)) = (lookupIn key entries).map (f key) := by
  induction entries with
  | nil => rfl
  | cons head rest ih =>
    obtain ⟨k, v⟩ := head
    by_cases h : k = key
    · simp [lookupIn, h]
    · simp [lookupIn, h, ih]

@[simp] theorem get?_mapEntries (f : String → α → β) (m : NameMap α) (key : String) :
    (m.mapEntries f).get? key = (m.get? key).map (f key) :=
  lookupIn_map f key m.entries

@[simp] theorem get?_map (f : α → β) (m : NameMap α) (key : String) :
    (m.map f).get? key = (m.get? key).map f :=
  get?_mapEntries _ m key

@[simp] theorem get?_modify_self (m : NameMap α) (key : String) (f : α → α) :
    (m.modify key f).get? key = (m.get? key).map f := by
  simp [modify]

theorem get?_modify_of_ne (m : NameMap α) {key other : String} (h : other ≠ key) (f : α → α) :
    (m.modify key f).get? other = m.get? other := by
  simp [modify, h]

theorem lookupIn_filter_ne {key other : String} (h : other ≠ key) (entries : List (String × α)) :
    lookupIn other (entries.filter fun e => e.1 ≠ key) = lookupIn other entries := by
  induction entries with
  | nil => rfl
  | cons head rest ih =>
    obtain ⟨k, v⟩ := head
    by_cases hk : k = key
    · have ho : k ≠ other := fun e => h (e.symm.trans hk)
      rw [List.filter_cons_of_neg (by simp [hk]), ih, lookupIn, if_neg ho]
    · rw [List.filter_cons_of_pos (by simp [hk]), lookupIn, lookupIn, ih]

theorem lookupIn_filter_self (key : String) (entries : List (String × α)) :
    lookupIn key (entries.filter fun e => e.1 ≠ key) = none := by
  induction entries with
  | nil => rfl
  | cons head rest ih =>
    obtain ⟨k, v⟩ := head
    by_cases hk : k = key
    · rw [List.filter_cons_of_neg (by simp [hk]), ih]
    · rw [List.filter_cons_of_pos (by simp [hk]), lookupIn, if_neg hk, ih]

@[simp] theorem get?_erase_self (m : NameMap α) (key : String) : (m.erase key).get? key = none :=
  lookupIn_filter_self key m.entries

theorem get?_erase_of_ne (m : NameMap α) {key other : String} (h : other ≠ key) :
    (m.erase key).get? other = m.get? other :=
  lookupIn_filter_ne h m.entries

theorem get?_modify (m : NameMap α) (key other : String) (f : α → α) :
    (m.modify key f).get? other = if other = key then (m.get? other).map f else m.get? other := by
  split
  · next h => rw [h, get?_modify_self]
  · next h => rw [get?_modify_of_ne m h]

/-- A change of values, seen through a view in which it is another change. -/
theorem map_get?_modify (m : NameMap α) (key other : String) {f : α → α} {view : α → β}
    {g : β → β} (h : ∀ a, view (f a) = g (view a)) :
    ((m.modify key f).get? other).map view =
      if other = key then ((m.get? other).map view).map g else (m.get? other).map view := by
  rw [get?_modify]
  split
  · cases m.get? other <;> simp [h]
  · rfl

/-- A change of values that a view does not show. -/
theorem map_get?_modify_same (m : NameMap α) (key other : String) {f : α → α} {view : α → β}
    (h : ∀ a, view (f a) = view a) :
    ((m.modify key f).get? other).map view = (m.get? other).map view := by
  rw [get?_modify]
  split
  · cases m.get? other <;> simp [h]
  · rfl

theorem get?_erase (m : NameMap α) (key other : String) :
    (m.erase key).get? other = if other = key then none else m.get? other := by
  split
  · next h => rw [h, get?_erase_self]
  · next h => rw [get?_erase_of_ne m h]

theorem get?_insert (m : NameMap α) (key other : String) (value : α) :
    (m.insert key value).get? other = if key = other then some value else m.get? other := by
  split
  · next h => rw [h, get?_insert_self]
  · next h => rw [get?_insert_of_ne m h]

/-! ### Equal look-ups make equal maps -/

theorem lookupIn_eq_none_of_lt {key : String} {entries : List (String × α)}
    (h : ∀ e ∈ entries, key < e.1) : lookupIn key entries = none := by
  induction entries with
  | nil => rfl
  | cons head rest ih =>
    have hne : head.1 ≠ key := fun e =>
      String.lt_irrefl key (by simpa [e] using h head List.mem_cons_self)
    rw [lookupIn, if_neg hne]
    exact ih fun e he => h e (List.mem_cons_of_mem _ he)

theorem eq_of_lookupIn_eq {a b : List (String × α)} (ha : InKeyOrder a) (hb : InKeyOrder b)
    (h : ∀ key, lookupIn key a = lookupIn key b) : a = b := by
  induction a generalizing b with
  | nil =>
    cases b with
    | nil => rfl
    | cons head rest =>
      have := h head.1
      simp [lookupIn] at this
  | cons x xs ih =>
    cases b with
    | nil =>
      have := h x.1
      simp [lookupIn] at this
    | cons y ys =>
      obtain ⟨hx, hxs⟩ := List.pairwise_cons.mp ha
      obtain ⟨hy, hys⟩ := List.pairwise_cons.mp hb
      have hkey : x.1 = y.1 := by
        by_cases hlt : x.1 < y.1
        · have hnone : lookupIn x.1 (y :: ys) = none :=
            lookupIn_eq_none_of_lt fun e he => by
              rcases List.mem_cons.mp he with rfl | he
              · exact hlt
              · exact String.lt_trans hlt (hy e he)
          have := h x.1
          rw [hnone] at this
          simp [lookupIn] at this
        · by_cases hgt : y.1 < x.1
          · have hnone : lookupIn y.1 (x :: xs) = none :=
              lookupIn_eq_none_of_lt fun e he => by
                rcases List.mem_cons.mp he with rfl | he
                · exact hgt
                · exact String.lt_trans hgt (hx e he)
            have := h y.1
            rw [hnone] at this
            simp [lookupIn] at this
          · exact String.le_antisymm (String.not_lt.mp hgt) (String.not_lt.mp hlt)
      have hval : x.2 = y.2 := by
        have := h x.1
        rw [lookupIn, lookupIn, if_pos rfl, if_pos hkey.symm] at this
        exact Option.some.inj this
      have htail : xs = ys := by
        refine ih hxs hys fun key => ?_
        by_cases hk : key = x.1
        · subst hk
          rw [lookupIn_eq_none_of_lt hx, lookupIn_eq_none_of_lt fun e he => hkey ▸ hy e he]
        · have := h key
          rwa [lookupIn, lookupIn, if_neg (Ne.symm hk),
            if_neg (fun e => hk (hkey.trans e).symm)] at this
      rw [htail, Prod.ext hkey hval]

/-- Maps with the same look-ups are equal. -/
theorem ext_get? {m n : NameMap α} (h : ∀ key, m.get? key = n.get? key) : m = n :=
  ext (eq_of_lookupIn_eq m.sorted n.sorted h)

/-! ### Entries are look-ups -/

theorem mem_of_lookupIn {key : String} {value : α} {entries : List (String × α)}
    (h : lookupIn key entries = some value) : (key, value) ∈ entries := by
  induction entries with
  | nil => simp [lookupIn] at h
  | cons head rest ih =>
    obtain ⟨k, v⟩ := head
    rw [lookupIn] at h
    split at h
    · next hk =>
      cases h
      rw [hk]
      exact List.mem_cons_self
    · exact List.mem_cons_of_mem _ (ih h)

theorem lookupIn_of_mem {key : String} {value : α} {entries : List (String × α)}
    (hs : InKeyOrder entries) (h : (key, value) ∈ entries) :
    lookupIn key entries = some value := by
  induction entries with
  | nil => simp at h
  | cons head rest ih =>
    obtain ⟨k, v⟩ := head
    obtain ⟨hhead, hrest⟩ := List.pairwise_cons.mp hs
    rw [lookupIn]
    rcases List.mem_cons.mp h with heq | htail
    · cases heq
      rw [if_pos rfl]
    · have hlt : k < key := hhead _ htail
      have hne : k ≠ key := fun e => String.lt_irrefl key (e ▸ hlt)
      rw [if_neg hne]
      exact ih hrest htail

/-- The entries are the keys with what they look up. -/
theorem mem_entries_iff {m : NameMap α} {key : String} {value : α} :
    (key, value) ∈ m.entries ↔ m.get? key = some value :=
  ⟨lookupIn_of_mem m.sorted, mem_of_lookupIn⟩

theorem mem_values_iff {m : NameMap α} {value : α} :
    value ∈ m.values ↔ ∃ key, m.get? key = some value := by
  constructor
  · intro h
    obtain ⟨⟨key, v⟩, he, rfl⟩ := List.mem_map.mp h
    exact ⟨key, mem_entries_iff.mp he⟩
  · rintro ⟨key, h⟩
    exact List.mem_map.mpr ⟨(key, value), mem_entries_iff.mpr h, rfl⟩

theorem mem_keys_iff {m : NameMap α} {key : String} :
    key ∈ m.keys ↔ ∃ value, m.get? key = some value := by
  constructor
  · intro h
    obtain ⟨⟨k, value⟩, he, rfl⟩ := List.mem_map.mp h
    exact ⟨value, mem_entries_iff.mp he⟩
  · rintro ⟨value, h⟩
    exact List.mem_map.mpr ⟨(key, value), mem_entries_iff.mpr h, rfl⟩

theorem nodup_keys (m : NameMap α) : m.keys.Nodup := by
  rw [keys, List.Nodup, List.pairwise_map]
  exact m.sorted.imp String.ne_of_lt

theorem perm_insertIn {key : String} {entries : List (String × α)}
    (h : lookupIn key entries = none) (value : α) :
    (insertIn key value entries).Perm ((key, value) :: entries) := by
  induction entries with
  | nil => exact .refl _
  | cons head rest ih =>
    obtain ⟨k, v⟩ := head
    rw [lookupIn] at h
    split at h
    · simp at h
    · next hk =>
      rw [insertIn, if_neg hk]
      split
      · exact .refl _
      · exact ((ih h).cons _).trans (.swap _ _ _)

/-- A new key adds its value to the others. -/
theorem perm_values_insert {m : NameMap α} {key : String} (h : m.get? key = none) (value : α) :
    (m.insert key value).values.Perm (value :: m.values) :=
  (perm_insertIn h value).map Prod.snd

theorem values_filter (keep : α → Bool) (m : NameMap α) :
    (m.filter fun _ => keep).values = m.values.filter keep :=
  (List.filter_map ..).symm

/-- Values that know their keys are all different. -/
theorem nodup_values {m : NameMap α} (keyOf : α → String)
    (h : ∀ key value, m.get? key = some value → keyOf value = key) :
    (m.values.map keyOf).Nodup := by
  have hkeys : m.values.map keyOf = m.entries.map Prod.fst := by
    rw [values, List.map_map]
    exact List.map_congr_left fun e he => h e.1 e.2 (mem_entries_iff.mp he)
  rw [hkeys]
  exact m.nodup_keys

theorem get?_filter (keep : String → α → Bool) (m : NameMap α) (key : String) :
    (m.filter keep).get? key = (m.get? key).filter (keep key) := by
  refine Option.ext fun value => ?_
  rw [← mem_entries_iff, Option.filter_eq_some_iff, ← mem_entries_iff]
  exact List.mem_filter

end NameMap

end ApiDoc
