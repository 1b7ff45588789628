/-!
Association tables.

A table holds a value for each of its keys, in the order in which the keys came. Its view is
`find?`: `find?_insert`, `find?_erase` and `find?_modify` say what an update does to it, and
`keys_insert`, `keys_erase` and `keys_modify` what it does to the keys.
-/

namespace RoadMatching

/-- Values under distinct keys, in the order of their insertion. -/
structure Table (κ β : Type) where
  entries : List (κ × β)
  deriving Repr

namespace Table

variable {κ β : Type}

/-- The table without keys. -/
def empty : Table κ β := ⟨[]⟩

instance : Inhabited (Table κ β) := ⟨empty⟩

/-- The number of keys. -/
def size (t : Table κ β) : Nat := t.entries.length

/-- Whether there is no key. -/
def isEmpty (t : Table κ β) : Bool := t.entries.isEmpty

/-- The values, in the order of their keys. -/
def values (t : Table κ β) : List β := t.entries.map Prod.snd

/-- The keys, in order. -/
def keys (t : Table κ β) : List κ := t.entries.map Prod.fst

variable [DecidableEq κ]

/-- The value of a key. -/
def find? (t : Table κ β) (key : κ) : Option β :=
  (t.entries.find? fun entry => entry.1 = key).map Prod.snd

/-- Whether a key has a value. -/
def contains (t : Table κ β) (key : κ) : Bool := (t.find? key).isSome

/-- Puts a value under a key, in the place of the key if there is one. -/
def insertEntry (key : κ) (value : β) : List (κ × β) → List (κ × β)
  | [] => [(key, value)]
  | entry :: rest =>
    if entry.1 = key then (key, value) :: rest else entry :: insertEntry key value rest

/-- The table with the value under the key. -/
def insert (t : Table κ β) (key : κ) (value : β) : Table κ β := ⟨insertEntry key value t.entries⟩

/-- The table without the key. -/
def erase (t : Table κ β) (key : κ) : Table κ β := ⟨t.entries.filter fun entry => entry.1 ≠ key⟩

/-- The table with the value of the key, if there is one, changed. -/
def modify (t : Table κ β) (key : κ) (change : β → β) : Table κ β :=
  ⟨t.entries.map fun entry => if entry.1 = key then (entry.1, change entry.2) else entry⟩

/-! ### The view of an update -/

@[simp] theorem find?_empty (key : κ) : (empty : Table κ β).find? key = none := rfl

theorem find?_insert (t : Table κ β) (key other : κ) (value : β) :
    (t.insert key value).find? other = if other = key then some value else t.find? other := by
  obtain ⟨entries⟩ := t
  simp only [find?, insert]
  induction entries with
  | nil => by_cases h : key = other <;> simp [insertEntry, h, eq_comm]
  | cons entry rest ih =>
    unfold insertEntry
    by_cases hk : entry.1 = key
    · by_cases h : other = key
      · subst h
        simp [hk]
      · have h' : ¬ key = other := fun e => h e.symm
        simp [hk, h, h']
    · by_cases he : entry.1 = other
      · subst he
        simp [hk]
      · simp [hk, he, ih]

theorem find?_erase (t : Table κ β) (key other : κ) :
    (t.erase key).find? other = if other = key then none else t.find? other := by
  obtain ⟨entries⟩ := t
  simp only [find?, erase]
  induction entries with
  | nil => simp
  | cons entry rest ih =>
    rw [List.filter_cons]
    by_cases hk : entry.1 = key
    · rw [if_neg (by simp [hk]), ih, List.find?_cons]
      by_cases h : other = key
      · simp [h]
      · have he : ¬ entry.1 = other := fun e => h (e.symm.trans hk)
        simp [h, he]
    · rw [if_pos (by simp [hk]), List.find?_cons, List.find?_cons]
      by_cases he : entry.1 = other
      · have h : ¬ other = key := fun e => hk (he.trans e)
        simp [h, he]
      · simpa [he] using ih

theorem find?_modify (t : Table κ β) (key other : κ) (change : β → β) :
    (t.modify key change).find? other
      = if other = key then (t.find? other).map change else t.find? other := by
  obtain ⟨entries⟩ := t
  simp only [find?, modify]
  induction entries with
  | nil => simp
  | cons entry rest ih =>
    by_cases hk : entry.1 = key <;> by_cases he : entry.1 = other
    · have h : other = key := he.symm.trans hk
      subst h
      simp [hk]
    · have h : ¬ other = key := fun e => he (hk.trans e.symm)
      have h' : ¬ key = other := fun e => h e.symm
      simp_all
    · have h : ¬ other = key := fun e => hk (he.trans e)
      subst he
      simp [hk]
    · simp_all

/-! ### The keys -/

theorem find?_isSome_iff (t : Table κ β) (key : κ) : (t.find? key).isSome ↔ key ∈ t.keys := by
  simp [find?, keys]

theorem find?_eq_none_iff (t : Table κ β) (key : κ) : t.find? key = none ↔ key ∉ t.keys := by
  rw [← find?_isSome_iff, Option.not_isSome_iff_eq_none]

/-- A key and its value are an entry. -/
theorem mem_entries_of_find? {t : Table κ β} {key : κ} {value : β}
    (h : t.find? key = some value) : (key, value) ∈ t.entries := by
  obtain ⟨entry, hfind, rfl⟩ := Option.map_eq_some_iff.1 h
  have hkey : entry.1 = key := by simpa using List.find?_some hfind
  exact hkey ▸ List.mem_of_find?_eq_some hfind

theorem keys_modify (t : Table κ β) (key : κ) (change : β → β) :
    (t.modify key change).keys = t.keys := by
  simp only [keys, modify, List.map_map]
  refine List.map_congr_left fun entry _ => ?_
  by_cases h : entry.1 = key <;> simp [h]

theorem keys_erase (t : Table κ β) (key : κ) :
    (t.erase key).keys = t.keys.filter fun k => k ≠ key := by
  simp only [keys, erase, List.filter_map]
  rfl

theorem erase_of_not_mem {t : Table κ β} {key : κ} (h : key ∉ t.keys) : t.erase key = t := by
  have hall : ∀ entry ∈ t.entries, decide (entry.1 ≠ key) = true := by
    intro entry he
    simp only [decide_eq_true_eq]
    rintro rfl
    exact h (List.mem_map_of_mem he)
  rw [erase, List.filter_eq_self.2 hall]

/-- A new key comes after those there are. -/
theorem insert_of_not_mem {t : Table κ β} {key : κ} (h : key ∉ t.keys) (value : β) :
    t.insert key value = ⟨t.entries ++ [(key, value)]⟩ := by
  obtain ⟨entries⟩ := t
  simp only [keys, insert, Table.mk.injEq] at h ⊢
  induction entries with
  | nil => rfl
  | cons entry rest ih =>
    have hk : ¬ entry.1 = key := fun e => h (by simp [e])
    have hrest : key ∉ rest.map Prod.fst := fun hm => h (by simp [hm])
    unfold insertEntry
    simp [hk, ih hrest]

theorem keys_insert {t : Table κ β} {key : κ} (h : key ∉ t.keys) (value : β) :
    (t.insert key value).keys = t.keys ++ [key] := by
  rw [insert_of_not_mem h]
  simp [keys]

/-- With distinct keys, the value of an entry is that of its key. -/
theorem find?_of_mem_entries {t : Table κ β} (hkeys : t.keys.Nodup) {key : κ} {value : β}
    (h : (key, value) ∈ t.entries) : t.find? key = some value := by
  obtain ⟨entries⟩ := t
  simp only [keys, find?] at hkeys h ⊢
  induction entries with
  | nil => cases h
  | cons entry rest ih =>
    rw [List.map_cons, List.nodup_cons] at hkeys
    rcases List.mem_cons.1 h with rfl | h
    · simp
    · have hne : ¬ entry.1 = key := fun e =>
        hkeys.1 (e ▸ List.mem_map_of_mem (f := Prod.fst) h)
      rw [List.find?_cons_of_neg (by simpa using hne)]
      exact ih hkeys.2 h

/-- The order of the keys does not matter for the values. -/
theorem find?_perm {t t' : Table κ β} (hkeys : t.keys.Nodup) (h : t'.entries.Perm t.entries)
    (key : κ) : t'.find? key = t.find? key := by
  have hkeys' : t'.keys.Perm t.keys := h.map Prod.fst
  cases hfind : t'.find? key with
  | none =>
    rw [find?_eq_none_iff, hkeys'.mem_iff, ← find?_eq_none_iff] at hfind
    exact hfind.symm
  | some value =>
    exact (find?_of_mem_entries hkeys (h.mem_iff.1 (mem_entries_of_find? hfind))).symm

end Table

end RoadMatching
