/-!
# Pathwise.Table

Finite tables: the keys and values that were stored, the newest first. A key is
present at most once in a table that `set` and `insertNew` built.
-/

namespace Pathwise

/-- A finite map from keys to values. -/
structure Table (κ : Type) (α : Type) where
  entries : List (κ × α)
deriving DecidableEq, Inhabited

namespace Table

variable {κ α : Type} [DecidableEq κ]

/-- A table without entries. -/
def empty : Table κ α := ⟨[]⟩

instance : EmptyCollection (Table κ α) := ⟨empty⟩

/-- Value stored under a key. -/
def find? (t : Table κ α) (k : κ) : Option α := (t.entries.find? (·.1 = k)).map (·.2)

/-- Whether a key has a value. -/
def contains (t : Table κ α) (k : κ) : Bool := (t.find? k).isSome

/-- Store a value in place of whatever the key had. -/
def set (t : Table κ α) (k : κ) (v : α) : Table κ α := ⟨(k, v) :: t.entries.filter (·.1 ≠ k)⟩

/-- Store a value unless the key has one already. -/
def insertNew (t : Table κ α) (k : κ) (v : α) : Table κ α :=
  if t.contains k then t else ⟨(k, v) :: t.entries⟩

/-- Drop a key. -/
def erase (t : Table κ α) (k : κ) : Table κ α := ⟨t.entries.filter (·.1 ≠ k)⟩

/-- The keys, the last one entered first. -/
def keys (t : Table κ α) : List κ := t.entries.map (·.1)

/-- The values, in the order of the keys. -/
def values (t : Table κ α) : List α := t.entries.map (·.2)

/-- The number of entries. -/
def size (t : Table κ α) : Nat := t.entries.length

@[simp]
theorem find?_empty (k : κ) : (∅ : Table κ α).find? k = none := rfl

/-- After `set`, the key has the new value and every other key what it had. -/
theorem find?_set (t : Table κ α) (k : κ) (v : α) (x : κ) :
    (t.set k v).find? x = if k = x then some v else t.find? x := by
  unfold find? set
  rw [List.find?_cons]
  by_cases h : k = x
  · simp [h]
  · simp only [h, decide_false, if_false, List.find?_filter]
    congr 2
    funext p
    by_cases hp : p.1 = x
    · simp [hp, Ne.symm h]
    · simp [hp]

/-- After `insertNew`, a key that had a value keeps it. -/
theorem find?_insertNew (t : Table κ α) (k : κ) (v : α) (x : κ) :
    (t.insertNew k v).find? x = if k = x then some ((t.find? k).getD v) else t.find? x := by
  unfold insertNew contains
  cases hk : t.find? k with
  | none =>
    by_cases h : k = x
    · simp [find?, h]
    · simp [find?, h]
  | some w =>
    by_cases h : k = x
    · subst h; simp [hk]
    · simp [h]

theorem mem_entries_of_find? {t : Table κ α} {k : κ} {a : α} (h : t.find? k = some a) :
    (k, a) ∈ t.entries := by
  obtain ⟨⟨k', a'⟩, hfind, rfl⟩ := Option.map_eq_some_iff.1 h
  have hk : k' = k := by simpa using List.find?_some hfind
  rw [← hk]
  exact List.mem_of_find?_eq_some hfind

theorem contains_of_mem_entries {t : Table κ α} {k : κ} {a : α} (h : (k, a) ∈ t.entries) :
    t.contains k = true := by
  unfold contains find?
  rw [Option.isSome_map, List.find?_isSome]
  exact ⟨(k, a), h, by simp⟩

theorem mem_entries_set {t : Table κ α} {k k' : κ} {a a' : α}
    (h : (k', a') ∈ (t.set k a).entries) : (k', a') = (k, a) ∨ (k', a') ∈ t.entries := by
  cases List.mem_cons.1 h with
  | inl heq => exact Or.inl heq
  | inr hmem => exact Or.inr (List.mem_filter.1 hmem).1

theorem contains_set (t : Table κ α) (k x : κ) (v : α) :
    (t.set k v).contains x = (decide (k = x) || t.contains x) := by
  unfold contains
  rw [find?_set]
  by_cases h : k = x
  · simp [h]
  · simp [h]

end Table

end Pathwise
