/-!
# Dictionaries

A dictionary from texts to values, kept in code point order of its keys, so that listing it is
listing in that order. `get?_insert` says what every operation does to the view `get?`.
-/

namespace Synopsis

/-- A dictionary: its entries, in strict code point order of their keys. -/
structure Dict (α : Type) where
  entries : List (String × α) := []
  ordered : entries.Pairwise fun a b => a.1 < b.1 := by exact .nil

namespace Dict

variable {α : Type}

/-- Put `value` under `key` in an ordered list of entries, replacing the entry of that key. -/
def insertEntry (key : String) (value : α) : List (String × α) → List (String × α)
  | [] => [(key, value)]
  | (k, v) :: rest =>
    if key < k then (key, value) :: (k, v) :: rest
    else if key = k then (key, value) :: rest
    else (k, v) :: insertEntry key value rest

/-- The value of the first entry with the key `key`. -/
def findEntry (key : String) : List (String × α) → Option α
  | [] => none
  | (k, v) :: rest => if k = key then some v else findEntry key rest

theorem mem_insertEntry {key : String} {value : α} {es : List (String × α)} {entry : String × α}
    (h : entry ∈ insertEntry key value es) : entry = (key, value) ∨ entry ∈ es := by
  induction es with
  | nil => simpa [insertEntry] using h
  | cons e es ih =>
    rw [insertEntry] at h
    split at h
    · simpa using h
    · split at h
      · exact (List.mem_cons.1 h).imp_right (List.mem_cons_of_mem _)
      · rcases List.mem_cons.1 h with rfl | h
        · exact .inr List.mem_cons_self
        · exact (ih h).imp_right (List.mem_cons_of_mem _)

theorem pairwise_insertEntry {es : List (String × α)} (h : es.Pairwise fun a b => a.1 < b.1)
    (key : String) (value : α) : (insertEntry key value es).Pairwise fun a b => a.1 < b.1 := by
  induction es with
  | nil => exact List.pairwise_singleton _ _
  | cons e es ih =>
    obtain ⟨he, hes⟩ := List.pairwise_cons.1 h
    rw [insertEntry]
    split
    · next hlt =>
      refine List.pairwise_cons.2 ⟨fun b hb => ?_, h⟩
      rcases List.mem_cons.1 hb with rfl | hb
      · exact hlt
      · exact String.lt_trans hlt (he b hb)
    · next hlt =>
      split
      · next heq => exact List.pairwise_cons.2 ⟨fun b hb => heq ▸ he b hb, hes⟩
      · next hne =>
        refine List.pairwise_cons.2 ⟨fun b hb => ?_, ih hes⟩
        rcases mem_insertEntry hb with rfl | hb
        · exact Std.lt_of_le_of_ne (String.not_lt.1 hlt) (Ne.symm hne)
        · exact he b hb

def empty : Dict α := {}

/-- The value under `key`. -/
def get? (d : Dict α) (key : String) : Option α := findEntry key d.entries

def contains (d : Dict α) (key : String) : Bool := (d.get? key).isSome

/-- Put `value` under `key`, in place of what was there. -/
def insert (d : Dict α) (key : String) (value : α) : Dict α where
  entries := insertEntry key value d.entries
  ordered := pairwise_insertEntry d.ordered key value

/-- Put every entry of `e` over `d`. -/
def extend (d e : Dict α) : Dict α := e.entries.foldl (fun d entry => d.insert entry.1 entry.2) d

/-- The keys, in code point order. -/
def keys (d : Dict α) : List String := d.entries.map (·.1)

theorem findEntry_insertEntry (key key' : String) (value : α) (es : List (String × α)) :
    findEntry key' (insertEntry key value es) =
      if key = key' then some value else findEntry key' es := by
  induction es with
  | nil => rfl
  | cons e es ih =>
    obtain ⟨k, v⟩ := e
    rw [insertEntry]
    split
    · rfl
    · split <;> grind [findEntry]

@[simp] theorem get?_empty (key : String) : (empty : Dict α).get? key = none := rfl

@[simp] theorem get?_insert (d : Dict α) (key key' : String) (value : α) :
    (d.insert key value).get? key' = if key = key' then some value else d.get? key' :=
  findEntry_insertEntry key key' value d.entries

end Dict

end Synopsis
