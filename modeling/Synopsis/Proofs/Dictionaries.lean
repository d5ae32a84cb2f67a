import Mathlib
import Synopsis.Dict

/-!
# Dictionaries and what stands under their keys

The keys of a dictionary are in strict order, so each key stands in it once. Listing its entries is
therefore the same as looking them up, and a dictionary is told by what stands under its keys.
-/

namespace Synopsis

namespace Dict

variable {α : Type} {d e : Dict α} {key : String} {value : α}

theorem pairwise_keys (d : Dict α) : d.keys.Pairwise (· < ·) := List.pairwise_map.2 d.ordered

theorem mem_keys_insert {key' : String} :
    key' ∈ (d.insert key value).keys ↔ key' = key ∨ key' ∈ d.keys := by
  show key' ∈ (insertEntry key value d.entries).map (·.1) ↔ key' = key ∨ key' ∈ d.entries.map (·.1)
  induction d.entries with
  | nil => simp [insertEntry]
  | cons a es ih =>
    rw [insertEntry]
    split_ifs with hlt heq
    · simp
    · simp [heq]
    · rw [List.map_cons, List.mem_cons, ih, List.map_cons, List.mem_cons]
      exact or_left_comm

theorem isSome_findEntry {es : List (String × α)} :
    (findEntry key es).isSome ↔ key ∈ es.map (·.1) := by
  induction es with
  | nil => simp [findEntry]
  | cons a es ih =>
    rw [findEntry, List.map_cons, List.mem_cons]
    by_cases heq : a.1 = key
    · simp [heq]
    · rw [if_neg heq, ih, or_iff_right (Ne.symm heq)]

theorem mem_keys : key ∈ d.keys ↔ (d.get? key).isSome := isSome_findEntry.symm

theorem findEntry_eq_none {es : List (String × α)} (h : ∀ entry ∈ es, entry.1 ≠ key) :
    findEntry key es = none := by
  induction es with
  | nil => rfl
  | cons a es ih =>
    rw [List.forall_mem_cons] at h
    rw [findEntry, if_neg h.1, ih h.2]

theorem mem_iff_findEntry {es : List (String × α)} (hes : es.Pairwise fun a b => a.1 < b.1) :
    (key, value) ∈ es ↔ findEntry key es = some value := by
  induction es with
  | nil => simp [findEntry]
  | cons a es ih =>
    obtain ⟨key', value'⟩ := a
    obtain ⟨ha, hes⟩ := List.pairwise_cons.1 hes
    rw [findEntry, List.mem_cons, ih hes]
    by_cases heq : key' = key
    · -- no later entry has this key
      have hnone : findEntry key es = none :=
        findEntry_eq_none fun entry hentry => (heq ▸ ha entry hentry).ne'
      simp [heq, hnone, @eq_comm _ value]
    · simp [heq, Ne.symm heq]

/-- The entries of a dictionary are what stands under its keys. -/
theorem mem_entries : (key, value) ∈ d.entries ↔ d.get? key = some value :=
  mem_iff_findEntry d.ordered

/-- Dictionaries under whose keys the same stands are the same. -/
theorem ext (h : ∀ key, d.get? key = e.get? key) : d = e := by
  have hentries : d.entries = e.entries := by
    have hnodup (c : Dict α) : c.entries.Nodup := c.ordered.imp fun hlt heq => (heq ▸ hlt).ne rfl
    refine ((List.perm_ext_iff_of_nodup (hnodup d) (hnodup e)).2 fun entry => ?_).eq_of_pairwise
      (fun a b _ _ hlt hlt' => absurd (hlt.trans hlt') (lt_irrefl a.1)) d.ordered e.ordered
    rw [mem_entries, mem_entries, h]
  cases d
  cases e
  cases hentries
  rfl

theorem get?_foldl_insert {es : List (String × α)} (hes : es.Pairwise fun a b => a.1 < b.1)
    (d : Dict α) (key : String) :
    (es.foldl (fun d entry => d.insert entry.1 entry.2) d).get? key =
      (findEntry key es).or (d.get? key) := by
  induction es generalizing d with
  | nil => rfl
  | cons a es ih =>
    obtain ⟨ha, hes⟩ := List.pairwise_cons.1 hes
    rw [List.foldl_cons, ih hes, findEntry, get?_insert]
    split_ifs with heq
    · -- no later entry has this key
      have hnone : findEntry key es = none :=
        findEntry_eq_none fun entry hentry => (heq ▸ ha entry hentry).ne'
      rw [hnone]
      rfl
    · rfl

theorem get?_extend (d e : Dict α) (key : String) :
    (d.extend e).get? key = (e.get? key).or (d.get? key) :=
  get?_foldl_insert e.ordered d key

end Dict

end Synopsis
