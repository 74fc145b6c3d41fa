/-!
# Association lists

A finite map kept as a list of pairs in which every key occurs once, in the order in
which the keys were last set. `lookup` of core reads it; `put` and `erase` change it.

What is modelled is a hash map or an ordered map with the operations insert, remove and look up.
The order of the list is that of the last changes and can be told apart only by going through
all pairs; where a program does that over a hash map, the order is arbitrary, and the definition
that does it says so (`Redirects.replace`).

`lookup_put_self`, `lookup_put_of_ne` and `lookup_erase_self`, `lookup_erase_of_ne` are all that
other modules use of the representation.
-/

namespace Splice.Assoc

variable {α β : Type} [BEq α]

/-- The entries without the one of `key`. -/
def erase (entries : List (α × β)) (key : α) : List (α × β) :=
  entries.filter fun entry => entry.1 != key

/-- Gives `key` the value `value`, whatever it had before, and moves it to the end. -/
def put (entries : List (α × β)) (key : α) (value : β) : List (α × β) :=
  erase entries key ++ [(key, value)]

/-- The map of a list of pairs; of several values for one key the last one holds. -/
def ofPairs (pairs : List (α × β)) : List (α × β) :=
  pairs.foldl (fun entries pair => put entries pair.1 pair.2) []

variable [LawfulBEq α]

theorem lookup_append_of_not_mem {entries rest : List (α × β)} {key : α}
    (h : key ∉ entries.map (·.1)) : (entries ++ rest).lookup key = rest.lookup key := by
  induction entries with
  | nil => rfl
  | cons entry entries ih =>
    obtain ⟨k, v⟩ := entry
    simp only [List.map_cons, List.mem_cons, not_or] at h
    have hk : (key == k) = false := by simpa using h.1
    rw [List.cons_append, List.lookup_cons, hk]
    exact ih h.2

theorem not_mem_keys_erase (entries : List (α × β)) (key : α) :
    key ∉ (erase entries key).map (·.1) := by
  simp [erase]

theorem lookup_put_self (entries : List (α × β)) (key : α) (value : β) :
    (put entries key value).lookup key = some value := by
  rw [put, lookup_append_of_not_mem (not_mem_keys_erase entries key)]
  simp

theorem lookup_erase_self (entries : List (α × β)) (key : α) :
    (erase entries key).lookup key = none := by
  have h : (erase entries key ++ []).lookup key = none :=
    lookup_append_of_not_mem (not_mem_keys_erase entries key)
  rwa [List.append_nil] at h

theorem lookup_erase_of_ne (entries : List (α × β)) {key other : α} (h : other ≠ key) :
    (erase entries key).lookup other = entries.lookup other := by
  induction entries with
  | nil => rfl
  | cons entry entries ih =>
    obtain ⟨k, v⟩ := entry
    have ih' : (entries.filter fun entry => entry.1 != key).lookup other
        = entries.lookup other := ih
    by_cases hk : k = key
    · subst hk
      have hne : (other == k) = false := by simpa using h
      simp [erase, ih', List.lookup_cons, hne]
    · simp [erase, ih', List.lookup_cons, hk]

theorem lookup_put_of_ne (entries : List (α × β)) {key other : α} (value : β)
    (h : other ≠ key) : (put entries key value).lookup other = entries.lookup other := by
  have hne : (other == key) = false := by simpa using h
  have happ : ∀ xs : List (α × β),
      (xs ++ [(key, value)]).lookup other = xs.lookup other := by
    intro xs
    induction xs with
    | nil => simp [List.lookup_cons, hne]
    | cons x xs ih => obtain ⟨k, v⟩ := x; simp [List.lookup_cons, ih]
  rw [put, happ, lookup_erase_of_ne entries h]

end Splice.Assoc
