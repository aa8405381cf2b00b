/-! # Entries in order of first insertion

  A finite map from names to values that remembers the order in which its keys first came. Frames
  keep their bindings this way, and hash-maps their entries.

  * `Entries.insert` writes a key: an old key keeps its place, a new one comes last;
  * `Entries.insertAll` writes one pair after another, so the last value of a key wins;
  * `Entries.eraseAll` drops keys and leaves the rest in order;
  * looking a key up is `List.lookup`.
-/

namespace AtomLisp

/-- Keys with their values, in order of first insertion. -/
abbrev Entries (α : Type) := List (String × α)

namespace Entries

variable {α : Type}

/-- Writes `value` under `key`: in the place of the key if it is there, else at the end. -/
def insert (key : String) (value : α) : Entries α → Entries α
  | [] => [(key, value)]
  | (k, v) :: rest => if k = key then (k, value) :: rest else (k, v) :: insert key value rest

/-- Writes one pair after another. -/
def insertAll (entries : Entries α) (pairs : List (String × α)) : Entries α :=
  pairs.foldl (fun acc pair => insert pair.1 pair.2 acc) entries

/-- Drops the given keys. -/
def eraseAll (entries : Entries α) (keys : List String) : Entries α :=
  entries.filter fun entry => !keys.contains entry.1

/-- The keys, in order. -/
def keys (entries : Entries α) : List String := entries.map (·.1)

/-- The values, in the order of their keys. -/
def vals (entries : Entries α) : List α := entries.map (·.2)

/-- Is `key` there? -/
def contains (entries : Entries α) (key : String) : Bool := (entries.lookup key).isSome

/-! ### What writing does -/

theorem lookup_insert_self (key : String) (value : α) (entries : Entries α) :
    (insert key value entries).lookup key = some value := by
  induction entries with
  | nil => simp [insert]
  | cons entry rest ih =>
    obtain ⟨k, v⟩ := entry
    by_cases h : k = key
    · simp [insert, h]
    · have h' : (key == k) = false := by simpa using fun e => h e.symm
      simp [insert, h, List.lookup_cons, h', ih]

theorem lookup_insert_of_ne {key other : String} (h : other ≠ key) (value : α)
    (entries : Entries α) : (insert key value entries).lookup other = entries.lookup other := by
  induction entries with
  | nil =>
    have h' : (other == key) = false := by simpa using h
    simp [insert, List.lookup_cons, h']
  | cons entry rest ih =>
    obtain ⟨k, v⟩ := entry
    by_cases hk : k = key
    · subst hk
      have h' : (other == k) = false := by simpa using h
      simp [insert, List.lookup_cons, h']
    · simp [insert, hk, List.lookup_cons, ih]

/-- Writing a key keeps the order of the keys, and puts a new key behind them. -/
theorem keys_insert (key : String) (value : α) (entries : Entries α) :
    keys (insert key value entries) =
      if key ∈ keys entries then keys entries else keys entries ++ [key] := by
  induction entries with
  | nil => simp [insert, keys]
  | cons entry rest ih =>
    obtain ⟨k, v⟩ := entry
    by_cases hk : k = key
    · simp [insert, hk, keys]
    · have hk' : key ≠ k := Ne.symm hk
      simp only [keys] at ih
      by_cases hm : key ∈ rest.map (·.1) <;> simp_all [insert, keys]

end Entries

end AtomLisp
