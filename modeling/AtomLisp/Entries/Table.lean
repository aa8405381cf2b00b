import AtomLisp.Entries
import Std.Data.HashMap
import Std.Data.HashSet

/-! # Many entries at once

  Working on many entries through a hash table takes time in proportion to their number. What comes
  out is the same as without a table:

  * `Entries.insertMany` writes like `Entries.insertAll` (`insertMany_eq`);
  * `Entries.eraseMany` drops like `Entries.eraseAll` (`eraseMany_eq`);
  * `Entries.Index` looks keys up like `List.lookup` (`Index.lookup_ofEntries`).

  A few entries are done one by one, which is faster for them.
-/

namespace AtomLisp.Entries

variable {α : Type}

/-- How many entries are still few. -/
def few : Nat := 16

/-! ### Looking up -/

/-- Entries in which keys are looked up. -/
inductive Index (α : Type) where
  | direct (entries : Entries α)
  | hashed (table : Std.HashMap String α)

namespace Index

/-- A table of the first value of each key. -/
def tableOf (entries : Entries α) : Std.HashMap String α :=
  entries.foldr (fun entry table => table.insert entry.1 entry.2) ∅

/-- The index of entries. -/
def ofEntries (entries : Entries α) : Index α :=
  if entries.length ≤ few then .direct entries else .hashed (tableOf entries)

/-- The value of a key. -/
def lookup (key : String) : Index α → Option α
  | .direct entries => entries.lookup key
  | .hashed table => table[key]?

theorem getElem?_tableOf (key : String) (entries : Entries α) :
    (tableOf entries)[key]? = entries.lookup key := by
  induction entries with
  | nil => simp [tableOf]
  | cons entry rest ih =>
    have step : tableOf (entry :: rest) = (tableOf rest).insert entry.1 entry.2 := rfl
    rw [step, Std.HashMap.getElem?_insert, ih, List.lookup_cons]
    by_cases h : entry.1 = key
    · simp [h]
    · have h' : (key == entry.1) = false := by simpa using fun e => h e.symm
      simp [h, h']

@[simp] theorem lookup_ofEntries (key : String) (entries : Entries α) :
    (ofEntries entries).lookup key = entries.lookup key := by
  unfold ofEntries
  split
  · rfl
  · exact getElem?_tableOf key entries

end Index

/-! ### Writing -/

/-- Writes the values in a table: first in the place of the keys that are there, and then the
others in the order of `pairs`. Each value is written once. -/
def writeTable (table : Std.HashMap String α) (pairs : List (String × α)) :
    Entries α → Entries α
  | [] => others table pairs
  | (k, v) :: rest =>
    match table[k]? with
    | some new => (k, new) :: writeTable (table.erase k) pairs rest
    | none => (k, v) :: writeTable table pairs rest
where
  /-- The entries of a table in the order of their keys in `pairs`. -/
  others (table : Std.HashMap String α) : List (String × α) → Entries α
    | [] => []
    | (k, _) :: rest =>
      match table[k]? with
      | some new => (k, new) :: others (table.erase k) rest
      | none => others table rest

/-- The last value of each key. -/
def lastValues (pairs : List (String × α)) : Std.HashMap String α :=
  pairs.foldl (fun table pair => table.insert pair.1 pair.2) ∅

/-- Writes one pair after another. -/
def insertMany (entries : Entries α) (pairs : List (String × α)) : Entries α :=
  if pairs.length ≤ few then insertAll entries pairs
  else writeTable (lastValues pairs) pairs entries

theorem getElem?_foldl_insert (key : String) (pairs : List (String × α))
    (table : Std.HashMap String α) :
    (pairs.foldl (fun table pair => table.insert pair.1 pair.2) table)[key]? =
      ((lastValues pairs)[key]?).or table[key]? := by
  induction pairs generalizing table with
  | nil => simp [lastValues]
  | cons pair rest ih =>
    simp only [lastValues, List.foldl_cons]
    rw [ih, ih (Std.HashMap.insert ∅ pair.1 pair.2), Option.or_assoc]
    by_cases h : pair.1 = key <;> simp [Std.HashMap.getElem?_insert, h]

theorem getElem?_lastValues_cons (key : String) (pair : String × α) (pairs : List (String × α)) :
    (lastValues (pair :: pairs))[key]? =
      ((lastValues pairs)[key]?).or (if pair.1 = key then some pair.2 else none) := by
  rw [lastValues, List.foldl_cons, getElem?_foldl_insert, Std.HashMap.getElem?_insert]
  simp

/-- Only what a table answers matters. -/
theorem others_congr {t u : Std.HashMap String α} (h : ∀ key : String, t[key]? = u[key]?)
    (pairs : List (String × α)) : writeTable.others t pairs = writeTable.others u pairs := by
  induction pairs generalizing t u with
  | nil => rfl
  | cons pair rest ih =>
    have erased (key : String) : (t.erase pair.1)[key]? = (u.erase pair.1)[key]? := by
      simp [Std.HashMap.getElem?_erase, h]
    simp only [writeTable.others, h]
    rw [ih h, ih erased]

/-- Only what a table answers matters. -/
theorem writeTable_congr {t u : Std.HashMap String α} (h : ∀ key : String, t[key]? = u[key]?)
    (pairs : List (String × α)) (entries : Entries α) :
    writeTable t pairs entries = writeTable u pairs entries := by
  induction entries generalizing t u with
  | nil => exact others_congr h pairs
  | cons entry rest ih =>
    have erased (key : String) : (t.erase entry.1)[key]? = (u.erase entry.1)[key]? := by
      simp [Std.HashMap.getElem?_erase, h]
    simp only [writeTable, h]
    rw [ih h, ih erased]

/-- A key that has no value in the table is not written. -/
theorem writeTable_cons_of_none {table : Std.HashMap String α} {key : String}
    (h : table[key]? = none) (value : α) (pairs : List (String × α)) (entries : Entries α) :
    writeTable table ((key, value) :: pairs) entries = writeTable table pairs entries := by
  induction entries generalizing table with
  | nil => simp [writeTable, writeTable.others, h]
  | cons entry rest ih =>
    have erased : (table.erase entry.1)[key]? = none := by
      simp [Std.HashMap.getElem?_erase, h]
    simp only [writeTable]
    rw [ih h, ih erased]

/-- Does `u` answer like `t`, and with `value` for `key` if `t` has no answer? -/
def Extends (u t : Std.HashMap String α) (key : String) (value : α) : Prop :=
  ∀ k : String, u[k]? = (t[k]?).or (if key = k then some value else none)

namespace Extends

variable {t u : Std.HashMap String α} {key : String} {value : α}

theorem getElem?_erase_self (h : Extends u t key value) (k : String) :
    (t.erase key)[k]? = (u.erase key)[k]? := by
  by_cases hk : key = k <;> simp [Std.HashMap.getElem?_erase, h k, hk]

theorem getElem?_of_none (h : Extends u t key value) (ht : t[key]? = none) (k : String) :
    t[k]? = (u.erase key)[k]? := by
  by_cases hk : key = k
  · simp [← hk, ht]
  · simp [Std.HashMap.getElem?_erase, h k, hk]

theorem erase (h : Extends u t key value) {other : String} (hne : other ≠ key) :
    Extends (u.erase other) (t.erase other) key value := by
  intro k
  by_cases hk : other = k
  · simp [← hk, Ne.symm hne]
  · simp [Std.HashMap.getElem?_erase, h k, hk]

end Extends

/-- Writing a key first, and then a table over it, is writing the table with that key in it. -/
theorem writeTable_insert {t u : Std.HashMap String α} {key : String} {value : α}
    (h : Extends u t key value) (pairs : List (String × α)) (entries : Entries α) :
    writeTable t pairs (insert key value entries) =
      writeTable u ((key, value) :: pairs) entries := by
  have gone : (u.erase key)[key]? = none := by simp
  induction entries generalizing t u with
  | nil =>
    rcases ht : t[key]? with _ | new
    · simp [insert, writeTable, writeTable.others, h key, ht, others_congr (h.getElem?_of_none ht)]
    · simp [insert, writeTable, writeTable.others, h key, ht, others_congr h.getElem?_erase_self]
  | cons entry rest ih =>
    obtain ⟨k₀, v₀⟩ := entry
    by_cases hk₀ : k₀ = key
    · subst hk₀
      rcases ht : t[k₀]? with _ | new
      · simp [insert, writeTable, h k₀, ht, writeTable_congr (h.getElem?_of_none ht),
          writeTable_cons_of_none gone]
      · simp [insert, writeTable, h k₀, ht, writeTable_congr h.getElem?_erase_self,
          writeTable_cons_of_none gone]
    · have hu : u[k₀]? = t[k₀]? := by simp [h k₀, Ne.symm hk₀]
      simp only [insert, if_neg hk₀, writeTable, hu]
      rw [ih h gone, ih (h.erase hk₀) (by simp)]

theorem writeTable_lastValues (pairs : List (String × α)) (entries : Entries α) :
    writeTable (lastValues pairs) pairs entries = insertAll entries pairs := by
  induction pairs generalizing entries with
  | nil =>
    induction entries with
    | nil => rfl
    | cons entry rest ih => simpa [writeTable, lastValues, insertAll] using ih
  | cons pair rest ih =>
    rw [insertAll, List.foldl_cons, ← insertAll, ← ih]
    exact (writeTable_insert (getElem?_lastValues_cons · pair rest) rest entries).symm

@[simp] theorem insertMany_eq (entries : Entries α) (pairs : List (String × α)) :
    insertMany entries pairs = insertAll entries pairs := by
  unfold insertMany
  split
  · rfl
  · exact writeTable_lastValues pairs entries

/-! ### Dropping -/

/-- Drops the given keys. -/
def eraseMany (entries : Entries α) (keys : List String) : Entries α :=
  if keys.length ≤ few then eraseAll entries keys
  else
    let table := Std.HashSet.ofList keys
    entries.filter fun entry => !table.contains entry.1

@[simp] theorem eraseMany_eq (entries : Entries α) (keys : List String) :
    eraseMany entries keys = eraseAll entries keys := by
  unfold eraseMany
  split
  · rfl
  · simp [eraseAll]

end AtomLisp.Entries
