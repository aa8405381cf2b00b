import AtomLisp.Proofs.RoundTrip.Forms
import Mathlib.Data.List.Induction

/-! # What equality means

  Two values are equal if nothing is left to tell them apart once vectors are read as lists and the
  order of entries is forgotten. Equality therefore is an equivalence relation. An atom is no
  collection: its cell is not looked into, so atoms that hold themselves are compared like others.

  * `Meaning`, `Value.meaning`: what is left of a value then;
  * `Value.UniqueKeys`: the hash-maps in a value have each key once, which they need to have a
    meaning of their own. They have when they are read (`Reader.uniqueKeys_readAll`), evaluated
    (`Caller.keys_of_entryValues`), or made of others (`HashMaps.uniqueKeys_newMap`,
    `uniqueKeys_extend`, `uniqueKeys_without`);
  * `Settles`: a comparison answers its question, or gives up because values are too deep;
  * `Value.equal_settles`: equality asks whether the meanings are the same;
  * `equal_decides_meaning`: equality ends with that answer, and is an equivalence relation.
-/

namespace AtomLisp

/-! ### Meanings -/

/-- What counts of a value when it is compared. -/
inductive Meaning where
  /-- A value that is no collection. It has no parts that are compared. -/
  | single (v : Value)
  | sequence (items : List Meaning)
  /-- What is entered under each key. -/
  | table (entry : String → Option Meaning)

namespace Value

mutual

/-- The meaning of a value: a vector means what a list means, and a hash-map has no order. -/
def meaning : Value → Meaning
  | .list _ items | .vector _ items => .sequence (meanings items)
  | .map _ entries => .table (entryMeaning entries)
  | v => .single v
termination_by structural v => v

/-- The meanings of values. -/
def meanings : List Value → List Meaning
  | [] => []
  | v :: vs => v.meaning :: meanings vs
termination_by structural vs => vs

/-- The meaning of what is entered under a key. -/
def entryMeaning : List (String × Value) → String → Option Meaning
  | [], _ => none
  | (k, v) :: rest, key => if k = key then some v.meaning else entryMeaning rest key
termination_by structural es => es

end

mutual

/-- Every hash-map in a value has each of its keys once. The type of values does not say so, but no
other hash-maps are made. -/
def UniqueKeys : Value → Prop
  | .list _ items | .vector _ items => UniqueKeysAll items
  | .map _ entries => (Entries.keys entries).Nodup ∧ UniqueKeysVals entries
  | _ => True
termination_by structural v => v

/-- Every hash-map in the values has each of its keys once. -/
def UniqueKeysAll : List Value → Prop
  | [] => True
  | v :: vs => v.UniqueKeys ∧ UniqueKeysAll vs
termination_by structural vs => vs

/-- Every hash-map in the values of entries has each of its keys once. -/
def UniqueKeysVals : List (String × Value) → Prop
  | [] => True
  | (_, v) :: rest => v.UniqueKeys ∧ UniqueKeysVals rest
termination_by structural es => es

end

theorem meanings_eq (vs : List Value) : meanings vs = vs.map meaning := by
  induction vs with
  | nil => rfl
  | cons v vs ih => rw [meanings, List.map_cons, ih]

theorem entryMeaning_eq (entries : Entries Value) (key : String) :
    entryMeaning entries key = (entries.lookup key).map meaning := by
  induction entries with
  | nil => rfl
  | cons entry rest ih =>
    obtain ⟨k, v⟩ := entry
    by_cases h : k = key
    · simp [entryMeaning, h]
    · have h' : (key == k) = false := by simpa using fun e => h e.symm
      simp [entryMeaning, List.lookup_cons, h, h', ih]

theorem uniqueKeysAll_iff {vs : List Value} :
    UniqueKeysAll vs ↔ ∀ v ∈ vs, v.UniqueKeys := by
  induction vs with
  | nil => simp [UniqueKeysAll]
  | cons v vs ih => simp [UniqueKeysAll, ih]

theorem uniqueKeysVals_iff {entries : Entries Value} :
    UniqueKeysVals entries ↔ ∀ v ∈ Entries.vals entries, v.UniqueKeys := by
  induction entries with
  | nil => simp [UniqueKeysVals, Entries.vals]
  | cons entry rest ih => simp [UniqueKeysVals, ih, Entries.vals]

theorem steps_pos (v : Value) : 0 < v.steps := by
  cases v <;> simp [steps]

/-! ### Where hash-maps come from -/

section
variable {entries pairs : Entries Value} {serial : Serial}

theorem UniqueKeys.insertAll (h : (map serial entries).UniqueKeys)
    (hpairs : ∀ v ∈ Entries.vals pairs, v.UniqueKeys) (serial' : Serial) :
    (map serial' (Entries.insertAll entries pairs)).UniqueKeys := by
  obtain ⟨hnodup, hvals⟩ := h
  refine ⟨Entries.nodup_keys_insertAll hnodup pairs, uniqueKeysVals_iff.2 fun v hv => ?_⟩
  rcases Entries.mem_vals_insertAll hv with hnew | hold
  · exact hpairs v hnew
  · exact uniqueKeysVals_iff.1 hvals v hold

theorem UniqueKeys.eraseAll (h : (map serial entries).UniqueKeys) (keys : List String)
    (serial' : Serial) : (map serial' (Entries.eraseAll entries keys)).UniqueKeys := by
  obtain ⟨hnodup, hvals⟩ := h
  have hsub : (Entries.eraseAll entries keys).Sublist entries := List.filter_sublist
  refine ⟨hnodup.sublist (hsub.map _), uniqueKeysVals_iff.2 fun v hv => ?_⟩
  exact uniqueKeysVals_iff.1 hvals v ((hsub.map _).mem hv)

end

end Value

theorem Legible.uniqueKeys {v : Value} (h : Legible v) : v.UniqueKeys := by
  induction h with
  | list _ ih | vector _ ih => exact Value.uniqueKeysAll_iff.2 ih
  | map hdistinct _ _ _ ih =>
    refine ⟨hdistinct, Value.uniqueKeysVals_iff.2 fun v hv => ?_⟩
    obtain ⟨entry, hentry, rfl⟩ := List.mem_map.1 hv
    exact ih entry hentry
  | _ => trivial

/-- In what is read, every hash-map has each of its keys once. -/
theorem Reader.uniqueKeys_readAll {nesting : Nat} {source : String} {v : Value}
    (h : v ∈ (readAll nesting source).1) : v.UniqueKeys :=
  (isForm_readAll h).legible.uniqueKeys

/-- A hash-map is evaluated to one with the same keys. -/
theorem Caller.keys_of_entryValues {c : Caller} {frame : FrameId} {m n : Machine}
    {entries results : Entries Value} (h : c.entryValues frame entries m = .done results n) :
    Entries.keys results = Entries.keys entries := by
  induction entries generalizing results m with
  | nil =>
    cases h
    rfl
  | cons entry rest ih =>
    rw [entryValues, Run.bind_apply] at h
    cases hvalue : c.value entry.2 frame m with
    | done v m' =>
      simp only [hvalue, Run.bind_apply] at h
      cases hrest : c.entryValues frame rest m' with
      | done others m'' =>
        rw [hrest] at h
        cases h
        exact congrArg (entry.1 :: ·) (ih hrest)
      | failed | unfinished =>
        rw [hrest] at h
        cases h
    | failed | unfinished =>
      rw [hvalue] at h
      cases h

namespace HashMaps

variable {m : Machine} {args : List Value} {answer : Answer}

theorem mem_of_keyValues {callee : String} {pairs : Entries Value}
    (h : keyValues callee m args = .ok pairs) : ∀ v ∈ Entries.vals pairs, v ∈ args := by
  induction args using List.twoStepInduction generalizing pairs with
  | nil =>
    cases h
    exact List.forall_mem_nil _
  | singleton k =>
    cases k <;> cases h <;> exact List.forall_mem_nil _
  | cons_cons k v rest ih =>
    cases k with
    | text k =>
      obtain ⟨others, hothers, hok⟩ := exists_of_bind_eq_ok h
      cases hok
      intro w hw
      rcases List.mem_cons.1 hw with rfl | hw
      · exact List.mem_cons_of_mem _ (List.mem_cons_self ..)
      · exact List.mem_cons_of_mem _ (List.mem_cons_of_mem _ (ih hothers w hw))
    | _ =>
      obtain ⟨shown, -, hok⟩ := exists_of_bind_eq_ok h
      cases hok

theorem mem_of_pairs {callee : String} {entries : Entries Value}
    (h : pairs callee m args = .ok entries) : ∀ v ∈ Entries.vals entries, v ∈ args := by
  unfold pairs at h
  split at h
  · exact mem_of_keyValues h
  · cases h

theorem eq_of_mapFirst {callee : String} {entries : Entries Value} {rest : List Value}
    (h : mapFirst callee args = .ok (entries, rest)) :
    ∃ serial, args = .map serial entries :: rest := by
  unfold mapFirst at h
  split at h
  · cases h
    exact ⟨_, rfl⟩
  · cases h

/-- A hash-map of given keys and values has each key once. -/
theorem uniqueKeys_newMap (hargs : ∀ v ∈ args, v.UniqueKeys) (h : newMap m args = .ok answer) :
    ∃ entries, answer = .map entries ∧ ∀ serial, (Value.map serial entries).UniqueKeys := by
  obtain ⟨pairs, hpairs, hok⟩ := exists_of_bind_eq_ok h
  cases hok
  have hempty : (Value.map 0 []).UniqueKeys := ⟨List.nodup_nil, trivial⟩
  refine ⟨_, rfl, fun serial => ?_⟩
  rw [Entries.insertMany_eq]
  exact hempty.insertAll (fun v hv => hargs v (mem_of_pairs hpairs v hv)) serial

/-- A hash-map with further keys and values has each key once, if the old one has. -/
theorem uniqueKeys_extend (hargs : ∀ v ∈ args, v.UniqueKeys) (h : extend m args = .ok answer) :
    ∃ entries, answer = .map entries ∧ ∀ serial, (Value.map serial entries).UniqueKeys := by
  obtain ⟨⟨old, rest⟩, hfirst, h⟩ := exists_of_bind_eq_ok h
  obtain ⟨pairs, hpairs, hok⟩ := exists_of_bind_eq_ok h
  cases hok
  obtain ⟨serial', rfl⟩ := eq_of_mapFirst hfirst
  obtain ⟨hold, hrest⟩ := List.forall_mem_cons.1 hargs
  refine ⟨_, rfl, fun serial => ?_⟩
  rw [Entries.insertMany_eq]
  exact hold.insertAll (fun v hv => hrest v (mem_of_pairs hpairs v hv)) serial

/-- A hash-map without some of its keys has each other key once, if the old one has. -/
theorem uniqueKeys_without (hargs : ∀ v ∈ args, v.UniqueKeys) (h : without args = .ok answer) :
    ∃ entries, answer = .map entries ∧ ∀ serial, (Value.map serial entries).UniqueKeys := by
  obtain ⟨⟨old, rest⟩, hfirst, herase⟩ := exists_of_bind_eq_ok h
  obtain ⟨serial', rfl⟩ := eq_of_mapFirst hfirst
  have hold := hargs _ (List.mem_cons_self ..)
  simp only at herase
  split at herase
  · next keys hkeys =>
    cases herase
    refine ⟨_, rfl, fun serial => ?_⟩
    rw [Entries.eraseMany_eq]
    exact hold.eraseAll keys serial
  · cases herase

end HashMaps

/-! ### Entries without repeated keys -/

namespace Entries

variable {α : Type} {entries : Entries α} {key : String} {value : α}

theorem mem_of_lookup (h : entries.lookup key = some value) : (key, value) ∈ entries := by
  obtain ⟨before, after, rfl, -⟩ := List.lookup_eq_some_iff.1 h
  simp

theorem lookup_isSome : (entries.lookup key).isSome = true ↔ key ∈ keys entries := by
  rw [Option.isSome_iff_exists, keys, List.mem_map]
  constructor
  · rintro ⟨value, h⟩
    exact ⟨_, mem_of_lookup h, rfl⟩
  · rintro ⟨entry, hmem, rfl⟩
    exact Option.isSome_iff_exists.1 (List.lookup_isSome_iff.2 ⟨entry, hmem, by simp⟩)

theorem lookup_of_mem (h : (keys entries).Nodup) (hmem : (key, value) ∈ entries) :
    entries.lookup key = some value := by
  obtain ⟨before, after, rfl⟩ := List.append_of_mem hmem
  refine List.lookup_eq_some_iff.2 ⟨before, after, rfl, ?_⟩
  intro entry hentry
  rw [keys, List.map_append, List.map_cons, List.nodup_append] at h
  simpa using Ne.symm (h.2.2 entry.1 (List.mem_map_of_mem hentry) key (List.mem_cons_self ..))

end Entries

/-! ### Comparing -/

/-- A comparison answers the question `p`, or gives up. It only gives up if `deep`. -/
inductive Settles (deep p : Prop) : Except Error Bool → Prop
  | gaveUp (h : deep) : Settles deep p (.error .tooDeep)
  | answer {b : Bool} (h : b = true ↔ p) : Settles deep p (.ok b)

namespace Settles

variable {deep p q : Prop} {x y : Except Error Bool}

theorem yes (h : p) : Settles deep p (.ok true) := .answer (iff_of_true rfl h)

theorem no (h : ¬ p) : Settles deep p (.ok false) := .answer (iff_of_false Bool.false_ne_true h)

theorem congr (h : Settles deep p x) (hpq : p ↔ q) : Settles deep q x := by
  cases h with
  | gaveUp h => exact .gaveUp h
  | answer h => exact .answer (h.trans hpq)

theorem mono {deep' : Prop} (h : Settles deep p x) (hdeep : deep → deep') :
    Settles deep' p x := by
  cases h with
  | gaveUp h => exact .gaveUp (hdeep h)
  | answer h => exact .answer h

/-- There is only one answer to a question. -/
theorem eq_answer {b : Bool} (h : Settles deep p x) (hb : b = true ↔ p) :
    x = .ok b ∨ x = .error .tooDeep ∧ deep := by
  cases h with
  | gaveUp h => exact .inr ⟨rfl, h⟩
  | answer h => exact .inl (congrArg _ (Bool.eq_iff_iff.2 (h.trans hb.symm)))

/-- The second question is asked if the answer to the first one is yes. -/
theorem and (hx : Settles deep p x) (hy : Settles deep q y) :
    Settles deep (p ∧ q) (do if ← x then y else return false) := by
  cases hx with
  | gaveUp h => exact .gaveUp h
  | @answer b h =>
    cases b with
    | true => exact hy.congr ⟨fun hq => ⟨h.1 rfl, hq⟩, And.right⟩
    | false => exact .no fun hpq => Bool.false_ne_true (h.2 hpq.1)

end Settles

namespace Value

variable {deep : Prop} {test : Value → Value → Except Error Bool}

theorem allPairs_settles {xs ys : List Value} (hlength : xs.length = ys.length)
    (h : ∀ x ∈ xs, ∀ y ∈ ys, Settles deep (x.meaning = y.meaning) (test x y)) :
    Settles deep (xs.map meaning = ys.map meaning) (allPairs test xs ys) := by
  induction xs generalizing ys with
  | nil =>
    cases ys with
    | nil => exact .yes rfl
    | cons y ys => cases hlength
  | cons x xs ih =>
    cases ys with
    | nil => cases hlength
    | cons y ys =>
      have hhead := h x (List.mem_cons_self ..) y (List.mem_cons_self ..)
      have htail := ih (Nat.succ.inj hlength) fun x hx y hy =>
        h x (List.mem_cons_of_mem _ hx) y (List.mem_cons_of_mem _ hy)
      exact (hhead.and htail).congr List.cons_eq_cons.symm

theorem allEntries_settles {entries others : Entries Value}
    (h : ∀ entry ∈ entries, ∀ y, others.lookup entry.1 = some y →
      Settles deep (entry.2.meaning = y.meaning) (test entry.2 y)) :
    Settles deep
      (∀ entry ∈ entries, ∃ y, others.lookup entry.1 = some y ∧ entry.2.meaning = y.meaning)
      (allEntries test (.ofEntries others) entries) := by
  induction entries with
  | nil => exact .yes (List.forall_mem_nil _)
  | cons entry rest ih =>
    have htail := ih fun entry hentry => h entry (List.mem_cons_of_mem _ hentry)
    rw [List.forall_mem_cons, allEntries, Entries.Index.lookup_ofEntries]
    cases hlookup : others.lookup entry.1 with
    | none =>
      refine .no ?_
      rintro ⟨⟨y, hy, -⟩, -⟩
      cases hy
    | some y =>
      have hhead := h entry (List.mem_cons_self ..) y hlookup
      refine (hhead.and htail).congr (and_congr_left fun _ => ?_)
      simp

theorem sameKeys_iff {xs ys : Entries Value} :
    sameKeys xs ys = true ↔ ∀ key, key ∈ Entries.keys xs ↔ key ∈ Entries.keys ys := by
  simp only [sameKeys, Entries.Index.lookup_ofEntries, Bool.and_eq_true, List.all_eq_true,
    Entries.lookup_isSome]
  constructor
  · rintro ⟨hleft, hright⟩ key
    constructor
    · intro hkey
      obtain ⟨entry, hentry, rfl⟩ := List.mem_map.1 hkey
      exact hleft entry hentry
    · intro hkey
      obtain ⟨entry, hentry, rfl⟩ := List.mem_map.1 hkey
      exact hright entry hentry
  · intro h
    exact ⟨fun entry hentry => (h _).1 (List.mem_map_of_mem hentry),
      fun entry hentry => (h _).2 (List.mem_map_of_mem hentry)⟩

/-- Entries mean the same if they have the same keys, and the same is meant by what is under
them. -/
theorem entryMeaning_eq_iff {xs ys : Entries Value} (h : (Entries.keys xs).Nodup) :
    entryMeaning xs = entryMeaning ys ↔ sameKeys xs ys = true ∧
      ∀ entry ∈ xs, ∃ y, ys.lookup entry.1 = some y ∧ entry.2.meaning = y.meaning := by
  -- Both sides say something about one key at a time.
  simp only [funext_iff, entryMeaning_eq, sameKeys_iff]
  constructor
  · intro hmeaning
    refine ⟨fun key => ?_, fun entry hentry => ?_⟩
    · rw [← Entries.lookup_isSome, ← Entries.lookup_isSome, ← Option.isSome_map, hmeaning,
        Option.isSome_map]
    · have hentry := hmeaning entry.1
      rw [Entries.lookup_of_mem h ‹_›, Option.map_some] at hentry
      obtain ⟨y, hy, hmeaning⟩ := Option.map_eq_some_iff.1 hentry.symm
      exact ⟨y, hy, hmeaning.symm⟩
  · rintro ⟨hkeys, hentries⟩ key
    cases hlookup : xs.lookup key with
    | some x =>
      obtain ⟨y, hy, hmeaning⟩ := hentries _ (Entries.mem_of_lookup hlookup)
      simp only at hy hmeaning
      rw [hy, Option.map_some, Option.map_some, hmeaning]
    | none =>
      have hnot : key ∉ Entries.keys ys := by
        rw [← hkeys, ← Entries.lookup_isSome, hlookup]
        exact Bool.false_ne_true
      rw [← Entries.lookup_isSome, Option.not_isSome_iff_eq_none] at hnot
      rw [hnot]

/-- Equality asks whether the meanings are the same. It gives up if it cannot go as deep as the
value on the left. -/
theorem equal_settles (steps : Nat) {a b : Value} (ha : a.UniqueKeys) (hb : b.UniqueKeys) :
    Settles (steps < a.steps) (a.meaning = b.meaning) (a.equal steps b) := by
  induction steps using Nat.strongRecOn generalizing a b with
  | ind steps ih =>
    cases steps with
    | zero => exact .gaveUp a.steps_pos
    | succ steps =>
      -- Parts are compared with fewer steps, or there are none left for them.
      have hwithin : ∀ x y : Value, x.UniqueKeys → y.UniqueKeys →
          Settles (steps < x.steps + 2) (x.meaning = y.meaning) (equal.within steps x y) := by
        intro x y hx hy
        have hpos := x.steps_pos
        rcases steps with _ | _ | n
        iterate 2 exact .gaveUp (by omega)
        exact (ih n (by omega) hx hy).mono (by omega)
      have hitems : ∀ xs ys : List Value, UniqueKeysAll xs → UniqueKeysAll ys →
          Settles (steps + 1 < stepsAll xs + 4) (Meaning.sequence (meanings xs) = .sequence
            (meanings ys)) (if xs.length = ys.length then allPairs (equal.within steps) xs ys
              else .ok false) := by
        intro xs ys hxs hys
        rw [uniqueKeysAll_iff] at hxs hys
        -- What tells a list from a vector is gone, so only the items count.
        rw [Meaning.sequence.injEq, meanings_eq, meanings_eq]
        split
        · next hlength =>
          refine allPairs_settles hlength fun x hx y hy => ?_
          have hsteps := steps_le_stepsAll hx
          exact (hwithin x y (hxs x hx) (hys y hy)).mono (by omega)
        · next hlength =>
          exact .no fun heq => hlength (by simpa using congrArg List.length heq)
      unfold equal
      split
      · next heq => exact .yes (congrArg meaning heq)
      · next hne =>
        cases a with
        | list | vector =>
          cases b with
          | list | vector => exact hitems _ _ ha hb
          | _ => exact .no fun heq => by cases heq
        | map serial xs =>
          cases b with
          | map serial' ys =>
            obtain ⟨hnodup, hxs⟩ := ha
            rw [uniqueKeysVals_iff] at hxs
            have hys := uniqueKeysVals_iff.1 hb.2
            rw [meaning, meaning, Meaning.table.injEq, entryMeaning_eq_iff hnodup]
            simp only
            split
            · next hkeys =>
              -- The keys are the same, so that the values under them decide.
              refine (allEntries_settles fun entry hentry y hy => ?_).congr
                (and_iff_right hkeys).symm
              have hsteps := steps_le_stepsEntries hentry
              have hx' := hxs _ (List.mem_map_of_mem hentry)
              have hy' := hys _ (List.mem_map_of_mem (Entries.mem_of_lookup hy))
              refine (hwithin entry.2 y hx' hy').mono fun hdeep => ?_
              rw [Value.steps]
              omega
            · next hkeys => exact .no fun h => hkeys h.1
          | _ => exact .no fun heq => by cases heq
        | _ =>
          -- What is no collection means nothing but itself.
          cases b with
          | list | vector | map => exact .no fun heq => by cases heq
          | _ => exact .no fun h => hne (Meaning.single.inj h)

/-- Values are equal, given enough room, if they mean the same. -/
theorem exists_equal_iff {a b : Value} (ha : a.UniqueKeys) (hb : b.UniqueKeys) :
    (∃ steps, a.equal steps b = .ok true) ↔ a.meaning = b.meaning := by
  constructor
  · rintro ⟨steps, h⟩
    have hsettles := equal_settles steps ha hb
    rw [h] at hsettles
    cases hsettles with
    | answer h => exact h.1 rfl
  · intro hmeaning
    refine ⟨a.steps, ?_⟩
    rcases (equal_settles a.steps ha hb).eq_answer (iff_of_true rfl hmeaning) with h | ⟨-, hdeep⟩
    · exact h
    · exact absurd hdeep (Nat.lt_irrefl _)

end Value

/-! ### Equality as a relation -/

/-- **Equality is sameness of meaning.** For values whose hash-maps have each key once: equality
ends, and what it answers is whether the values become one and the same when vectors are read as
lists and the order of entries is forgotten. With less room than the value is deep it may give up,
but it never answers otherwise. So it is reflexive, symmetric and transitive. -/
theorem equal_decides_meaning :
    (∀ a b : Value, a.UniqueKeys → b.UniqueKeys → ∃ answer : Bool,
      (answer = true ↔ a.meaning = b.meaning) ∧
      (∀ steps, a.steps ≤ steps → a.equal steps b = .ok answer) ∧
      ∀ steps, a.equal steps b = .ok answer ∨ a.equal steps b = .error .tooDeep) ∧
    Equivalence fun a b : {v : Value // v.UniqueKeys} =>
      ∃ steps, a.1.equal steps b.1 = .ok true := by
  refine ⟨fun a b ha hb => ?_, ?_, ?_, ?_⟩
  · -- The meanings fix the answer before anything is compared.
    obtain ⟨answer, hanswer⟩ : ∃ answer : Bool, answer = true ↔ a.meaning = b.meaning := by
      classical exact ⟨decide (a.meaning = b.meaning), decide_eq_true_iff⟩
    have hsettles := fun steps => (Value.equal_settles steps ha hb).eq_answer hanswer
    refine ⟨answer, hanswer, fun steps henough => ?_, fun steps => ?_⟩
    · rcases hsettles steps with h | ⟨-, hdeep⟩
      · exact h
      · exact absurd hdeep (Nat.not_lt.2 henough)
    · exact (hsettles steps).imp_right And.left
  · rintro ⟨a, ha⟩
    exact (Value.exists_equal_iff ha ha).2 rfl
  · rintro ⟨a, ha⟩ ⟨b, hb⟩ hab
    exact (Value.exists_equal_iff hb ha).2 ((Value.exists_equal_iff ha hb).1 hab).symm
  · rintro ⟨a, ha⟩ ⟨b, hb⟩ ⟨c, hc⟩ hab hbc
    rw [Value.exists_equal_iff ha hb] at hab
    rw [Value.exists_equal_iff hb hc] at hbc
    exact (Value.exists_equal_iff ha hc).2 (hab.trans hbc)

/-- A vector with a hash-map and an atom in it. -/
def vectorSample : Value :=
  .vector 1 [.bool true, .map 2 [("a", .vector 3 [.symbol "x"]), ("b", .atom 0)]]

/-- The same as a list, and with the entries in another order. -/
def listSample : Value :=
  .list 4 [.bool true, .map 5 [("b", .atom 0), ("a", .list 6 [.symbol "x"])]]

theorem meaning_samples :
    vectorSample.UniqueKeys ∧ listSample.UniqueKeys ∧
      vectorSample.equal vectorSample.steps listSample = .ok true ∧
      vectorSample.meaning = listSample.meaning := by
  have hvector : vectorSample.UniqueKeys :=
    ⟨trivial, ⟨by decide, ⟨trivial, trivial⟩, trivial, trivial⟩, trivial⟩
  have hlist : listSample.UniqueKeys :=
    ⟨trivial, ⟨by decide, trivial, ⟨trivial, trivial⟩, trivial⟩, trivial⟩
  have hequal : vectorSample.equal vectorSample.steps listSample = .ok true := by decide +kernel
  obtain ⟨answer, hanswer, henough, -⟩ :=
    equal_decides_meaning.1 vectorSample listSample hvector hlist
  have htrue : answer = true := Except.ok.inj ((henough _ (Nat.le_refl _)).symm.trans hequal)
  exact ⟨hvector, hlist, hequal, hanswer.1 htrue⟩

end AtomLisp
