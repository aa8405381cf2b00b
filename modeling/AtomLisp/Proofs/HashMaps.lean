import AtomLisp.Proofs.ArgumentBinding
import AtomLisp.Proofs.Equality
import AtomLisp.Proofs.Unbounded
import Mathlib.Data.List.Nodup

/-! # Hash-maps as finite maps

  A hash-map is a finite map that remembers the order in which its keys first came. It can be
  written down, made of keys and values, extended by many pairs in one call or by one pair after
  another, and rid of keys. All of these ways agree.

  * `Entries.Updates`: what entries become when pairs are written over them;
  * `HashMaps.assocEach`: writing the pairs by a call each;
  * `HashMaps.Obtained`: the maps that the builders make, and `Obtained.nodup`: they have each key
    once;
  * `HashMaps.Observed`: what the observers say about such a map;
  * `HashMaps.builders_agree`: the builders agree, and the observers tell what they have built.
-/

namespace AtomLisp

open Builtin
open Reader (alternating)

/-! ### Writing over entries -/

namespace Entries

variable {α : Type}

/-- Of the values that a key is given the last one counts. -/
theorem lookup_insertAll (entries pairs : Entries α) (key : String) :
    (insertAll entries pairs).lookup key = (pairs.reverse.lookup key).or (entries.lookup key) := by
  induction pairs using List.reverseRecOn with
  | nil => rfl
  | append_singleton pairs pair ih =>
    obtain ⟨k, v⟩ := pair
    rw [insertAll_concat, List.reverse_append]
    by_cases h : key = k
    · simp [h, lookup_insert_self]
    · have hne : (key == k) = false := by simpa using h
      simp [lookup_insert_of_ne h, ih, List.lookup_cons, hne]

/-- The entries `new` are `old` with the pairs written over them: an old key keeps its place, the
new ones follow in the order in which they first come, and the last value of a key counts. -/
structure Updates (old : Entries α) (pairs : List (String × α)) (new : Entries α) : Prop where
  keys   : keys new = keys old ++ ((pairs.map Prod.fst).filter (· ∉ keys old)).eraseDups
  lookup : ∀ key, new.lookup key = (pairs.reverse.lookup key).or (old.lookup key)

theorem updates_insertAll (old pairs : Entries α) : Updates old pairs (insertAll old pairs) :=
  ⟨keys_insertAll old pairs, lookup_insertAll old pairs⟩

theorem nodup_keys_eraseAll {entries : Entries α} (h : (keys entries).Nodup)
    (dropped : List String) : (keys (eraseAll entries dropped)).Nodup :=
  h.sublist (List.filter_sublist.map _)

end Entries

/-- `nth` answers the element at the index. -/
theorem Sequences.answer_nth {m : Machine} {s v : Value} {items : List Value} {i : Nat}
    (hs : s.items? = some items) (h : items[i]? = some v) :
    Query.nth.answer m [s, .int i] = .ok (.value v) := by
  have htwo : Arguments.two Query.nth.name [s, .int i] = pure (s, .int (.ofNat i)) := rfl
  show Sequences.elementAt _ = _
  cases s with
  | list | vector =>
    cases hs
    simp only [Sequences.elementAt, htwo, pure_bind, h]
    rfl
  | _ => cases hs

/-! ### The builders -/

/-- The entries of the hash-map that a run answers, if it answers one. -/
def Result.entries? : Result Value → Option (Entries Value)
  | .done (.map _ entries) _ => some entries
  | _ => none

namespace HashMaps

variable {m : Machine} {args : List Value} {entries old added : Entries Value}

theorem keyValues_alternating (callee : String) (m : Machine) (added : Entries Value) :
    keyValues callee m (alternating added) = .ok added := by
  induction added with
  | nil => rfl
  | cons pair rest ih =>
    rw [alternating, keyValues, ih]
    rfl

theorem pairs_alternating (callee : String) (m : Machine) (added : Entries Value) :
    pairs callee m (alternating added) = .ok added := by
  have heven : (alternating added).length % 2 = 0 := by
    rw [Reader.length_alternating]
    omega
  rw [pairs, if_pos heven, keyValues_alternating]

theorem texts?_map_text (keys : List String) : texts? (keys.map .text) = some keys := by
  induction keys with
  | nil => rfl
  | cons key keys ih => rw [List.map_cons, texts?, ih, Option.map_some]

theorem answer_hashMap (m : Machine) (added : Entries Value) :
    Query.hashMap.answer m (alternating added) = .ok (.map (Entries.insertAll [] added)) := by
  show newMap m (alternating added) = _
  rw [newMap, pairs_alternating, ← Entries.insertMany_eq]
  rfl

theorem answer_assoc (m : Machine) (serial : Serial) (old added : Entries Value) :
    Query.assoc.answer m (.map serial old :: alternating added) =
      .ok (.map (Entries.insertAll old added)) := by
  show extend m (.map serial old :: alternating added) = _
  simp only [extend, mapFirst, bind, Except.bind, pairs_alternating, Entries.insertMany_eq]
  rfl

theorem answer_dissoc (m : Machine) (serial : Serial) (old : Entries Value)
    (dropped : List String) :
    Query.dissoc.answer m (.map serial old :: dropped.map .text) =
      .ok (.map (Entries.eraseAll old dropped)) := by
  show without (.map serial old :: dropped.map .text) = _
  simp only [without, mapFirst, bind, Except.bind, texts?_map_text, Entries.eraseMany_eq]
  rfl

/-- What a builder answers is made into a map of its own. -/
theorem call_of_answer (c : Caller) (frame : FrameId) {q : Query}
    (h : q.answer m args = .ok (.map entries)) :
    ∃ serial n, Builtin.call c frame args (.query q) m = .done (.map serial entries) n :=
  ⟨m.nextSerial, { m with nextSerial := m.nextSerial + 1 }, call_of_ok c frame h⟩

theorem entries?_of_answer (c : Caller) (frame : FrameId) {q : Query}
    (h : q.answer m args = .ok (.map entries)) :
    (Builtin.call c frame args (.query q) m).entries? = some entries := by
  obtain ⟨serial, n, hcall⟩ := call_of_answer c frame h
  rw [hcall, Result.entries?]

/-- Writes pairs over a map one at a time: each by a call of `assoc` on what the last one has
made. -/
def assocEach (c : Caller) (frame : FrameId) : Value → List (String × Value) → Run Value
  | v, [] => pure v
  | v, (key, value) :: rest => do
    let w ← Builtin.call c frame [v, .text key, value] (.query .assoc)
    assocEach c frame w rest

theorem entries?_assocEach (c : Caller) (frame : FrameId) (serial : Serial)
    (old added : Entries Value) (m : Machine) :
    (assocEach c frame (.map serial old) added m).entries? =
      some (Entries.insertAll old added) := by
  induction added generalizing serial old m with
  | nil => rfl
  | cons pair rest ih =>
    obtain ⟨key, value⟩ := pair
    have hfirst := answer_assoc m serial old [(key, value)]
    obtain ⟨serial', n, hcall⟩ := call_of_answer c frame hfirst
    -- The next call finds the first pair written.
    have hrest := ih serial' (Entries.insert key value old) n
    rw [assocEach, Run.bind_apply]
    simp only [alternating] at hcall
    rw [hcall]
    exact hrest

/-! ### What can be built -/

/-- The maps that are obtained from a given one, or from nothing. -/
inductive Obtained (given : Entries Value) : Entries Value → Prop
  | given : Obtained given given
  /-- Written down between braces. -/
  | literal {nesting : Nat} {items : List Value} {serial : Serial} {new : Entries Value}
    (h : Reader.enclose nesting items .curly = .ok (.map serial new)) : Obtained given new
  | hashMap {m : Machine} {args : List Value} {new : Entries Value}
    (h : Query.hashMap.answer m args = .ok (.map new)) : Obtained given new
  | assoc {m : Machine} {serial : Serial} {args : List Value} {old new : Entries Value}
    (hold : Obtained given old)
    (h : Query.assoc.answer m (.map serial old :: args) = .ok (.map new)) : Obtained given new
  | dissoc {m : Machine} {serial : Serial} {args : List Value} {old new : Entries Value}
    (hold : Obtained given old)
    (h : Query.dissoc.answer m (.map serial old :: args) = .ok (.map new)) : Obtained given new

theorem exists_of_enclose {nesting : Nat} {items : List Value} {serial : Serial}
    (h : Reader.enclose nesting items .curly = .ok (.map serial entries)) :
    ∃ added, entries = Entries.insertAll [] added := by
  simp only [Reader.enclose] at h
  split at h
  · obtain ⟨added, -, hmap⟩ := exists_of_bind_eq_ok h
    cases hmap
    exact ⟨added, Entries.insertMany_eq [] added⟩
  · cases h

theorem exists_of_newMap (h : newMap m args = .ok (.map entries)) :
    ∃ added, entries = Entries.insertAll [] added := by
  obtain ⟨added, -, hmap⟩ := exists_of_bind_eq_ok h
  cases hmap
  exact ⟨added, Entries.insertMany_eq [] added⟩

theorem exists_of_extend {serial : Serial}
    (h : extend m (.map serial old :: args) = .ok (.map entries)) :
    ∃ added, entries = Entries.insertAll old added := by
  obtain ⟨p, hfirst, hpairs⟩ := exists_of_bind_eq_ok h
  cases hfirst
  obtain ⟨added, -, hmap⟩ := exists_of_bind_eq_ok hpairs
  cases hmap
  exact ⟨added, Entries.insertMany_eq old added⟩

theorem exists_of_without {serial : Serial}
    (h : without (.map serial old :: args) = .ok (.map entries)) :
    ∃ dropped, entries = Entries.eraseAll old dropped := by
  unfold without at h
  simp only [mapFirst, bind, Except.bind] at h
  split at h
  · next dropped _ =>
    cases h
    exact ⟨dropped, Entries.eraseMany_eq old dropped⟩
  · cases h

/-- Every step leaves each key once, so all that is obtained has each key once. -/
theorem Obtained.nodup {given : Entries Value} (hgiven : (Entries.keys given).Nodup)
    (h : Obtained given entries) : (Entries.keys entries).Nodup := by
  have hempty : (Entries.keys ([] : Entries Value)).Nodup := List.nodup_nil
  induction h with
  | given => exact hgiven
  | literal h =>
    obtain ⟨added, rfl⟩ := exists_of_enclose h
    exact Entries.nodup_keys_insertAll hempty added
  | hashMap h =>
    obtain ⟨added, rfl⟩ := exists_of_newMap h
    exact Entries.nodup_keys_insertAll hempty added
  | assoc _ h ih =>
    obtain ⟨added, rfl⟩ := exists_of_extend h
    exact Entries.nodup_keys_insertAll ih added
  | dissoc _ h ih =>
    obtain ⟨dropped, rfl⟩ := exists_of_without h
    exact Entries.nodup_keys_eraseAll ih dropped

/-! ### The observers -/

/-- What the observers say about a map with these keys and values, in this order. -/
structure Observed (m : Machine) (v : Value) (keys vals : List Value) : Prop where
  keys_eq  : Query.keys.answer m [v] = .ok (.list keys)
  vals_eq  : Query.vals.answer m [v] = .ok (.list vals)
  nodup    : keys.Nodup
  length   : keys.length = vals.length
  /-- At every place the value is that of the key. -/
  nth      : ∀ (i : Nat) (s t : Serial), i < keys.length → ∃ key value,
    Query.nth.answer m [.list s keys, .int i] = .ok (.value key) ∧
    Query.nth.answer m [.list t vals, .int i] = .ok (.value value) ∧
    Query.get.answer m [v, key] = .ok (.value value)
  /-- The map contains its keys and nothing else. -/
  contains : ∀ key : String, ∃ answer : Bool,
    Query.contains.answer m [v, .text key] = .ok (.ofBool answer) ∧
    (answer = true ↔ .text key ∈ keys)
  /-- Every other key has the value `nil`. -/
  others   : ∀ key : String, .text key ∉ keys →
    Query.get.answer m [v, .text key] = .ok (.value .nil)

theorem answer_get (m : Machine) (serial : Serial) (entries : Entries Value) (key : String) :
    Query.get.answer m [.map serial entries, .text key] =
      .ok (.value ((entries.lookup key).getD .nil)) := rfl

theorem mem_keys_iff {key : String} :
    .text key ∈ (Entries.keys entries).map Value.text ↔ key ∈ Entries.keys entries := by
  simp

/-- A map that has each key once is observed as it is. -/
theorem observed_of_nodup (h : (Entries.keys entries).Nodup) (m : Machine) (serial : Serial) :
    Observed m (.map serial entries) ((Entries.keys entries).map .text) (Entries.vals entries) where
  keys_eq := rfl
  vals_eq := rfl
  nodup := List.Nodup.map (fun _ _ heq => Value.text.inj heq) h
  length := by simp [Entries.keys, Entries.vals]
  nth i s t hi := by
    simp only [Entries.keys, List.length_map] at hi
    have hkey : ((Entries.keys entries).map Value.text)[i]? = some (.text entries[i].1) := by
      simp [Entries.keys, hi]
    have hval : (Entries.vals entries)[i]? = some entries[i].2 := by simp [Entries.vals, hi]
    have hlookup : entries.lookup entries[i].1 = some entries[i].2 :=
      Entries.lookup_of_mem h (List.getElem_mem hi)
    refine ⟨_, _, Sequences.answer_nth rfl hkey, Sequences.answer_nth rfl hval, ?_⟩
    rw [answer_get, hlookup, Option.getD_some]
  contains key := by
    refine ⟨Entries.contains entries key, rfl, ?_⟩
    rw [mem_keys_iff]
    exact Entries.lookup_isSome
  others key hkey := by
    rw [mem_keys_iff, ← Entries.lookup_isSome, Option.not_isSome_iff_eq_none] at hkey
    rw [answer_get, hkey, Option.getD_none]

/-! ### Agreement -/

/-- **Hash-maps are finite maps in order of insertion, however they are built.** For every map that
has each key once, as hash-maps have, and pairs of keys and values:

  * writing the pairs over the map in one call gives the same entries in the same order as writing
    them one at a time, and they are the update of the map;
  * what is written down between braces, what is made of the pairs, and what comes of writing them
    over the empty map, has the same entries in the same order: those of the update of nothing;
  * dropping keys leaves all other entries as they are, and in order;
  * every map that is obtained in these ways has each key once, its keys and values stand at the
    same places, and it contains its keys only; the value of any other key is `nil`. -/
theorem builders_agree (c : Caller) (frame : FrameId) (m : Machine) (given : Entries Value)
    (h : (Entries.keys given).Nodup) :
    (∀ serial added, ∃ new, Entries.Updates given added new ∧
      (Builtin.call c frame (.map serial given :: alternating added) (.query .assoc) m).entries? =
        some new ∧
      (assocEach c frame (.map serial given) added m).entries? = some new) ∧
    (∀ serial added, ∃ new, Entries.Updates [] added new ∧
      (∀ nesting depth stack,
        Reader.push nesting (.bracket depth .curly (alternating added).reverse :: stack)
          (.closer .curly) = .ok (Reader.complete (.map 0 new) stack)) ∧
      (Builtin.call c frame (alternating added) (.query .hashMap) m).entries? = some new ∧
      (Builtin.call c frame (.map serial [] :: alternating added) (.query .assoc) m).entries? =
        some new) ∧
    (∀ (serial : Serial) (dropped : List String),
      (Builtin.call c frame (.map serial given :: dropped.map .text) (.query .dissoc) m).entries? =
        some (given.filter (·.1 ∉ dropped))) ∧
    ∀ entries serial, Obtained given entries →
      ∃ keys vals, Observed m (.map serial entries) keys vals := by
  refine ⟨?_, ?_, ?_, ?_⟩
  · intro serial added
    exact ⟨_, Entries.updates_insertAll given added,
      entries?_of_answer c frame (answer_assoc m serial given added),
      entries?_assocEach c frame serial given added m⟩
  · intro serial added
    refine ⟨_, Entries.updates_insertAll [] added, ?_,
      entries?_of_answer c frame (answer_hashMap m added),
      entries?_of_answer c frame (answer_assoc m serial [] added)⟩
    intro nesting depth stack
    have hmap : Reader.enclose nesting (alternating added) .curly =
        .ok (.map 0 (Entries.insertAll [] added)) := Reader.enclose_map added
    simp only [Reader.push, if_true, List.reverse_reverse, hmap]
    rfl
  · intro serial dropped
    have hfilter : Entries.eraseAll given dropped = given.filter (·.1 ∉ dropped) :=
      List.filter_congr fun entry _ => by simp
    rw [← hfilter]
    exact entries?_of_answer c frame (answer_dissoc m serial given dropped)
  · intro entries serial hobtained
    exact ⟨_, _, observed_of_nodup (hobtained.nodup h) m serial⟩

/-- A map with the keys `b` and `a`. -/
def mapSample : Entries Value := [("b", .int 1), ("a", .int 2)]

/-- `(assoc m "c" 3 "a" 4 "c" 5)`, with a new key twice and an old one. -/
theorem builders_mapSample :
    let added : Entries Value := [("c", .int 3), ("a", .int 4), ("c", .int 5)]
    let new : Entries Value := [("b", .int 1), ("a", .int 4), ("c", .int 5)]
    let c := outermost 0
    (Entries.keys mapSample).Nodup ∧ Obtained mapSample new ∧
      (Builtin.call c 0 (.map 7 mapSample :: alternating added) (.query .assoc)
        Machine.bare).entries? = some new ∧
      (assocEach c 0 (.map 7 mapSample) added Machine.bare).entries? = some new ∧
      ∃ keys vals, Observed Machine.bare (.map 8 new) keys vals := by
  intro added new c
  have hnodup : (Entries.keys mapSample).Nodup := by decide
  have hassoc : Query.assoc.answer Machine.bare (.map 7 mapSample :: alternating added) =
      .ok (.map new) := answer_assoc ..
  have hobtained : Obtained mapSample new := .assoc .given hassoc
  have hagree := builders_agree c 0 Machine.bare mapSample hnodup
  obtain ⟨new', -, hcall, heach⟩ := hagree.1 7 added
  obtain rfl : new = new' := Option.some.inj ((entries?_of_answer c 0 hassoc).symm.trans hcall)
  exact ⟨hnodup, hobtained, hcall, heach, hagree.2.2.2 new 8 hobtained⟩

end HashMaps

end AtomLisp
