import AtomLisp.Proofs.Equality
import AtomLisp.Proofs.HashMaps
import Mathlib.Data.List.Forall2

/-! # Twins

  Twins are values that equality takes for the same. They look alike: both are sequences, with twins
  as items, or both are hash-maps, with twins under the same keys, or they are one and the same
  value. So what is done to the items or the entries of one can be followed on the other.

  * `Value.Twins`: values that mean the same, and `Value.Twins.shape`: what they look like;
  * `Entries.Twins`: entries with twins under the same keys, in whatever order they came;
  * `Entries.Twins.insertAll`, `Entries.Twins.eraseAll`: they stay so when keys are written or
    dropped.
-/

namespace AtomLisp

/-! ### Twins -/

namespace Value

/-- Are two values equal, given enough room? -/
def IsEqual (v w : Value) : Prop := ∃ steps, v.equal steps w = .ok true

/-- Values that mean the same, and whose hash-maps have each key once. -/
structure Twins (v w : Value) : Prop where
  left    : v.UniqueKeys
  right   : w.UniqueKeys
  meaning : v.meaning = w.meaning

theorem Twins.isEqual {v w : Value} (h : v.Twins w) : v.IsEqual w :=
  (exists_equal_iff h.left h.right).2 h.meaning

theorem UniqueKeys.twins {v : Value} (h : v.UniqueKeys) : v.Twins v := ⟨h, h, rfl⟩

theorem forall₂_twins_of_isEqual {vs ws : List Value} (hkeys : ∀ v ∈ vs ++ ws, v.UniqueKeys)
    (h : List.Forall₂ IsEqual vs ws) : List.Forall₂ Twins vs ws := by
  induction h with
  | nil => exact .nil
  | @cons v w vs ws hhead _ ih =>
    have hv : v.UniqueKeys := hkeys v (by simp)
    have hw : w.UniqueKeys := hkeys w (by simp)
    refine .cons ⟨hv, hw, (exists_equal_iff hv hw).1 hhead⟩ (ih fun u hu => hkeys u ?_)
    rcases List.mem_append.1 hu with hu | hu <;> simp [hu]

theorem forall₂_twins_iff {vs ws : List Value} : List.Forall₂ Twins vs ws ↔
    UniqueKeysAll vs ∧ UniqueKeysAll ws ∧ meanings vs = meanings ws := by
  induction vs generalizing ws with
  | nil => cases ws <;> simp [UniqueKeysAll, meanings]
  | cons v vs ih =>
    cases ws with
    | nil => simp [meanings]
    | cons w ws =>
      rw [List.forall₂_cons, ih]
      simp only [UniqueKeysAll, meanings, List.cons.injEq]
      constructor
      · rintro ⟨⟨hv, hw, hhead⟩, hvs, hws, htail⟩
        exact ⟨⟨hv, hvs⟩, ⟨hw, hws⟩, hhead, htail⟩
      · rintro ⟨⟨hv, hvs⟩, ⟨hw, hws⟩, hhead, htail⟩
        exact ⟨⟨hv, hw, hhead⟩, hvs, hws, htail⟩

/-- A list or vector, and its items. -/
inductive IsSequence : Value → List Value → Prop
  | list (serial : Serial) (items : List Value) : IsSequence (.list serial items) items
  | vector (serial : Serial) (items : List Value) : IsSequence (.vector serial items) items

/-- Sequences are twins if their items are. -/
theorem twins_iff_of_isSequence {v w : Value} {xs ys : List Value} (hv : IsSequence v xs)
    (hw : IsSequence w ys) : v.Twins w ↔ List.Forall₂ Twins xs ys := by
  rw [forall₂_twins_iff]
  cases hv <;> cases hw
  all_goals
    exact ⟨fun h => ⟨h.left, h.right, Meaning.sequence.inj h.meaning⟩,
      fun h => ⟨h.1, h.2.1, congrArg Meaning.sequence h.2.2⟩⟩

end Value

/-- Entries with twins under the same keys, in whatever order they came. -/
structure Entries.Twins (xs ys : Entries Value) : Prop where
  left   : (Entries.keys xs).Nodup
  right  : (Entries.keys ys).Nodup
  lookup : ∀ key, Option.Rel Value.Twins (xs.lookup key) (ys.lookup key)

namespace Value

/-- Hash-maps are twins if they have twins under the same keys. -/
theorem twins_map_iff {s t : Serial} {xs ys : Entries Value} :
    (map s xs).Twins (map t ys) ↔ Entries.Twins xs ys := by
  constructor
  · rintro ⟨⟨hxs, hxvals⟩, ⟨hys, hyvals⟩, hmeaning⟩
    refine ⟨hxs, hys, fun key => ?_⟩
    have hkey := congrFun (Meaning.table.inj hmeaning) key
    rw [entryMeaning_eq, entryMeaning_eq] at hkey
    rw [uniqueKeysVals_iff] at hxvals hyvals
    cases hx : xs.lookup key with
    | none =>
      rw [hx, Option.map_none, eq_comm, Option.map_eq_none_iff] at hkey
      rw [hkey]
      exact .none
    | some x =>
      rw [hx, Option.map_some, eq_comm, Option.map_eq_some_iff] at hkey
      obtain ⟨y, hy, hxy⟩ := hkey
      rw [hy]
      exact .some ⟨hxvals x (List.mem_map_of_mem (Entries.mem_of_lookup hx)),
        hyvals y (List.mem_map_of_mem (Entries.mem_of_lookup hy)), hxy.symm⟩
  · rintro ⟨hxs, hys, hlookup⟩
    refine ⟨⟨hxs, uniqueKeysVals_iff.2 fun x hx => ?_⟩,
      ⟨hys, uniqueKeysVals_iff.2 fun y hy => ?_⟩, congrArg Meaning.table (funext fun key => ?_)⟩
    -- Each key is there once, so what is entered is what is found.
    · obtain ⟨entry, hentry, rfl⟩ := List.mem_map.1 hx
      have hkey := hlookup entry.1
      rw [Entries.lookup_of_mem hxs hentry] at hkey
      generalize ys.lookup entry.1 = y at hkey
      cases hkey with
      | some h => exact h.left
    · obtain ⟨entry, hentry, rfl⟩ := List.mem_map.1 hy
      have hkey := hlookup entry.1
      rw [Entries.lookup_of_mem hys hentry] at hkey
      generalize xs.lookup entry.1 = x at hkey
      cases hkey with
      | some h => exact h.right
    · rw [entryMeaning_eq, entryMeaning_eq]
      have hkey := hlookup key
      generalize xs.lookup key = x, ys.lookup key = y at hkey ⊢
      cases hkey with
      | none => rfl
      | some h => exact congrArg some h.meaning

/-- What twins look like: sequences of twins, hash-maps of twins, or one and the same value. -/
inductive Twins.Shape : Value → Value → Prop
  | sequence {v w : Value} {xs ys : List Value} (hv : IsSequence v xs) (hw : IsSequence w ys)
      (items : List.Forall₂ Twins xs ys) : Shape v w
  | table {s t : Serial} {xs ys : Entries Value} (entries : Entries.Twins xs ys) :
      Shape (.map s xs) (.map t ys)
  | single {v : Value} (hitems : v.items? = none) (hmap : ∀ s entries, v ≠ .map s entries) :
      Shape v v

theorem Twins.shape {v w : Value} (h : v.Twins w) : Shape v w := by
  have hsequence : ∀ {xs ys : List Value}, IsSequence v xs → IsSequence w ys → Shape v w :=
    fun hv hw => .sequence hv hw ((twins_iff_of_isSequence hv hw).1 h)
  have hmeaning := h.meaning
  cases v with
  | list | vector =>
    cases w with
    | list | vector => exact hsequence (by constructor) (by constructor)
    | _ => cases hmeaning
  | map =>
    cases w with
    | map => exact .table (twins_map_iff.1 h)
    | _ => cases hmeaning
  | _ =>
    cases w with
    | list | vector | map => cases hmeaning
    | _ =>
      rw [← Meaning.single.inj hmeaning]
      exact .single rfl fun s entries heq => by cases heq

end Value

/-! ### Writing and dropping entries -/

namespace Entries

/-- The same key, and twins under it. -/
def TwinEntries (x y : String × Value) : Prop := x.1 = y.1 ∧ x.2.Twins y.2

theorem rel_lookup {ps qs : Entries Value} (h : List.Forall₂ TwinEntries ps qs) (key : String) :
    Option.Rel Value.Twins (ps.lookup key) (qs.lookup key) := by
  induction h with
  | nil => exact .none
  | @cons p q ps qs hhead _ ih =>
    obtain ⟨k, x⟩ := p
    obtain ⟨l, y⟩ := q
    obtain ⟨rfl, hxy⟩ : k = l ∧ x.Twins y := hhead
    rw [List.lookup_cons, List.lookup_cons]
    cases key == k with
    | true => exact .some hxy
    | false => exact ih

theorem rel_or {α β : Type} {R : α → β → Prop} {x x' : Option α} {y y' : Option β}
    (h : Option.Rel R x y) (h' : Option.Rel R x' y') : Option.Rel R (x.or x') (y.or y') := by
  cases h with
  | none => exact h'
  | some h => exact .some h

theorem lookup_eraseAll {α : Type} (entries : Entries α) (dropped : List String) (key : String) :
    (eraseAll entries dropped).lookup key =
      if key ∈ dropped then none else entries.lookup key := by
  induction entries with
  | nil => simp [eraseAll]
  | cons entry rest ih =>
    obtain ⟨k, v⟩ := entry
    have hcons : eraseAll ((k, v) :: rest) dropped =
        if k ∈ dropped then eraseAll rest dropped else (k, v) :: eraseAll rest dropped := by
      by_cases h : k ∈ dropped <;> simp [eraseAll, h]
    rw [hcons]
    by_cases hk : key = k
    · subst hk
      by_cases h : key ∈ dropped
      · rw [if_pos h, ih, if_pos h, if_pos h]
      · rw [if_neg h, if_neg h, List.lookup_cons_self, List.lookup_cons_self]
    · have hne : (key == k) = false := by simpa using hk
      rw [List.lookup_cons, hne]
      split
      · exact ih
      · rw [List.lookup_cons, hne]
        exact ih

variable {xs ys : Entries Value}

/-- The last value of a key counts on both sides. -/
theorem Twins.insertAll (h : Twins xs ys) {ps qs : Entries Value}
    (hpairs : List.Forall₂ TwinEntries ps qs) : Twins (insertAll xs ps) (insertAll ys qs) := by
  refine ⟨nodup_keys_insertAll h.left ps, nodup_keys_insertAll h.right qs, fun key => ?_⟩
  rw [lookup_insertAll, lookup_insertAll]
  exact rel_or (rel_lookup (List.forall₂_reverse_iff.2 hpairs) key) (h.lookup key)

theorem Twins.eraseAll (h : Twins xs ys) (dropped : List String) :
    Twins (eraseAll xs dropped) (eraseAll ys dropped) := by
  refine ⟨nodup_keys_eraseAll h.left dropped, nodup_keys_eraseAll h.right dropped, fun key => ?_⟩
  rw [lookup_eraseAll, lookup_eraseAll]
  split
  · exact .none
  · exact h.lookup key

theorem Twins.contains_eq (h : Twins xs ys) (key : String) : contains xs key = contains ys key := by
  have hkey := h.lookup key
  unfold contains
  generalize xs.lookup key = x, ys.lookup key = y at hkey ⊢
  cases hkey <;> rfl

end Entries

/-! ### Parts of twins -/

namespace Value

theorem twins_bool (b : Bool) : (Value.bool b).Twins (.bool b) := UniqueKeys.twins trivial

theorem twins_nil : Value.nil.Twins .nil := UniqueKeys.twins trivial

theorem Twins.items {v w : Value} (h : v.Twins w) :
    Option.Rel (List.Forall₂ Twins) v.items? w.items? := by
  cases h.shape with
  | sequence hv hw items =>
    cases hv <;> cases hw <;> exact .some items
  | table => exact .none
  | single hitems =>
    rw [hitems]
    exact .none

theorem Twins.isSequential_eq {v w : Value} (h : v.Twins w) : v.isSequential = w.isSequential := by
  have hitems := h.items
  unfold isSequential
  generalize v.items? = x, w.items? = y at hitems ⊢
  cases hitems <;> rfl

theorem Twins.isEmpty_eq {v w : Value} (h : v.Twins w) :
    (v.items? == some []) = (w.items? == some []) := by
  have hitems := h.items
  generalize v.items? = x, w.items? = y at hitems ⊢
  cases hitems with
  | none => rfl
  | some items => cases items <;> rfl

theorem Twins.countOf_eq {v w : Value} (h : v.Twins w) :
    Sequences.countOf v = Sequences.countOf w := by
  have hitems := h.items
  unfold Sequences.countOf
  generalize v.items? = x, w.items? = y at hitems ⊢
  cases hitems with
  | none => rfl
  | some items => exact items.length_eq

theorem twins_getD {x y : Option Value} (h : Option.Rel Twins x y) :
    (x.getD .nil).Twins (y.getD .nil) := by
  cases h with
  | none => exact twins_nil
  | some h => exact h

theorem rel_getElem? {xs ys : List Value} (h : List.Forall₂ Twins xs ys) (i : Nat) :
    Option.Rel Twins xs[i]? ys[i]? := by
  induction h generalizing i with
  | nil => exact .none
  | cons hhead _ ih =>
    cases i with
    | zero => exact .some hhead
    | succ i => exact ih i

end Value

end AtomLisp
