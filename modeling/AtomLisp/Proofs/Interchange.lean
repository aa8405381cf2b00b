import AtomLisp.Proofs.Interchange.Twins
import AtomLisp.Proofs.Unbounded

/-! # Equal arguments are interchangeable

  The builtins that take collections apart and put them together cannot tell a list from a vector,
  nor in which order the entries of a hash-map came, at any depth. Given arguments that are equal
  one by one, they answer equal values, or fail with both and for the same kind of reason.

  Equality itself keeps to a depth, and stops at the first pair that differs. So it may give up on a
  pair that it does not come to when the entries are in another order.

  * `Concurs`: two computations answer alike, or both fail;
  * `concurs_answer`: the builtins on collections do, but for equality, and `concurs_areEqual`: so
    does equality, unless it gives up;
  * `call_interchange`: what calls with equal arguments have in common;
  * `equal_depends_on_order`: equality gives up on one order of entries, and not on another.
-/

namespace AtomLisp

open Builtin

/-! ### Answering alike -/

/-- Errors of one kind: only what a message says about the arguments may differ. -/
inductive Error.SameClass : Error → Error → Prop
  | same (e : Error) : SameClass e e
  | arguments (callee : String) (why why' : Misuse) :
      SameClass (.invalidArguments callee why) (.invalidArguments callee why')

/-- The values can be shown in messages. -/
def Machine.Shows (m : Machine) (vs : List Value) : Prop :=
  ∀ v ∈ vs, ∃ text, m.print true v = .ok text

/-- Two computations come to related results, or both fail; for the same kind of reason if `shown`,
which says that every argument can be shown in a message. -/
inductive Concurs {α β : Type} (shown : Prop) (R : α → β → Prop) :
    Except Error α → Except Error β → Prop
  | ok {a : α} {b : β} (h : R a b) : Concurs shown R (.ok a) (.ok b)
  | error {e e' : Error} (h : shown → e.SameClass e') : Concurs shown R (.error e) (.error e')

namespace Concurs

variable {α β γ δ : Type} {shown : Prop} {R : α → β → Prop} {S : γ → δ → Prop}

theorem bind {x : Except Error α} {y : Except Error β} {f : α → Except Error γ}
    {g : β → Except Error δ} (h : Concurs shown R x y)
    (hfg : ∀ a b, R a b → Concurs shown S (f a) (g b)) : Concurs shown S (x >>= f) (y >>= g) := by
  cases h with
  | ok h => exact hfg _ _ h
  | error h => exact .error h

theorem same (e : Error) : Concurs shown R (.error e) (.error e) := .error fun _ => .same e

theorem misuse (callee : String) (why why' : Misuse) :
    Concurs shown R (Arguments.misuse callee why) (Arguments.misuse callee why') :=
  .error fun _ => .arguments callee why why'

/-- Messages that show different values are of one kind, if the values can be shown. -/
theorem misuse_shown {m : Machine} {v w : Value}
    (hv : shown → ∃ text, m.print true v = .ok text)
    (hw : shown → ∃ text, m.print true w = .ok text) (callee : String) (why : String → Misuse) :
    Concurs shown R (do Arguments.misuse callee (why (← m.print true v)))
      (do Arguments.misuse callee (why (← m.print true w))) := by
  cases hprint : m.print true v with
  | ok text =>
    cases hprint' : m.print true w with
    | ok text' => exact misuse callee (why text) (why text')
    | error e =>
      refine .error fun h => ?_
      obtain ⟨text', htext⟩ := hw h
      rw [hprint'] at htext
      cases htext
  | error e =>
    have hnot : ¬ shown := by
      intro h
      obtain ⟨text, htext⟩ := hv h
      rw [hprint] at htext
      cases htext
    cases m.print true w with
    | ok text' => exact .error fun h => absurd h hnot
    | error e' => exact .error fun h => absurd h hnot

end Concurs

/-- What is answered means the same. -/
inductive Answer.Twins : Answer → Answer → Prop
  | value {v w : Value} (h : v.Twins w) : Twins (.value v) (.value w)
  | list {xs ys : List Value} (h : List.Forall₂ Value.Twins xs ys) : Twins (.list xs) (.list ys)
  | vector {xs ys : List Value} (h : List.Forall₂ Value.Twins xs ys) :
      Twins (.vector xs) (.vector ys)
  | map {xs ys : Entries Value} (h : Entries.Twins xs ys) : Twins (.map xs) (.map ys)

/-- What is made of answers that mean the same means the same. -/
theorem Answer.Twins.make {a b : Answer} (h : Answer.Twins a b) (m : Machine) :
    ∃ v w n n', a.make m = .done v n ∧ b.make m = .done w n' ∧ v.Twins w := by
  cases h with
  | value h => exact ⟨_, _, m, m, rfl, rfl, h⟩
  | list h | vector h =>
    exact ⟨_, _, _, _, rfl, rfl,
      (Value.twins_iff_of_isSequence (by constructor) (by constructor)).2 h⟩
  | map h => exact ⟨_, _, _, _, rfl, rfl, Value.twins_map_iff.2 h⟩

namespace Arguments

section
variable {shown : Prop} {args args' : List Value} (h : List.Forall₂ Value.Twins args args')
include h

theorem concurs_one (callee : String) :
    Concurs shown Value.Twins (one callee args) (one callee args') := by
  cases h with
  | nil => exact .misuse ..
  | cons hv hrest =>
    cases hrest with
    | nil => exact .ok hv
    | cons => exact .misuse ..

theorem concurs_two (callee : String) :
    Concurs shown (fun p q => p.1.Twins q.1 ∧ p.2.Twins q.2) (two callee args)
      (two callee args') := by
  cases h with
  | nil => exact .misuse ..
  | cons hv hrest =>
    cases hrest with
    | nil => exact .misuse ..
    | cons hw hrest =>
      cases hrest with
      | nil => exact .ok ⟨hv, hw⟩
      | cons => exact .misuse ..

theorem concurs_test (callee : String) {p : Value → Bool}
    (hp : ∀ v w : Value, v.Twins w → p v = p w) :
    Concurs shown Answer.Twins (test callee p args) (test callee p args') := by
  refine (concurs_one h callee).bind fun v w hvw => ?_
  rw [hp v w hvw]
  exact .ok (.value (Value.twins_bool _))

end

end Arguments

open Arguments

/-! ### Sequences -/

namespace Sequences

variable {shown : Prop}

theorem concurs_itemsOrNil {v w : Value} (h : v.Twins w) (callee : String) :
    Concurs shown (List.Forall₂ Value.Twins) (itemsOrNil callee v) (itemsOrNil callee w) := by
  cases h.shape with
  | sequence hv hw items =>
    cases hv <;> cases hw <;> exact .ok items
  | table => exact .misuse ..
  | single hitems =>
    cases v with
    | nil => exact .ok .nil
    | list | vector => cases hitems
    | _ => exact .misuse ..

/-- The item at an index. -/
def itemAt (items : List Value) (index : Int) : Except Error Answer :=
  match index with
  | .ofNat i =>
    match items[i]? with
    | some v => .ok (.value v)
    | none => .error (indexFault index items.length)
  | .negSucc _ => .error (indexFault index items.length)

theorem elementAt_pair (v w : Value) :
    elementAt [v, w] =
      match v.items?, w with
      | some items, .int index => itemAt items index
      | _, _ => misuse Query.nth.name .sequenceAndNumber := by
  cases v with
  | list | vector =>
    cases w with
    | int index => cases index <;> rfl
    | _ => rfl
  | _ => cases w <;> rfl

theorem concurs_itemAt {xs ys : List Value} (h : List.Forall₂ Value.Twins xs ys) (index : Int) :
    Concurs shown Answer.Twins (itemAt xs index) (itemAt ys index) := by
  unfold itemAt
  rw [h.length_eq]
  cases index with
  | ofNat i =>
    have hitem := Value.rel_getElem? h i
    simp only
    generalize xs[i]? = x, ys[i]? = y at hitem ⊢
    cases hitem with
    | none => exact .same _
    | some hxy => exact .ok (.value hxy)
  | negSucc i => exact .same _

theorem twins_ofItems {xs ys : List Value} (h : List.Forall₂ Value.Twins xs ys) :
    Answer.Twins (elements.ofItems xs) (elements.ofItems ys) := by
  cases h with
  | nil => exact .value Value.twins_nil
  | cons hhead hrest => exact .list (.cons hhead hrest)

section
variable {args args' : List Value} (h : List.Forall₂ Value.Twins args args')
include h

theorem concurs_sizeOf : Concurs shown Answer.Twins (sizeOf args) (sizeOf args') := by
  refine (concurs_one h Query.count.name).bind fun v w hvw => ?_
  rw [hvw.countOf_eq]
  exact .ok (.value (Value.UniqueKeys.twins trivial))

theorem concurs_toVector : Concurs shown Answer.Twins (toVector args) (toVector args') := by
  refine (concurs_one h Query.vec.name).bind fun v w hvw => ?_
  have hitems := hvw.items
  generalize v.items? = x, w.items? = y at hitems ⊢
  cases hitems with
  | none => exact .misuse ..
  | some items => exact .ok (.vector items)

theorem concurs_firstOf : Concurs shown Answer.Twins (firstOf args) (firstOf args') := by
  refine (concurs_one h Query.first.name).bind fun v w hvw => ?_
  refine (concurs_itemsOrNil hvw _).bind fun xs ys hitems => ?_
  rw [List.head?_eq_getElem?, List.head?_eq_getElem?]
  exact .ok (.value (Value.twins_getD (Value.rel_getElem? hitems 0)))

theorem concurs_restOf : Concurs shown Answer.Twins (restOf args) (restOf args') := by
  refine (concurs_one h Query.rest.name).bind fun v w hvw => ?_
  cases hvw.shape with
  | sequence hv hw items =>
    have htail := List.forall₂_drop 1 items
    rw [List.drop_one, List.drop_one] at htail
    cases hv <;> cases hw <;> exact .ok (.list htail)
  | table => exact .misuse ..
  | single hitems =>
    cases v with
    | nil => exact .ok (.value (Value.UniqueKeys.twins trivial))
    | list | vector => cases hitems
    | _ => exact .misuse ..

theorem concurs_elementAt : Concurs shown Answer.Twins (elementAt args) (elementAt args') := by
  refine (concurs_two h Query.nth.name).bind ?_
  rintro ⟨v, i⟩ ⟨w, j⟩ ⟨hvw, hij⟩
  show Concurs shown Answer.Twins (elementAt [v, i]) (elementAt [w, j])
  rw [elementAt_pair, elementAt_pair]
  have hitems := hvw.items
  generalize v.items? = x, w.items? = y at hitems ⊢
  cases hitems with
  | none => exact .misuse ..
  | some items =>
    -- An index is a number; what else it could be is refused for every sequence.
    cases hij.shape with
    | sequence hi hj =>
      cases hi <;> cases hj <;> exact .misuse ..
    | table => exact .misuse ..
    | single =>
      cases i with
      | int index => exact concurs_itemAt items index
      | _ => exact .misuse ..

theorem concurs_prepend : Concurs shown Answer.Twins (prepend args) (prepend args') := by
  refine (concurs_two h Query.cons.name).bind ?_
  rintro ⟨v, tail⟩ ⟨w, tail'⟩ ⟨hvw, htail⟩
  have hitems := htail.items
  simp only
  generalize tail.items? = x, tail'.items? = y at hitems ⊢
  cases hitems with
  | none => exact .misuse ..
  | some items => exact .ok (.list (.cons hvw items))

theorem concurs_elements : Concurs shown Answer.Twins (elements args) (elements args') := by
  refine (concurs_one h Query.seq.name).bind fun v w hvw => ?_
  cases hvw.shape with
  | sequence hv hw items =>
    cases hv <;> cases hw <;> exact .ok (twins_ofItems items)
  | table => exact .misuse ..
  | single hitems =>
    cases v with
    | nil => exact .ok (.value Value.twins_nil)
    | list | vector => cases hitems
    | text s =>
      simp only
      split
      · exact .misuse ..
      · refine .ok (twins_ofItems (List.forall₂_same.2 fun v hv => ?_))
        obtain ⟨c, -, rfl⟩ := List.mem_map.1 hv
        exact Value.UniqueKeys.twins trivial
    | _ => exact .misuse ..

theorem concurs_join {m : Machine} (hleft : shown → m.Shows args)
    (hright : shown → m.Shows args') :
    Concurs shown Answer.Twins (join m args) (join m args') := by
  have hitems : Concurs shown (List.Forall₂ Value.Twins) (joinItems m args)
      (joinItems m args') := by
    induction h with
    | nil => exact .ok .nil
    | @cons v w vs ws hvw hrest ih =>
      have hitems := hvw.items
      unfold joinItems
      generalize v.items? = x, w.items? = y at hitems ⊢
      cases hitems with
      | none =>
        exact .misuse_shown (fun hshown => hleft hshown v (List.mem_cons_self ..))
          (fun hshown => hright hshown w (List.mem_cons_self ..)) _ _
      | some items =>
        refine (ih (fun hshown u hu => hleft hshown u (List.mem_cons_of_mem _ hu))
          fun hshown u hu => hright hshown u (List.mem_cons_of_mem _ hu)).bind ?_
        intro others others' hothers
        exact .ok (List.rel_append items hothers)
  exact hitems.bind fun xs ys hxys => .ok (.list hxys)

end

end Sequences

/-! ### Hash-maps -/

namespace HashMaps

variable {shown : Prop} {m : Machine}

theorem keyValues_singleton (callee : String) (m : Machine) (v : Value) :
    keyValues callee m [v] = .ok [] := by
  cases v <;> rfl

section
variable {args args' : List Value} (h : List.Forall₂ Value.Twins args args')
include h

theorem concurs_keyValues (callee : String) (hleft : shown → m.Shows args)
    (hright : shown → m.Shows args') :
    Concurs shown (List.Forall₂ Entries.TwinEntries) (keyValues callee m args)
      (keyValues callee m args') := by
  -- A key and its value are taken at a time.
  induction args using List.twoStepInduction generalizing args' with
  | nil =>
    cases h
    exact .ok .nil
  | singleton k =>
    cases h with
    | cons hk h =>
      cases h
      rw [keyValues_singleton, keyValues_singleton]
      exact .ok .nil
  | cons_cons k v rest ih =>
    cases h with
    | @cons _ k' _ _ hk h =>
      cases h with
      | @cons _ v' _ rest' hv hrest =>
        have hmisuse := Concurs.misuse_shown (R := List.Forall₂ Entries.TwinEntries)
          (fun hshown => hleft hshown k (by simp)) (fun hshown => hright hshown k' (by simp))
          callee .mapKey
        -- Twins of a text are that text; every other key is refused on both sides.
        cases hk.shape with
        | sequence hk hk' =>
          cases hk <;> cases hk' <;> exact hmisuse
        | table => exact hmisuse
        | single =>
          cases k with
          | text key =>
            refine (ih hrest (fun hshown u hu => hleft hshown u (by simp [hu]))
              fun hshown u hu => hright hshown u (by simp [hu])).bind ?_
            intro others others' hothers
            exact .ok (.cons ⟨rfl, hv⟩ hothers)
          | _ => exact hmisuse

theorem concurs_pairs (callee : String) (hleft : shown → m.Shows args)
    (hright : shown → m.Shows args') :
    Concurs shown (List.Forall₂ Entries.TwinEntries) (pairs callee m args)
      (pairs callee m args') := by
  unfold pairs
  rw [h.length_eq]
  split
  · exact concurs_keyValues h callee hleft hright
  · exact .misuse ..

theorem concurs_newMap (hleft : shown → m.Shows args) (hright : shown → m.Shows args') :
    Concurs shown Answer.Twins (newMap m args) (newMap m args') := by
  refine (concurs_pairs h _ hleft hright).bind fun ps qs hpairs => ?_
  have hempty : Entries.Twins [] [] := ⟨List.nodup_nil, List.nodup_nil, fun _ => .none⟩
  rw [Entries.insertMany_eq, Entries.insertMany_eq]
  exact .ok (.map (hempty.insertAll hpairs))

theorem concurs_mapFirst (callee : String) :
    Concurs shown
      (fun p q => Entries.Twins p.1 q.1 ∧ List.Forall₂ Value.Twins p.2 q.2 ∧
        p.2 ⊆ args ∧ q.2 ⊆ args')
      (mapFirst callee args) (mapFirst callee args') := by
  cases h with
  | nil => exact .misuse ..
  | @cons v w vs ws hvw hrest =>
    cases hvw.shape with
    | sequence hv hw =>
      cases hv <;> cases hw <;> exact .misuse ..
    | table entries =>
      exact .ok ⟨entries, hrest, List.subset_cons_self .., List.subset_cons_self ..⟩
    | single _ hmap =>
      cases v with
      | map s entries => exact absurd rfl (hmap s entries)
      | _ => exact .misuse ..

theorem concurs_extend (hleft : shown → m.Shows args) (hright : shown → m.Shows args') :
    Concurs shown Answer.Twins (extend m args) (extend m args') := by
  refine (concurs_mapFirst h Query.assoc.name).bind ?_
  rintro ⟨xs, rest⟩ ⟨ys, rest'⟩ ⟨hentries, hrest, hsub, hsub'⟩
  refine (concurs_pairs hrest _ (fun hshown v hv => hleft hshown v (hsub hv))
    fun hshown v hv => hright hshown v (hsub' hv)).bind fun ps qs hpairs => ?_
  rw [Entries.insertMany_eq, Entries.insertMany_eq]
  exact .ok (.map (hentries.insertAll hpairs))

theorem texts?_eq : texts? args = texts? args' := by
  induction h with
  | nil => rfl
  | @cons v w vs ws hvw _ ih =>
    cases hvw.shape with
    | sequence hv hw =>
      cases hv <;> cases hw <;> rfl
    | table => rfl
    | single =>
      cases v with
      | text s => rw [texts?, texts?, ih]
      | _ => rfl

theorem concurs_without : Concurs shown Answer.Twins (without args) (without args') := by
  refine (concurs_mapFirst h Query.dissoc.name).bind ?_
  rintro ⟨xs, rest⟩ ⟨ys, rest'⟩ ⟨hentries, hrest, -⟩
  simp only [texts?_eq hrest, Entries.eraseMany_eq]
  split
  · exact .ok (.map (hentries.eraseAll _))
  · exact .misuse ..

theorem concurs_valueOf : Concurs shown Answer.Twins (valueOf args) (valueOf args') := by
  refine (concurs_two h Query.get.name).bind ?_
  rintro ⟨v, key⟩ ⟨w, key'⟩ ⟨hvw, hkey⟩
  cases hkey.shape with
  | sequence hkey hkey' =>
    cases hkey <;> cases hkey' <;> exact .misuse ..
  | table => exact .misuse ..
  | single =>
    cases key with
    | text key =>
      cases hvw.shape with
      | sequence hv hw =>
        cases hv <;> cases hw <;> exact .misuse ..
      | table entries => exact .ok (.value (Value.twins_getD (entries.lookup key)))
      | single _ hmap =>
        cases v with
        | nil => exact .ok (.value Value.twins_nil)
        | map s entries => exact absurd rfl (hmap s entries)
        | _ => exact .misuse ..
    | _ => exact .misuse ..

theorem concurs_hasKey : Concurs shown Answer.Twins (hasKey args) (hasKey args') := by
  refine (concurs_two h Query.contains.name).bind ?_
  rintro ⟨v, key⟩ ⟨w, key'⟩ ⟨hvw, hkey⟩
  cases hvw.shape with
  | sequence hv hw =>
    cases hv <;> cases hw <;> exact .misuse ..
  | table entries =>
    cases hkey.shape with
    | sequence hkey hkey' =>
      cases hkey <;> cases hkey' <;> exact .misuse ..
    | table => exact .misuse ..
    | single =>
      cases key with
      | text key =>
        simp only [entries.contains_eq key]
        exact .ok (.value (Value.twins_bool _))
      | _ => exact .misuse ..
  | single _ hmap =>
    cases v with
    | map s entries => exact absurd rfl (hmap s entries)
    | _ => exact .misuse ..

end

end HashMaps

/-! ### Equality -/

theorem areEqual_eq (m : Machine) (v w : Value) :
    areEqual m [v, w] = (v.equal m.host.limits.nesting w).map Answer.ofBool := by
  show (v.equal m.host.limits.nesting w >>= fun b => .ok (Answer.ofBool b)) = _
  cases v.equal m.host.limits.nesting w <;> rfl

/-- Equality says whether the meanings are the same, unless it gives up. -/
theorem areEqual_pair (m : Machine) {v w : Value} {b : Bool} (hv : v.UniqueKeys)
    (hw : w.UniqueKeys) (hb : b = true ↔ v.meaning = w.meaning) :
    areEqual m [v, w] = .ok (.ofBool b) ∨
      areEqual m [v, w] = .error .tooDeep ∧ m.host.limits.nesting < v.steps := by
  rw [areEqual_eq]
  rcases (Value.equal_settles m.host.limits.nesting hv hw).eq_answer hb with h | ⟨h, hdeep⟩
  · rw [h]
    exact .inl rfl
  · rw [h]
    exact .inr ⟨rfl, hdeep⟩

/-- Equality says the same of twins, unless it gives up on one side. -/
theorem concurs_areEqual {shown : Prop} {m : Machine} {args args' : List Value}
    (h : List.Forall₂ Value.Twins args args') :
    Concurs shown Answer.Twins (areEqual m args) (areEqual m args') ∨
      (∃ v ∈ args ++ args', m.host.limits.nesting < v.steps) ∧
        ∃ b : Bool,
          areEqual m args = .error .tooDeep ∧ areEqual m args' = .ok (.ofBool b) ∨
          areEqual m args = .ok (.ofBool b) ∧ areEqual m args' = .error .tooDeep := by
  cases h with
  | nil => exact .inl (.misuse ..)
  | @cons v v' _ _ hv hrest =>
    cases hrest with
    | nil => exact .inl (.misuse ..)
    | @cons w w' _ _ hw hrest =>
      cases hrest with
      | cons => exact .inl (.misuse ..)
      | nil =>
        -- The meanings are the same on both sides, so both questions have one answer.
        obtain ⟨b, hb⟩ : ∃ b : Bool, b = true ↔ v.meaning = w.meaning := by
          classical exact ⟨decide (v.meaning = w.meaning), decide_eq_true_iff⟩
        have hb' : b = true ↔ v'.meaning = w'.meaning := by rw [hb, hv.meaning, hw.meaning]
        rcases areEqual_pair m hv.left hw.left hb with h | ⟨h, hdeep⟩ <;>
          rcases areEqual_pair m hv.right hw.right hb' with h' | ⟨h', hdeep'⟩
        · rw [h, h']
          exact .inl (.ok (.value (Value.twins_bool b)))
        · exact .inr ⟨⟨v', by simp, hdeep'⟩, b, .inr ⟨h, h'⟩⟩
        · exact .inr ⟨⟨v, by simp, hdeep⟩, b, .inl ⟨h, h'⟩⟩
        · rw [h, h']
          exact .inl (.same _)

/-! ### Calls -/

/-- The builtins that take collections apart and put them together, or compare them. -/
def Builtin.Query.onCollections : List Query :=
  [.first, .rest, .nth, .count, .isEmpty, .isSequential, .cons, .concat, .vec, .seq,
    .hashMap, .assoc, .dissoc, .get, .contains, .equal]

/-- Each of the builtins on collections but equality answers alike or fails alike when it is given
twins. -/
theorem concurs_answer {q : Query} (hq : q ∈ Query.onCollections) (hne : q ≠ .equal) {m : Machine}
    {args args' : List Value} (h : List.Forall₂ Value.Twins args args') :
    Concurs (m.Shows (args ++ args')) Answer.Twins (q.answer m args) (q.answer m args') := by
  have hleft : m.Shows (args ++ args') → m.Shows args :=
    fun hshown v hv => hshown v (List.mem_append_left _ hv)
  have hright : m.Shows (args ++ args') → m.Shows args' :=
    fun hshown v hv => hshown v (List.mem_append_right _ hv)
  cases q with
  | first => exact Sequences.concurs_firstOf h
  | rest => exact Sequences.concurs_restOf h
  | nth => exact Sequences.concurs_elementAt h
  | count => exact Sequences.concurs_sizeOf h
  | isEmpty => exact Arguments.concurs_test h _ fun v w hvw => hvw.isEmpty_eq
  | isSequential => exact Arguments.concurs_test h _ fun v w hvw => hvw.isSequential_eq
  | cons => exact Sequences.concurs_prepend h
  | concat => exact Sequences.concurs_join h hleft hright
  | vec => exact Sequences.concurs_toVector h
  | seq => exact Sequences.concurs_elements h
  | hashMap => exact HashMaps.concurs_newMap h hleft hright
  | assoc => exact HashMaps.concurs_extend h hleft hright
  | dissoc => exact HashMaps.concurs_without h
  | get => exact HashMaps.concurs_valueOf h
  | contains => exact HashMaps.concurs_hasKey h
  | equal => exact absurd rfl hne
  | _ => exact absurd hq (by decide)

section
variable (c : Caller) (frame : FrameId) {m : Machine} {q : Query} {args args' : List Value}

theorem call_of_concurs {shown : Prop}
    (h : Concurs shown Answer.Twins (q.answer m args) (q.answer m args')) :
    let r := Builtin.call c frame args (.query q) m
    let r' := Builtin.call c frame args' (.query q) m
    (∃ v v' n n', r = .done v n ∧ r' = .done v' n' ∧ v.IsEqual v') ∨
    (∃ e e', r = .failed e m ∧ r' = .failed e' m ∧ (shown → e.SameClass e')) := by
  intro r r'
  generalize hanswer : q.answer m args = x, hanswer' : q.answer m args' = y at h
  cases h with
  | ok h =>
    obtain ⟨v, w, n, n', hv, hw, hvw⟩ := h.make m
    refine .inl ⟨v, w, n, n', ?_, ?_, hvw.isEqual⟩
    · exact (call_of_ok c frame hanswer).trans hv
    · exact (call_of_ok c frame hanswer').trans hw
  | @error e e' h =>
    exact .inr ⟨e, e', call_of_error c frame hanswer, call_of_error c frame hanswer', h⟩

end

/-- **Equal arguments are interchangeable.** Each of the builtins on collections, called with
arguments and with others that are equal to them one by one:

  * answers equal values in both calls;
  * or fails in both calls, and leaves the machine as it was; if all arguments can be shown, both
    errors are of one kind;
  * or is `=`, and gives up in one of the calls only, because an argument is nested too deeply to be
    shown. -/
theorem call_interchange (c : Caller) (frame : FrameId) (m : Machine) {q : Query}
    (hq : q ∈ Query.onCollections) {args args' : List Value}
    (hkeys : ∀ v ∈ args ++ args', v.UniqueKeys) (hequal : List.Forall₂ Value.IsEqual args args') :
    let r := Builtin.call c frame args (.query q) m
    let r' := Builtin.call c frame args' (.query q) m
    (∃ v v' n n', r = .done v n ∧ r' = .done v' n' ∧ v.IsEqual v') ∨
    (∃ e e', r = .failed e m ∧ r' = .failed e' m ∧
      (m.Shows (args ++ args') → e.SameClass e')) ∨
    (q = .equal ∧
      (∃ v ∈ args ++ args', m.host.limits.nesting < v.steps ∧
        ∀ text, m.print true v ≠ .ok text) ∧
      ∃ b, r = .failed .tooDeep m ∧ r' = .done (.bool b) m ∨
        r = .done (.bool b) m ∧ r' = .failed .tooDeep m) := by
  intro r r'
  have htwins := Value.forall₂_twins_of_isEqual hkeys hequal
  by_cases hne : q = .equal
  · subst hne
    rcases concurs_areEqual (m := m) htwins with h | ⟨⟨v, hv, hdeep⟩, b, h⟩
    · exact (call_of_concurs c frame h).imp_right .inl
    · refine .inr (.inr ⟨rfl, ⟨v, hv, hdeep, fun text htext => ?_⟩, b, ?_⟩)
      · exact Nat.not_lt.2 (Value.steps_le_of_print htext) hdeep
      · rcases h with ⟨h, h'⟩ | ⟨h, h'⟩
        · exact .inl ⟨call_of_error c frame h, call_of_ok c frame (q := .equal) h'⟩
        · exact .inr ⟨call_of_ok c frame (q := .equal) h, call_of_error c frame h'⟩
  · exact (call_of_concurs c frame (concurs_answer hq hne htwins)).imp_right .inl

/-- A hash-map, a key of it, and a vector for that key. -/
def assocArgs : List Value :=
  [.map 1 [("a", .list 2 [.int 1]), ("b", .nil)], .text "a", .vector 3 [.list 4 []]]

/-- The same with lists and vectors exchanged, and with the entries in another order. -/
def assocArgs' : List Value :=
  [.map 5 [("b", .nil), ("a", .vector 6 [.int 1])], .text "a", .list 7 [.vector 8 []]]

theorem call_interchange_assoc :
    let r := Builtin.call (outermost 0) 0 assocArgs (.query .assoc) Machine.bare
    let r' := Builtin.call (outermost 0) 0 assocArgs' (.query .assoc) Machine.bare
    Query.assoc ∈ Query.onCollections ∧ (∀ v ∈ assocArgs ++ assocArgs', v.UniqueKeys) ∧
      List.Forall₂ Value.IsEqual assocArgs assocArgs' ∧
      ∃ v v' n n', r = .done v n ∧ r' = .done v' n' ∧ v.IsEqual v' := by
  intro r r'
  have hq : Query.assoc ∈ Query.onCollections := by decide
  have hkeys : ∀ v ∈ assocArgs ++ assocArgs', v.UniqueKeys := by
    simp [assocArgs, assocArgs', Value.UniqueKeys, Value.UniqueKeysAll, Value.UniqueKeysVals,
      Entries.keys]
  have hequal : List.Forall₂ Value.IsEqual assocArgs assocArgs' :=
    .cons ⟨9, by decide +kernel⟩ (.cons ⟨1, rfl⟩ (.cons ⟨9, by decide +kernel⟩ .nil))
  have hdone : r.entries?.isSome = true := by decide +kernel
  refine ⟨hq, hkeys, hequal, ?_⟩
  rcases call_interchange (outermost 0) 0 Machine.bare hq hkeys hequal with
    h | ⟨e, e', hfailed, -⟩ | ⟨hne, -⟩
  · exact h
  · rw [show r = .failed e Machine.bare from hfailed] at hdone
    cases hdone
  · cases hne

/-! ### Where equality gives up -/

/-- A list in a list and so on, so many deep, with numbers from `first` on. -/
def nestedList (first : Serial) : (depth : Nat) → Value
  | 0 => .list first []
  | depth + 1 => .list (first + depth + 1) [nestedList first depth]

theorem uniqueKeys_nestedList (first : Serial) (depth : Nat) :
    (nestedList first depth).UniqueKeys := by
  induction depth with
  | zero => trivial
  | succ depth ih => exact ⟨ih, trivial⟩

/-- Lists that were made apart from each other are compared to the bottom. -/
theorem equal_nestedList {s t : Serial} (hne : s ≠ t) {depth steps : Nat}
    (hsteps : steps ≤ 3 * depth) :
    (nestedList s depth).equal steps (nestedList t depth) = .error .tooDeep := by
  induction depth generalizing steps with
  | zero =>
    obtain rfl := Nat.le_zero.1 hsteps
    rfl
  | succ depth ih =>
    cases steps with
    | zero => rfl
    | succ steps =>
      have hother : nestedList s (depth + 1) ≠ nestedList t (depth + 1) := by
        intro heq
        exact hne (Nat.add_right_cancel (Nat.add_right_cancel (Value.list.inj heq).1))
      -- A list takes one step for itself, and two on the way to its item.
      have hinner : Value.equal.within steps (nestedList s depth) (nestedList t depth) =
          .error .tooDeep := by
        rcases steps with _ | _ | n
        iterate 2 rfl
        exact ih (by omega)
      calc (nestedList s (depth + 1)).equal (steps + 1) (nestedList t (depth + 1))
          = Value.allPairs (Value.equal.within steps) [nestedList s depth]
              [nestedList t depth] := if_neg hother
        _ = .error .tooDeep := by
            rw [Value.allPairs, hinner]
            rfl

/-- Two entries are compared in their order, and the second one only if the first ones are equal. -/
theorem equal_twoEntries {s t : Serial} (hne : s ≠ t) {k l : String} {x y x' y' : Value}
    {entries : Entries Value} (hkeys : Value.sameKeys [(k, x), (l, y)] entries = true)
    (hx : entries.lookup k = some x') (hy : entries.lookup l = some y') (steps : Nat) :
    (Value.map s [(k, x), (l, y)]).equal (steps + 3) (.map t entries) = do
      if ← x.equal steps x' then if ← y.equal steps y' then return true else return false
      else return false := by
  have hother : Value.map s [(k, x), (l, y)] ≠ .map t entries :=
    fun heq => hne (Value.map.inj heq).1
  rw [Value.equal, if_neg hother]
  simp only [hkeys, if_true, Value.allEntries, Entries.Index.lookup_ofEntries, hx, hy]
  rfl

/-- The same two entries, in one order and in the other, make equal hash-maps. Compared with a third
one, equality gives up on the deep values in the first order, and says no in the second one, where
it comes to the numbers first. -/
theorem equal_depends_on_order :
    let deep := nestedList 1 400
    let other := Value.map 2002 [("a", nestedList 1001 400), ("b", .int 2)]
    let args := [.map 2001 [("a", deep), ("b", .int 1)], other]
    let args' := [.map 2003 [("b", .int 1), ("a", deep)], other]
    let m := Machine.bare
    (∀ v ∈ args ++ args', v.UniqueKeys) ∧
      List.Forall₂ (fun v w => v.equal m.host.limits.nesting w = .ok true) args args' ∧
      Builtin.call (outermost 0) 0 args (.query .equal) m = .failed .tooDeep m ∧
      Builtin.call (outermost 0) 0 args' (.query .equal) m = .done (.bool false) m := by
  intro deep other args args' m
  have hdeep : deep.UniqueKeys := uniqueKeys_nestedList 1 400
  have hother : other.UniqueKeys := by
    have h := uniqueKeys_nestedList 1001 400
    simp [other, Value.UniqueKeys, Value.UniqueKeysVals, Entries.keys, h]
  have hinner : Value.equal 997 deep (nestedList 1001 400) = .error .tooDeep :=
    equal_nestedList (by decide) (by decide)
  have hself (steps : Nat) (v : Value) : v.equal (steps + 1) v = .ok true := if_pos rfl
  have hnumbers : Value.equal 997 (.int 1) (.int 2) = .ok false := rfl
  have hfirst : (Value.map 2001 [("a", deep), ("b", .int 1)]).equal 1000 other =
      .error .tooDeep := by
    rw [equal_twoEntries (by decide) (by simp [Value.sameKeys_iff, Entries.keys]) rfl rfl, hinner]
    rfl
  have hsecond : (Value.map 2003 [("b", .int 1), ("a", deep)]).equal 1000 other = .ok false := by
    rw [equal_twoEntries (by decide) (by simp [Value.sameKeys_iff, Entries.keys, or_comm]) rfl rfl,
      hnumbers]
    rfl
  have hargs : (Value.map 2001 [("a", deep), ("b", .int 1)]).equal 1000
      (.map 2003 [("b", .int 1), ("a", deep)]) = .ok true := by
    rw [equal_twoEntries (by decide) (by simp [Value.sameKeys_iff, Entries.keys, or_comm]) rfl rfl,
      hself, hself]
    rfl
  refine ⟨?_, .cons ?_ (.cons ?_ .nil), ?_, ?_⟩
  · simp [args, args', Value.UniqueKeys, Value.UniqueKeysVals, Entries.keys, hdeep, hother]
  · exact hargs
  · exact hself 999 other
  · exact call_of_error (outermost 0) 0 (q := .equal)
      ((areEqual_eq m _ _).trans (congrArg (Except.map Answer.ofBool) hfirst))
  · exact call_of_ok (outermost 0) 0 (q := .equal)
      ((areEqual_eq m _ _).trans (congrArg (Except.map Answer.ofBool) hsecond))

end AtomLisp
