import AtomLisp.Proofs.Reading
import AtomLisp.Proofs.Renaming

/-! # Answers with other numbers

  What the builtins find out about their arguments does not depend on the numbers in them: with
  other numbers in the arguments and in the cells they answer the same, with the other numbers in
  the answer. Forms that are read from a text have no numbers at all.

  * `Reader.value_readAll`: forms that were read stay as they are, and so do errors of reading;
  * `Query.answer_value`: the answers of all queries.
-/

namespace AtomLisp

variable (r : Renaming)

/-! ### Forms that were read -/

namespace Reader

/-- The forms that wait on a stack have no numbers. -/
def Unnumbered (stack : List Pending) : Prop :=
  ∀ depth b items, .bracket depth b items ∈ stack → items.map r.value = items

variable {r}

theorem value_complete {form : Value} {stack : List Pending} (hform : r.value form = form)
    (h : Unnumbered r stack) :
    Unnumbered r (complete form stack).1 ∧
      (complete form stack).2.map r.value = (complete form stack).2 := by
  induction stack generalizing form with
  | nil => exact ⟨h, congrArg some hform⟩
  | cons pending stack ih =>
    have hstack : Unnumbered r stack := fun depth b items hmem =>
      h depth b items (List.mem_cons_of_mem _ hmem)
    cases pending with
    | mark depth m =>
      refine ih ?_ hstack
      simp [hform]
    | bracket depth b items =>
      refine ⟨?_, rfl⟩
      intro depth' b' items' hmem
      rcases List.mem_cons.1 hmem with heq | hmem
      · cases heq
        rw [List.map_cons, hform, h depth b items (List.mem_cons_self ..)]
      · exact hstack depth' b' items' hmem

theorem value_word {cs : List Char} {form : Value} (h : word cs = .ok form) :
    r.value form = form := by
  unfold word at h
  repeat' split at h
  all_goals cases h
  all_goals rfl

theorem value_mapEntries {nesting : Nat} {items : List Value} {entries : List (String × Value)}
    (hitems : items.map r.value = items) (h : mapEntries nesting items = .ok entries) :
    entries.map r.entry = entries := by
  fun_induction mapEntries nesting items generalizing entries with
  | case1 =>
    cases h
    rfl
  | case2 k v rest ih =>
    obtain ⟨others, hothers, hok⟩ := exists_of_bind_eq_ok h
    cases hok
    simp only [List.map_cons, List.cons.injEq] at hitems
    rw [List.map_cons, ih hitems.2.2 hothers, Renaming.entry, hitems.2.1]
  | case3 k v rest hk =>
    obtain ⟨shown, -, hok⟩ := exists_of_bind_eq_ok h
    cases hok
  | case4 v => cases h

theorem value_enclose {nesting : Nat} {items : List Value} {b : Bracket} {form : Value}
    (hitems : items.map r.value = items) (h : enclose nesting items b = .ok form) :
    r.value form = form := by
  cases b with
  | round =>
    cases h
    simp [hitems]
  | square =>
    cases h
    simp [hitems]
  | curly =>
    simp only [enclose] at h
    split at h
    · obtain ⟨entries, hentries, hok⟩ := exists_of_bind_eq_ok h
      cases hok
      have hinsert := r.insertAll_map_entry [] entries
      rw [value_mapEntries hitems hentries] at hinsert
      simp only [Entries.insertMany_eq, Renaming.value_map, Renaming.serial_zero, ← hinsert]
      rfl
    · cases h

/-- A token that is taken brings no numbers. -/
theorem value_takes {nesting : Nat} {stack : List Pending} {token : Token}
    {next : List Pending × Option Value} (h : Takes nesting stack token next)
    (hstack : Unnumbered r stack) :
    Unnumbered r next.1 ∧ next.2.map r.value = next.2 := by
  cases h with
  | mark h =>
    refine ⟨?_, rfl⟩
    intro depth b items hmem
    rcases List.mem_cons.1 hmem with heq | hmem
    · cases heq
    · exact hstack depth b items hmem
  | opener h =>
    refine ⟨?_, rfl⟩
    intro depth b items hmem
    rcases List.mem_cons.1 hmem with heq | hmem
    · cases heq
      rfl
    · exact hstack depth b items hmem
  | @closer inner b items stack form h =>
    have hitems : items.map r.value = items := hstack inner b items (List.mem_cons_self ..)
    have hform : r.value form = form := by
      refine value_enclose ?_ h
      rw [List.map_reverse, hitems]
    exact value_complete hform fun depth b items hmem =>
      hstack depth b items (List.mem_cons_of_mem _ hmem)
  | text h => exact value_complete rfl hstack
  | word h => exact value_complete (value_word h) hstack

/-! An error of the reader carries no value. -/

theorem error_word {cs : List Char} {e : Error} (h : word cs = .error e) : r.error e = e := by
  unfold word at h
  repeat' split at h
  all_goals cases h
  rfl

theorem error_mapEntries {nesting : Nat} {items : List Value} {e : Error}
    (hitems : items.map r.value = items) (h : mapEntries nesting items = .error e) :
    r.error e = e := by
  fun_induction mapEntries nesting items with
  | case1 => cases h
  | case2 k v rest ih =>
    simp only [List.map_cons, List.cons.injEq] at hitems
    rcases error_of_bind h with h | ⟨others, -, h⟩
    · exact ih hitems.2.2 h
    · cases h
  | case3 k v rest hk =>
    simp only [List.map_cons, List.cons.injEq] at hitems
    rcases error_of_bind h with h | ⟨shown, -, h⟩
    · -- The key is shown in the message as it would be with other numbers.
      have hshown := Value.inspect_value r #[] nesting k
      rw [hitems.1, Array.map_empty, h] at hshown
      exact (Except.error.inj hshown).symm
    · cases h
      rfl
  | case4 v =>
    cases h
    rfl

theorem error_enclose {nesting : Nat} {items : List Value} {b : Bracket} {e : Error}
    (hitems : items.map r.value = items) (h : enclose nesting items b = .error e) :
    r.error e = e := by
  cases b with
  | round => cases h
  | square => cases h
  | curly =>
    simp only [enclose] at h
    split at h
    · rcases error_of_bind h with h | ⟨entries, -, h⟩
      · exact error_mapEntries hitems h
      · cases h
    · cases h
      rfl

theorem error_push {nesting : Nat} {stack : List Pending} {token : Token} {e : Error}
    (hstack : Unnumbered r stack) (h : push nesting stack token = .error e) : r.error e = e := by
  cases token with
  | mark m | opener b =>
    simp only [push, open?] at h
    split at h
    · cases h
    · cases h
      rfl
  | closer b =>
    cases stack with
    | nil =>
      cases h
      rfl
    | cons pending stack =>
      cases pending with
      | mark depth m =>
        cases h
        rfl
      | bracket depth b' items =>
        simp only [push] at h
        split at h
        · rcases error_of_bind h with h | ⟨form, -, h⟩
          · refine error_enclose ?_ h
            rw [List.map_reverse, hstack depth b' items (List.mem_cons_self ..)]
          · cases h
        · cases h
          rfl
  | text body =>
    simp only [push] at h
    split at h
    · cases h
    · cases h
      rfl
  | word cs =>
    rcases error_of_bind h with h | ⟨form, -, h⟩
    · exact error_word h
    · cases h

theorem error_atEnd {fault : Option SyntaxFault} {stack : List Pending} :
    (atEnd fault stack).map r.error = atEnd fault stack := by
  unfold atEnd
  split <;> rfl

theorem value_run {nesting : Nat} {fault : Option SyntaxFault} {stack : List Pending}
    (hstack : Unnumbered r stack) (tokens : List Token) :
    (run nesting fault stack tokens).1.map r.value = (run nesting fault stack tokens).1 ∧
      (run nesting fault stack tokens).2.map r.error = (run nesting fault stack tokens).2 := by
  induction tokens generalizing stack with
  | nil => exact ⟨rfl, error_atEnd⟩
  | cons token tokens ih =>
    cases hpush : push nesting stack token with
    | error e =>
      simp only [run, hpush]
      exact ⟨rfl, congrArg some (error_push hstack hpush)⟩
    | ok next =>
      obtain ⟨stack', form?⟩ := next
      obtain ⟨hstack', hform⟩ := value_takes (takes_of_push hpush) hstack
      obtain ⟨hforms, herror⟩ := ih hstack'
      rw [run_of_takes (takes_of_push hpush)]
      refine ⟨?_, herror⟩
      rw [List.map_append, hforms]
      cases form? with
      | none => rfl
      | some form => simpa using hform

variable (r) in
/-- What is read from a text has no numbers. -/
theorem value_readAll (nesting : Nat) (s : String) :
    (readAll nesting s).1.map r.value = (readAll nesting s).1 ∧
      (readAll nesting s).2.map r.error = (readAll nesting s).2 :=
  value_run (fun _ _ _ hmem => absurd hmem List.not_mem_nil) _

variable (r) in
theorem outcome_readFirst (nesting : Nat) (s : String) :
    r.outcome r.value (readFirst nesting s) = readFirst nesting s := by
  obtain ⟨hforms, herror⟩ := value_readAll r nesting s
  unfold readFirst
  cases hread : readAll nesting s with
  | mk forms error? =>
    rw [hread] at hforms herror
    cases forms with
    | cons form forms => exact congrArg Except.ok (List.cons.inj hforms).1
    | nil =>
      cases error? with
      | none => rfl
      | some e => exact congrArg Except.error (Option.some.inj herror)

end Reader

/-! ### Arguments -/

/-- An answer with other numbers. -/
def Renaming.answer (r : Renaming) : Answer → Answer
  | .value v => .value (r.value v)
  | .form v => .form (r.value v)
  | .list items => .list (items.map r.value)
  | .vector items => .vector (items.map r.value)
  | .map entries => .map (entries.map r.entry)
  | .time => .time

variable (r : Renaming)

namespace Arguments

variable (callee : String) (args : List Value)

theorem zero_value : zero callee (args.map r.value) = r.outcome id (zero callee args) := by
  cases args with
  | nil => rfl
  | cons v vs =>
    simp only [zero, List.map_cons, List.length_cons, List.length_map]
    rfl

theorem one_value : one callee (args.map r.value) = r.outcome r.value (one callee args) := by
  match args with
  | [] | [v] => rfl
  | v :: w :: vs =>
    simp only [one, List.map_cons, List.length_cons, List.length_map]
    rfl

theorem two_value :
    two callee (args.map r.value) = r.outcome (Prod.map r.value r.value) (two callee args) := by
  match args with
  | [] | [v] | [v, w] => rfl
  | v :: w :: x :: vs =>
    simp only [two, List.map_cons, List.length_cons, List.length_map]
    rfl

theorem oneText_value : oneText callee (args.map r.value) = r.outcome id (oneText callee args) := by
  refine r.outcome_bind (one_value r callee args) ?_
  intro v
  cases v <;> simp <;> rfl

theorem test_value {p : Value → Bool} (hp : ∀ v, p (r.value v) = p v) :
    test callee p (args.map r.value) = r.outcome r.answer (test callee p args) := by
  refine r.outcome_bind (one_value r callee args) ?_
  intro v
  rw [hp]
  rfl

end Arguments

open Arguments

namespace Arithmetic

variable (args : List Value)

theorem ints?_value : ints? (args.map r.value) = ints? args := by
  induction args with
  | nil => rfl
  | cons v vs ih =>
    cases v with
    | int i => simp only [List.map_cons, Renaming.value_int, ints?, ih]
    | _ => rfl

variable (callee : String)

theorem operands_value :
    operands callee (args.map r.value) = r.outcome id (operands callee args) := by
  unfold operands
  rw [ints?_value]
  split <;> rfl

theorem fold_value (op : Int → Int → Int) :
    fold callee op (args.map r.value) = r.outcome r.answer (fold callee op args) :=
  r.outcome_bind (operands_value r args callee) fun _ => rfl

theorem outcome_quotients (others : List Int) (first : Int) :
    r.outcome id (others.foldlM quotient first) = others.foldlM quotient first := by
  induction others generalizing first with
  | nil => rfl
  | cons i others ih =>
    rw [List.foldlM_cons]
    unfold quotient
    split
    · rfl
    · exact ih _

theorem divide_value : divide (args.map r.value) = r.outcome r.answer (divide args) := by
  refine r.outcome_bind (operands_value r args _) ?_
  intro p
  exact r.outcome_bind (outcome_quotients r p.2 p.1).symm fun _ => rfl

theorem compare_value (p : Int → Int → Bool) :
    compare callee p (args.map r.value) = r.outcome r.answer (compare callee p args) := by
  match args with
  | [] => rfl
  | [v] => cases v <;> rfl
  | [v, w] => cases v <;> first | rfl | (cases w <;> rfl)
  | v :: w :: x :: rest => cases v <;> first | rfl | (cases w <;> rfl)

end Arithmetic

/-! ### Queries -/

/-- The cells of the one machine have other numbers in the other one; its host is the same. -/
structure Machine.CellsRenamed (m m' : Machine) : Prop where
  cells : m'.cells = m.cells.map r.value
  host  : m'.host = m.host

variable {r} {m m' : Machine} (h : m.CellsRenamed r m')

namespace Machine.CellsRenamed

include h

theorem print_value (readable : Bool) (v : Value) :
    m'.print readable (r.value v) = r.outcome id (m.print readable v) := by
  unfold Machine.print
  rw [h.cells, h.host, Value.print_value]

theorem printAll_value (readable : Bool) (separator : String) (vs : List Value) :
    m'.printAll readable separator (vs.map r.value) =
      r.outcome id (m.printAll readable separator vs) := by
  unfold Machine.printAll
  rw [h.cells, h.host, Value.printAll_value]

theorem inspect_value (v : Value) :
    m'.inspect (r.value v) = r.outcome id (m.inspect v) := by
  unfold Machine.inspect
  rw [h.cells, h.host, Value.inspect_value]

end Machine.CellsRenamed

namespace HashMaps

include h in
theorem keyValues_value (callee : String) (args : List Value) :
    keyValues callee m' (args.map r.value) =
      r.outcome (List.map r.entry) (keyValues callee m args) := by
  fun_induction keyValues callee m args with
  | case1 k v rest ih => exact r.outcome_bind ih fun _ => rfl
  | case2 k v rest hk =>
    -- The key is no text, and is none with other numbers either.
    have hkey : keyValues callee m' (r.value k :: r.value v :: rest.map r.value) =
        (do misuse callee (.mapKey (← m'.print true (r.value k)))) := by
      cases k with
      | text s => exact absurd rfl (hk s)
      | _ => rfl
    rw [List.map_cons, List.map_cons, hkey]
    exact r.outcome_bind (h.print_value true k) fun _ => rfl
  | case3 args hpair hother =>
    match args with
    | [] => rfl
    | [v] => cases v <;> rfl
    | v :: w :: rest => exact absurd rfl (hother v w rest)

include h in
theorem pairs_value (callee : String) (args : List Value) :
    pairs callee m' (args.map r.value) = r.outcome (List.map r.entry) (pairs callee m args) := by
  unfold pairs
  rw [List.length_map]
  split
  · exact keyValues_value h callee args
  · rfl

variable (r) in
theorem mapFirst_value (callee : String) (args : List Value) :
    mapFirst callee (args.map r.value) =
      r.outcome (Prod.map (List.map r.entry) (List.map r.value)) (mapFirst callee args) := by
  cases args with
  | nil => rfl
  | cons v vs =>
    cases v with
    | map serial entries =>
      rw [List.map_cons, Renaming.value_map]
      rfl
    | _ => rfl

include h in
theorem newMap_value (args : List Value) :
    newMap m' (args.map r.value) = r.outcome r.answer (newMap m args) := by
  refine r.outcome_bind (pairs_value h _ args) ?_
  intro pairs
  have hinsert := r.insertAll_map_entry [] pairs
  simp only [Entries.insertMany_eq]
  exact congrArg (fun entries => Except.ok (Answer.map entries)) hinsert

include h in
theorem extend_value (args : List Value) :
    extend m' (args.map r.value) = r.outcome r.answer (extend m args) := by
  refine r.outcome_bind (mapFirst_value r _ args) ?_
  intro p
  refine r.outcome_bind (pairs_value h _ p.2) ?_
  intro pairs
  simp only [Entries.insertMany_eq]
  exact congrArg (fun entries => Except.ok (Answer.map entries)) (r.insertAll_map_entry p.1 pairs)

variable (r) (args : List Value)

theorem texts?_value : texts? (args.map r.value) = texts? args := by
  induction args with
  | nil => rfl
  | cons v vs ih =>
    cases v with
    | text s => simp only [List.map_cons, Renaming.value_text, texts?, ih]
    | _ => rfl

theorem without_value : without (args.map r.value) = r.outcome r.answer (without args) := by
  refine r.outcome_bind (mapFirst_value r _ args) ?_
  intro p
  simp only [Prod.map, texts?_value, Entries.eraseMany_eq, r.eraseAll_map_entry]
  split <;> rfl

theorem valueOf_value : valueOf (args.map r.value) = r.outcome r.answer (valueOf args) := by
  refine r.outcome_bind (two_value r _ args) ?_
  rintro ⟨v, key⟩
  cases key with
  | text key =>
    cases v with
    | map serial entries =>
      simp only [Prod.map, Renaming.value_text, Renaming.value_map, r.lookup_map_entry]
      cases entries.lookup key <;> rfl
    | _ => rfl
  | _ => rfl

theorem hasKey_value : hasKey (args.map r.value) = r.outcome r.answer (hasKey args) := by
  refine r.outcome_bind (two_value r _ args) ?_
  rintro ⟨v, key⟩
  cases v with
  | map serial entries =>
    cases key with
    | text key =>
      simp only [Prod.map, Renaming.value_text, Renaming.value_map, r.contains_map_entry]
      rfl
    | _ => rfl
  | _ => rfl

theorem onlyMap_value (callee : String) :
    onlyMap callee (args.map r.value) = r.outcome (List.map r.entry) (onlyMap callee args) := by
  refine r.outcome_bind (one_value r _ args) ?_
  intro v
  cases v with
  | map serial entries =>
    rw [Renaming.value_map]
    rfl
  | _ => rfl

theorem keysOf_value : keysOf (args.map r.value) = r.outcome r.answer (keysOf args) := by
  refine r.outcome_bind (onlyMap_value r args _) ?_
  intro entries
  rw [r.keys_map_entry]
  show Except.ok (Answer.list ((Entries.keys entries).map .text)) =
    .ok (.list (((Entries.keys entries).map .text).map r.value))
  rw [List.map_map]
  rfl

theorem valuesOf_value : valuesOf (args.map r.value) = r.outcome r.answer (valuesOf args) := by
  refine r.outcome_bind (onlyMap_value r args _) ?_
  intro entries
  rw [r.vals_map_entry]
  rfl

end HashMaps

namespace Sequences

variable (r) in
@[simp] theorem countOf_value (v : Value) : countOf (r.value v) = countOf v := by
  simp only [countOf, r.items?_value]
  cases v.items? with
  | none => rfl
  | some items => exact List.length_map ..

variable (r) in
theorem itemsOrNil_value (callee : String) (v : Value) :
    itemsOrNil callee (r.value v) = r.outcome (List.map r.value) (itemsOrNil callee v) := by
  cases v with
  | list | vector =>
    simp only [Renaming.value_list, Renaming.value_vector]
    rfl
  | _ => rfl

variable (r) (args : List Value)

theorem toVector_value : toVector (args.map r.value) = r.outcome r.answer (toVector args) := by
  refine r.outcome_bind (one_value r _ args) ?_
  intro v
  rw [r.items?_value]
  cases v.items? <;> rfl

theorem firstOf_value : firstOf (args.map r.value) = r.outcome r.answer (firstOf args) := by
  refine r.outcome_bind (one_value r _ args) ?_
  intro v
  refine r.outcome_bind (itemsOrNil_value r _ v) ?_
  intro items
  cases items <;> rfl

theorem restOf_value : restOf (args.map r.value) = r.outcome r.answer (restOf args) := by
  refine r.outcome_bind (one_value r _ args) ?_
  intro v
  cases v with
  | nil =>
    show Except.ok (Answer.value (.form [])) = .ok (.value (r.value (.form [])))
    rw [r.value_form]
    rfl
  | _ => exact r.outcome_bind (itemsOrNil_value r _ _) fun items => by cases items <;> rfl

theorem elementAt_value : elementAt (args.map r.value) = r.outcome r.answer (elementAt args) := by
  refine r.outcome_bind (two_value r _ args) ?_
  rintro ⟨v, index⟩
  have hfault : ∀ (i : Int) (n : Nat), r.error (indexFault i n) = indexFault i n := by
    intro i n
    unfold indexFault
    split <;> rfl
  cases v with
  | list serial items | vector serial items =>
    cases index with
    | int index =>
      simp only [Prod.map, Renaming.value_list, Renaming.value_vector, Renaming.value_int,
        List.length_map]
      cases index with
      | ofNat i =>
        simp only [List.getElem?_map]
        cases items[i]? with
        | none => exact congrArg Except.error (hfault _ _).symm
        | some v => rfl
      | negSucc i => exact congrArg Except.error (hfault _ _).symm
    | _ => rfl
  | _ => cases index <;> rfl

theorem prepend_value : prepend (args.map r.value) = r.outcome r.answer (prepend args) := by
  refine r.outcome_bind (two_value r _ args) ?_
  rintro ⟨v, tail⟩
  simp only [Prod.map, r.items?_value]
  cases tail.items? <;> rfl

theorem conjoin_value : conjoin (args.map r.value) = r.outcome r.answer (conjoin args) := by
  cases args with
  | nil => rfl
  | cons v vs =>
    cases v with
    | list serial items =>
      simp [conjoin, Renaming.outcome, Renaming.answer]
    | vector serial items =>
      simp [conjoin, Renaming.outcome, Renaming.answer]
    | _ => rfl

theorem elements_value : elements (args.map r.value) = r.outcome r.answer (elements args) := by
  refine r.outcome_bind (one_value r _ args) ?_
  intro v
  have hitems : ∀ items : List Value,
      elements.ofItems (items.map r.value) = r.answer (elements.ofItems items) := by
    intro items
    cases items <;> rfl
  cases v with
  | list serial items | vector serial items =>
    simp only [Renaming.value_list, Renaming.value_vector]
    exact congrArg Except.ok (hitems items)
  | text s =>
    simp only [Renaming.value_text]
    split
    · rfl
    · -- The characters are texts, so they have no numbers.
      have hchars := hitems (s.toList.map fun c => .text (String.singleton c))
      rw [List.map_map] at hchars
      exact congrArg Except.ok hchars
  | _ => rfl

variable {r}

include h in
theorem joinItems_value :
    joinItems m' (args.map r.value) = r.outcome (List.map r.value) (joinItems m args) := by
  induction args with
  | nil => rfl
  | cons v vs ih =>
    simp only [List.map_cons, joinItems, r.items?_value]
    cases v.items? with
    | none => exact r.outcome_bind (h.print_value true v) fun _ => rfl
    | some items =>
      refine r.outcome_bind ih ?_
      intro others
      show Except.ok (items.map r.value ++ others.map r.value) = .ok ((items ++ others).map r.value)
      rw [List.map_append]

include h in
theorem join_value : join m' (args.map r.value) = r.outcome r.answer (join m args) :=
  r.outcome_bind (joinItems_value h args) fun _ => rfl

end Sequences

namespace Texts

variable (args : List Value)

include h in
theorem printed_value (readable : Bool) (separator : String) :
    printed m' readable separator (args.map r.value) =
      r.outcome r.answer (printed m readable separator args) :=
  r.outcome_bind (h.printAll_value readable separator args) fun _ => rfl

include h in
theorem formOf_value : formOf m' (args.map r.value) = r.outcome r.answer (formOf m args) := by
  refine r.outcome_bind (oneText_value r _ args) ?_
  intro text
  rw [h.host]
  exact r.outcome_bind (Reader.outcome_readFirst r _ text).symm fun _ => rfl

include h in
theorem contentOf_value :
    contentOf m' (args.map r.value) = r.outcome r.answer (contentOf m args) := by
  refine r.outcome_bind (oneText_value r _ args) ?_
  intro name
  rw [h.host]
  simp only [id]
  split
  · rfl
  · cases m.host.files.readText (Path.ofString name) with
    | ok text => rfl
    | error fault => cases fault <;> rfl

include h in
theorem throwValue_value :
    throwValue m' (args.map r.value) = r.outcome r.answer (throwValue m args) := by
  refine r.outcome_bind (one_value r _ args) ?_
  intro v
  exact r.outcome_bind (h.inspect_value v) fun _ => rfl

end Texts

namespace Builtin

variable (args : List Value)

include h in
theorem areEqual_value : areEqual m' (args.map r.value) = r.outcome r.answer (areEqual m args) := by
  refine r.outcome_bind (two_value r _ args) ?_
  rintro ⟨v, w⟩
  rw [h.host]
  exact r.outcome_bind (Value.equal_value r _ v w) fun _ => rfl

include h in
theorem cellContent_value :
    cellContent m' (args.map r.value) = r.outcome r.answer (cellContent m args) := by
  refine r.outcome_bind (one_value r _ args) ?_
  intro v
  cases v with
  | atom cell =>
    simp only [Renaming.value_atom, h.cells, Value.content_map]
    rfl
  | _ => rfl

theorem clockTime_value :
    clockTime (args.map r.value) = r.outcome r.answer (clockTime args) :=
  r.outcome_bind (zero_value r _ args) fun _ => rfl

include h in
/-- **Queries answer without regard to numbers.** -/
theorem Query.answer_value (q : Query) :
    q.answer m' (args.map r.value) = r.outcome r.answer (q.answer m args) := by
  cases q with
  | add | sub | mul => exact Arithmetic.fold_value r args _ _
  | div => exact Arithmetic.divide_value r args
  | lt | le | gt | ge => exact Arithmetic.compare_value r args _ _
  | equal => exact areEqual_value h args
  | prStr | str => exact Texts.printed_value h args _ _
  | list | vector => rfl
  | vec => exact Sequences.toVector_value r args
  | count =>
    refine r.outcome_bind (one_value r _ args) ?_
    intro v
    rw [Sequences.countOf_value]
    rfl
  | first => exact Sequences.firstOf_value r args
  | rest => exact Sequences.restOf_value r args
  | nth => exact Sequences.elementAt_value r args
  | cons => exact Sequences.prepend_value r args
  | concat => exact Sequences.join_value h args
  | conj => exact Sequences.conjoin_value r args
  | seq => exact Sequences.elements_value r args
  | hashMap => exact HashMaps.newMap_value h args
  | assoc => exact HashMaps.extend_value h args
  | dissoc => exact HashMaps.without_value r args
  | get => exact HashMaps.valueOf_value r args
  | contains => exact HashMaps.hasKey_value r args
  | keys => exact HashMaps.keysOf_value r args
  | vals => exact HashMaps.valuesOf_value r args
  | deref => exact cellContent_value h args
  | symbol | keyword => exact r.outcome_bind (oneText_value r _ args) fun _ => rfl
  | readString => exact Texts.formOf_value h args
  | slurp => exact Texts.contentOf_value h args
  | throw => exact Texts.throwValue_value h args
  | timeMs => exact clockTime_value args
  | isSequential => exact test_value r _ args r.isSequential_value
  | isEmpty =>
    refine test_value r _ args ?_
    intro v
    rw [r.items?_value]
    cases v.items? with
    | none => rfl
    | some items => cases items <;> rfl
  | isFn => exact test_value r _ args fun v => by rw [r.isFunction_value, r.isMacro_value]
  | _ => exact test_value r _ args fun v => by cases v <;> rfl

end Builtin

end AtomLisp
