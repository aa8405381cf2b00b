import AtomLisp.Builtin.Queries
import AtomLisp.Proofs.Reading.Accepting
import AtomLisp.Proofs.Writing

/-! # Why queries fail

  Most errors of the builtins that only look at their arguments are *plain*: a handler sees their
  message. The others come from integers that have no text, from paths and files that cannot be
  read as texts, and from `throw`.

  * `Error.IsPlain`: the plain errors, and `ErrorsAre`: what holds of all errors of a computation;
  * `Reader.readFirst_errors`: why a text has no first form;
  * `Builtin.Uncatchable`: the errors of a builtin that no handler sees, and `Builtin.Raises`: all
    of them; `Builtin.answer_raises`: a query has no others.
-/

namespace AtomLisp

variable {α β : Type}

/-! ### Errors of computations -/

/-- A handler sees the message of the error. -/
def Error.IsPlain : Error → Prop
  | invalidArguments .. | outOfRange .. | unbound _ | malformed _ | divisionByZero
  | notCallable _ | unreadable .. | tooDeep => True
  | invalidSymbol _ | thrown _ | numeralTooLong | nulInPath | undecodable
  | badInput _ | preludeUnreadable _ => False

/-- All errors of a computation are such. -/
def ErrorsAre (P : Error → Prop) (x : Except Error α) : Prop := ∀ e, x = .error e → P e

namespace ErrorsAre

variable {P Q : Error → Prop} {x : Except Error α}

theorem ok (a : α) : ErrorsAre P (.ok a) := nofun

theorem error {e : Error} (h : P e) : ErrorsAre P (.error e : Except Error α) := by
  rintro _ ⟨⟩
  exact h

theorem mono (hx : ErrorsAre P x) (h : ∀ e, P e → Q e) : ErrorsAre Q x :=
  fun e he => h e (hx e he)

theorem bind {f : α → Except Error β} (hx : ErrorsAre P x)
    (hf : ∀ a, x = .ok a → ErrorsAre P (f a)) : ErrorsAre P (x >>= f) := by
  intro e he
  rcases error_of_bind he with he | ⟨a, ha, he⟩
  · exact hx e he
  · exact hf a ha e he

/-- What is made of the result has no errors of its own. -/
theorem map (hx : ErrorsAre P x) (f : α → β) : ErrorsAre P (do return f (← x)) :=
  hx.bind fun _ _ => ok _

end ErrorsAre

/-! ### Reading -/

namespace Reader

/-- The reader has stopped with a plain error, or at an integer with too many digits. -/
def Stops (e : Error) : Prop := e.IsPlain ∨ e = .numeralTooLong

theorem mapEntries_errors (nesting : Nat) {items : List Value} :
    ErrorsAre Stops (mapEntries nesting items) := by
  fun_induction mapEntries nesting items with
  | case1 => exact .ok _
  | case2 k v rest ih => exact ih.map _
  | case3 k v rest hk =>
    refine .bind ?_ fun shown _ => .error (.inl trivial)
    intro e he
    rcases Value.inspectWithin_error he with rfl | ⟨rfl, -⟩
    · exact .inl trivial
    · exact .inr rfl
  | case4 v => exact .error (.inl trivial)

theorem enclose_errors (nesting : Nat) (items : List Value) (b : Bracket) :
    ErrorsAre Stops (enclose nesting items b) := by
  cases b with
  | round | square => exact .ok _
  | curly =>
    simp only [enclose]
    split
    · exact (mapEntries_errors nesting).map _
    · exact .error (.inl trivial)

theorem word_errors (cs : List Char) : ErrorsAre Stops (word cs) := by
  unfold word
  split
  · split
    · exact .ok _
    · exact .error (.inr rfl)
  · split <;> first | exact .ok _ | (split <;> exact .ok _)

theorem push_errors (nesting : Nat) (stack : List Pending) (token : Token) :
    ErrorsAre Stops (push nesting stack token) := by
  cases token with
  | mark m | opener b =>
    simp only [push, open?]
    split
    · exact .ok _
    · exact .error (.inl trivial)
  | closer b =>
    simp only [push]
    split
    · split
      · exact (enclose_errors nesting _ b).map _
      · exact .error (.inl trivial)
    · exact .error (.inl trivial)
  | text body =>
    simp only [push]
    split
    · exact .ok _
    · exact .error (.inl trivial)
  | word cs => exact (word_errors cs).map _

theorem run_stops (nesting : Nat) (fault : Option SyntaxFault) (stack : List Pending)
    (tokens : List Token) {e : Error} (h : (run nesting fault stack tokens).2 = some e) :
    Stops e := by
  induction tokens generalizing stack with
  | nil =>
    simp only [run, atEnd] at h
    split at h <;> cases h <;> exact .inl trivial
  | cons token tokens ih =>
    cases hpush : push nesting stack token with
    | error e' =>
      simp only [run, hpush] at h
      cases h
      exact push_errors nesting stack token e hpush
    | ok next =>
      simp only [run, hpush] at h
      exact ih next.1 h

/-- A text without integers that are too long has a first form, or there is a plain error. -/
theorem readFirst_errors (nesting : Nat) (s : String) :
    ErrorsAre (fun e => e.IsPlain ∨
      e = .numeralTooLong ∧ ∃ token ∈ (Token.ofText s).1, ¬ token.IsShort)
      (readFirst nesting s) := by
  intro e he
  have hend : (readAll nesting s).2 = some e := by
    unfold readFirst at he
    split at he <;> cases he
    simp [*]
  rcases run_stops _ _ _ _ hend with hplain | rfl
  · exact .inl hplain
  · refine .inr ⟨rfl, ?_⟩
    by_contra hshort
    simp only [not_exists, not_and, not_not] at hshort
    have hdivided := divided nesting (Token.ofText s).2 (Token.ofText s).1 hshort
    have hdepth : (readAll nesting s).2 ≠ some .tooDeep := by simp [hend]
    -- All tokens can be read, so only the syntax could be wrong.
    rcases all_or_malformed hdivided hdepth with ⟨hfault, segments, hsegments, hderives⟩ |
      ⟨fault, hfault⟩
    · have hnone : (readAll nesting s).2 = none := by
        simp only [readAll, hfault, ← hsegments] at hdepth ⊢
        rw [run_of_derives hderives hdepth]
      rw [hnone] at hend
      cases hend
    · cases Option.some.inj (hend.symm.trans hfault)

end Reader

/-! ### Arguments that do not fit -/

open Arguments

/-- All errors of the computation are plain. -/
abbrev PlainErrors (x : Except Error α) : Prop := ErrorsAre Error.IsPlain x

namespace Arguments

variable (callee : String)

theorem misuse_plain (why : Misuse) : PlainErrors (misuse callee why : Except Error α) :=
  .error trivial

theorem zero_plain (args : List Value) : PlainErrors (zero callee args) := by
  cases args with
  | nil => exact .ok _
  | cons => exact .error trivial

theorem one_plain : ∀ args : List Value, PlainErrors (one callee args)
  | [_] => .ok _
  | [] | _ :: _ :: _ => .error trivial

theorem two_plain : ∀ args : List Value, PlainErrors (two callee args)
  | [_, _] => .ok _
  | [] | [_] | _ :: _ :: _ :: _ => .error trivial

theorem oneText_plain (args : List Value) : PlainErrors (oneText callee args) := by
  refine (one_plain callee args).bind fun v _ => ?_
  cases v with
  | text s => exact .ok s
  | _ => exact misuse_plain callee _

theorem test_plain (p : Value → Bool) (args : List Value) : PlainErrors (test callee p args) :=
  (one_plain callee args).map _

theorem eq_of_one {callee : String} {args : List Value} {v : Value} (h : one callee args = .ok v) :
    args = [v] := by
  match args, h with
  | [_], rfl => rfl

theorem eq_of_oneText {callee : String} {args : List Value} {s : String}
    (h : oneText callee args = .ok s) : args = [.text s] := by
  obtain ⟨v, hv, htext⟩ := exists_of_bind_eq_ok h
  rw [eq_of_one hv]
  cases v with
  | text _ =>
    cases htext
    rfl
  | _ => cases htext

end Arguments

/-! ### Numbers -/

namespace Arithmetic

theorem operands_plain (callee : String) (args : List Value) :
    PlainErrors (operands callee args) := by
  unfold operands
  split
  · exact .ok _
  · exact misuse_plain callee _

theorem fold_plain (callee : String) (op : Int → Int → Int) (args : List Value) :
    PlainErrors (fold callee op args) :=
  (operands_plain callee args).bind fun _ _ => .ok _

theorem quotients_plain (others : List Int) (first : Int) :
    PlainErrors (others.foldlM quotient first) := by
  induction others generalizing first with
  | nil => exact .ok first
  | cons i others ih =>
    rw [List.foldlM_cons]
    refine .bind ?_ fun q _ => ih q
    unfold quotient
    split
    · exact .error trivial
    · exact .ok _

theorem divide_plain (args : List Value) : PlainErrors (divide args) :=
  (operands_plain _ args).bind fun p _ => (quotients_plain p.2 p.1).map _

theorem compare_plain (callee : String) (p : Int → Int → Bool) (args : List Value) :
    PlainErrors (compare callee p args) := by
  unfold compare
  split
  · exact .ok _
  · exact misuse_plain callee _

end Arithmetic

/-! ### Sequences -/

namespace Sequences

theorem itemsOrNil_plain (callee : String) (v : Value) : PlainErrors (itemsOrNil callee v) := by
  unfold itemsOrNil
  split
  · exact .ok _
  · exact .ok _
  · exact .ok _
  · exact misuse_plain callee _

theorem toVector_plain (args : List Value) : PlainErrors (toVector args) := by
  refine (one_plain _ args).bind fun v _ => ?_
  cases v.items? with
  | some items => exact .ok _
  | none => exact misuse_plain _ _

theorem firstOf_plain (args : List Value) : PlainErrors (firstOf args) :=
  (one_plain _ args).bind fun v _ => (itemsOrNil_plain _ v).map _

theorem restOf_plain (args : List Value) : PlainErrors (restOf args) := by
  refine (one_plain _ args).bind fun v _ => ?_
  split
  · exact .ok _
  · exact (itemsOrNil_plain _ _).map _

theorem prepend_plain (args : List Value) : PlainErrors (prepend args) := by
  refine (two_plain _ args).bind fun p _ => ?_
  dsimp only
  split
  · exact .ok _
  · exact misuse_plain _ _

theorem conjoin_plain (args : List Value) : PlainErrors (conjoin args) := by
  unfold conjoin
  split
  · exact .ok _
  · exact .ok _
  · exact misuse_plain _ _

theorem elements_plain (args : List Value) : PlainErrors (elements args) := by
  refine (one_plain _ args).bind fun v _ => ?_
  split
  · exact .ok _
  · exact .ok _
  · exact .ok _
  · split
    · exact misuse_plain _ _
    · exact .ok _
  · exact misuse_plain _ _

end Sequences

/-! ### Hash-maps -/

namespace HashMaps

theorem mapFirst_plain (callee : String) (args : List Value) :
    PlainErrors (mapFirst callee args) := by
  unfold mapFirst
  split
  · exact .ok _
  · exact misuse_plain callee _

theorem without_plain (args : List Value) : PlainErrors (without args) := by
  refine (mapFirst_plain _ args).bind fun p _ => ?_
  dsimp only
  split
  · exact .ok _
  · exact misuse_plain _ _

theorem valueOf_plain (args : List Value) : PlainErrors (valueOf args) := by
  refine (two_plain _ args).bind fun p _ => ?_
  split
  · split
    · exact .ok _
    · exact .ok _
    · exact misuse_plain _ _
  · exact misuse_plain _ _

theorem hasKey_plain (args : List Value) : PlainErrors (hasKey args) := by
  refine (two_plain _ args).bind fun p _ => ?_
  split
  · exact .ok _
  · exact misuse_plain _ _

theorem onlyMap_plain (callee : String) (args : List Value) :
    PlainErrors (onlyMap callee args) := by
  refine (one_plain callee args).bind fun v _ => ?_
  split
  · exact .ok _
  · exact misuse_plain callee _

end HashMaps

/-! ### Equality -/

namespace Value

theorem allPairs_plain {test : Value → Value → Except Error Bool}
    (h : ∀ v w, PlainErrors (test v w)) (vs ws : List Value) :
    PlainErrors (allPairs test vs ws) := by
  fun_induction allPairs test vs ws with
  | case1 v vs w ws ih =>
    refine (h v w).bind fun b _ => ?_
    cases b with
    | true => exact ih
    | false => exact .ok _
  | case2 => exact .ok _

theorem allEntries_plain {test : Value → Value → Except Error Bool}
    (h : ∀ v w, PlainErrors (test v w)) (others : Entries.Index Value) (entries : Entries Value) :
    PlainErrors (allEntries test others entries) := by
  fun_induction allEntries test others entries with
  | case1 => exact .ok _
  | case2 => exact .ok _
  | case3 k v rest w hw ih =>
    refine (h v w).bind fun b _ => ?_
    cases b with
    | true => exact ih
    | false => exact .ok _

theorem equal_plain (steps : Nat) (v w : Value) : PlainErrors (v.equal steps w) := by
  induction steps using Nat.strongRecOn generalizing v w with
  | ind steps ih =>
    match steps, ih with
    | 0, _ => exact .error trivial
    | steps + 1, ih =>
      -- Parts are compared with fewer steps, or there are none left for them.
      have hwithin : ∀ v w, PlainErrors (equal.within steps v w) := by
        intro v w
        match steps, ih with
        | 0, _ | 1, _ => exact .error trivial
        | n + 2, ih => exact ih n (by omega) v w
      have hitems : ∀ vs ws : List Value, PlainErrors
          (if vs.length = ws.length then allPairs (equal.within steps) vs ws else .ok false) := by
        intro vs ws
        split
        · exact allPairs_plain hwithin vs ws
        · exact .ok _
      unfold equal
      split
      · exact .ok _
      · split
        · exact hitems _ _
        · exact hitems _ _
        · exact hitems _ _
        · exact hitems _ _
        · split
          · exact allEntries_plain hwithin _ _
          · exact .ok _
        · exact .ok _

end Value

/-! ### Queries -/

namespace Builtin

theorem areEqual_plain (m : Machine) (args : List Value) : PlainErrors (areEqual m args) :=
  (two_plain _ args).bind fun p _ => (Value.equal_plain _ p.1 p.2).map _

theorem cellContent_plain (m : Machine) (args : List Value) : PlainErrors (cellContent m args) := by
  refine (one_plain _ args).bind fun v _ => ?_
  split
  · exact .ok _
  · exact misuse_plain _ _

/-- The texts or the messages of the builtin show arguments. -/
def Shows : Builtin → Prop
  | .query .prStr | .query .str | .query .nth | .query .concat | .query .hashMap | .query .assoc
  | .query .throw | .action .prn | .action .println => True
  | _ => False

/-- The errors of a builtin that no handler sees. -/
inductive Uncatchable (m : Machine) (args : List Value) : Builtin → Error → Prop
  /-- An argument that is to be shown has no text. -/
  | wordless {b : Builtin} (hb : b.Shows) {v : Value} (hv : v ∈ args) (h : v.HoldsLong m.cells) :
    Uncatchable m args b .numeralTooLong
  /-- An integer has too many digits to be read. -/
  | unread {text : String} (h : args = [.text text]) {token : Token}
    (htoken : token ∈ (Token.ofText text).1) (hlong : ¬ token.IsShort) :
    Uncatchable m args (.query .readString) .numeralTooLong
  | nulInPath {name : String} (h : args = [.text name]) (hnul : '\x00' ∈ name.toList) :
    Uncatchable m args (.query .slurp) .nulInPath
  /-- The bytes of a file are no UTF-8. -/
  | undecodable {name : String} (h : args = [.text name]) {bytes : ByteArray}
    (hfile : m.host.files.resolve (Path.ofString name) = .ok (.file bytes))
    (hbytes : String.fromUTF8? bytes = none) : Uncatchable m args (.query .slurp) .undecodable

/-- The errors of a builtin, apart from those of the functions that it calls. -/
inductive Raises (m : Machine) (args : List Value) (b : Builtin) : Error → Prop
  | plain {e : Error} (h : e.IsPlain) : Raises m args b e
  | thrown (hb : b = .query .throw) {v : Value} (h : args = [v]) {text : String}
    (htext : m.inspect v = .ok text) : Raises m args b (.thrown v)
  | uncatchable {e : Error} (h : b.Uncatchable m args e) : Raises m args b e

variable {m : Machine} {args : List Value} {b : Builtin}

theorem raises_of_plain {x : Except Error α} (h : PlainErrors x) :
    ErrorsAre (b.Raises m args) x := h.mono fun _ => .plain

/-- An argument without a text is a reason not to answer. -/
theorem raises_of_wordless (hb : b.Shows) {v : Value} (hv : v ∈ args) {e : Error}
    (h : v.Wordless m.cells e) : b.Raises m args e := by
  rcases h with rfl | ⟨rfl, hlong⟩
  · exact .plain trivial
  · exact .uncatchable (.wordless hb hv hlong)

/-- What goes wrong when the arguments are printed. -/
theorem printAll_errors (hb : b.Shows) (readable : Bool) (separator : String) :
    ErrorsAre (b.Raises m args) (m.printAll readable separator args) := by
  intro e he
  obtain ⟨v, hv, hwordless⟩ := Value.printAll_error he
  exact raises_of_wordless hb hv hwordless

theorem keyValues_errors (hb : b.Shows) (callee : String) : ∀ {pairs : List Value},
    (∀ v ∈ pairs, v ∈ args) → ErrorsAre (b.Raises m args) (HashMaps.keyValues callee m pairs)
  | [], _ => .ok _
  | [k], _ => by cases k <;> exact .ok _
  | k :: v :: rest, hpairs => by
    cases k with
    | text k =>
      have hrest : ∀ w ∈ rest, w ∈ args := fun w hw => hpairs w (by simp [hw])
      exact (keyValues_errors hb callee hrest).map _
    | _ =>
      refine .bind ?_ fun shown _ => .error (.plain trivial)
      intro e he
      exact raises_of_wordless hb (hpairs _ (List.mem_cons_self ..)) (Value.print_error he)

theorem pairs_errors (hb : b.Shows) (callee : String) {pairs : List Value}
    (hpairs : ∀ v ∈ pairs, v ∈ args) :
    ErrorsAre (b.Raises m args) (HashMaps.pairs callee m pairs) := by
  unfold HashMaps.pairs
  split
  · exact keyValues_errors hb callee hpairs
  · exact raises_of_plain (misuse_plain _ _)

theorem extend_errors :
    ErrorsAre (Raises m args (.query .assoc)) (HashMaps.extend m args) := by
  refine (raises_of_plain (HashMaps.mapFirst_plain _ args)).bind fun p hp => ?_
  have hmem : ∀ v ∈ p.2, v ∈ args := by
    unfold HashMaps.mapFirst at hp
    split at hp
    · cases hp
      exact fun v hv => List.mem_cons_of_mem _ hv
    · cases hp
  exact (pairs_errors (b := .query .assoc) trivial _ hmem).map _

theorem joinItems_errors {items : List Value} (h : ∀ v ∈ items, v ∈ args) :
    ErrorsAre (Raises m args (.query .concat)) (Sequences.joinItems m items) := by
  induction items with
  | nil => exact .ok _
  | cons v vs ih =>
    unfold Sequences.joinItems
    split
    · exact (ih fun w hw => h w (by simp [hw])).map _
    · refine .bind ?_ fun shown _ => .error (.plain trivial)
      intro e he
      exact raises_of_wordless (b := .query .concat) trivial (h v (by simp)) (Value.print_error he)

/-- An index that is outside of the sequence is shown in the message. -/
theorem indexFault_raises {index : Int} (h : .int index ∈ args) (length : Nat) :
    Raises m args (.query .nth) (Sequences.indexFault index length) := by
  unfold Sequences.indexFault
  split
  · exact .plain trivial
  · rename_i hnone
    refine .uncatchable (.wordless trivial h ⟨0, .here ?_⟩)
    by_contra hlt
    exact hnone (Option.isSome_of_eq_some (if_pos (Nat.not_le.1 hlt)))

theorem elementAt_errors :
    ErrorsAre (Raises m args (.query .nth)) (Sequences.elementAt args) := by
  refine (raises_of_plain (two_plain _ args)).bind fun p hp => ?_
  have hargs : args = [p.1, p.2] := by
    match args, hp with
    | [_, _], rfl => rfl
  split
  · split
    · split
      · exact .ok _
      · exact .error (indexFault_raises (by simp [*]) _)
    · exact .error (indexFault_raises (by simp [*]) _)
  · split
    · split
      · exact .ok _
      · exact .error (indexFault_raises (by simp [*]) _)
    · exact .error (indexFault_raises (by simp [*]) _)
  · exact raises_of_plain (misuse_plain _ _)

theorem formOf_errors :
    ErrorsAre (Raises m args (.query .readString)) (Texts.formOf m args) := by
  refine (raises_of_plain (oneText_plain _ args)).bind fun text htext => .map ?_ _
  intro e he
  rcases Reader.readFirst_errors _ text e he with hplain | ⟨rfl, token, htoken, hlong⟩
  · exact .plain hplain
  · exact .uncatchable (.unread (eq_of_oneText htext) htoken hlong)

theorem contentOf_errors :
    ErrorsAre (Raises m args (.query .slurp)) (Texts.contentOf m args) := by
  refine (raises_of_plain (oneText_plain _ args)).bind fun name hname => ?_
  have hargs := eq_of_oneText hname
  split
  · rename_i hnul
    exact .error (.uncatchable (.nulInPath hargs (by simpa using hnul)))
  · dsimp only
    cases hread : m.host.files.readText (Path.ofString name) with
    | ok text => exact .ok _
    | error fault =>
      cases fault with
      | file fault => exact .error (.plain trivial)
      | undecodable =>
        unfold FileTree.readText at hread
        split at hread
        · cases hread
        · cases hread
        · rename_i hfile
          split at hread
          · exact .error (.uncatchable (.undecodable hargs hfile ‹_›))
          · cases hread

theorem throwValue_errors :
    ErrorsAre (Raises m args (.query .throw)) (Texts.throwValue m args) := by
  refine (raises_of_plain (one_plain _ args)).bind fun v hv => ?_
  have hargs := eq_of_one hv
  refine .bind ?_ fun text htext => .error (.thrown rfl hargs htext)
  intro e he
  exact raises_of_wordless (b := .query .throw) trivial (by simp [hargs])
    (Value.inspectWithin_error he)

/-- **A query has no other errors.** -/
theorem answer_raises (q : Query) (m : Machine) (args : List Value) :
    ErrorsAre (Raises m args (.query q)) (q.answer m args) := by
  cases q with
  | add | sub | mul => exact raises_of_plain (Arithmetic.fold_plain _ _ args)
  | div => exact raises_of_plain (Arithmetic.divide_plain args)
  | lt | le | gt | ge => exact raises_of_plain (Arithmetic.compare_plain _ _ args)
  | equal => exact raises_of_plain (areEqual_plain m args)
  | prStr => exact (printAll_errors (b := .query .prStr) trivial _ _).map _
  | str => exact (printAll_errors (b := .query .str) trivial _ _).map _
  | list | vector => exact .ok _
  | vec => exact raises_of_plain (Sequences.toVector_plain args)
  | count => exact raises_of_plain ((one_plain _ args).map _)
  | first => exact raises_of_plain (Sequences.firstOf_plain args)
  | rest => exact raises_of_plain (Sequences.restOf_plain args)
  | nth => exact elementAt_errors
  | cons => exact raises_of_plain (Sequences.prepend_plain args)
  | concat => exact (joinItems_errors fun _ hv => hv).map _
  | conj => exact raises_of_plain (Sequences.conjoin_plain args)
  | seq => exact raises_of_plain (Sequences.elements_plain args)
  | hashMap => exact (pairs_errors (b := .query .hashMap) trivial _ fun _ hv => hv).map _
  | assoc => exact extend_errors
  | dissoc => exact raises_of_plain (HashMaps.without_plain args)
  | get => exact raises_of_plain (HashMaps.valueOf_plain args)
  | contains => exact raises_of_plain (HashMaps.hasKey_plain args)
  | keys | vals => exact raises_of_plain ((HashMaps.onlyMap_plain _ args).map _)
  | deref => exact raises_of_plain (cellContent_plain m args)
  | symbol | keyword => exact raises_of_plain ((oneText_plain _ args).map _)
  | readString => exact formOf_errors
  | slurp => exact contentOf_errors
  | throw => exact throwValue_errors
  | timeMs => exact raises_of_plain ((zero_plain _ args).map _)
  | isList | isVector | isEmpty | isSequential | isMap | isAtom | isNil | isTrue | isFalse
  | isSymbol | isKeyword | isString | isNumber | isFn | isMacro =>
    exact raises_of_plain (test_plain _ _ args)

end Builtin

end AtomLisp
