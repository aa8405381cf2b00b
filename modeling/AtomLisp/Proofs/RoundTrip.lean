import AtomLisp.Call
import AtomLisp.Proofs.RoundTrip.Words

/-! # Printing and reading

  What is printed readably reads back, for the values that have a written form of their own.

  * `Readable`: these values, and `Value.written`: a value without the serial numbers of its
    collections, which no text holds;
  * `Legible`: the values whose printed form reads as anything, and `Value.reread`: as what;
  * `Legible.print`: the printed form spells the tokens of the value;
  * `Legible.run`: the tokens of a value complete what it reads back as;
  * `Readable.reread_eq`: a readable value reads back as itself;
  * `readAll_printed`: any number of values come back from their printed forms.
-/

namespace AtomLisp

/-! ### Readable values -/

/-- The values that have a written form of their own. -/
inductive Readable : Value → Prop where
  | nil : Readable .nil
  | bool (b : Bool) : Readable (.bool b)
  | int {i : Int} (h : i.natAbs < Numeral.bound) : Readable (.int i)
  | string {s : String} (h : Keyword.isKeyword s = false) : Readable (.text s)
  | keyword {name : List Char} (hchars : ∀ c ∈ name, Token.isWordChar c = true)
      (hmark : name.head? ≠ some Keyword.mark) :
      Readable (.text (String.ofList (Keyword.mark :: name)))
  | symbol {name : String} (h : IsSymbolName name) : Readable (.symbol name)
  | list {serial : Serial} {items : List Value} (h : ∀ v ∈ items, Readable v) :
      Readable (.list serial items)
  | vector {serial : Serial} {items : List Value} (h : ∀ v ∈ items, Readable v) :
      Readable (.vector serial items)
  | map {serial : Serial} {entries : Entries Value} (hdistinct : (Entries.keys entries).Nodup)
      (hkeys : ∀ entry ∈ entries, Readable (.text entry.1))
      (hvals : ∀ entry ∈ entries, Readable entry.2) : Readable (.map serial entries)

/-- The values whose printed form can be read. A keyword may have any name that is written with
characters of words. -/
inductive Legible : Value → Prop where
  | nil : Legible .nil
  | bool (b : Bool) : Legible (.bool b)
  | int {i : Int} (h : i.natAbs < Numeral.bound) : Legible (.int i)
  | string {s : String} (h : Keyword.isKeyword s = false) : Legible (.text s)
  | keyword {name : List Char} (hchars : ∀ c ∈ name, Token.isWordChar c = true) :
      Legible (.text (String.ofList (Keyword.mark :: name)))
  | symbol {name : String} (h : IsSymbolName name) : Legible (.symbol name)
  | list {serial : Serial} {items : List Value} (h : ∀ v ∈ items, Legible v) :
      Legible (.list serial items)
  | vector {serial : Serial} {items : List Value} (h : ∀ v ∈ items, Legible v) :
      Legible (.vector serial items)
  | map {serial : Serial} {entries : Entries Value} (hdistinct : (Entries.keys entries).Nodup)
      (hkeys : ∀ entry ∈ entries, Legible (.text entry.1))
      (hvals : ∀ entry ∈ entries, Legible entry.2) : Legible (.map serial entries)

theorem Readable.legible {v : Value} (h : Readable v) : Legible v := by
  induction h with
  | nil => exact .nil
  | bool b => exact .bool b
  | int h => exact .int h
  | string h => exact .string h
  | keyword hchars hmark => exact .keyword hchars
  | symbol h => exact .symbol h
  | list _ ih => exact .list ih
  | vector _ ih => exact .vector ih
  | map hdistinct _ _ hkeys hvals => exact .map hdistinct hkeys hvals

/-- The text that a text is printed and read as: a keyword is made of its name again. -/
def Keyword.reread (s : String) : String := if isKeyword s then ofName (name s) else s

theorem Keyword.reread_of_string {s : String} (h : isKeyword s = false) : reread s = s :=
  if_neg (Bool.eq_false_iff.1 h)

/-- A keyword whose name starts with the mark loses one mark, and any other keyword stays. -/
theorem Keyword.reread_keyword (name : List Char) :
    reread (String.ofList (mark :: name)) = String.ofList (mark :: name) ↔
      name.head? ≠ some mark := by
  by_cases h : name.head? = some mark
  · have hless : reread (String.ofList (mark :: name)) = String.ofList name := by
      simp [reread, ofName, Keyword.name, isKeyword_eq, h]
    rw [hless, String.ofList_inj]
    simp [h]
  · simp [reread, ofName, Keyword.name, isKeyword_eq, h]

namespace Value

mutual

/-- The value as it is written down: its collections have no serial numbers. -/
def written : Value → Value
  | .list _ items => .list 0 (writtenAll items)
  | .vector _ items => .vector 0 (writtenAll items)
  | .map _ entries => .map 0 (writtenEntries entries)
  | v => v
termination_by structural v => v

/-- The values as they are written down. -/
def writtenAll : List Value → List Value
  | [] => []
  | v :: vs => v.written :: writtenAll vs
termination_by structural vs => vs

/-- The entries as they are written down. -/
def writtenEntries : List (String × Value) → List (String × Value)
  | [] => []
  | (k, v) :: rest => (k, v.written) :: writtenEntries rest
termination_by structural es => es

end

mutual

/-- The value that the printed form of a value is read as. -/
def reread : Value → Value
  | .text s => .text (Keyword.reread s)
  | .list _ items => .list 0 (rereadAll items)
  | .vector _ items => .vector 0 (rereadAll items)
  | .map _ entries => .map 0 (Entries.insertAll [] (rereadEntries entries))
  | v => v
termination_by structural v => v

/-- The values that the printed forms of values are read as. -/
def rereadAll : List Value → List Value
  | [] => []
  | v :: vs => v.reread :: rereadAll vs
termination_by structural vs => vs

/-- The pairs that the printed forms of entries are read as. -/
def rereadEntries : List (String × Value) → List (String × Value)
  | [] => []
  | (k, v) :: rest => (Keyword.reread k, v.reread) :: rereadEntries rest
termination_by structural es => es

end

mutual

/-- How many steps deep a value is for the printer. -/
def steps : Value → Nat
  | .list _ items | .vector _ items => stepsAll items + 4
  | .map _ entries => stepsEntries entries + 3
  | _ => 1
termination_by structural v => v

/-- How many steps deep the deepest of the values is. -/
def stepsAll : List Value → Nat
  | [] => 0
  | v :: vs => max v.steps (stepsAll vs)
termination_by structural vs => vs

/-- How many steps deep the deepest value of the entries is. -/
def stepsEntries : List (String × Value) → Nat
  | [] => 0
  | (_, v) :: rest => max v.steps (stepsEntries rest)
termination_by structural es => es

end

/-- The token of a string or keyword. -/
def textToken (s : String) : Token :=
  if Keyword.isKeyword s then .word (':' :: (Keyword.name s).toList) else Token.literal s.toList

mutual

/-- The tokens of the printed form of a legible value. -/
def tokens : Value → List Token
  | .nil => [.word "nil".toList]
  | .bool b => [.word (toString b).toList]
  | .int i => [.word (toString i).toList]
  | .text s => [textToken s]
  | .symbol name => [.word name.toList]
  | .list _ items => .opener .round :: (tokensAll items ++ [.closer .round])
  | .vector _ items => .opener .square :: (tokensAll items ++ [.closer .square])
  | .map _ entries => .opener .curly :: (tokensEntries entries ++ [.closer .curly])
  | _ => []
termination_by structural v => v

/-- The tokens of values, one after another. -/
def tokensAll : List Value → List Token
  | [] => []
  | v :: vs => v.tokens ++ tokensAll vs
termination_by structural vs => vs

/-- The tokens of keys and values in turn. -/
def tokensEntries : List (String × Value) → List Token
  | [] => []
  | (k, v) :: rest => textToken k :: v.tokens ++ tokensEntries rest
termination_by structural es => es

end

theorem writtenAll_eq (vs : List Value) : writtenAll vs = vs.map written := by
  induction vs with
  | nil => rfl
  | cons v vs ih => simp [writtenAll, ih]

theorem writtenEntries_eq (entries : Entries Value) :
    writtenEntries entries = entries.map fun entry => (entry.1, entry.2.written) := by
  induction entries with
  | nil => rfl
  | cons entry rest ih => simp [writtenEntries, ih]

theorem rereadAll_eq (vs : List Value) : rereadAll vs = vs.map reread := by
  induction vs with
  | nil => rfl
  | cons v vs ih => simp [rereadAll, ih]

theorem rereadEntries_eq (entries : Entries Value) :
    rereadEntries entries =
      entries.map fun entry => (Keyword.reread entry.1, entry.2.reread) := by
  induction entries with
  | nil => rfl
  | cons entry rest ih => simp [rereadEntries, ih]

theorem keys_writtenEntries (entries : Entries Value) :
    Entries.keys (writtenEntries entries) = Entries.keys entries := by
  induction entries with
  | nil => rfl
  | cons entry rest ih =>
    simp only [Entries.keys] at ih
    simp [writtenEntries, Entries.keys, ih]

theorem tokensAll_eq (vs : List Value) : tokensAll vs = (vs.map tokens).flatten := by
  induction vs with
  | nil => rfl
  | cons v vs ih => simp [tokensAll, ih]

theorem tokensEntries_eq (entries : Entries Value) :
    tokensEntries entries =
      (entries.map fun entry => textToken entry.1 :: entry.2.tokens).flatten := by
  induction entries with
  | nil => rfl
  | cons entry rest ih => simp [tokensEntries, ih]

theorem steps_le_stepsAll {v : Value} {vs : List Value} (h : v ∈ vs) : v.steps ≤ stepsAll vs := by
  induction vs with
  | nil => cases h
  | cons w vs ih =>
    rw [stepsAll]
    rcases List.mem_cons.1 h with rfl | h
    · exact Nat.le_max_left ..
    · exact Nat.le_trans (ih h) (Nat.le_max_right ..)

theorem steps_le_stepsEntries {entry : String × Value} {entries : Entries Value}
    (h : entry ∈ entries) : entry.2.steps ≤ stepsEntries entries := by
  induction entries with
  | nil => cases h
  | cons e rest ih =>
    rw [stepsEntries]
    rcases List.mem_cons.1 h with rfl | h
    · exact Nat.le_max_left ..
    · exact Nat.le_trans (ih h) (Nat.le_max_right ..)

end Value

/-! ### Printing -/

theorem mapM_eq_ok {α β γ ε : Type} {f : α → Except ε β} {g : α → γ} {R : β → γ → Prop}
    {xs : List α} (h : ∀ x ∈ xs, ∃ y, f x = .ok y ∧ R y (g x)) :
    ∃ ys, xs.mapM f = .ok ys ∧ List.Forall₂ R ys (xs.map g) := by
  induction xs with
  | nil => exact ⟨[], rfl, .nil⟩
  | cons x xs ih =>
    obtain ⟨y, hy, hR⟩ := h x (List.mem_cons_self ..)
    obtain ⟨ys, hys, hRs⟩ := ih fun x hx => h x (List.mem_cons_of_mem _ hx)
    refine ⟨y :: ys, ?_, .cons hR hRs⟩
    rw [List.mapM_cons, hy, hys]
    rfl

open Token in
/-- A piece of text stands for some tokens, at least one. -/
def Writes (s : String) (tokens : List Token) : Prop := Spells s.toList tokens ∧ tokens ≠ []

theorem writes_bracketed {parts : List String} {tokens : List (List Token)}
    (h : List.Forall₂ Writes parts tokens) (b : Bracket) :
    Writes (String.singleton b.opening ++ " ".intercalate parts ++ String.singleton b.closing)
      (.opener b :: (tokens.flatten ++ [.closer b])) := by
  refine ⟨?_, List.cons_ne_nil _ _⟩
  have hspells := (Token.spells_intercalate h).bracketed b
  simpa using hspells

theorem writes_word {s : String} (h : Token.IsWord s.toList) : Writes s [.word s.toList] :=
  ⟨h.spells, List.cons_ne_nil _ _⟩

theorem writes_text {s : String} (h : Legible (.text s)) :
    Writes (Value.printText true s) [Value.textToken s] := by
  refine ⟨?_, List.cons_ne_nil _ _⟩
  generalize hv : Value.text s = v at h
  cases h with
  | string h =>
    cases hv
    simp only [Value.printText, Value.textToken, h]
    simpa using Token.spells_literal s.toList
  | keyword hchars =>
    cases hv
    -- The colon makes a word even of the empty name.
    have hword := Token.isWord_keyword hchars
    simpa [Value.printText, Value.textToken, Keyword.isKeyword_eq, Keyword.name] using hword.spells
  | _ => cases hv

/-- The printed forms of values, between brackets. -/
theorem print_items {cells : Cells} {items : List Value} {n : Nat}
    (h : ∀ v ∈ items, ∀ {n : Nat}, v.steps ≤ n →
      ∃ s, v.print cells true n = .ok s ∧ Writes s v.tokens)
    (hn : Value.stepsAll items ≤ n) (b : Bracket) :
    ∃ parts, items.mapM (Value.print cells true n) = .ok parts ∧
      Writes (String.singleton b.opening ++ " ".intercalate parts ++ String.singleton b.closing)
        (.opener b :: (Value.tokensAll items ++ [.closer b])) := by
  have hprint : ∀ v ∈ items, ∃ s, v.print cells true n = .ok s ∧ Writes s v.tokens :=
    fun v hv => h v hv (Nat.le_trans (Value.steps_le_stepsAll hv) hn)
  obtain ⟨parts, hparts, hwrites⟩ := mapM_eq_ok hprint
  rw [Value.tokensAll_eq]
  exact ⟨parts, hparts, writes_bracketed hwrites b⟩

/-- The printed forms of entries, between brackets. -/
theorem print_entries {cells : Cells} {entries : Entries Value} {n : Nat}
    (hkeys : ∀ entry ∈ entries, Legible (.text entry.1))
    (h : ∀ entry ∈ entries, ∀ {n : Nat}, entry.2.steps ≤ n →
      ∃ s, entry.2.print cells true n = .ok s ∧ Writes s entry.2.tokens)
    (hn : Value.stepsEntries entries ≤ n) (b : Bracket) :
    ∃ parts, (entries.mapM fun entry => do
        return Value.printText true entry.1 ++ " " ++ (← entry.2.print cells true n)) = .ok parts ∧
      Writes (String.singleton b.opening ++ " ".intercalate parts ++ String.singleton b.closing)
        (.opener b :: (Value.tokensEntries entries ++ [.closer b])) := by
  rw [Value.tokensEntries_eq]
  suffices hprint : ∃ parts, (entries.mapM fun entry => do
        return Value.printText true entry.1 ++ " " ++ (← entry.2.print cells true n)) = .ok parts ∧
      List.Forall₂ Writes parts
        (entries.map fun entry => Value.textToken entry.1 :: entry.2.tokens) by
    obtain ⟨parts, hparts, hwrites⟩ := hprint
    exact ⟨parts, hparts, writes_bracketed hwrites b⟩
  apply mapM_eq_ok
  intro entry hentry
  have hsteps : entry.2.steps ≤ n := Nat.le_trans (Value.steps_le_stepsEntries hentry) hn
  obtain ⟨s, hs, hwrites⟩ := h entry hentry hsteps
  refine ⟨Value.printText true entry.1 ++ " " ++ s, by rw [hs]; rfl, ?_, List.cons_ne_nil _ _⟩
  -- The blank keeps the key, which may be a word, apart from the value.
  have hkey := (writes_text (hkeys entry hentry)).1
  have hspells := hkey.append hwrites.1 hwrites.2
  simpa using hspells

/-- The printed form of a legible value spells its tokens. -/
theorem Legible.print {v : Value} (h : Legible v) (cells : Cells) {n : Nat} (hn : v.steps ≤ n) :
    ∃ s, v.print cells true n = .ok s ∧ Writes s v.tokens := by
  -- The printer takes its steps off one after another, so the number of steps varies.
  induction h generalizing n with
  | nil =>
    obtain ⟨k, rfl⟩ : ∃ k, n = k + 1 := Nat.exists_eq_add_of_le' hn
    exact ⟨"nil", rfl, writes_word (Token.isWord_cons (by decide) (by decide) (by decide))⟩
  | bool b =>
    obtain ⟨k, rfl⟩ : ∃ k, n = k + 1 := Nat.exists_eq_add_of_le' hn
    refine ⟨toString b, by cases b <;> rfl, writes_word ?_⟩
    cases b
    all_goals exact Token.isWord_cons (by decide) (by decide) (by decide)
  | int h =>
    obtain ⟨k, rfl⟩ : ∃ k, n = k + 1 := Nat.exists_eq_add_of_le' hn
    exact ⟨_, Numeral.write_eq h, writes_word (Numeral.isWord_toString _)⟩
  | string h =>
    obtain ⟨k, rfl⟩ : ∃ k, n = k + 1 := Nat.exists_eq_add_of_le' hn
    exact ⟨_, rfl, writes_text (.string h)⟩
  | keyword hchars =>
    obtain ⟨k, rfl⟩ : ∃ k, n = k + 1 := Nat.exists_eq_add_of_le' hn
    exact ⟨_, rfl, writes_text (.keyword hchars)⟩
  | @symbol name h =>
    obtain ⟨k, rfl⟩ : ∃ k, n = k + 1 := Nat.exists_eq_add_of_le' hn
    exact ⟨name, rfl, writes_word h.word⟩
  | @list serial items _ ih =>
    obtain ⟨k, rfl⟩ : ∃ k, n = k + 4 :=
      Nat.exists_eq_add_of_le' (Nat.le_trans (Nat.le_add_left ..) hn)
    obtain ⟨parts, hparts, hwrites⟩ := print_items ih (Nat.le_of_add_le_add_right hn) .round
    exact ⟨_, by rw [Value.print, hparts]; rfl, hwrites⟩
  | @vector serial items _ ih =>
    obtain ⟨k, rfl⟩ : ∃ k, n = k + 4 :=
      Nat.exists_eq_add_of_le' (Nat.le_trans (Nat.le_add_left ..) hn)
    obtain ⟨parts, hparts, hwrites⟩ := print_items ih (Nat.le_of_add_le_add_right hn) .square
    exact ⟨_, by rw [Value.print, hparts]; rfl, hwrites⟩
  | @map serial entries _ hkeys _ _ ih =>
    obtain ⟨k, rfl⟩ : ∃ k, n = k + 3 :=
      Nat.exists_eq_add_of_le' (Nat.le_trans (Nat.le_add_left ..) hn)
    obtain ⟨parts, hparts, hwrites⟩ :=
      print_entries hkeys ih (Nat.le_of_add_le_add_right hn) .curly
    exact ⟨_, by rw [Value.print, hparts]; rfl, hwrites⟩

/-! ### Writing entries -/

namespace Entries

variable {α : Type}

/-- A new key is written behind the others. -/
theorem insert_eq_append {k : String} {entries : Entries α} (h : k ∉ keys entries)
    (v : α) : insert k v entries = entries ++ [(k, v)] := by
  induction entries with
  | nil => rfl
  | cons entry rest ih =>
    simp only [keys, List.map_cons, List.mem_cons, not_or] at h
    rw [insert, if_neg (Ne.symm h.1), ih h.2]
    rfl

/-- Distinct keys are written behind one another. -/
theorem insertAll_eq_append {entries pairs : Entries α}
    (h : (keys (entries ++ pairs)).Nodup) :
    insertAll entries pairs = entries ++ pairs := by
  induction pairs generalizing entries with
  | nil => simp [insertAll]
  | cons pair pairs ih =>
    have hnew : pair.1 ∉ keys entries := by
      simp only [keys, List.map_append, List.map_cons, List.nodup_append] at h
      exact fun hmem => h.2.2 _ hmem _ (List.mem_cons_self ..) rfl
    rw [insertAll, List.foldl_cons, ← insertAll, insert_eq_append hnew, ih]
    · simp
    · simpa using h

/-- Writing a key leaves every key there once. -/
theorem nodup_keys_insert {entries : Entries α} (h : (keys entries).Nodup) (key : String)
    (value : α) : (keys (insert key value entries)).Nodup := by
  rw [keys_insert]
  split
  · exact h
  · next hnew =>
    refine List.nodup_append.2 ⟨h, by simp, ?_⟩
    rintro k hk _ (_ | _) rfl
    · exact hnew hk
    · contradiction

theorem nodup_keys_insertAll {entries : Entries α} (h : (keys entries).Nodup)
    (pairs : List (String × α)) :
    (keys (insertAll entries pairs)).Nodup := by
  induction pairs generalizing entries with
  | nil => exact h
  | cons pair pairs ih => exact ih (nodup_keys_insert h pair.1 pair.2)

theorem length_insert_of_mem {k : String} {entries : Entries α} (h : k ∈ keys entries)
    (v : α) : (insert k v entries).length = entries.length := by
  have hkeys := congrArg List.length (keys_insert k v entries)
  rwa [if_pos h, keys, keys, List.length_map, List.length_map] at hkeys

theorem length_insertAll_le (entries pairs : Entries α) :
    (insertAll entries pairs).length ≤ entries.length + pairs.length := by
  induction pairs generalizing entries with
  | nil => exact Nat.le_refl _
  | cons pair pairs ih =>
    have hrest := ih (insert pair.1 pair.2 entries)
    rw [insertAll, List.foldl_cons, ← insertAll, List.length_cons]
    by_cases h : pair.1 ∈ keys entries
    · rw [length_insert_of_mem h] at hrest
      omega
    · rw [insert_eq_append h, List.length_append, List.length_singleton] at hrest
      rw [insert_eq_append h]
      omega

/-- If as many entries are there as pairs were written, no key was written twice. -/
theorem nodup_of_length_insertAll {entries pairs : Entries α}
    (hnodup : (keys entries).Nodup)
    (hlength : (insertAll entries pairs).length = entries.length + pairs.length) :
    (keys (entries ++ pairs)).Nodup := by
  induction pairs generalizing entries with
  | nil => rwa [List.append_nil]
  | cons pair pairs ih =>
    rw [insertAll, List.foldl_cons, ← insertAll, List.length_cons] at hlength
    have hnew : pair.1 ∉ keys entries := by
      intro hold
      have hle := length_insertAll_le (insert pair.1 pair.2 entries) pairs
      rw [length_insert_of_mem hold] at hle
      omega
    rw [insert_eq_append hnew] at hlength
    have hnodup' : (keys (entries ++ [pair])).Nodup := by
      rw [← insert_eq_append hnew]
      exact nodup_keys_insert hnodup pair.1 pair.2
    have hlength' := ih hnodup' (by rw [hlength, List.length_append, List.length_singleton]; omega)
    rwa [List.append_assoc] at hlength'

/-- Entries with distinct keys are what comes of writing pairs, if they are these pairs. -/
theorem insertAll_nil_eq_iff {entries pairs : Entries α}
    (hnodup : (keys entries).Nodup) (hlength : pairs.length = entries.length) :
    insertAll [] pairs = entries ↔ pairs = entries := by
  constructor
  · intro heq
    have hpairs : (keys ([] ++ pairs)).Nodup :=
      nodup_of_length_insertAll List.nodup_nil (by rw [heq, hlength]; simp)
    rw [← heq, insertAll_eq_append hpairs, List.nil_append]
  · rintro rfl
    exact insertAll_eq_append hnodup

end Entries

/-! ### Reading -/

namespace Reader

/-- Goes on when a form is complete. -/
def resume (nesting : Nat) (fault : Option SyntaxFault) (stack : List Pending) (form : Value)
    (tokens : List Token) : List Value × Option Error :=
  let r := run nesting fault (complete form stack).1 tokens
  ((complete form stack).2.toList ++ r.1, r.2)

variable {nesting : Nat} {fault : Option SyntaxFault} {stack : List Pending} {form : Value}
  {tokens : List Token}

theorem run_of_push {t : Token} (h : push nesting stack t = .ok (complete form stack)) :
    run nesting fault stack (t :: tokens) = resume nesting fault stack form tokens := by
  simp only [run, h, resume]

theorem run_word {w : List Char} (h : word w = .ok form) :
    run nesting fault stack (.word w :: tokens) = resume nesting fault stack form tokens := by
  refine run_of_push ?_
  rw [push, h]
  rfl

/-- Inside a bracket a complete form joins the forms so far. -/
theorem resume_bracket (depth : Nat) (b : Bracket) (items : List Value) :
    resume nesting fault (.bracket depth b items :: stack) form tokens =
      run nesting fault (.bracket depth b (form :: items) :: stack) tokens := rfl

/-- A pair of brackets, if what stands between them leads to the forms `items`. -/
theorem run_bracketed {b : Bracket} {inner : List Token} {items : List Value}
    (hdepth : depth stack + 2 < nesting)
    (hinner : ∀ ts, run nesting fault (.bracket (depth stack + 2) b [] :: stack) (inner ++ ts) =
      run nesting fault (.bracket (depth stack + 2) b items.reverse :: stack) ts)
    (henclose : enclose nesting items b = .ok form) :
    run nesting fault stack ((.opener b :: (inner ++ [.closer b])) ++ tokens) =
      resume nesting fault stack form tokens := by
  have hopen : push nesting stack (.opener b) =
      .ok (.bracket (depth stack + 2) b [] :: stack, none) := by
    simp only [push, open?, if_pos hdepth]
  have hclose : push nesting (.bracket (depth stack + 2) b items.reverse :: stack) (.closer b) =
      .ok (complete form stack) := by
    simp only [push, if_true, List.reverse_reverse, henclose]
    rfl
  calc run nesting fault stack ((.opener b :: (inner ++ [.closer b])) ++ tokens)
      = run nesting fault (.bracket (depth stack + 2) b [] :: stack)
          (inner ++ (.closer b :: tokens)) := by simp [run, hopen]
    _ = run nesting fault (.bracket (depth stack + 2) b items.reverse :: stack)
          (.closer b :: tokens) := hinner _
    _ = resume nesting fault stack form tokens := by simp [run, hclose, resume]

theorem run_text {s : String} (h : Legible (.text s)) :
    run nesting fault stack (Value.textToken s :: tokens) =
      resume nesting fault stack (.text (Keyword.reread s)) tokens := by
  generalize hv : Value.text s = v at h
  cases h with
  | string h =>
    cases hv
    -- The reader refuses texts that start like keywords, and this one does not.
    have hmark : s.toList.head? ≠ some Keyword.mark := by
      simpa [Keyword.isKeyword_eq] using h
    have hdecode : Literal.decode (s.toList.flatMap Literal.encodeChar ++ ['\"']) = .ok s := by
      simp only [Literal.decode, Literal.decodeBody_flatMap_encodeChar, if_neg hmark,
        String.ofList_toList]
    refine run_of_push ?_
    simp only [Value.textToken, h, Token.literal, push, Bool.false_eq_true, if_false, hdecode,
      Keyword.reread_of_string h]
  | @keyword name hchars =>
    cases hv
    simpa [Value.textToken, Keyword.isKeyword_eq, Keyword.name, Keyword.reread] using
      run_word (word_keyword name)
  | _ => cases hv

/-- Values inside a bracket join the forms so far, one after another. -/
theorem run_items {vs : List Value} {depth : Nat} {b : Bracket}
    (h : ∀ v ∈ vs, ∀ (items : List Value) (ts : List Token),
      run nesting fault (.bracket depth b items :: stack) (v.tokens ++ ts) =
        resume nesting fault (.bracket depth b items :: stack) v.reread ts)
    (items : List Value) (ts : List Token) :
    run nesting fault (.bracket depth b items :: stack) (Value.tokensAll vs ++ ts) =
      run nesting fault (.bracket depth b ((Value.rereadAll vs).reverse ++ items) :: stack) ts := by
  induction vs generalizing items with
  | nil => rfl
  | cons v vs ih =>
    rw [Value.tokensAll, List.append_assoc, h v (List.mem_cons_self ..), resume_bracket,
      ih fun v hv => h v (List.mem_cons_of_mem _ hv)]
    simp [Value.rereadAll]

/-- A pair of brackets around values. -/
theorem run_collection {vs : List Value} {b : Bracket}
    (hdepth : depth stack + (Value.stepsAll vs + 4) ≤ nesting)
    (h : ∀ v ∈ vs, ∀ {stack : List Pending}, depth stack + v.steps ≤ nesting → ∀ ts,
      run nesting fault stack (v.tokens ++ ts) = resume nesting fault stack v.reread ts)
    (henclose : enclose nesting (Value.rereadAll vs) b = .ok form) :
    run nesting fault stack ((.opener b :: (Value.tokensAll vs ++ [.closer b])) ++ tokens) =
      resume nesting fault stack form tokens := by
  refine run_bracketed (by omega) ?_ henclose
  intro ts
  have hvalues : ∀ v ∈ vs, ∀ (items : List Value) (ts : List Token),
      run nesting fault (.bracket (depth stack + 2) b items :: stack) (v.tokens ++ ts) =
        resume nesting fault (.bracket (depth stack + 2) b items :: stack) v.reread ts := by
    intro v hv items ts
    apply h v hv
    have hsteps := Value.steps_le_stepsAll hv
    show depth stack + 2 + v.steps ≤ nesting
    omega
  rw [run_items hvalues, List.append_nil]

/-- The keys and values of entries in turn. -/
def alternating : Entries Value → List Value
  | [] => []
  | (k, v) :: rest => .text k :: v :: alternating rest

/-- Keys and values inside a bracket join the forms so far in turn. -/
theorem run_entries {entries : Entries Value} {depth : Nat} {b : Bracket}
    (hkeys : ∀ entry ∈ entries, Legible (.text entry.1))
    (h : ∀ entry ∈ entries, ∀ (items : List Value) (ts : List Token),
      run nesting fault (.bracket depth b items :: stack) (entry.2.tokens ++ ts) =
        resume nesting fault (.bracket depth b items :: stack) entry.2.reread ts)
    (items : List Value) (ts : List Token) :
    run nesting fault (.bracket depth b items :: stack) (Value.tokensEntries entries ++ ts) =
      run nesting fault
        (.bracket depth b ((alternating (Value.rereadEntries entries)).reverse ++ items) :: stack)
        ts := by
  induction entries generalizing items with
  | nil => rfl
  | cons entry rest ih =>
    obtain ⟨k, v⟩ := entry
    have hkey := hkeys (k, v) (List.mem_cons_self ..)
    rw [Value.tokensEntries, List.append_assoc, List.cons_append, run_text hkey, resume_bracket,
      h (k, v) (List.mem_cons_self ..), resume_bracket,
      ih (fun e he => hkeys e (List.mem_cons_of_mem _ he))
        fun e he => h e (List.mem_cons_of_mem _ he)]
    simp [Value.rereadEntries, alternating]

theorem mapEntries_alternating (entries : Entries Value) :
    mapEntries nesting (alternating entries) = .ok entries := by
  induction entries with
  | nil => rfl
  | cons entry rest ih =>
    rw [alternating, mapEntries, ih]
    rfl

theorem length_alternating (entries : Entries Value) :
    (alternating entries).length = 2 * entries.length := by
  induction entries with
  | nil => rfl
  | cons entry rest ih =>
    simp only [alternating, List.length_cons, ih]
    omega

/-- Keys and values in turn make a hash-map. -/
theorem enclose_map (entries : Entries Value) :
    enclose nesting (alternating entries) .curly = .ok (.map 0 (Entries.insertAll [] entries)) := by
  have heven : (alternating entries).length % 2 = 0 := by
    rw [length_alternating]
    omega
  simp only [enclose, if_pos heven, mapEntries_alternating, Entries.insertMany_eq]
  rfl

end Reader

/-- The tokens of a legible value complete what the value reads back as. -/
theorem Legible.run {v : Value} (h : Legible v) {nesting : Nat} {stack : List Pending}
    (hdepth : Reader.depth stack + v.steps ≤ nesting) (fault : Option SyntaxFault)
    (tokens : List Token) :
    Reader.run nesting fault stack (v.tokens ++ tokens) =
      Reader.resume nesting fault stack v.reread tokens := by
  -- Brackets are opened on the way, so the stack varies. It is as deep as the brackets are, two
  -- steps each, while the value gets shallower by three steps at least.
  induction h generalizing stack tokens with
  | nil => exact Reader.run_word rfl
  | bool b => cases b <;> exact Reader.run_word rfl
  | int h => exact Reader.run_word (Reader.word_toString h)
  | string h => exact Reader.run_text (.string h)
  | keyword hchars => exact Reader.run_text (.keyword hchars)
  | symbol h => exact Reader.run_word (Reader.word_symbol h)
  | list _ ih => exact Reader.run_collection hdepth ih rfl
  | vector _ ih => exact Reader.run_collection hdepth ih rfl
  | @map serial entries hdistinct hkeys _ _ ih =>
    simp only [Value.steps] at hdepth
    refine Reader.run_bracketed (by omega) ?_ (Reader.enclose_map (Value.rereadEntries entries))
    intro ts
    rw [Reader.run_entries hkeys fun entry hentry items ts => ih entry hentry ?_ ts,
      List.append_nil]
    have hsteps := Value.steps_le_stepsEntries hentry
    show Reader.depth stack + 2 + entry.2.steps ≤ nesting
    omega

/-! ### What reads back as itself -/

theorem readable_keyword_iff {name : List Char} (h : ∀ c ∈ name, Token.isWordChar c = true) :
    Readable (.text (String.ofList (Keyword.mark :: name))) ↔ name.head? ≠ some Keyword.mark := by
  refine ⟨fun hreadable => ?_, .keyword h⟩
  generalize hv : Value.text (String.ofList (Keyword.mark :: name)) = v at hreadable
  cases hreadable with
  | string hstring =>
    cases hv
    simp [Keyword.isKeyword_eq] at hstring
  | keyword _ hmark =>
    obtain rfl := (List.cons.inj (String.ofList_inj.1 (Value.text.inj hv))).2
    exact hmark
  | _ => cases hv

section
variable {serial : Serial} {items : List Value} {entries : Entries Value}

theorem readable_list_iff : Readable (.list serial items) ↔ ∀ v ∈ items, Readable v := by
  refine ⟨fun h => ?_, .list⟩
  cases h
  assumption

theorem readable_vector_iff : Readable (.vector serial items) ↔ ∀ v ∈ items, Readable v := by
  refine ⟨fun h => ?_, .vector⟩
  cases h
  assumption

theorem readable_map_iff (hdistinct : (Entries.keys entries).Nodup) :
    Readable (.map serial entries) ↔
      ∀ entry ∈ entries, Readable (.text entry.1) ∧ Readable entry.2 := by
  constructor
  · intro h entry hentry
    cases h with
    | map _ hkeys hvals => exact ⟨hkeys entry hentry, hvals entry hentry⟩
  · intro h
    exact .map hdistinct (fun entry hentry => (h entry hentry).1)
      fun entry hentry => (h entry hentry).2

end

/-- Of the legible values just the readable ones read back as they were. -/
theorem Legible.reread_eq_iff {v : Value} (h : Legible v) : v.reread = v.written ↔ Readable v := by
  induction h with
  | nil => exact iff_of_true rfl .nil
  | bool b => exact iff_of_true rfl (.bool b)
  | int h => exact iff_of_true rfl (.int h)
  | symbol h => exact iff_of_true rfl (.symbol h)
  | string h => exact iff_of_true (congrArg Value.text (Keyword.reread_of_string h)) (.string h)
  | @keyword name hchars =>
    rw [readable_keyword_iff hchars, ← Keyword.reread_keyword]
    exact ⟨Value.text.inj, congrArg Value.text⟩
  | @list serial items _ ih =>
    rw [Value.reread, Value.written, Value.list.injEq, Value.rereadAll_eq, Value.writtenAll_eq,
      List.map_inj_left, and_iff_right rfl, readable_list_iff]
    exact forall₂_congr ih
  | @vector serial items _ ih =>
    rw [Value.reread, Value.written, Value.vector.injEq, Value.rereadAll_eq, Value.writtenAll_eq,
      List.map_inj_left, and_iff_right rfl, readable_vector_iff]
    exact forall₂_congr ih
  | @map serial entries hdistinct _ _ hkeys hvals =>
    have hwritten : (Entries.keys (Value.writtenEntries entries)).Nodup := by
      rwa [Value.keys_writtenEntries]
    have hlength :
        (Value.rereadEntries entries).length = (Value.writtenEntries entries).length := by
      simp [Value.rereadEntries_eq, Value.writtenEntries_eq]
    rw [Value.reread, Value.written, Value.map.injEq, and_iff_right rfl,
      Entries.insertAll_nil_eq_iff hwritten hlength,
      Value.rereadEntries_eq, Value.writtenEntries_eq, List.map_inj_left,
      readable_map_iff hdistinct]
    refine forall₂_congr fun entry hentry => ?_
    rw [← hkeys entry hentry, ← hvals entry hentry, Prod.mk.injEq]
    exact and_congr_left fun _ => ⟨congrArg Value.text, Value.text.inj⟩

/-- A readable value reads back as itself. -/
theorem Readable.reread_eq {v : Value} (h : Readable v) : v.reread = v.written :=
  h.legible.reread_eq_iff.2 h

/-! ### The round trip -/

/-- The tokens of legible values give what the values read back as. -/
theorem run_tokensAll {vs : List Value} (h : ∀ v ∈ vs, Legible v) {nesting : Nat}
    (hn : ∀ v ∈ vs, v.steps ≤ nesting) :
    Reader.run nesting none [] (Value.tokensAll vs) = (vs.map Value.reread, none) := by
  induction vs with
  | nil => rfl
  | cons v vs ih =>
    have hlegible := h v (List.mem_cons_self ..)
    have hsteps := hn v (List.mem_cons_self ..)
    have hrest := ih (fun w hw => h w (List.mem_cons_of_mem _ hw))
      fun w hw => hn w (List.mem_cons_of_mem _ hw)
    -- No bracket is open, so the complete value is one of those that are read.
    rw [Value.tokensAll, hlegible.run (by simpa [Reader.depth] using hsteps)]
    simp [Reader.resume, Reader.complete, hrest]

/-- The printed forms of readable values, joined with blanks, give the values. -/
theorem readAll_intercalate {vs : List Value} (h : ∀ v ∈ vs, Readable v) {nesting : Nat}
    (hn : ∀ v ∈ vs, v.steps ≤ nesting) (cells : Cells) :
    ∃ text, Value.printAll cells true nesting " " vs = .ok text ∧
      Reader.readAll nesting text = (vs.map Value.written, none) := by
  have hlegible : ∀ v ∈ vs, Legible v := fun v hv => (h v hv).legible
  have hreread : vs.map Value.reread = vs.map Value.written :=
    List.map_congr_left fun v hv => (h v hv).reread_eq
  obtain ⟨parts, hparts, hwrites⟩ := mapM_eq_ok (f := Value.print cells true nesting)
    (g := Value.tokens) (R := Writes) fun v hv => (hlegible v hv).print cells (hn v hv)
  refine ⟨" ".intercalate parts, by rw [Value.printAll, hparts]; rfl, ?_⟩
  have htokens := (Token.spells_intercalate hwrites).lexes.ofText
  rw [← Value.tokensAll_eq] at htokens
  rw [Reader.readAll, htokens, ← hreread]
  exact run_tokensAll hlegible hn

/-- What the text of a single legible value reads back as. -/
theorem Legible.readFirst_print {v : Value} (h : Legible v) {nesting : Nat}
    (hn : v.steps ≤ nesting) (cells : Cells) :
    ∃ text, v.print cells true nesting = .ok text ∧
      Reader.readFirst nesting text = .ok v.reread := by
  obtain ⟨text, htext, hwrites⟩ := h.print cells hn
  refine ⟨text, htext, ?_⟩
  have hrun := run_tokensAll (show ∀ w ∈ [v], Legible w by simpa using h)
    (show ∀ w ∈ [v], w.steps ≤ nesting by simpa using hn)
  rw [Value.tokensAll, Value.tokensAll, List.append_nil] at hrun
  rw [Reader.readFirst, Reader.readAll, hwrites.1.lexes.ofText, hrun]
  rfl

/-- The text of a single readable value reads back as the value. -/
theorem readFirst_print {v : Value} (h : Readable v) {nesting : Nat} (hn : v.steps ≤ nesting)
    (cells : Cells) :
    ∃ text, v.print cells true nesting = .ok text ∧
      Reader.readFirst nesting text = .ok v.written :=
  h.reread_eq ▸ h.legible.readFirst_print hn cells

/-- **Readable printing is undone by the reader.** Where neither printing nor reading nests too
deeply, the text that `pr-str` makes of readable values reads back as exactly these values, in
their order, and the text of each of them reads back as the value. -/
theorem readAll_printed (c : Caller) (frame : FrameId) (m : Machine) (vs : List Value)
    (h : ∀ v ∈ vs, Readable v) (hn : ∀ v ∈ vs, v.steps ≤ m.host.limits.nesting) :
    (∃ text, Builtin.call c frame vs (.query .prStr) m = .done (.text text) m ∧
      Reader.readAll m.host.limits.nesting text = (vs.map Value.written, none)) ∧
    ∀ v ∈ vs, ∃ text, m.print true v = .ok text ∧
      Reader.readFirst m.host.limits.nesting text = .ok v.written := by
  have heach : ∀ v ∈ vs, ∃ text, m.print true v = .ok text ∧
      Reader.readFirst m.host.limits.nesting text = .ok v.written := by
    intro v hv
    exact readFirst_print (h v hv) (hn v hv) m.cells
  obtain ⟨text, htext, hread⟩ := readAll_intercalate h hn m.cells
  refine ⟨⟨text, ?_, hread⟩, heach⟩
  -- The builtin answers with the text, and changes nothing.
  have hanswer : Builtin.Query.prStr.answer m vs = .ok (.value (.text text)) := by
    show Texts.printed m true " " vs = _
    simp only [Texts.printed, Machine.printAll, htext]
    rfl
  show (Run.read (Builtin.Query.prStr.answer · vs) >>= Answer.make) m = _
  simp only [Run.bind_apply, Run.read, hanswer]
  rfl

/-- A list and a hash-map: with a symbol that looks almost like a number, a text that is full of
escapes, and the keyword without a name. -/
def writtenSample : List Value :=
  [.list 7 [.symbol "-", .int (-12), .text "\\\"\n"],
    .map 8 [(String.ofList [Keyword.mark], .vector 9 [.nil])]]

theorem readable_writtenSample : ∀ v ∈ writtenSample, Readable v := by
  have hsymbol : IsSymbolName "-" :=
    { word := Token.isWord_cons (by decide) (by decide) (by decide)
      no_keyword := by decide
      no_numeral := by decide
      no_constant := by decide }
  have hkeyword : Readable (.text (String.ofList [Keyword.mark])) :=
    @Readable.keyword [] nofun nofun
  have hint : Readable (.int (-12)) := .int (by decide +kernel)
  have hstring : Readable (.text "\\\"\n") := .string (by decide +kernel)
  have hlist : Readable (.list 7 [.symbol "-", .int (-12), .text "\\\"\n"]) :=
    .list (by simp [Readable.symbol hsymbol, hint, hstring])
  have hmap : Readable (.map 8 [(String.ofList [Keyword.mark], .vector 9 [.nil])]) :=
    .map (by decide) (by simpa using hkeyword) (by simpa using .vector (by simpa using .nil))
  simpa [writtenSample] using ⟨hlist, hmap⟩

/-- The sample comes back from its printed form. -/
theorem readAll_writtenSample :
    let m := Machine.initial
      { files := ⟨[], []⟩, clock := fun _ => 0, journal := .unset, limits := .least } .ended
    (∀ v ∈ writtenSample, Readable v) ∧ (∀ v ∈ writtenSample, v.steps ≤ m.host.limits.nesting) ∧
      ∃ text, Builtin.call ⟨fun _ _ => Run.unfinished, (0 : Nat), 0⟩ 0 writtenSample
          (.query .prStr) m = .done (.text text) m ∧
        Reader.readAll m.host.limits.nesting text = (writtenSample.map Value.written, none) :=
  ⟨readable_writtenSample, by decide,
    (readAll_printed _ 0 _ writtenSample readable_writtenSample (by decide)).1⟩

end AtomLisp
