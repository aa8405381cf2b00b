import AtomLisp.Proofs.Reading.Shown
import AtomLisp.Proofs.RoundTrip
import Mathlib.Tactic.Tauto

/-! # What the reader makes, printed and read again

  Everything that the reader makes of a text has a printed form that reads. It reads back as the
  same form, except that a keyword whose name starts with the keyword mark loses one mark.

  * `Token.IsLexed`: a word among the tokens of a text is a word indeed (`Token.isLexed_ofText`);
  * `IsForm`: the values that the reader makes, and `Reader.isForm_readAll`: all of them are so;
  * `Value.steps_le_of_print`: what is printed is not nested too deeply for that;
  * `Legible.readable_iff`: which legible values read back as they were;
  * `readFirst_printed_form`: what is read reads back from its printed form.
-/

namespace AtomLisp

/-! ### The words of a text -/

namespace Token

/-- The token is no word, or a word as it stands in a text. -/
def IsLexed : Token → Prop
  | .word cs => IsWord cs
  | _ => True

/-- A token that starts with no separator. -/
theorem isLexed_scan {c : Char} {cs : List Char} {t : Token} (hc : isSeparator c = false)
    (h : (scan c cs).1 = some t) : IsLexed t := by
  unfold scan at h
  split at h
  case h_13 hsemicolon hquote hback hat htilde hround hsquare hcurly hround' hsquare' hcurly'
      htext =>
    -- No other token starts with the character, so it is one of words.
    cases h
    have hword : isWordChar c = true := by
      simp only [isWordChar, isDelimiter, hc, Bool.not_false, Bool.true_and, Bool.not_eq_true',
        Bool.or_eq_false_iff, beq_eq_false_iff_ne]
      tauto
    exact isWord_cons hword ⟨htilde, hat⟩ List.all_takeWhile
  case h_5 =>
    split at h
    all_goals
      cases h
      trivial
  all_goals
    cases h
    try trivial

theorem isLexed_split (cs : List Char) : ∀ t ∈ (split cs).1, IsLexed t := by
  fun_induction split cs with
  | case1 cs h => nofun
  | case2 cs c rest h first others ih =>
    intro t ht
    have hc : isSeparator c = false := by
      have hhead := List.head?_dropWhile_not isSeparator cs
      rw [h] at hhead
      simpa using hhead
    rcases List.mem_append.1 ht with hfirst | hothers
    · exact isLexed_scan hc (Option.mem_toList.1 hfirst)
    · exact ih t hothers

theorem isLexed_ofText (s : String) : ∀ t ∈ (ofText s).1, IsLexed t := isLexed_split s.toList

end Token

/-! ### What tokens stand for -/

/-- The values that the reader makes. -/
structure IsForm (v : Value) : Prop where
  legible : Legible v
  /-- Nothing that was read has a serial number. -/
  written : v.written = v

/-- The keyword of a name has a printed form that reads. -/
theorem legible_ofName {name : List Char} (h : ∀ c ∈ name, Token.isWordChar c = true) :
    Legible (.text (Keyword.ofName (String.ofList name))) := by
  unfold Keyword.ofName
  split
  · next hmark =>
    -- The name has the mark already, and what comes after it is the name that is printed.
    rw [Keyword.isKeyword_eq, String.toList_ofList, beq_iff_eq] at hmark
    obtain ⟨rest, rfl⟩ := List.head?_eq_some_iff.1 hmark
    exact .keyword fun c hc => h c (List.mem_cons_of_mem _ hc)
  · rw [String.toList_ofList]
    exact .keyword h

theorem isForm_word {cs : List Char} (hcs : Token.IsWord cs) {form : Value}
    (h : Reader.word cs = .ok form) : IsForm form := by
  unfold Reader.word at h
  split at h
  · split at h
    · cases h
      exact ⟨.int (Numeral.natAbs_lt_of_read? ‹_›), rfl⟩
    · cases h
  · next hnumeral =>
    split at h
    · cases h
      exact ⟨.nil, rfl⟩
    · cases h
      exact ⟨.bool true, rfl⟩
    · cases h
      exact ⟨.bool false, rfl⟩
    · next hnil htrue hfalse =>
      split at h
      · cases h
        exact ⟨legible_ofName fun c hc => hcs.chars c (List.mem_cons_of_mem _ hc), rfl⟩
      · next hcolon =>
        cases h
        refine ⟨.symbol ⟨?_, ?_, ?_, hnil, htrue, hfalse⟩, rfl⟩
        · rwa [String.toList_ofList]
        · rw [String.toList_ofList]
          intro hhead
          obtain ⟨name, rfl⟩ := List.head?_eq_some_iff.1 hhead
          exact hcolon name rfl
        · rw [String.toList_ofList]
          exact Bool.eq_false_iff.2 hnumeral

theorem isForm_text {body : List Char} {s : String} (h : Literal.decode body = .ok s) :
    IsForm (.text s) := by
  unfold Literal.decode at h
  split at h
  · cases h
  · split at h
    · cases h
    · next hmark =>
      cases h
      refine ⟨.string ?_, rfl⟩
      rw [Keyword.isKeyword_eq, String.toList_ofList]
      exact beq_eq_false_iff_ne.2 hmark

theorem isForm_mark (m : QuoteMark) {form : Value} (h : IsForm form) :
    IsForm (.form [.symbol m.symbol, form]) := by
  have hsymbol : IsSymbolName m.symbol := by
    cases m
    all_goals exact
      { word := Token.isWord_cons (by decide) (by decide) (by decide)
        no_keyword := by decide
        no_numeral := by decide
        no_constant := by decide }
  refine ⟨.list ?_, ?_⟩
  · intro v hv
    rcases List.mem_pair.1 hv with rfl | rfl
    · exact .symbol hsymbol
    · exact h.legible
  · simp only [Value.written, Value.writtenAll, h.written]

/-! ### What brackets stand for -/

namespace Entries

variable {α : Type} {entries : Entries α}

theorem mem_keys_insertAll {pairs : Entries α} {key : String}
    (h : key ∈ keys (insertAll entries pairs)) : key ∈ keys pairs ∨ key ∈ keys entries := by
  induction pairs generalizing entries with
  | nil => exact .inr h
  | cons pair pairs ih =>
    rcases ih h with hpairs | hentries
    · exact .inl (List.mem_cons_of_mem _ hpairs)
    · rw [keys_insert] at hentries
      split at hentries
      · exact .inr hentries
      · rcases List.mem_append.1 hentries with hold | hnew
        · exact .inr hold
        · exact .inl (List.mem_singleton.1 hnew ▸ List.mem_cons_self ..)

end Entries

theorem Reader.mem_of_mapEntries {nesting : Nat} {items : List Value} {entries : Entries Value}
    (h : mapEntries nesting items = .ok entries) :
    (∀ k ∈ Entries.keys entries, .text k ∈ items) ∧ ∀ v ∈ Entries.vals entries, v ∈ items := by
  fun_induction mapEntries nesting items generalizing entries with
  | case1 =>
    cases h
    exact ⟨List.forall_mem_nil _, List.forall_mem_nil _⟩
  | case2 k v rest ih =>
    obtain ⟨others, hothers, hok⟩ := exists_of_bind_eq_ok h
    cases hok
    obtain ⟨hkeys, hvals⟩ := ih hothers
    constructor
    · intro key hkey
      rcases List.mem_cons.1 hkey with rfl | hkey
      · exact List.mem_cons_self ..
      · exact List.mem_cons_of_mem _ (List.mem_cons_of_mem _ (hkeys key hkey))
    · intro w hw
      rcases List.mem_cons.1 hw with rfl | hw
      · exact List.mem_cons_of_mem _ (List.mem_cons_self ..)
      · exact List.mem_cons_of_mem _ (List.mem_cons_of_mem _ (hvals w hw))
  | case3 k v rest hk =>
    obtain ⟨shown, -, hok⟩ := exists_of_bind_eq_ok h
    cases hok
  | case4 v => cases h

/-- A hash-map of forms. Of the values of a key the last one is kept. -/
theorem isForm_map {pairs : Entries Value} (hkeys : ∀ k ∈ Entries.keys pairs, IsForm (.text k))
    (hvals : ∀ v ∈ Entries.vals pairs, IsForm v) :
    IsForm (.map 0 (Entries.insertAll [] pairs)) := by
  have hkey : ∀ entry ∈ Entries.insertAll [] pairs, IsForm (.text entry.1) := by
    intro entry hentry
    rcases Entries.mem_keys_insertAll (List.mem_map_of_mem hentry) with h | h
    · exact hkeys _ h
    · cases h
  have hval : ∀ entry ∈ Entries.insertAll [] pairs, IsForm entry.2 := by
    intro entry hentry
    rcases Entries.mem_vals_insertAll (List.mem_map_of_mem hentry) with h | h
    · exact hvals _ h
    · cases h
  have hempty : (Entries.keys ([] : Entries Value)).Nodup := List.nodup_nil
  refine ⟨.map (Entries.nodup_keys_insertAll hempty pairs)
    (fun entry hentry => (hkey entry hentry).legible)
    fun entry hentry => (hval entry hentry).legible, ?_⟩
  rw [Value.written, Value.writtenEntries_eq]
  refine congrArg (Value.map 0) (Eq.trans (List.map_congr_left fun entry hentry => ?_)
    (List.map_id' _))
  rw [(hval entry hentry).written]

theorem isForm_enclose {nesting : Nat} {items : List Value} (h : ∀ v ∈ items, IsForm v)
    {b : Bracket} {form : Value} (hform : Reader.enclose nesting items b = .ok form) :
    IsForm form := by
  have hlegible : ∀ v ∈ items, Legible v := fun v hv => (h v hv).legible
  have hwritten : Value.writtenAll items = items := by
    rw [Value.writtenAll_eq]
    exact (List.map_congr_left fun v hv => (h v hv).written).trans (List.map_id' items)
  cases b with
  | round =>
    cases hform
    exact ⟨.list hlegible, congrArg (Value.list 0) hwritten⟩
  | square =>
    cases hform
    exact ⟨.vector hlegible, congrArg (Value.vector 0) hwritten⟩
  | curly =>
    rw [Reader.enclose] at hform
    split at hform
    · obtain ⟨entries, hentries, hok⟩ := exists_of_bind_eq_ok hform
      rw [Entries.insertMany_eq] at hok
      cases hok
      obtain ⟨hkeys, hvals⟩ := Reader.mem_of_mapEntries hentries
      exact isForm_map (fun k hk => h _ (hkeys k hk)) fun v hv => h v (hvals v hv)
    · cases hform

/-! ### What is read -/

/-- What waits holds forms. -/
def Pending.HoldsForms : Pending → Prop
  | .mark _ _ => True
  | .bracket _ _ items => ∀ v ∈ items, IsForm v

namespace Reader

variable {nesting : Nat} {stack : List Pending}

/-- A complete form goes where forms are. -/
theorem isForm_complete (hstack : ∀ p ∈ stack, p.HoldsForms) {form : Value} (h : IsForm form) :
    (∀ p ∈ (complete form stack).1, p.HoldsForms) ∧
      ∀ v ∈ (complete form stack).2, IsForm v := by
  -- A form goes on through the marks in front of it, up to the innermost open bracket.
  induction stack generalizing form with
  | nil =>
    refine ⟨nofun, fun v hv => ?_⟩
    cases hv
    exact h
  | cons pending stack ih =>
    have hrest : ∀ p ∈ stack, p.HoldsForms := fun p hp => hstack p (List.mem_cons_of_mem _ hp)
    cases pending with
    | mark depth m => exact ih hrest (isForm_mark m h)
    | bracket depth b items =>
      have hitems : Pending.HoldsForms (.bracket depth b items) := hstack _ (List.mem_cons_self ..)
      refine ⟨List.forall_mem_cons.2 ⟨List.forall_mem_cons.2 ⟨h, hitems⟩, hrest⟩, nofun⟩

/-- A token of a text leads from forms to forms. -/
theorem isForm_push (hstack : ∀ p ∈ stack, p.HoldsForms) {t : Token} (ht : t.IsLexed)
    {r : List Pending × Option Value} (h : push nesting stack t = .ok r) :
    (∀ p ∈ r.1, p.HoldsForms) ∧ ∀ v ∈ r.2, IsForm v := by
  cases takes_of_push h with
  | mark => exact ⟨List.forall_mem_cons.2 ⟨trivial, hstack⟩, nofun⟩
  | opener => exact ⟨List.forall_mem_cons.2 ⟨nofun, hstack⟩, nofun⟩
  | closer henclose =>
    obtain ⟨hitems, hrest⟩ := List.forall_mem_cons.1 hstack
    exact isForm_complete hrest
      (isForm_enclose (fun v hv => hitems v (List.mem_reverse.1 hv)) henclose)
  | text hdecode => exact isForm_complete hstack (isForm_text hdecode)
  | word hword => exact isForm_complete hstack (isForm_word ht hword)

theorem isForm_run {fault : Option SyntaxFault} {tokens : List Token}
    (htokens : ∀ t ∈ tokens, t.IsLexed) (hstack : ∀ p ∈ stack, p.HoldsForms) :
    ∀ v ∈ (run nesting fault stack tokens).1, IsForm v := by
  -- All the time, what waits holds forms.
  induction tokens generalizing stack with
  | nil => exact List.forall_mem_nil _
  | cons t tokens ih =>
    obtain ⟨ht, hrest⟩ := List.forall_mem_cons.1 htokens
    rw [run]
    split
    · exact List.forall_mem_nil _
    · next stack' form? hpush =>
      obtain ⟨hstack', hform⟩ := isForm_push hstack ht hpush
      intro v hv
      rcases List.mem_append.1 hv with hv | hv
      · exact hform v (Option.mem_toList.1 hv)
      · exact ih hrest hstack' v hv

/-- All that is read of a text is made by the reader's rules. -/
theorem isForm_readAll {s : String} {v : Value} (h : v ∈ (readAll nesting s).1) : IsForm v :=
  isForm_run (Token.isLexed_ofText s) (List.forall_mem_nil _) v h

end Reader

/-! ### How deep a printed value is -/

/-- Where parts are joined, every part has come out. -/
theorem exists_of_mapM_eq_ok {ε α β : Type} {f : α → Except ε β} {xs : List α} {ys : List β}
    (h : xs.mapM f = .ok ys) {x : α} (hx : x ∈ xs) : ∃ y, f x = .ok y := by
  induction xs generalizing ys with
  | nil => cases hx
  | cons x' xs ih =>
    rw [List.mapM_cons] at h
    obtain ⟨y, hy, hrest⟩ := exists_of_bind_eq_ok h
    obtain ⟨ys', hys, -⟩ := exists_of_bind_eq_ok hrest
    rcases List.mem_cons.1 hx with rfl | hx
    · exact ⟨y, hy⟩
    · exact ih hys hx

namespace Value

theorem stepsAll_le {vs : List Value} {n : Nat} (h : ∀ v ∈ vs, v.steps ≤ n) :
    stepsAll vs ≤ n := by
  induction vs with
  | nil => exact Nat.zero_le n
  | cons v vs ih =>
    obtain ⟨hv, hvs⟩ := List.forall_mem_cons.1 h
    exact Nat.max_le.2 ⟨hv, ih hvs⟩

theorem stepsEntries_le {entries : Entries Value} {n : Nat}
    (h : ∀ entry ∈ entries, entry.2.steps ≤ n) : stepsEntries entries ≤ n := by
  induction entries with
  | nil => exact Nat.zero_le n
  | cons entry rest ih =>
    obtain ⟨hentry, hrest⟩ := List.forall_mem_cons.1 h
    exact Nat.max_le.2 ⟨hentry, ih hrest⟩

/-- What is printed is not too deep for that. -/
theorem steps_le_of_print {cells : Cells} {readable : Bool} {n : Nat} {v : Value} {text : String}
    (h : v.print cells readable n = .ok text) : v.steps ≤ n := by
  induction n using Nat.strongRecOn generalizing v text with
  | ind n ih =>
    -- A collection takes the steps of its deepest part, and some of its own.
    cases v with
    | list serial items | vector serial items =>
      rcases n with _ | _ | _ | _ | n
      iterate 4 cases h
      obtain ⟨parts, hparts, -⟩ := exists_of_bind_eq_ok h
      refine Nat.add_le_add_right (stepsAll_le fun v hv => ?_) 4
      obtain ⟨part, hpart⟩ := exists_of_mapM_eq_ok hparts hv
      exact ih n (by omega) hpart
    | map serial entries =>
      rcases n with _ | _ | _ | n
      iterate 3 cases h
      obtain ⟨parts, hparts, -⟩ := exists_of_bind_eq_ok h
      refine Nat.add_le_add_right (stepsEntries_le fun entry hentry => ?_) 3
      obtain ⟨part, hpart⟩ := exists_of_mapM_eq_ok hparts hentry
      obtain ⟨value, hvalue, -⟩ := exists_of_bind_eq_ok hpart
      exact ih n (by omega) hvalue
    | _ =>
      rcases Nat.eq_zero_or_pos n with rfl | hpos
      · cases h
      · exact hpos

/-! ### The texts in a value -/

mutual

/-- The strings and keywords in a value, with the keys of its hash-maps. -/
def texts : Value → List String
  | .text s => [s]
  | .list _ items | .vector _ items => textsAll items
  | .map _ entries => textsEntries entries
  | _ => []
termination_by structural v => v

/-- The strings and keywords in values. -/
def textsAll : List Value → List String
  | [] => []
  | v :: vs => v.texts ++ textsAll vs
termination_by structural vs => vs

/-- The strings and keywords in entries. -/
def textsEntries : List (String × Value) → List String
  | [] => []
  | (k, v) :: rest => k :: v.texts ++ textsEntries rest
termination_by structural es => es

end

theorem forall_mem_textsAll {vs : List Value} {p : String → Prop} :
    (∀ s ∈ textsAll vs, p s) ↔ ∀ v ∈ vs, ∀ s ∈ v.texts, p s := by
  induction vs with
  | nil => simp [textsAll]
  | cons v vs ih => rw [textsAll, List.forall_mem_append, ih, List.forall_mem_cons]

theorem forall_mem_textsEntries {entries : Entries Value} {p : String → Prop} :
    (∀ s ∈ textsEntries entries, p s) ↔
      ∀ entry ∈ entries, p entry.1 ∧ ∀ s ∈ entry.2.texts, p s := by
  induction entries with
  | nil => simp [textsEntries]
  | cons entry rest ih =>
    rw [textsEntries, List.forall_mem_append, ih, List.forall_mem_cons, List.forall_mem_cons]

end Value

/-- Does a text start with two marks? It is a keyword whose name looks like a keyword then. -/
def Keyword.IsMarkedTwice (s : String) : Prop := [mark, mark] <+: s.toList

instance : DecidablePred Keyword.IsMarkedTwice := fun s =>
  inferInstanceAs (Decidable ([Keyword.mark, Keyword.mark] <+: s.toList))

theorem Keyword.isMarkedTwice_keyword {name : List Char} :
    IsMarkedTwice (String.ofList (mark :: name)) ↔ name.head? = some mark := by
  cases name <;> simp [IsMarkedTwice, eq_comm]

theorem Keyword.not_isMarkedTwice_of_string {s : String} (h : isKeyword s = false) :
    ¬ IsMarkedTwice s := by
  rintro ⟨rest, hrest⟩
  rw [isKeyword_eq, ← hrest] at h
  cases h

/-- Legible values are readable if none of their texts has two marks. -/
theorem Legible.readable_iff {v : Value} (h : Legible v) :
    Readable v ↔ ∀ s ∈ v.texts, ¬ Keyword.IsMarkedTwice s := by
  induction h with
  | nil => exact iff_of_true .nil nofun
  | bool b => exact iff_of_true (.bool b) nofun
  | int h => exact iff_of_true (.int h) nofun
  | symbol h => exact iff_of_true (.symbol h) nofun
  | string h =>
    exact iff_of_true (.string h)
      (List.forall_mem_singleton.2 (Keyword.not_isMarkedTwice_of_string h))
  | keyword hchars =>
    rw [readable_keyword_iff hchars, Value.texts, List.forall_mem_singleton,
      Keyword.isMarkedTwice_keyword]
  | list _ ih =>
    rw [readable_list_iff, Value.texts, Value.forall_mem_textsAll]
    exact forall₂_congr ih
  | vector _ ih =>
    rw [readable_vector_iff, Value.texts, Value.forall_mem_textsAll]
    exact forall₂_congr ih
  | map hdistinct _ _ hkeys hvals =>
    rw [readable_map_iff hdistinct, Value.texts, Value.forall_mem_textsEntries]
    refine forall₂_congr fun entry hentry => ?_
    rw [hkeys entry hentry, hvals entry hentry, Value.texts, List.forall_mem_singleton]

/-! ### Forms come back -/

/-- **What the reader makes is stable under printing, unless a keyword is marked twice.** A form of
any text is printed whenever it is not nested too deeply for that, and the text then reads back. It
reads back as the same form, with its brackets, keys and order, if and only if no keyword in it has
a name that starts with the mark: such a keyword loses a mark. -/
theorem readFirst_printed_form (cells : Cells) (nesting : Nat) (source : String) {v : Value}
    (h : v ∈ (Reader.readAll nesting source).1) :
    (∀ limit, (∃ text, v.print cells true limit = .ok text) ↔ v.steps ≤ limit) ∧
    (∀ limit text, v.print cells true limit = .ok text →
      Reader.readFirst limit text = .ok v.reread) ∧
    (v.reread = v ↔ ∀ s ∈ v.texts, ¬ Keyword.IsMarkedTwice s) := by
  obtain ⟨hlegible, hwritten⟩ := Reader.isForm_readAll h
  refine ⟨fun limit => ⟨fun ⟨text, htext⟩ => Value.steps_le_of_print htext, fun hsteps => ?_⟩,
    fun limit text htext => ?_, ?_⟩
  · obtain ⟨text, htext, -⟩ := hlegible.readFirst_print hsteps cells
    exact ⟨text, htext⟩
  · obtain ⟨text', htext', hread⟩ :=
      hlegible.readFirst_print (Value.steps_le_of_print htext) cells
    obtain rfl : text' = text := Except.ok.inj (htext'.symm.trans htext)
    exact hread
  · rw [← hlegible.readable_iff, ← hlegible.reread_eq_iff, hwritten]

/-- A text with two forms, of which the second one is a hash-map that has a key twice. -/
def formsSample : String := "'x \x7b:a (1 \"t\") :a [nil]\x7d"

/-- The hash-map has the later value of the key, and it comes back like this. -/
theorem reread_formsSample :
    let form : Value := .map 0 [("ʞa", .vector 0 [.nil])]
    form ∈ (Reader.readAll Limits.leastSteps formsSample).1 ∧
      (∃ text, form.print #[] true Limits.leastSteps = .ok text ∧
        Reader.readFirst Limits.leastSteps text = .ok form) := by
  intro form
  have hread : form ∈ (Reader.readAll Limits.leastSteps formsSample).1 := by decide +kernel
  have hmarks : ∀ s ∈ form.texts, ¬ Keyword.IsMarkedTwice s := by decide +kernel
  obtain ⟨hprint, hreread, hsame⟩ := readFirst_printed_form #[] Limits.leastSteps formsSample hread
  obtain ⟨text, htext⟩ := (hprint Limits.leastSteps).2 (by decide)
  exact ⟨hread, text, htext, hsame.2 hmarks ▸ hreread _ text htext⟩

/-- A keyword with two marks comes back with one mark, which is another keyword. -/
theorem reread_markedTwice :
    Reader.readFirst Limits.leastSteps ":ʞʞa" = .ok (.text "ʞʞa") ∧
      (Value.text "ʞʞa").print #[] true Limits.leastSteps = .ok ":ʞa" ∧
      Reader.readFirst Limits.leastSteps ":ʞa" = .ok (.text "ʞa") ∧
      (Value.text "ʞʞa").equal 1 (.text "ʞa") = .ok false := by
  decide +kernel

end AtomLisp
