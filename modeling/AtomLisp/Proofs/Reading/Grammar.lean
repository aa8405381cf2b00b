import AtomLisp.Proofs.Reading
import Mathlib.Data.List.Forall2

/-! # The grammar of forms

  How forms are written: as a word, as a text literal that is closed and holds no keyword, as a
  quote mark with a form, or as a pair of brackets with forms in between. Between curly brackets
  the forms come in pairs, of which the first is a string or keyword.

  * `Derivation`: how a form is written, with its tokens (`Derivation.tokens`) and the form that
    they stand for (`Derivation.form?`);
  * `Derivation.eq_of_tokens_append`: no two derivations start in the same way;
  * `Reader.run_tokens`: what has a derivation is read.
-/

namespace AtomLisp

/-- How a form is written. -/
inductive Derivation where
  | word (cs : List Char)
  | text (body : List Char)
  | marked (mark : QuoteMark) (inner : Derivation)
  | bracketed (bracket : Bracket) (inners : List Derivation)

namespace Derivation

/-! ### Tokens and forms -/

mutual

/-- The tokens that a form is written with. -/
def tokens : Derivation → List Token
  | word cs => [.word cs]
  | text body => [.text body]
  | marked m inner => .mark m :: inner.tokens
  | bracketed b inners => .opener b :: (tokensAll inners ++ [.closer b])

/-- The tokens of forms, one after another. -/
def tokensAll : List Derivation → List Token
  | [] => []
  | d :: ds => d.tokens ++ tokensAll ds

end

/-- An even number of forms, in pairs of a string or keyword and any form. -/
def pairs? : List Value → Option (Entries Value)
  | [] => some []
  | .text k :: v :: rest => (pairs? rest).map ((k, v) :: ·)
  | _ => none

/-- What forms stand for between brackets. -/
def enclosed? (items : List Value) : Bracket → Option Value
  | .round => some (.list 0 items)
  | .square => some (.vector 0 items)
  | .curly => (pairs? items).map fun entries => .map 0 (Entries.insertAll [] entries)

/-- What a text literal stands for: it has to be closed, and may not hold a keyword. -/
def literal? (body : List Char) : Option Value :=
  (Literal.decodeBody body).bind fun cs =>
    if cs.head? = some Keyword.mark then none else some (.text (String.ofList cs))

mutual

/-- The form that is written in this way, if the grammar allows it. -/
def form? : Derivation → Option Value
  | word cs => (Reader.word cs).toOption
  | text body => literal? body
  | marked m inner => inner.form?.map fun form => .form [.symbol m.symbol, form]
  | bracketed b inners => (forms? inners).bind (enclosed? · b)

/-- The forms that are written in these ways, if the grammar allows all of them. -/
def forms? : List Derivation → Option (List Value)
  | [] => some []
  | d :: ds => d.form?.bind fun form => (forms? ds).map (form :: ·)

end

/-- Tokens that a form is written with. -/
def Derives (tokens : List Token) (form : Value) : Prop :=
  ∃ d : Derivation, d.tokens = tokens ∧ d.form? = some form

theorem forms?_cons {d : Derivation} {ds : List Derivation} {forms : List Value}
    (h : forms? (d :: ds) = some forms) :
    ∃ form rest, d.form? = some form ∧ forms? ds = some rest ∧ forms = form :: rest := by
  simp only [forms?, Option.bind_eq_some_iff, Option.map_eq_some_iff] at h
  obtain ⟨form, hform, rest, hrest, rfl⟩ := h
  exact ⟨form, rest, hform, hrest, rfl⟩

theorem exists_form?_of_mem {ds : List Derivation} {forms : List Value}
    (h : forms? ds = some forms) {d : Derivation} (hd : d ∈ ds) :
    ∃ form, d.form? = some form := by
  induction ds generalizing forms with
  | nil => cases hd
  | cons d' ds ih =>
    obtain ⟨form, rest, hform, hrest, -⟩ := forms?_cons h
    rcases List.mem_cons.1 hd with rfl | hd
    · exact ⟨form, hform⟩
    · exact ih hrest hd

theorem tokensAll_eq (ds : List Derivation) : tokensAll ds = (ds.map tokens).flatten := by
  induction ds with
  | nil => rfl
  | cons d ds ih => simp [tokensAll, ih]

theorem derives_of_forms? {ds : List Derivation} {forms : List Value}
    (h : forms? ds = some forms) : List.Forall₂ Derives (ds.map tokens) forms := by
  induction ds generalizing forms with
  | nil =>
    cases h
    exact .nil
  | cons d ds ih =>
    obtain ⟨form, rest, hform, hrest, rfl⟩ := forms?_cons h
    exact .cons ⟨d, rfl, hform⟩ (ih hrest)

theorem exists_of_derives {segments : List (List Token)} {forms : List Value}
    (h : List.Forall₂ Derives segments forms) :
    ∃ ds, ds.map tokens = segments ∧ forms? ds = some forms := by
  induction h with
  | nil => exact ⟨[], rfl, rfl⟩
  | cons hd _ ih =>
    obtain ⟨d, rfl, hform⟩ := hd
    obtain ⟨ds, rfl, hforms⟩ := ih
    exact ⟨d :: ds, rfl, by simp [forms?, hform, hforms]⟩

/-! ### Uniqueness -/

/-- A form does not start with a closing bracket. -/
theorem tokens_ne_closer (d : Derivation) (b : Bracket) (others rest : List Token) :
    d.tokens ++ others ≠ .closer b :: rest := by
  cases d <;> simp [tokens]

mutual

/-- No two forms start in the same way. -/
theorem eq_of_tokens_append : ∀ {d d' : Derivation} {rest rest' : List Token},
    d.tokens ++ rest = d'.tokens ++ rest' → d = d' ∧ rest = rest'
  | word cs, d', rest, rest', h => by
    cases d' <;> simp_all [tokens]
  | text body, d', rest, rest', h => by
    cases d' <;> simp_all [tokens]
  | marked m inner, d', rest, rest', h => by
    cases d' with
    | marked m' inner' =>
      obtain ⟨hm, hinner⟩ := List.cons.inj h
      cases hm
      obtain ⟨rfl, hrest⟩ := eq_of_tokens_append hinner
      exact ⟨rfl, hrest⟩
    | _ => cases h
  | bracketed b inners, d', rest, rest', h => by
    cases d' with
    | bracketed b' inners' =>
      simp only [tokens, List.cons_append, List.append_assoc, List.nil_append] at h
      obtain ⟨hb, hinners⟩ := List.cons.inj h
      cases hb
      obtain ⟨rfl, hrest⟩ := eq_of_tokensAll_append hinners
      exact ⟨rfl, (List.cons.inj hrest).2⟩
    | _ => cases h

/-- No two runs of forms up to a closing bracket are written in the same way. -/
theorem eq_of_tokensAll_append : ∀ {ds ds' : List Derivation} {b b' : Bracket}
    {rest rest' : List Token},
    tokensAll ds ++ .closer b :: rest = tokensAll ds' ++ .closer b' :: rest' →
      ds = ds' ∧ Token.closer b :: rest = .closer b' :: rest'
  | [], [], _, _, _, _, h => ⟨rfl, h⟩
  | [], d' :: ds', b, b', rest, rest', h => by
    simp only [tokensAll, List.nil_append, List.append_assoc] at h
    exact absurd h.symm (d'.tokens_ne_closer b _ rest)
  | d :: ds, [], b, b', rest, rest', h => by
    simp only [tokensAll, List.nil_append, List.append_assoc] at h
    exact absurd h (d.tokens_ne_closer b' _ rest')
  | d :: ds, d' :: ds', b, b', rest, rest', h => by
    simp only [tokensAll, List.append_assoc] at h
    obtain ⟨rfl, hrest⟩ := eq_of_tokens_append h
    obtain ⟨rfl, hends⟩ := eq_of_tokensAll_append hrest
    exact ⟨rfl, hends⟩

end

/-- Of two runs of forms that tokens start with, one goes on where the other one ends. -/
theorem prefix_or_exists {ds ds' : List Derivation} {rest rest' : List Token}
    (h : tokensAll ds ++ rest = tokensAll ds' ++ rest') :
    ds' <+: ds ∨ ∃ d others, ds' = ds ++ d :: others ∧ rest = tokensAll (d :: others) ++ rest' := by
  induction ds generalizing ds' with
  | nil =>
    cases ds' with
    | nil => exact .inl (List.prefix_refl [])
    | cons d' ds' => exact .inr ⟨d', ds', rfl, h⟩
  | cons d ds ih =>
    cases ds' with
    | nil => exact .inl List.nil_prefix
    | cons d' ds' =>
      simp only [tokensAll, List.append_assoc] at h
      obtain ⟨rfl, hrest⟩ := eq_of_tokens_append h
      rcases ih hrest with hprefix | ⟨e, others, rfl, hothers⟩
      · exact .inl (List.cons_prefix_cons.2 ⟨rfl, hprefix⟩)
      · exact .inr ⟨e, others, rfl, hothers⟩

/-- Tokens are those of one run of forms at most. -/
theorem tokensAll_injective {ds ds' : List Derivation} (h : tokensAll ds = tokensAll ds') :
    ds = ds' := by
  have hclosed : tokensAll ds ++ [.closer .round] = tokensAll ds' ++ [.closer .round] := by rw [h]
  exact (eq_of_tokensAll_append hclosed).1

end Derivation

/-! ### What is derived is read -/

namespace Reader

variable {nesting : Nat} {fault : Option SyntaxFault}

open AtomLisp.Derivation

/-- Literals of the grammar are those that are read. -/
theorem literal?_eq (body : List Char) :
    literal? body = (Literal.decode body).toOption.map .text := by
  unfold literal? Literal.decode
  cases Literal.decodeBody body with
  | none => rfl
  | some cs =>
    by_cases hmark : cs.head? = some Keyword.mark
    · simp [hmark, Except.toOption]
    · simp [hmark, Except.toOption]

theorem mapEntries_of_pairs? {items : List Value} {entries : Entries Value}
    (h : pairs? items = some entries) : mapEntries nesting items = .ok entries := by
  fun_induction pairs? items generalizing entries with
  | case1 =>
    cases h
    rfl
  | case2 k v rest ih =>
    obtain ⟨others, hothers, rfl⟩ := Option.map_eq_some_iff.1 h
    rw [mapEntries, ih hothers]
    rfl
  | case3 => cases h

theorem length_of_pairs? {items : List Value} {entries : Entries Value}
    (h : pairs? items = some entries) : items.length % 2 = 0 := by
  fun_induction pairs? items generalizing entries with
  | case1 => rfl
  | case2 k v rest ih =>
    obtain ⟨others, hothers, rfl⟩ := Option.map_eq_some_iff.1 h
    have := ih hothers
    simp only [List.length_cons]
    omega
  | case3 => cases h

/-- Forms of the grammar between brackets are read so. -/
theorem enclose_of_enclosed? {items : List Value} {b : Bracket} {form : Value}
    (h : enclosed? items b = some form) : enclose nesting items b = .ok form := by
  cases b with
  | round | square =>
    cases h
    rfl
  | curly =>
    obtain ⟨entries, hentries, rfl⟩ := Option.map_eq_some_iff.1 h
    rw [enclose, if_pos (length_of_pairs? hentries), mapEntries_of_pairs? hentries,
      ← Entries.insertMany_eq]
    rfl

variable {stack : List Pending}

/-- A quote mark is taken, or it stands too deep. -/
theorem run_mark {m : QuoteMark} {tokens : List Token}
    (h : (run nesting fault stack (.mark m :: tokens)).2 ≠ some .tooDeep) :
    run nesting fault stack (.mark m :: tokens) =
      run nesting fault (.mark (depth stack + 1) m :: stack) tokens := by
  by_cases hdepth : depth stack + 1 < nesting
  · simpa using run_of_takes (.mark hdepth) tokens
  · simp only [run, push, open?, if_neg hdepth, ne_eq, not_true_eq_false] at h

/-- An opening bracket is taken, or it stands too deep. -/
theorem run_opener {b : Bracket} {tokens : List Token}
    (h : (run nesting fault stack (.opener b :: tokens)).2 ≠ some .tooDeep) :
    run nesting fault stack (.opener b :: tokens) =
      run nesting fault (.bracket (depth stack + 2) b [] :: stack) tokens := by
  by_cases hdepth : depth stack + 2 < nesting
  · simpa using run_of_takes (.opener hdepth) tokens
  · simp only [run, push, open?, if_neg hdepth, ne_eq, not_true_eq_false] at h

mutual

/-- The tokens of a form are read as the form, unless they stand too deep. -/
theorem run_tokens : ∀ {d : Derivation} {form : Value}, d.form? = some form →
    ∀ {stack : List Pending} {others : List Token},
    (run nesting fault stack (d.tokens ++ others)).2 ≠ some .tooDeep →
    run nesting fault stack (d.tokens ++ others) = resumeAll nesting fault stack [form] others
  | .word cs, form, hform, stack, others, _ => by
    have hword : word cs = .ok form := by
      rw [form?] at hform
      cases hcs : word cs with
      | error e => rw [hcs] at hform; cases hform
      | ok v => rw [hcs] at hform; cases hform; rfl
    exact run_of_takes_complete (.word hword) others
  | .text body, form, hform, stack, others, _ => by
    rw [form?, literal?_eq] at hform
    cases hbody : Literal.decode body with
    | error e => rw [hbody] at hform; cases hform
    | ok s =>
      rw [hbody] at hform
      cases hform
      exact run_of_takes_complete (.text hbody) others
  | .marked m inner, form, hform, stack, others, h => by
    obtain ⟨v, hv, rfl⟩ := Option.map_eq_some_iff.1 hform
    rw [tokens, List.cons_append] at h ⊢
    have hrun := run_mark h
    rw [hrun] at h ⊢
    exact run_tokens hv h
  | .bracketed b inners, form, hform, stack, others, h => by
    obtain ⟨vs, hvs, henclosed⟩ := Option.bind_eq_some_iff.1 hform
    simp only [tokens, List.cons_append, List.append_assoc, List.nil_append] at h ⊢
    have hrun := run_opener h
    rw [hrun] at h ⊢
    rw [run_tokensAll hvs h, resumeAll_bracket]
    refine run_of_takes_complete (.closer ?_) others
    simpa using enclose_of_enclosed? henclosed

/-- The tokens of forms are read as the forms, unless they stand too deep. -/
theorem run_tokensAll : ∀ {ds : List Derivation} {forms : List Value}, forms? ds = some forms →
    ∀ {stack : List Pending} {others : List Token},
    (run nesting fault stack (tokensAll ds ++ others)).2 ≠ some .tooDeep →
    run nesting fault stack (tokensAll ds ++ others) = resumeAll nesting fault stack forms others
  | [], forms, hforms, stack, others, _ => by
    cases hforms
    rfl
  | d :: ds, forms, hforms, stack, others, h => by
    obtain ⟨form, rest, hform, hrest, rfl⟩ := forms?_cons hforms
    rw [tokensAll, List.append_assoc] at h ⊢
    have hfirst := run_tokens hform h
    rw [hfirst] at h ⊢
    simp only [resumeAll] at h ⊢
    rw [run_tokensAll hrest h]

end

end Reader

end AtomLisp
