import AtomLisp.Proofs.RoundTrip.Forms
import AtomLisp.Proofs.Writing
import Mathlib.Data.Fintype.EquivFin
import Mathlib.Logic.Relation
import Mathlib.Order.RelClasses

/-! # Printing and cycles

  Atoms can be written, so a value can come to hold itself: an atom that is reached from its own
  content. Such a value has no printed form, with however many steps. Every other value has one if
  it is given enough steps, and that form does not depend on how many more there are.

  * `Value.MeetsCycle`: an atom that reaches itself can be reached from the value;
  * `Value.exists_join`: a printed form is put together from those of the parts;
  * `Value.MeetsLong`: what is in the way of printing is first an integer of too many digits;
  * `Value.MeetsCycle.not_print`: a printed form would be found in fewer and fewer steps;
  * `Value.ends_of_not_meetsCycle`: without a cycle, every way from a value to its parts ends;
  * `printing_ends_iff`: printing ends exactly on values without cycles.
-/

namespace AtomLisp

/-! ### Several parts, up to the first that fails -/

section

variable {ε α β : Type} {f : α → Except ε β}

/-- If one part fails and those in front of it do not, its error is that of all parts. -/
theorem mapM_of_first {before after : List α} {x : α} {e : ε}
    (hbefore : ∀ y ∈ before, ∃ b, f y = .ok b) (hx : f x = .error e) :
    (before ++ x :: after).mapM f = .error e := by
  induction before with
  | nil =>
    rw [List.nil_append, List.mapM_cons, hx]
    rfl
  | cons y before ih =>
    obtain ⟨⟨b, hb⟩, hrest⟩ := List.forall_mem_cons.1 hbefore
    rw [List.cons_append, List.mapM_cons, hb, ih hrest]
    rfl

/-- The error of several parts is that of the first one that fails. -/
theorem exists_first_of_mapM {xs : List α} {e : ε} (h : xs.mapM f = .error e) :
    ∃ before x after, xs = before ++ x :: after ∧ (∀ y ∈ before, ∃ b, f y = .ok b) ∧
      f x = .error e := by
  induction xs with
  | nil => cases h
  | cons x xs ih =>
    rw [List.mapM_cons] at h
    rcases error_of_bind h with hx | ⟨b, hb, hrest⟩
    · exact ⟨[], x, xs, rfl, List.forall_mem_nil _, hx⟩
    · rcases error_of_bind hrest with hxs | ⟨bs, -, hok⟩
      · obtain ⟨before, y, after, rfl, hbefore, hy⟩ := ih hxs
        exact ⟨x :: before, y, after, rfl, List.forall_mem_cons.2 ⟨⟨b, hb⟩, hbefore⟩, hy⟩
      · cases hok

/-- Parts that come to a stand one by one come to a stand together. -/
theorem exists_mapM_eq {f : Nat → α → Except ε β} {xs : List α}
    (h : ∀ x ∈ xs, ∃ bound b, ∀ k, bound ≤ k → f k x = .ok b) :
    ∃ bound bs, ∀ k, bound ≤ k → xs.mapM (f k) = .ok bs := by
  induction xs with
  | nil => exact ⟨0, [], fun _ _ => rfl⟩
  | cons x xs ih =>
    obtain ⟨⟨n, b, hx⟩, hrest⟩ := List.forall_mem_cons.1 h
    obtain ⟨n', bs, hxs⟩ := ih hrest
    refine ⟨max n n', b :: bs, fun k hk => ?_⟩
    rw [List.mapM_cons, hx k (by omega), hxs k (by omega)]
    rfl

end

namespace Value

variable {cells : Cells} {readable : Bool} {steps k : Nat} {v w : Value} {text : String}

/-! ### Reaching -/

variable (cells) in
/-- The second value is reached from the first one: through the elements of lists, vectors and
hash-maps and the contents of atoms. -/
def Reaches : Value → Value → Prop := Relation.ReflTransGen fun v w => w ∈ v.parts cells

variable (cells) in
/-- The atom of a cell is reached from its own content. -/
def HoldsItself (cell : CellId) : Prop := (cells.content cell).Reaches cells (.atom cell)

variable (cells) in
/-- An atom can be reached from the value that reaches itself. -/
def MeetsCycle (v : Value) : Prop :=
  ∃ cell, v.Reaches cells (.atom cell) ∧ HoldsItself cells cell

theorem Reaches.trans {u : Value} (h : u.Reaches cells v) (h' : v.Reaches cells w) :
    u.Reaches cells w := Relation.ReflTransGen.trans h h'

theorem reaches_of_mem (h : w ∈ v.parts cells) : v.Reaches cells w := .single h

/-! ### One step of printing -/

/-- The steps that a value takes for itself when it is printed. -/
def room : Value → Nat
  | .list .. | .vector .. => 4
  | .map .. => 3
  | _ => 1

theorem room_pos (v : Value) : 0 < v.room := by
  cases v <;> simp [room]

/-- The value is an integer with too many digits. -/
def IsLong : Value → Prop
  | .int i => Numeral.bound ≤ i.natAbs
  | _ => False

theorem print_of_lt (h : steps < v.room) : v.print cells readable steps = .error .tooDeep := by
  cases v with
  | list serial items | vector serial items =>
    rcases steps with _ | _ | _ | _ | steps
    iterate 4 rfl
    exact absurd h (Nat.not_lt.2 (Nat.le_add_left 4 steps))
  | map serial entries =>
    rcases steps with _ | _ | _ | steps
    iterate 3 rfl
    exact absurd h (Nat.not_lt.2 (Nat.le_add_left 3 steps))
  | _ =>
    obtain rfl : steps = 0 := Nat.lt_one_iff.1 h
    rfl

theorem print_of_isLong (h : v.IsLong) (k : Nat) :
    v.print cells readable (k + v.room) = .error .numeralTooLong := by
  cases v with
  | int i => exact write_of_le h
  | _ => cases h

/-- The entries of a hash-map are printed if their values are. -/
theorem mapM_printEntry (entries : Entries Value) :
    (entries.mapM fun entry => do
        return printText readable entry.1 ++ " " ++ (← print cells readable k entry.2)) =
      (fun texts => List.zipWith (fun key text => printText readable key ++ " " ++ text)
        (Entries.keys entries) texts) <$> (Entries.vals entries).mapM (print cells readable k) := by
  induction entries with
  | nil => rfl
  | cons entry rest ih =>
    have hvals : Entries.vals (entry :: rest) = entry.2 :: Entries.vals rest := rfl
    rw [List.mapM_cons, ih, hvals, List.mapM_cons]
    cases print cells readable k entry.2 with
    | error e => rfl
    | ok text => cases (Entries.vals rest).mapM (print cells readable k) <;> rfl

/-- **A printed form is put together from those of the parts**, in a way that does not depend on
the steps. Only an integer may have none although all of its parts (it has no parts) have one. -/
theorem exists_join (cells : Cells) (readable : Bool) (h : ¬ v.IsLong) :
    ∃ join : List String → String, ∀ k,
      v.print cells readable (k + v.room) =
        join <$> (v.parts cells).mapM (print cells readable k) := by
  cases v with
  | list serial items =>
    refine ⟨fun texts => "(" ++ " ".intercalate texts ++ ")", fun k => ?_⟩
    show (items.mapM (print cells readable k) >>= _) = _ <$> items.mapM (print cells readable k)
    cases items.mapM (print cells readable k) <;> rfl
  | vector serial items =>
    refine ⟨fun texts => "[" ++ " ".intercalate texts ++ "]", fun k => ?_⟩
    show (items.mapM (print cells readable k) >>= _) = _ <$> items.mapM (print cells readable k)
    cases items.mapM (print cells readable k) <;> rfl
  | map serial entries =>
    refine ⟨fun texts => "\x7b" ++ " ".intercalate (List.zipWith
      (fun key text => printText readable key ++ " " ++ text) (Entries.keys entries) texts) ++
      "\x7d", fun k => ?_⟩
    show (entries.mapM _ >>= _) = _ <$> (Entries.vals entries).mapM (print cells readable k)
    rw [mapM_printEntry]
    cases (Entries.vals entries).mapM (print cells readable k) <;> rfl
  | atom cell =>
    refine ⟨fun texts => "(atom " ++ "".intercalate texts ++ ")", fun k => ?_⟩
    show (print cells readable k (cells.content cell) >>= _) =
      _ <$> [cells.content cell].mapM (print cells readable k)
    rw [List.mapM_cons, List.mapM_nil]
    cases hcontent : print cells readable k (cells.content cell) with
    | error e => rfl
    | ok text =>
      show Except.ok ("(atom " ++ text ++ ")") = .ok ("(atom " ++ "".intercalate [text] ++ ")")
      simp
  | int i =>
    refine ⟨fun _ => toString i, fun k => ?_⟩
    exact Numeral.write_eq (Nat.lt_of_not_le h)
  | bool b => cases b <;> exact ⟨fun _ => _, fun _ => rfl⟩
  | _ => exact ⟨fun _ => _, fun _ => rfl⟩

theorem parts_of_isLong (h : v.IsLong) : v.parts cells = [] := by
  cases v with
  | int i => rfl
  | _ => cases h

/-- Parts are printed in fewer steps than the value. -/
theorem print_part (hw : w ∈ v.parts cells) (h : v.print cells readable steps = .ok text) :
    ∃ fewer < steps, ∃ shown, w.print cells readable fewer = .ok shown := by
  rcases Nat.lt_or_ge steps v.room with hlt | hge
  · rw [print_of_lt hlt] at h
    cases h
  · obtain ⟨k, rfl⟩ := Nat.exists_eq_add_of_le' hge
    have hlong : ¬ v.IsLong := by
      intro hlong
      rw [parts_of_isLong hlong] at hw
      cases hw
    obtain ⟨join, hjoin⟩ := exists_join cells readable hlong
    rw [hjoin] at h
    cases hparts : (v.parts cells).mapM (print cells readable k) with
    | error e =>
      rw [hparts] at h
      cases h
    | ok texts =>
      have hroom := v.room_pos
      exact ⟨k, by omega, exists_of_mapM_eq_ok hparts hw⟩

theorem holdsLong_of_isLong (h : v.IsLong) : v.HoldsLong cells := by
  cases v with
  | int i => exact ⟨0, .here h⟩
  | _ => cases h

/-! ### Integers that are met first -/

variable (cells readable) in
/-- Printing a value in so many steps meets an integer with too many digits before anything else is
in its way: what stands in front of the integer is printed. -/
inductive MeetsLong : (steps : Nat) → Value → Prop
  | here {k : Nat} {v : Value} (h : v.IsLong) : MeetsLong (k + v.room) v
  | part {k : Nat} {v w : Value} {before after : List Value}
    (hparts : v.parts cells = before ++ w :: after)
    (hbefore : ∀ u ∈ before, ∃ text, u.print cells readable k = .ok text)
    (hw : MeetsLong k w) : MeetsLong (k + v.room) v

theorem MeetsLong.print (h : MeetsLong cells readable steps v) :
    v.print cells readable steps = .error .numeralTooLong := by
  induction h with
  | here h => exact print_of_isLong h _
  | @part k v w before after hparts hbefore _ ih =>
    have hlong : ¬ v.IsLong := by
      intro hlong
      rw [parts_of_isLong hlong] at hparts
      exact absurd hparts (by simp)
    obtain ⟨join, hjoin⟩ := exists_join cells readable hlong
    rw [hjoin, hparts, mapM_of_first hbefore ih]
    rfl

/-- Printing stops at an integer with too many digits if it is met first, and only then. -/
theorem print_eq_numeralTooLong_iff :
    v.print cells readable steps = .error .numeralTooLong ↔ MeetsLong cells readable steps v := by
  refine ⟨fun h => ?_, MeetsLong.print⟩
  induction steps using Nat.strongRecOn generalizing v with
  | ind steps ih =>
    rcases Nat.lt_or_ge steps v.room with hlt | hge
    · rw [print_of_lt hlt] at h
      cases h
    · obtain ⟨k, rfl⟩ := Nat.exists_eq_add_of_le' hge
      by_cases hlong : v.IsLong
      · exact .here hlong
      · obtain ⟨join, hjoin⟩ := exists_join cells readable hlong
        rw [hjoin] at h
        cases hparts : (v.parts cells).mapM (print cells readable k) with
        | error e =>
          rw [hparts] at h
          cases h
          -- The part that fails is the first one, and it has fewer steps.
          obtain ⟨before, w, after, heq, hbefore, hw⟩ := exists_first_of_mapM hparts
          have hroom := v.room_pos
          exact .part heq hbefore (ih k (by omega) hw)
        | ok texts =>
          rw [hparts] at h
          cases h

/-! ### With a cycle -/

theorem Reaches.print (hreaches : v.Reaches cells w)
    (h : v.print cells readable steps = .ok text) :
    ∃ fewer ≤ steps, ∃ shown, w.print cells readable fewer = .ok shown := by
  induction hreaches with
  | refl => exact ⟨steps, Nat.le_refl _, text, h⟩
  | tail _ hw ih =>
    obtain ⟨fewer, hfewer, shown, hshown⟩ := ih
    obtain ⟨least, hleast, hprint⟩ := print_part hw hshown
    exact ⟨least, by omega, hprint⟩

/-- An atom that reaches itself has no printed form: it would have one in fewer and fewer steps. -/
theorem not_print_of_holdsItself {cell : CellId} (h : HoldsItself cells cell) (steps : Nat)
    (text : String) : (Value.atom cell).print cells readable steps ≠ .ok text := by
  induction steps using Nat.strongRecOn generalizing text with
  | ind steps ih =>
    intro hprint
    obtain ⟨fewer, hfewer, shown, hshown⟩ := print_part (List.mem_singleton_self _) hprint
    obtain ⟨least, hleast, shown', hshown'⟩ := Reaches.print h hshown
    exact ih least (by omega) shown' hshown'

theorem MeetsCycle.not_print (h : v.MeetsCycle cells) (readable : Bool) (steps : Nat)
    (text : String) : v.print cells readable steps ≠ .ok text := by
  obtain ⟨cell, hreaches, hself⟩ := h
  intro hprint
  obtain ⟨fewer, -, shown, hshown⟩ := hreaches.print hprint
  exact not_print_of_holdsItself hself fewer shown hshown

/-! ### Without a cycle -/

variable (cells) in
/-- Every way from the value to its parts, and on to theirs, comes to an end. -/
abbrev Ends (v : Value) : Prop := Acc (fun w v => w ∈ v.parts cells) v

/-- Between atoms the parts of a value get shallower, so ways could only go on through atoms. -/
theorem ends_of_atoms (h : ∀ cell, v.Reaches cells (.atom cell) → (Value.atom cell).Ends cells) :
    v.Ends cells := by
  induction hsteps : v.steps using Nat.strongRecOn generalizing v with
  | ind n ih =>
    have hpart : ∀ w ∈ v.parts cells, w.steps < n → w.Ends cells := fun w hw hlt =>
      ih w.steps hlt (fun cell hcell => h cell ((reaches_of_mem hw).trans hcell)) rfl
    cases v with
    | list serial items | vector serial items =>
      refine .intro _ fun w hw => hpart w hw ?_
      have hle : w.steps ≤ stepsAll items := steps_le_stepsAll hw
      rw [Value.steps] at hsteps
      omega
    | map serial entries =>
      refine .intro _ fun w hw => hpart w hw ?_
      obtain ⟨entry, hentry, rfl⟩ := List.mem_map.1 hw
      have hle := steps_le_stepsEntries hentry
      rw [Value.steps] at hsteps
      omega
    | atom cell => exact h cell .refl
    | _ => exact .intro _ fun w hw => absurd hw List.not_mem_nil

/-- Where there is no cell, nothing is held. -/
theorem ends_of_size_le {cell : CellId} (h : cells.size ≤ cell) :
    (Value.atom cell).Ends cells := by
  have hcontent : cells.content cell = .nil := by
    rw [Cells.content, Array.getElem?_eq_none h, Option.getD_none]
  refine .intro _ fun w hw => ?_
  obtain rfl := List.mem_singleton.1 hw
  rw [hcontent]
  exact .intro _ fun w hw => absurd hw List.not_mem_nil

variable (cells) in
/-- The cells that are there and can be reached from a value. -/
abbrev CellsOf (v : Value) : Type := {cell : Fin cells.size // v.Reaches cells (.atom cell)}

/-- There are finitely many cells, so a way without a cycle ends. -/
theorem ends_of_not_meetsCycle (h : ¬ v.MeetsCycle cells) : v.Ends cells := by
  -- One cell comes after another one if it is reached from its content.
  let After : v.CellsOf cells → v.CellsOf cells → Prop := fun c d =>
    (cells.content d.1).Reaches cells (.atom c.1)
  have htrans : IsTrans (v.CellsOf cells) After :=
    ⟨fun c d e hcd hde => hde.trans ((reaches_of_mem (List.mem_singleton_self _)).trans hcd)⟩
  have hirrefl : Std.Irrefl After := ⟨fun c hself => h ⟨c.1, c.2, hself⟩⟩
  have hwf : WellFounded After := Finite.wellFounded_of_trans_of_irrefl After
  have hatom : ∀ c : v.CellsOf cells, (Value.atom c.1).Ends cells := by
    intro c
    induction c using hwf.induction with
    | h c ih =>
      refine .intro _ fun w hw => ends_of_atoms fun cell hcell => ?_
      obtain rfl := List.mem_singleton.1 hw
      rcases Nat.lt_or_ge cell cells.size with hlt | hge
      · have hreaches : v.Reaches cells (.atom cell) :=
          c.2.trans ((reaches_of_mem (List.mem_singleton_self _)).trans hcell)
        exact ih ⟨⟨cell, hlt⟩, hreaches⟩ hcell
      · exact ends_of_size_le hge
  refine ends_of_atoms fun cell hcell => ?_
  rcases Nat.lt_or_ge cell cells.size with hlt | hge
  · exact hatom ⟨⟨cell, hlt⟩, hcell⟩
  · exact ends_of_size_le hge

/-- Where every way ends and no integer is too long, there is a printed form. -/
theorem Ends.exists_print (h : v.Ends cells) (hlong : ¬ v.HoldsLong cells) (readable : Bool) :
    ∃ bound text, ∀ steps, bound ≤ steps → v.print cells readable steps = .ok text := by
  induction h with
  | intro v _ ih =>
    have hhere : ¬ v.IsLong := fun hlong' => hlong (holdsLong_of_isLong hlong')
    obtain ⟨join, hjoin⟩ := exists_join cells readable hhere
    obtain ⟨bound, texts, hparts⟩ := exists_mapM_eq fun w hw =>
      ih w hw fun hw' => hlong (hw'.part hw)
    refine ⟨bound + v.room, join texts, fun steps hsteps => ?_⟩
    obtain ⟨k, rfl⟩ := Nat.exists_eq_add_of_le' (Nat.le_trans (Nat.le_add_left _ _) hsteps)
    rw [hjoin, hparts k (by omega)]
    rfl

end Value

/-- **Printing ends exactly on values without cycles.** For every store and every value:

  * if an atom is reached from the value that reaches itself, the value has no printed form,
    readable or for display, whatever the number of steps. Printing stops because the value is
    nested too deeply, or, where that is met first, because an integer has too many digits;
  * if no such atom is reached and no such integer is held, then from some number of steps on the
    value has a printed form, and always the same, readable or for display. -/
theorem printing_ends_iff (cells : Cells) (v : Value) :
    (v.MeetsCycle cells → ∀ readable steps,
      ¬ v.MeetsLong cells readable steps ∧ v.print cells readable steps = .error .tooDeep ∨
      v.MeetsLong cells readable steps ∧
        v.print cells readable steps = .error .numeralTooLong) ∧
    (¬ v.MeetsCycle cells → ¬ v.HoldsLong cells → ∃ bound, ∀ readable, ∃ text, ∀ steps,
      bound < steps → v.print cells readable steps = .ok text) := by
  constructor
  · intro hcycle readable steps
    cases hprint : v.print cells readable steps with
    | ok text => exact absurd hprint (hcycle.not_print readable steps text)
    | error e =>
      rcases Value.print_error hprint with rfl | ⟨rfl, -⟩
      · refine .inl ⟨fun hlong => ?_, rfl⟩
        rw [hlong.print] at hprint
        cases hprint
      · exact .inr ⟨Value.print_eq_numeralTooLong_iff.1 hprint, rfl⟩
  · intro hcycle hlong
    have hends := Value.ends_of_not_meetsCycle hcycle
    obtain ⟨bound, text, hread⟩ := hends.exists_print hlong true
    obtain ⟨bound', text', hdisplay⟩ := hends.exists_print hlong false
    refine ⟨max bound bound', fun readable => ?_⟩
    cases readable with
    | true => exact ⟨text, fun steps hsteps => hread steps (by omega)⟩
    | false => exact ⟨text', fun steps hsteps => hdisplay steps (by omega)⟩

/-- An atom that holds itself through a hash-map and a vector, and one that does not. -/
def cellsSample : Cells := #[.map 1 [("k", .vector 2 [.int 5, .atom 0])], .int 7]

/-- The first atom is not printed. The second one is, although it is met twice. -/
theorem printing_cellsSample :
    (Value.list 3 [.int 5, .atom 0]).MeetsCycle cellsSample ∧
      (∀ readable steps text,
        (Value.list 3 [.int 5, .atom 0]).print cellsSample readable steps ≠ .ok text) ∧
      ¬ (Value.list 4 [.atom 1, .atom 1]).MeetsCycle cellsSample ∧
      ¬ (Value.list 4 [.atom 1, .atom 1]).HoldsLong cellsSample ∧
      ∃ bound, ∀ readable, ∃ text, ∀ steps, bound < steps →
        (Value.list 4 [.atom 1, .atom 1]).print cellsSample readable steps = .ok text := by
  have hcycle : (Value.list 3 [.int 5, .atom 0]).MeetsCycle cellsSample := by
    have hvector : (Value.vector 2 [.int 5, .atom 0]).Reaches cellsSample (.atom 0) :=
      Value.reaches_of_mem (List.mem_cons_of_mem _ (List.mem_singleton_self _))
    have hself : Value.HoldsItself cellsSample 0 :=
      (Value.reaches_of_mem (List.mem_singleton_self _)).trans hvector
    exact ⟨0, Value.reaches_of_mem (List.mem_cons_of_mem _ (List.mem_singleton_self _)), hself⟩
  have hprint : (Value.list 4 [.atom 1, .atom 1]).print cellsSample true 9 =
      .ok "((atom 7) (atom 7))" := by decide +kernel
  have hinspect : (Value.list 4 [.atom 1, .atom 1]).inspect cellsSample 9 =
      .ok "List([Atom(7), Atom(7)])" := by decide +kernel
  have hplain : ¬ (Value.list 4 [.atom 1, .atom 1]).MeetsCycle cellsSample :=
    fun h => h.not_print true 9 _ hprint
  have hshort : ¬ (Value.list 4 [.atom 1, .atom 1]).HoldsLong cellsSample :=
    fun h => h.not_inspect 9 _ hinspect
  refine ⟨hcycle, fun readable steps text hok => ?_, hplain, hshort,
    (printing_ends_iff cellsSample _).2 hplain hshort⟩
  rcases (printing_ends_iff cellsSample _).1 hcycle readable steps with ⟨-, h⟩ | ⟨-, h⟩
  · rw [h] at hok
    cases hok
  · rw [h] at hok
    cases hok

end AtomLisp
