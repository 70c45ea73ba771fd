import Mathlib.Computability.Language

/-!
# `FastValidate.Lib.Automaton`: partial automata and codes

A partial automaton refuses a word at its first impossible symbol. This file relates two
readings of such an automaton to a language `L` of code words:

* it comes back to its start state exactly on the concatenations of code words
  (`Codes.run_eq_start_iff`);
* it has not refused yet exactly on the prefixes of such concatenations
  (`Codes.isSome_run_iff`).

Both hold under `Codes A L`: each code word leads from the start back to it, each
non-empty word that leads back begins with a code word, and every state that is reached can
be led back. The induction over concatenations is done here once.

The code words of a table are an instance. A table is a list of rows, a row is a list of
cells, and a cell admits some symbols; the words of the table are the words that match a
row cell by cell (`rowLanguage`). `rowMachine` reads a word with the cells still to be
matched as its state, and `codes_rowMachine` shows that it reads the code when the first
cells of different rows admit different symbols.

`run_map` transports runs along a map of states. `Implements` covers total machines: a table
automaton with a numbering of the states and an absorbing reject state runs a partial
automaton, whether it runs to the end of the word or stops at the first reject.
-/

set_option autoImplicit false

namespace Automata

open Computability

/-- A deterministic automaton on symbols `α` with states `σ`. `step q a = none` means that
the automaton refuses `a` in the state `q`. -/
structure Partial (α σ : Type) where
  step : σ → α → Option σ
  start : σ

namespace Partial

variable {α σ : Type} (A : Partial α σ)

/-- The state after a word, or `none` from the first refused symbol on. -/
def run (q : σ) (w : List α) : Option σ := w.foldlM A.step q

/-- The empty string leaves the state as it is. -/
@[simp] theorem run_nil (q : σ) : A.run q [] = some q := rfl

/-- A run takes one letter, and goes on from the next state. -/
theorem run_cons (q : σ) (a : α) (w : List α) :
    A.run q (a :: w) = (A.step q a).bind (A.run · w) := rfl

/-- A run over two parts is the run over the first, then over the second. -/
theorem run_append (q : σ) (v w : List α) :
    A.run q (v ++ w) = (A.run q v).bind (A.run · w) := by
  unfold run
  rw [List.foldlM_append]
  rfl

/-- The last symbol of a run. The lane inductions use this form. -/
theorem run_concat (q : σ) (w : List α) (a : α) :
    A.run q (w ++ [a]) = (A.run q w).bind (A.step · a) := by
  rw [run_append]
  congr 1
  funext p
  rw [run_cons]
  cases A.step p a <;> rfl

/-- A word that is not refused has no refused prefix. -/
theorem isSome_run_of_append {q : σ} {v w : List α} (h : (A.run q (v ++ w)).isSome) :
    (A.run q v).isSome := by
  rw [run_append] at h
  cases hv : A.run q v with
  | none => rw [hv] at h; simp at h
  | some p => rfl

/-- A run over two parts that is not refused, by the state between the parts. -/
theorem run_append_eq_some_iff {q r : σ} {v w : List α} :
    A.run q (v ++ w) = some r ↔ ∃ p, A.run q v = some p ∧ A.run p w = some r := by
  rw [run_append]
  exact Option.bind_eq_some_iff

/-- A program reads a word in parts and keeps its errors. Where `was` says that the automaton
has not refused the part `v`, and `now` adds to it that the automaton does not refuse `w`
from there, `now` says that it has not refused `v ++ w`. -/
theorem iff_isSome_run_append {was now : Prop} {q : σ} {v w : List α}
    (hwas : was ↔ (A.run q v).isSome) (hsticky : now → was)
    (hnow : ∀ p, A.run q v = some p → (now ↔ was ∧ (A.run p w).isSome)) :
    now ↔ (A.run q (v ++ w)).isSome := by
  rw [run_append]
  cases hv : A.run q v with
  | none =>
      have herror : ¬ was := by
        rw [hwas, hv]
        simp
      exact ⟨fun h => absurd (hsticky h) herror, fun h => by simp at h⟩
  | some p =>
      have hok : was := by
        rw [hwas, hv]
        rfl
      exact (hnow p hv).trans (and_iff_right hok)

/-- A map of states that commutes with the steps of two automata commutes with their
runs. -/
theorem run_map {τ : Type} {B : Partial α τ} {f : σ → τ}
    (hstep : ∀ q a, (A.step q a).map f = B.step (f q) a) (q : σ) (w : List α) :
    (A.run q w).map f = B.run (f q) w := by
  induction w generalizing q with
  | nil => rfl
  | cons a w ih =>
      rw [run_cons, run_cons, ← hstep q a]
      cases A.step q a with
      | none => rfl
      | some p => exact ih p

/-- `A` reads the code `L`: code words are loops at the start, every loop at the start
begins with a code word, and no reached state is a dead end. -/
structure Codes (L : Language α) : Prop where
  sound : ∀ w ∈ L, A.run A.start w = some A.start
  split : ∀ w, w ≠ [] → A.run A.start w = some A.start →
    ∃ u ∈ L, u ≠ [] ∧ ∃ v, w = u ++ v
  complete : ∀ w q, A.run A.start w = some q → ∃ r, A.run q r = some A.start

variable {A} {L : Language α}

/-- Where words lead back to the start, their concatenations do. -/
theorem run_eq_start_of_mem_kstar (hsound : ∀ w ∈ L, A.run A.start w = some A.start)
    {w : List α} (hw : w ∈ L∗) : A.run A.start w = some A.start := by
  obtain ⟨ws, rfl, hws⟩ := Language.mem_kstar.mp hw
  clear hw
  induction ws with
  | nil => rfl
  | cons v ws ih =>
      rw [List.flatten_cons, run_append, hsound v (hws v List.mem_cons_self)]
      exact ih fun u hu => hws u (List.mem_cons_of_mem v hu)

/-- A word that leads back to the start is a concatenation of code words. Induction on
the length: `split` takes one code word off, and determinism leaves the rest a loop. -/
theorem Codes.mem_kstar_of_run (h : A.Codes L) :
    ∀ (n : ℕ) (w : List α), w.length ≤ n → A.run A.start w = some A.start → w ∈ L∗ := by
  intro n
  induction n with
  | zero =>
      intro w hlen _
      rw [List.length_eq_zero_iff.mp (Nat.le_zero.mp hlen)]
      exact Language.nil_mem_kstar L
  | succ n ih =>
      intro w hlen hrun
      by_cases hw : w = []
      · rw [hw]
        exact Language.nil_mem_kstar L
      · -- One code word comes off, and the rest is a shorter loop.
        obtain ⟨u, hu, hune, v, rfl⟩ := h.split w hw hrun
        have hv : A.run A.start v = some A.start := by
          rw [run_append, h.sound u hu] at hrun
          exact hrun
        have hpos : 0 < u.length := List.length_pos_iff.mpr hune
        rw [List.length_append] at hlen
        have hrest : v ∈ L∗ := ih v (by omega) hv
        rw [← Language.one_add_self_mul_kstar_eq_kstar]
        exact .inr (Language.append_mem_mul hu hrest)

/-- The automaton is back at its start exactly on the concatenations of code words. -/
theorem Codes.run_eq_start_iff (h : A.Codes L) (w : List α) :
    A.run A.start w = some A.start ↔ w ∈ L∗ := by
  constructor
  · exact h.mem_kstar_of_run w.length w (Nat.le_refl _)
  · exact run_eq_start_of_mem_kstar h.sound

/-- The automaton has not refused a word exactly when the word is a prefix of a
concatenation of code words. -/
theorem Codes.isSome_run_iff (h : A.Codes L) (w : List α) :
    (A.run A.start w).isSome ↔ ∃ r, w ++ r ∈ L∗ := by
  constructor
  · intro hw
    obtain ⟨q, hq⟩ := Option.isSome_iff_exists.mp hw
    obtain ⟨r, hr⟩ := h.complete w q hq
    refine ⟨r, (h.run_eq_start_iff _).mp ?_⟩
    rw [run_append, hq]
    exact hr
  · rintro ⟨r, hr⟩
    apply isSome_run_of_append A (w := r)
    rw [(h.run_eq_start_iff _).mpr hr]
    rfl

/-! ### Synchronising automata -/

/-- A symbol that can be read at the start can be read nowhere else. -/
def Synchronising (A : Partial α σ) : Prop :=
  ∀ q a, q ≠ A.start → (A.step A.start a).isSome → A.step q a = none

/-- Where a word can begin at the start, the automaton has to be there. -/
theorem Synchronising.run_append_eq_some_iff (h : A.Synchronising) (w : List α) {v : List α}
    (hne : v ≠ []) (hv : (A.run A.start v).isSome) (r : σ) :
    A.run A.start (w ++ v) = some r
      ↔ A.run A.start w = some A.start ∧ A.run A.start v = some r := by
  rw [Partial.run_append_eq_some_iff]
  constructor
  · rintro ⟨q, hq, hrun⟩
    by_cases hstart : q = A.start
    · rw [hstart] at hq hrun
      exact ⟨hq, hrun⟩
    · -- The first symbol of `v` is refused in `q`.
      cases v with
      | nil => exact absurd rfl hne
      | cons a v =>
          have ha : (A.step A.start a).isSome := by
            have hfront := A.isSome_run_of_append (v := [a]) hv
            simpa [run_cons] using hfront
          rw [run_cons, h q a hstart ha] at hrun
          cases hrun
  · rintro ⟨hw, hrun⟩
    exact ⟨A.start, hw, hrun⟩

/-! ### Total machines with a reject state -/

variable {τ : Type}

/-- A total machine `δ` implements `A` when `num` numbers the states of `A`, and one more
state, `reject`, stands for refusal and is never left. -/
structure Implements (A : Partial α σ) (δ : τ → α → τ) (reject : τ) (num : σ → τ) : Prop where
  step : ∀ q a, δ (num q) a = ((A.step q a).map num).getD reject
  dead : ∀ a, δ reject a = reject
  num_ne : ∀ q, num q ≠ reject

variable {δ : τ → α → τ} {reject : τ} {num : σ → τ}

/-- Nothing leads out of the reject state. -/
theorem Implements.foldl_dead (h : A.Implements δ reject num) (w : List α) :
    w.foldl δ reject = reject := by
  induction w with
  | nil => rfl
  | cons a w ih =>
      rw [List.foldl_cons, h.dead a]
      exact ih

/-- The total machine computes the run of `A`. -/
theorem Implements.foldl (h : A.Implements δ reject num) (q : σ) (w : List α) :
    w.foldl δ (num q) = ((A.run q w).map num).getD reject := by
  induction w generalizing q with
  | nil => rfl
  | cons a w ih =>
      rw [List.foldl_cons, h.step, run_cons]
      cases A.step q a with
      | none => exact h.foldl_dead w
      | some p => exact ih p

/-- The total machine ends outside `reject` exactly when `A` does not refuse. -/
theorem Implements.foldl_ne_iff (h : A.Implements δ reject num) (q : σ) (w : List α) :
    w.foldl δ (num q) ≠ reject ↔ (A.run q w).isSome := by
  rw [h.foldl]
  cases A.run q w with
  | none => simp
  | some p => simpa using h.num_ne p

/-- Stopping at `reject` early gives the same answer as running to the end. -/
theorem Implements.foldlM_isSome_iff [DecidableEq τ] (h : A.Implements δ reject num) (q : σ)
    (w : List α) :
    (w.foldlM (fun s a => if δ s a = reject then none else some (δ s a)) (num q)).isSome
      ↔ (A.run q w).isSome := by
  -- The machine that stops early is `A` with its states numbered.
  let B : Partial α τ :=
    { step := fun s a => if δ s a = reject then none else some (δ s a), start := num A.start }
  have hstep : ∀ q a, (A.step q a).map num = B.step (num q) a := by
    intro q a
    show _ = if δ (num q) a = reject then none else some (δ (num q) a)
    rw [h.step]
    cases A.step q a with
    | none => simp
    | some p => simp [h.num_ne p]
  show (B.run (num q) w).isSome ↔ _
  rw [← A.run_map hstep q w, Option.isSome_map]

end Partial

/-! ### The code words of a table -/

section Table

variable {α β : Type} (admits : β → α → Bool) (rows : List (List β))

/-- The words that match a row of the table, cell by cell. -/
def rowLanguage : Language α :=
  {w | ∃ row ∈ rows, List.Forall₂ (fun c a => admits c a = true) row w}

/-- Whether the first cell of a row admits `a`. -/
def leads (row : List β) (a : α) : Bool :=
  match row with
  | [] => false
  | c :: _ => admits c a

/-- The machine of a table. Its state is the cells still to be matched, and between words
it selects the row whose first cell admits the symbol. -/
def rowMachine : Partial α (List β) where
  start := []
  step q a :=
    match q with
    | [] => (rows.find? (leads admits · a)).map List.tail
    | c :: rest => if admits c a then some rest else none

/-- Each symbol selects at most one row, and every cell admits a symbol. -/
structure Unambiguous : Prop where
  lead : ∀ row ∈ rows, ∀ row' ∈ rows, ∀ a,
    leads admits row a = true → leads admits row' a = true → row = row'
  filled : ∀ row ∈ rows, row ≠ [] ∧ ∀ c ∈ row, ∃ a, admits c a = true

variable {admits rows}

/-- Between words, a symbol that leads a row selects that row. -/
theorem rowMachine_step_nil (h : Unambiguous admits rows) {c : β} {rest : List β}
    (hrow : c :: rest ∈ rows) {a : α} (ha : admits c a = true) :
    (rowMachine admits rows).step [] a = some rest := by
  have hsome : (rows.find? (leads admits · a)).isSome := by
    rw [List.find?_isSome]
    exact ⟨c :: rest, hrow, ha⟩
  obtain ⟨row', hfind⟩ := Option.isSome_iff_exists.mp hsome
  have hlead := List.find?_some hfind
  -- The row that was found is the row, since both are led by `a`.
  have heq := h.lead _ hrow _ (List.mem_of_find?_eq_some hfind) a ha hlead
  show (rows.find? (leads admits · a)).map List.tail = some rest
  rw [hfind, ← heq]
  rfl

/-- Between words, the selected row is a row of the table that the symbol leads. -/
theorem rowMachine_step_nil_some {a : α} {q : List β}
    (h : (rowMachine admits rows).step [] a = some q) :
    ∃ c, c :: q ∈ rows ∧ admits c a = true := by
  obtain ⟨row, hfind, htail⟩ := Option.map_eq_some_iff.mp h
  have hlead := List.find?_some hfind
  have hmem := List.mem_of_find?_eq_some hfind
  cases row with
  | nil => exact absurd hlead Bool.false_ne_true
  | cons c rest =>
      cases htail
      exact ⟨c, hmem, hlead⟩

/-- A pending cell reads one symbol. -/
theorem rowMachine_run_cons (c : β) (q : List β) (a : α) (w : List α) :
    (rowMachine admits rows).run (c :: q) (a :: w)
      = if admits c a then (rowMachine admits rows).run q w else none := by
  rw [Partial.run_cons]
  show (if admits c a then some q else none).bind _ = _
  split <;> rfl

/-- A word that matches the pending cells leads back to the start. -/
theorem rowMachine_run_of_forall₂ {q : List β} {w : List α}
    (h : List.Forall₂ (fun c a => admits c a = true) q w) :
    (rowMachine admits rows).run q w = some [] := by
  induction h with
  | nil => rfl
  | @cons c a rest w ha _ ih =>
      rw [rowMachine_run_cons, if_pos ha]
      exact ih

/-- A word that leads back to the start begins with a match of the pending cells. -/
theorem exists_forall₂_of_rowMachine_run {q : List β} {w : List α}
    (h : (rowMachine admits rows).run q w = some []) :
    ∃ u v, w = u ++ v ∧ List.Forall₂ (fun c a => admits c a = true) q u := by
  induction q generalizing w with
  | nil => exact ⟨[], w, rfl, .nil⟩
  | cons c rest ih =>
      cases w with
      | nil => cases h
      | cons a w =>
          rw [rowMachine_run_cons] at h
          split at h
          · next ha =>
              obtain ⟨u, v, rfl, hu⟩ := ih h
              exact ⟨a :: u, v, rfl, .cons ha hu⟩
          · cases h

/-- A word that leads back to the start has a symbol for each pending cell. -/
theorem length_le_of_rowMachine_run {q : List β} {w : List α}
    (h : (rowMachine admits rows).run q w = some []) : q.length ≤ w.length := by
  obtain ⟨u, v, rfl, hu⟩ := exists_forall₂_of_rowMachine_run h
  rw [List.length_append, hu.length_eq]
  exact Nat.le_add_right _ _

/-- A word no longer than the pending cells is refused when it has a symbol that none of
them admits. -/
theorem rowMachine_run_eq_none {q : List β} {w : List α} (hlen : w.length ≤ q.length) {a : α}
    (ha : a ∈ w) (hno : ∀ c ∈ q, admits c a = false) :
    (rowMachine admits rows).run q w = none := by
  induction q generalizing w with
  | nil =>
      rw [List.length_eq_zero_iff.mp (Nat.le_zero.mp hlen)] at ha
      cases ha
  | cons c q ih =>
      cases w with
      | nil => cases ha
      | cons a' w =>
          rw [rowMachine_run_cons]
          split
          · next hadmits =>
              -- The head is admitted, so the symbol comes later.
              rcases List.mem_cons.mp ha with rfl | ha'
              · rw [hno c List.mem_cons_self] at hadmits
                cases hadmits
              · exact ih (Nat.le_of_succ_le_succ hlen) ha'
                  fun c' hc' => hno c' (List.mem_cons_of_mem c hc')
          · rfl

/-- The cells pending after a run are cells of the table. -/
theorem filled_of_rowMachine_run (h : Unambiguous admits rows) (w : List α) :
    ∀ q p, (rowMachine admits rows).run q w = some p →
      (∀ c ∈ q, ∃ a, admits c a = true) → ∀ c ∈ p, ∃ a, admits c a = true := by
  induction w with
  | nil =>
      intro q p hrun hq
      cases hrun
      exact hq
  | cons a w ih =>
      intro q p hrun hq
      rw [Partial.run_cons] at hrun
      obtain ⟨q', hstep, hrest⟩ := Option.bind_eq_some_iff.mp hrun
      refine ih q' p hrest fun c hc => ?_
      cases q with
      | nil =>
          obtain ⟨c', hrow, -⟩ := rowMachine_step_nil_some hstep
          exact (h.filled _ hrow).2 c (List.mem_cons_of_mem c' hc)
      | cons c' rest =>
          -- A pending cell steps to the rest of its own row.
          have hite : (if admits c' a then some rest else none) = some q' := hstep
          split at hite
          · cases hite
            exact hq c (List.mem_cons_of_mem c' hc)
          · cases hite

/-- Pending cells that all admit a symbol can be matched. -/
theorem exists_forall₂ {q : List β} (hq : ∀ c ∈ q, ∃ a, admits c a = true) :
    ∃ w, List.Forall₂ (fun c a => admits c a = true) q w := by
  induction q with
  | nil => exact ⟨[], .nil⟩
  | cons c q ih =>
      obtain ⟨a, ha⟩ := hq c List.mem_cons_self
      obtain ⟨w, hw⟩ := ih fun c' hc' => hq c' (List.mem_cons_of_mem c hc')
      exact ⟨a :: w, .cons ha hw⟩

/-- The machine of an unambiguous table reads the code of its words. -/
theorem codes_rowMachine (h : Unambiguous admits rows) :
    (rowMachine admits rows).Codes (rowLanguage admits rows) where
  sound w hw := by
    obtain ⟨row, hrow, hmatch⟩ := hw
    cases hmatch with
    | nil => exact absurd rfl (h.filled _ hrow).1
    | @cons c a rest w ha hrest =>
        show (rowMachine admits rows).run [] (a :: w) = some []
        rw [Partial.run_cons, rowMachine_step_nil h hrow ha]
        exact rowMachine_run_of_forall₂ hrest
  split w hw hrun := by
    cases w with
    | nil => exact absurd rfl hw
    | cons a w =>
        change (rowMachine admits rows).run [] (a :: w) = some [] at hrun
        rw [Partial.run_cons] at hrun
        obtain ⟨q, hstep, hrest⟩ := Option.bind_eq_some_iff.mp hrun
        obtain ⟨c, hrow, ha⟩ := rowMachine_step_nil_some hstep
        obtain ⟨u, v, rfl, hu⟩ := exists_forall₂_of_rowMachine_run hrest
        exact ⟨a :: u, ⟨c :: q, hrow, .cons ha hu⟩, List.cons_ne_nil a u, v, rfl⟩
  complete w q hrun := by
    have hq := filled_of_rowMachine_run h w [] q hrun fun c hc => (nomatch hc)
    obtain ⟨r, hr⟩ := exists_forall₂ hq
    exact ⟨r, rowMachine_run_of_forall₂ hr⟩

end Table

end Automata
