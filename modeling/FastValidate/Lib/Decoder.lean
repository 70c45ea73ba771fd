import FastValidate.Lib.Automaton

/-!
# `FastValidate.Lib.Decoder`: automata that put out a value for each code word

A `Decoder` is a partial automaton with a register. Each symbol loads the register, and the
register is put out whenever the automaton comes back to its start. Every word is made of
code words and a rest that never comes back to the start (`Codes.exists_parse`), and the
values put out are those of the code words (`Decodes.outputs_flatten`).

A total machine with a reject state that implements the automaton puts out the same values
(`scan_eq_outputs`).
-/

set_option autoImplicit false

namespace Automata

open Computability

/-! ### Parsing -/

namespace Partial

variable {α σ : Type} {A : Partial α σ} {L : Language α}

/-- From `q`, no non-empty prefix of `w` leads to the start. -/
def Unfinished (A : Partial α σ) (q : σ) (w : List α) : Prop :=
  ∀ u v, w = u ++ v → u ≠ [] → A.run q u ≠ some A.start

/-- What is left of an unfinished string is unfinished. -/
theorem Unfinished.tail {q p : σ} {a : α} {w : List α} (h : A.Unfinished q (a :: w))
    (hstep : A.step q a = some p) : A.Unfinished p w := by
  rintro u v rfl - hrun
  refine h (a :: u) v rfl (List.cons_ne_nil a u) ?_
  rw [run_cons, hstep]
  exact hrun

/-- An unfinished word is back at the start only when it is empty. -/
theorem Unfinished.run_eq_start_iff {w : List α} (h : A.Unfinished A.start w) :
    A.run A.start w = some A.start ↔ w = [] := by
  constructor
  · intro hrun
    by_contra hne
    exact h w [] (List.append_nil w).symm hne hrun
  · rintro rfl
    rfl

/-- Every word begins with code words, behind which it is unfinished. Induction on the
length. -/
theorem Codes.exists_parse (h : A.Codes L) (w : List α) :
    ∃ (ws : List (List α)) (rest : List α), w = ws.flatten ++ rest ∧ (∀ u ∈ ws, u ∈ L) ∧
      A.Unfinished A.start rest := by
  induction hn : w.length using Nat.strong_induction_on generalizing w with
  | _ n ih =>
      by_cases hw : A.Unfinished A.start w
      · exact ⟨[], w, rfl, by simp, hw⟩
      · -- A prefix that leads back to the start is made of code words.
        unfold Unfinished at hw
        push Not at hw
        obtain ⟨u, v, rfl, hne, hrun⟩ := hw
        obtain ⟨us, rfl, hus⟩ := Language.mem_kstar.mp ((h.run_eq_start_iff u).mp hrun)
        have hlen : 0 < us.flatten.length := List.length_pos_iff.mpr hne
        rw [List.length_append] at hn
        obtain ⟨vs, rest, rfl, hvs, hrest⟩ := ih v.length (by omega) v rfl
        refine ⟨us ++ vs, rest, by simp, ?_, hrest⟩
        intro x hx
        rcases List.mem_append.mp hx with hx | hx
        · exact hus x hx
        · exact hvs x hx

/-- Behind code words the automaton is at its start. -/
theorem Codes.run_parse (h : A.Codes L) {ws : List (List α)} (hws : ∀ u ∈ ws, u ∈ L)
    (rest : List α) : A.run A.start (ws.flatten ++ rest) = A.run A.start rest := by
  have hstart : A.run A.start ws.flatten = some A.start :=
    run_eq_start_of_mem_kstar h.sound (Language.mem_kstar.mpr ⟨ws, rfl, hws⟩)
  rw [run_append, hstart]
  rfl

end Partial

/-! ### Decoders -/

/-- A partial automaton with a register. `load q r a` is the register after the symbol `a`
in the state `q`. -/
structure Decoder (α σ ρ : Type) extends Partial α σ where
  load : σ → ρ → α → ρ

namespace Decoder

variable {α σ ρ : Type} (D : Decoder α σ ρ)

/-- The register at the end of a word that is not refused. -/
def register (q : σ) (r : ρ) : List α → ρ
  | [] => r
  | a :: w =>
      match D.step q a with
      | none => r
      | some p => register p (D.load q r a) w

variable {D} in
/-- The register after a string that begins with `a`. -/
theorem register_cons {q p : σ} {a : α} (h : D.step q a = some p) (r : ρ) (w : List α) :
    D.register q r (a :: w) = D.register p (D.load q r a) w := by
  rw [register, h]

variable [DecidableEq σ]

/-- The values put out on a word, up to the first refused symbol. -/
def outputs (q : σ) (r : ρ) : List α → List ρ
  | [] => []
  | a :: w =>
      match D.step q a with
      | none => []
      | some p =>
          if p = D.start then D.load q r a :: outputs p (D.load q r a) w
          else outputs p (D.load q r a) w

variable {D}

/-- The outputs of a string that begins with `a`: there is one more where `a` completes a
value. -/
theorem outputs_cons {q p : σ} {a : α} (h : D.step q a = some p) (r : ρ) (w : List α) :
    D.outputs q r (a :: w)
      = if p = D.start then D.load q r a :: D.outputs p (D.load q r a) w
        else D.outputs p (D.load q r a) w := by
  rw [outputs, h]

/-- An unfinished word puts out nothing. -/
theorem outputs_of_unfinished {q : σ} {w : List α} (h : D.Unfinished q w) (r : ρ) :
    D.outputs q r w = [] := by
  induction w generalizing q r with
  | nil => rfl
  | cons a w ih =>
      cases hstep : D.step q a with
      | none => rw [outputs, hstep]
      | some p =>
          -- One symbol is a prefix already, so the start is not reached.
          have hp : p ≠ D.start := by
            rintro rfl
            exact h [a] w rfl (List.cons_ne_nil a []) (by rw [Partial.run_cons, hstep]; rfl)
          rw [outputs_cons hstep, if_neg hp]
          exact ih (h.tail hstep) _

/-- A word that comes back to the start at its end, and not before, puts out the register
there. -/
theorem outputs_append {q : σ} {w : List α} (hne : w ≠ [])
    (hrun : D.run q w = some D.start)
    (hfirst : ∀ u v, w = u ++ v → u ≠ [] → v ≠ [] → D.run q u ≠ some D.start) (r : ρ)
    (rest : List α) :
    D.outputs q r (w ++ rest)
      = D.register q r w :: D.outputs D.start (D.register q r w) rest := by
  induction w generalizing q r with
  | nil => exact absurd rfl hne
  | cons a w ih =>
      rw [Partial.run_cons] at hrun
      obtain ⟨p, hstep, hrest⟩ := Option.bind_eq_some_iff.mp hrun
      rw [List.cons_append, outputs_cons hstep, register_cons hstep]
      by_cases hw : w = []
      · -- The last symbol leads to the start.
        subst hw
        obtain rfl : p = D.start := by simpa using hrest
        rw [if_pos rfl]
        rfl
      · have hp : p ≠ D.start := by
          rintro rfl
          exact hfirst [a] w rfl (List.cons_ne_nil a []) hw
            (by rw [Partial.run_cons, hstep]; rfl)
        rw [if_neg hp]
        refine ih hw hrest ?_ _
        rintro u v rfl - hv hu
        refine hfirst (a :: u) v rfl (List.cons_ne_nil a u) hv ?_
        rw [Partial.run_cons, hstep]
        exact hu

/-- A decoder for the words of `L` with the values `value`: each word comes back to the
start at its end only, with its value in the register, and the first symbol of a word
overwrites the register. -/
structure Decodes (D : Decoder α σ ρ) (L : Language α) (value : List α → ρ) : Prop where
  codes : D.Codes L
  ne_nil : ∀ w ∈ L, w ≠ []
  first : ∀ w ∈ L, ∀ u v, w = u ++ v → u ≠ [] → v ≠ [] → D.run D.start u ≠ some D.start
  value_eq : ∀ w ∈ L, ∀ r, D.register D.start r w = value w

variable {L : Language α} {value : List α → ρ}

/-- Code words put out their values, whatever the register holds. -/
theorem Decodes.outputs_flatten (h : D.Decodes L value) {ws : List (List α)}
    (hws : ∀ w ∈ ws, w ∈ L) {rest : List α} (hrest : D.Unfinished D.start rest) (r : ρ) :
    D.outputs D.start r (ws.flatten ++ rest) = ws.map value := by
  induction ws generalizing r with
  | nil => exact outputs_of_unfinished hrest r
  | cons w ws ih =>
      -- The first code word leaves its value in the register, which the next one overwrites.
      have hw : w ∈ L := hws w List.mem_cons_self
      rw [List.flatten_cons, List.append_assoc,
        outputs_append (h.ne_nil w hw) (h.codes.sound w hw) (h.first w hw), h.value_eq w hw,
        List.map_cons, ih fun v hv => hws v (List.mem_cons_of_mem w hv)]

end Decoder

/-! ### The code words of a table -/

section Table

variable {α β : Type} {admits : β → α → Bool} {rows : List (List β)}

/-- Inside a match of the pending cells, the cells of what is left are pending. -/
theorem rowMachine_run_front {q : List β} {u v : List α}
    (h : List.Forall₂ (fun c a => admits c a = true) q (u ++ v)) :
    ∃ p, (rowMachine admits rows).run q u = some p ∧
      List.Forall₂ (fun c a => admits c a = true) p v := by
  induction u generalizing q with
  | nil => exact ⟨q, rfl, h⟩
  | cons a u ih =>
      obtain ⟨c, rest, ha, hrest, rfl⟩ := List.forall₂_cons_right_iff.mp h
      rw [rowMachine_run_cons, if_pos ha]
      exact ih hrest

/-- The machine of an unambiguous table is not back at its start inside a code word. -/
theorem rowMachine_run_ne_of_mem (h : Unambiguous admits rows) {u v : List α}
    (hw : u ++ v ∈ rowLanguage admits rows) (hu : u ≠ []) (hv : v ≠ []) :
    (rowMachine admits rows).run [] u ≠ some [] := by
  obtain ⟨row, hrow, hmatch⟩ := hw
  cases u with
  | nil => exact absurd rfl hu
  | cons a u =>
      obtain ⟨c, rest, ha, hrest, rfl⟩ := List.forall₂_cons_right_iff.mp hmatch
      have hfront : ∃ p, (rowMachine admits rows).run rest u = some p ∧
          List.Forall₂ (fun c a => admits c a = true) p v := rowMachine_run_front hrest
      obtain ⟨p, hp, hpv⟩ := hfront
      rw [Partial.run_cons, rowMachine_step_nil h hrow ha]
      show (rowMachine admits rows).run rest u ≠ some []
      rw [hp]
      intro hnil
      cases hnil
      -- No cell is pending, so nothing is left of the word.
      exact hv (List.forall₂_nil_left_iff.mp hpv)

/-- The code words of a table are not empty. -/
theorem ne_nil_of_mem_rowLanguage (h : Unambiguous admits rows) {w : List α}
    (hw : w ∈ rowLanguage admits rows) : w ≠ [] := by
  obtain ⟨row, hrow, hmatch⟩ := hw
  rintro rfl
  exact (h.filled row hrow).1 (List.forall₂_nil_right_iff.mp hmatch)

end Table

/-! ### Total machines with a register -/

section Scan

variable {α σ τ ρ : Type} [DecidableEq τ]

/-- The values that a total machine puts out: its register, whenever it steps to `accept`. -/
def scan (δ : τ → α → τ) (load : τ → ρ → α → ρ) (accept : τ) (s : τ) (r : ρ) : List α → List ρ
  | [] => []
  | a :: w =>
      if δ s a = accept then load s r a :: scan δ load accept (δ s a) (load s r a) w
      else scan δ load accept (δ s a) (load s r a) w

variable {D : Decoder α σ ρ} {δ : τ → α → τ} {load : τ → ρ → α → ρ} {reject : τ} {num : σ → τ}

/-- The reject state puts out nothing. -/
theorem scan_reject (h : D.Implements δ reject num) (r : ρ) (w : List α) :
    scan δ load (num D.start) reject r w = [] := by
  induction w generalizing r with
  | nil => rfl
  | cons a w ih =>
      rw [scan, h.dead a, if_neg (h.num_ne D.start).symm]
      exact ih _

/-- A total machine that implements the automaton, and loads its register alike, puts out
the same values. -/
theorem scan_eq_outputs [DecidableEq σ] (h : D.Implements δ reject num)
    (hinj : Function.Injective num)
    (hload : ∀ q r a, load (num q) r a = D.load q r a) (q : σ) (r : ρ) (w : List α) :
    scan δ load (num D.start) (num q) r w = D.outputs q r w := by
  induction w generalizing q r with
  | nil => rfl
  | cons a w ih =>
      rw [scan, h.step, hload]
      -- A refused symbol leads to the reject state, which nothing leaves.
      cases hstep : D.step q a with
      | none =>
          rw [Decoder.outputs, hstep]
          show (if reject = num D.start then _ else scan δ load _ reject _ w) = []
          rw [if_neg (h.num_ne D.start).symm]
          exact scan_reject h _ w
      | some p =>
          show (if num p = num D.start then _ :: scan δ load _ (num p) _ w
            else scan δ load _ (num p) _ w) = _
          rw [Decoder.outputs_cons hstep, ih]
          by_cases hp : p = D.start
          · rw [if_pos hp, if_pos (congrArg num hp)]
          · rw [if_neg hp, if_neg fun heq => hp (hinj heq)]

end Scan

end Automata
