import FastValidate.Lib.Rounds
import FastValidate.Proofs.Composition
import FastValidate.Proofs.PopulateUtf8
import Mathlib.Algebra.BigOperators.Group.Finset.Basic

/-!
# `FastValidate.Proofs.PopulateRuns`: all runs of the generator

`PopulateUtf8` is about a run that returns. Here are all runs: when they return, which texts
they write, and how large a buffer they need.

What a round writes is a function of `rand()` and of the number of calls before it
(`roundBytes`). The values above `F4` write nothing, so the generator returns as long as
`rand()` does not give such values for ever (`populateUtf8_returns_iff`). A sequence can be
chosen by the values of `rand()` (`script`), so every text of the right kind is written by
some run (`populateUtf8_outputs`). One sequence can start just below `N`, and that fits the
`2 * N` bytes of the caller from `N = 4` on only (`populateUtf8_fits_iff`).
-/

set_option autoImplicit false

namespace FastValidate.Proofs

open Simd (Byte)
open Simd Memory Loops
open Automata
open Computability
open FastValidate.Spec
open FastValidate.Code

/-! ### What a round writes -/

/-- The number of calls of `rand()` in a statement. -/
def callsOf : Emit → ℕ
  | .byte _ => 0
  | .random _ _ => 1

/-- The bytes that the statements `es` store, where `k` calls came before. -/
def stored (rand : ℕ → ℕ) : ℕ → List Emit → List Byte
  | _, [] => []
  | k, e :: es => emitted (rand k) e :: stored rand (k + callsOf e) es

/-- The statements append the bytes they store. -/
theorem appends_stored (rand : ℕ → ℕ) (es : List Emit) (s : Populating) :
    Appends s (es.foldl (Populating.emit rand) s) (stored rand s.calls es) ∧
      (es.foldl (Populating.emit rand) s).calls = s.calls + (es.map callsOf).sum := by
  induction es generalizing s with
  | nil => exact ⟨.refl s, rfl⟩
  | cons e es ih =>
      -- The other statements start where this one leaves `rand()`.
      have hcalls : (s.emit rand e).calls = s.calls + callsOf e := by cases e <;> rfl
      obtain ⟨happ, hsum⟩ := ih (s.emit rand e)
      rw [hcalls] at happ hsum
      refine ⟨(appends_emit rand s e).trans happ, ?_⟩
      rw [List.foldl_cons, hsum, List.map_cons, List.sum_cons, Nat.add_assoc]

/-- Each statement stores one byte. -/
theorem length_stored (rand : ℕ → ℕ) (k : ℕ) (es : List Emit) :
    (stored rand k es).length = es.length := by
  induction es generalizing k with
  | nil => rfl
  | cons e es ih => rw [stored, List.length_cons, ih, List.length_cons]

/-- The bytes stored by statements that stay inside a row are in that row. -/
theorem stored_admits {row : List ByteRange} {es : List Emit} (rand : ℕ → ℕ) (k : ℕ)
    (h : List.Forall₂ Covers row es) :
    List.Forall₂ (fun c b => ByteRange.admits c b = true) row (stored rand k es) := by
  induction h generalizing k with
  | nil => exact .nil
  | cons hce _ ih => exact .cons (hce.admits (rand k)) (ih _)

/-- `rand() & 0xFF` in a round that comes after `k` calls. -/
def selected (rand : ℕ → ℕ) (k : ℕ) : ℕ := rand k &&& 0xFF

/-- The value that selects a branch is a byte. -/
theorem selected_lt (rand : ℕ → ℕ) (k : ℕ) : selected rand k < 256 := by
  have hand : rand k &&& 0xFF ≤ 0xFF := Nat.and_le_right
  exact Nat.lt_succ_of_le hand

/-- The number of calls in a round. -/
def roundCalls (rand : ℕ → ℕ) (k : ℕ) : ℕ := 1 + ((emits (selected rand k)).map callsOf).sum

/-- The bytes that a round writes. -/
def roundBytes (rand : ℕ → ℕ) (k : ℕ) : List Byte :=
  stored rand (k + 1) (emits (selected rand k))

/-- The step lemma: a round appends its bytes. -/
theorem appends_round (rand : ℕ → ℕ) (s : Populating) :
    Appends s (s.round rand) (roundBytes rand s.calls) ∧
      (s.round rand).calls = s.calls + roundCalls rand s.calls := by
  obtain ⟨happ, hcalls⟩ :=
    appends_stored rand (emits (selected rand s.calls)) { s with calls := s.calls + 1 }
  refine ⟨⟨happ.text, happ.length, happ.frame, happ.written⟩, ?_⟩
  rw [roundCalls, ← Nat.add_assoc]
  exact hcalls

/-- What the generator can write in one round: a legal sequence, and of the ASCII bytes only
the space. -/
structure Generated (u : List Byte) : Prop where
  legal : u ∈ legalSequence
  space : ∀ b ∈ u, b ≤ 0x7F → b = 0x20

/-- The bytes that match a row without ASCII are no ASCII bytes. -/
theorem not_ascii_of_row {row : List ByteRange} {u : List Byte} (hrow : ∀ r ∈ row, 0x80 ≤ r.lo)
    (h : List.Forall₂ (fun c b => ByteRange.admits c b = true) row u) :
    ∀ b ∈ u, ¬ b ≤ 0x7F := by
  induction h with
  | nil => simp
  | @cons r b row u hrb _ ih =>
      have hb : r.lo ≤ b ∧ b ≤ r.hi := of_decide_eq_true hrb
      have hlo := BitVec.le_trans (hrow r List.mem_cons_self) hb.1
      intro c hc
      rcases List.mem_cons.mp hc with rfl | hc
      · rw [BitVec.le_def] at hlo ⊢
        exact Nat.not_le.mpr (Nat.lt_of_lt_of_le (by decide) hlo)
      · exact ih (fun r' hr' => hrow r' (List.mem_cons_of_mem r hr')) c hc

/-- A round writes nothing for the values above `F4`, and a sequence for the others. -/
theorem roundBytes_cases (rand : ℕ → ℕ) (k : ℕ) :
    (0xF4 < selected rand k ∧ roundBytes rand k = []) ∨
      (selected rand k ≤ 0xF4 ∧ Generated (roundBytes rand k)) := by
  have hlt := selected_lt rand k
  -- The branches, by whether they write a space, another row, or nothing.
  have hbranch : ∀ w < 256, (0xF4 < w ∧ emits w = []) ∨ (w ≤ 0xF4 ∧
      (emits w = [.byte 0x20] ∨ ∃ row ∈ legalSequences,
        (∀ r ∈ row, 0x80 ≤ r.lo) ∧ List.Forall₂ Covers row (emits w))) := by
    decide +kernel
  rcases hbranch _ hlt with ⟨hw, hempty⟩ | ⟨hw, hspace | ⟨row, hrow, hascii, hcover⟩⟩
  · refine .inl ⟨hw, ?_⟩
    rw [roundBytes, hempty]
    rfl
  · have hbytes : roundBytes rand k = [0x20] := by
      rw [roundBytes, hspace]
      rfl
    refine .inr ⟨hw, ⟨?_, ?_⟩⟩
    · rw [hbytes]
      exact ⟨[⟨0x00, 0x7F⟩], by decide, .cons (by decide) .nil⟩
    · rw [hbytes]
      intro b hb _
      exact List.mem_singleton.mp hb
  · have hadmits := stored_admits rand (k + 1) hcover
    refine .inr ⟨hw, ⟨⟨row, hrow, hadmits⟩, ?_⟩⟩
    intro b hb hle
    exact absurd hle (not_ascii_of_row hascii hadmits b hb)

/-! ### When the generator returns -/

/-- The loop of the generator as a `while` loop. -/
theorem loop_eq_whileFuel (rand : ℕ → ℕ) (N fuel : ℕ) (s : Populating) :
    Populating.loop rand N fuel s
      = whileFuel (fun s => s.i < N) (Populating.round rand) fuel s := by
  induction fuel generalizing s with
  | zero => rfl
  | succ fuel ih => rw [Populating.loop, whileFuel, ih]

/-- The state before the first round. -/
def beforeRounds (data : Ptr) : Populating :=
  { data := data, i := 0, calls := 0, written := [] }

/-- A run that returns: it leaves the loop with the invariant, at most three bytes above `N`,
and then stores the NUL byte. -/
theorem populated_of_populateUtf8 {rand : ℕ → ℕ} {fuel : ℕ} {data : Ptr} {N : ℕ}
    {s : Populating} (h : populateUtf8 rand fuel data N = some s) :
    ∃ s₀ : Populating, s = s₀.store 0 ∧ Populated data s₀ ∧ s₀.i ≤ N + 3 := by
  obtain ⟨s₀, hloop, rfl⟩ := Option.map_eq_some_iff.mp h
  have hinit : Populated data (beforeRounds data) :=
    ⟨Language.nil_mem_kstar legalSequence, fun _ _ => rfl, fun _ hj => by cases hj⟩
  obtain ⟨hpop, -, hN3⟩ := Populated.loop rand N fuel _ s₀ hinit (Nat.zero_le _) hloop
  exact ⟨s₀, rfl, hpop, hN3⟩

/-- The number of calls of `rand()` before the round `k`. -/
def callsBefore (rand : ℕ → ℕ) : ℕ → ℕ
  | 0 => 0
  | k + 1 => callsBefore rand k + roundCalls rand (callsBefore rand k)

/-- The value that selects the branch in the round `k`. -/
def choice (rand : ℕ → ℕ) (k : ℕ) : ℕ := selected rand (callsBefore rand k)

/-- The run lemma: after `k` rounds, the counter is the number of bytes that the branches
write. -/
theorem iterate_round (rand : ℕ → ℕ) (data : Ptr) (k : ℕ) :
    ((Populating.round rand)^[k] (beforeRounds data)).calls = callsBefore rand k ∧
      ((Populating.round rand)^[k] (beforeRounds data)).i
        = ∑ j ∈ Finset.range k, (emits (choice rand j)).length := by
  induction k with
  | zero => exact ⟨rfl, rfl⟩
  | succ k ih =>
      obtain ⟨happ, hcalls⟩ :=
        appends_round rand ((Populating.round rand)^[k] (beforeRounds data))
      rw [Function.iterate_succ_apply', hcalls, happ.length, ih.1, ih.2,
        Finset.sum_range_succ, roundBytes, length_stored]
      exact ⟨rfl, rfl⟩

/-- A branch writes nothing for the values above `F4`, and something for the others. -/
theorem length_emits_pos_iff : ∀ w < 256, 0 < (emits w).length ↔ w ≤ 0xF4 := by
  decide +kernel

/-- The generator returns for `N` when some number of rounds writes `N` bytes. -/
theorem exists_populateUtf8_isSome_iff (rand : ℕ → ℕ) (data : Ptr) (N : ℕ) :
    (∃ fuel, (populateUtf8 rand fuel data N).isSome) ↔
      ∃ k, N ≤ ∑ j ∈ Finset.range k, (emits (choice rand j)).length := by
  simp only [populateUtf8, Option.isSome_map, loop_eq_whileFuel]
  rw [exists_whileFuel_isSome_iff]
  refine exists_congr fun k => ?_
  rw [← (iterate_round rand data k).2, Nat.not_lt]
  rfl

/-- Where `rand()` selects values up to `F4` only, every round writes, and the generator
returns. -/
theorem exists_populateUtf8_isSome {rand : ℕ → ℕ} (h : ∀ k, selected rand k ≤ 0xF4)
    (data : Ptr) (N : ℕ) : ∃ fuel, (populateUtf8 rand fuel data N).isSome := by
  have hpos : ∀ j ∈ Finset.range N, 1 ≤ (emits (choice rand j)).length := fun j _ =>
    (length_emits_pos_iff _ (selected_lt rand _)).mpr (h _)
  refine (exists_populateUtf8_isSome_iff rand data N).mpr ⟨N, ?_⟩
  simpa using Finset.card_nsmul_le_sum (Finset.range N) _ 1 hpos

/-- With enough fuel the generator has one result. -/
theorem eventually_populateUtf8 {rand : ℕ → ℕ} {data : Ptr} {N fuel : ℕ} {s : Populating}
    (h : populateUtf8 rand fuel data N = some s) :
    ∀ᶠ fuel in Filter.atTop, populateUtf8 rand fuel data N = some s := by
  obtain ⟨s₀, hloop, rfl⟩ := Option.map_eq_some_iff.mp h
  rw [loop_eq_whileFuel] at hloop
  filter_upwards [eventually_whileFuel hloop] with fuel hfuel
  rw [populateUtf8, loop_eq_whileFuel]
  exact congrArg (Option.map fun s : Populating => s.store 0) hfuel

/-- The generator returns for `N` exactly when some number of rounds writes `N` bytes. It
returns for every `N` exactly when `rand()` goes on selecting values up to `F4`. -/
theorem populateUtf8_returns_iff (rand : ℕ → ℕ) (data : Ptr) :
    (∀ N, (∃ fuel, (populateUtf8 rand fuel data N).isSome) ↔
      ∃ k, N ≤ ∑ j ∈ Finset.range k, (emits (choice rand j)).length) ∧
    ((∀ N, ∃ fuel, (populateUtf8 rand fuel data N).isSome) ↔
      ∀ m, ∃ k, m ≤ k ∧ choice rand k ≤ 0xF4) := by
  refine ⟨exists_populateUtf8_isSome_iff rand data, ?_⟩
  simp only [exists_populateUtf8_isSome_iff]
  have hmono : Monotone fun k => ∑ j ∈ Finset.range k, (emits (choice rand j)).length :=
    monotone_nat_of_le_succ fun k => by
      rw [Finset.sum_range_succ]
      exact Nat.le_add_right _ _
  rw [forall_exists_le_iff hmono]
  -- The counter grows in the rounds that select a value up to `F4`.
  have hgrow : ∀ k, ∑ j ∈ Finset.range k, (emits (choice rand j)).length
      < ∑ j ∈ Finset.range (k + 1), (emits (choice rand j)).length ↔ choice rand k ≤ 0xF4 := by
    intro k
    rw [Finset.sum_range_succ]
    exact Nat.lt_add_right_iff_pos.trans (length_emits_pos_iff _ (selected_lt rand _))
  simp only [hgrow]

/-! ### The texts at the heads of the loop -/

/-- One sequence is well formed. -/
theorem wellFormed_of_mem_legalSequence {u : List Byte} (hu : u ∈ legalSequence) :
    WellFormed u := by
  simpa using wellFormed_append (Language.nil_mem_kstar legalSequence) hu

/-- No sequence has a shorter one in front. -/
theorem not_wellFormed_front {u v : List Byte} (h : u ++ v ∈ legalSequence) (hu : u ≠ [])
    (hv : v ≠ []) : ¬ WellFormed u := by
  rw [← run_utf8Machine_eq_start_iff]
  exact run_utf8Machine_ne_of_mem h hu hv

/-- The texts at the heads of the loop for `N`: well formed, of the ASCII bytes only the
space, and with no sequence that starts at `N` or above. -/
structure Growing (N : ℕ) (t : List Byte) : Prop where
  wellFormed : WellFormed t
  space : ∀ b ∈ t, b ≤ 0x7F → b = 0x20
  last : ∀ u v, t = u ++ v → v ∈ legalSequence → u.length < N

/-- Before the first round nothing is written. -/
theorem growing_nil (N : ℕ) : Growing N [] where
  wellFormed := Language.nil_mem_kstar legalSequence
  space b hb := absurd hb List.not_mem_nil
  last u v huv hv := by
    obtain ⟨-, rfl⟩ := List.append_eq_nil_iff.mp huv.symm
    exact absurd rfl (ne_nil_of_mem_rowLanguage unambiguous_legalSequences hv)

/-- The step lemma: below `N`, a sequence may follow. -/
theorem Growing.append {N : ℕ} {t w : List Byte} (h : Growing N t) (hlt : t.length < N)
    (hw : Generated w) : Growing N (t ++ w) where
  wellFormed := wellFormed_append h.wellFormed hw.legal
  space b hb hle := by
    rcases List.mem_append.mp hb with hb | hb
    · exact h.space b hb hle
    · exact hw.space b hb hle
  last u v huv hv := by
    rcases List.append_eq_append_iff.mp huv with ⟨x, hx, hwx⟩ | ⟨x, hx, -⟩
    · -- The sequence `v` would be the end of `w`, behind the well-formed `x`.
      have hne : v ≠ [] := ne_nil_of_mem_rowLanguage unambiguous_legalSequences hv
      have hvwf := wellFormed_of_mem_legalSequence hv
      have hu : WellFormed u := by
        rw [← wellFormed_append_iff_left hvwf, ← huv]
        exact wellFormed_append h.wellFormed hw.legal
      rw [hx, wellFormed_append_iff_right h.wellFormed] at hu
      by_cases hnil : x = []
      · rw [hx, hnil, List.append_nil]
        exact hlt
      · exact absurd hu (not_wellFormed_front (hwx ▸ hw.legal) hnil hne)
    · -- `v` begins inside `t`.
      have hlen := congrArg List.length hx
      rw [List.length_append] at hlen
      omega

/-- At every head of the loop, up to the exit. -/
theorem growing_iterate (rand : ℕ → ℕ) (data : Ptr) (N k : ℕ)
    (hbefore : ∀ j < k, ((Populating.round rand)^[j] (beforeRounds data)).i < N) :
    Growing N (slice ((Populating.round rand)^[k] (beforeRounds data)).data
      ((Populating.round rand)^[k] (beforeRounds data)).i) := by
  induction k with
  | zero => exact growing_nil N
  | succ k ih =>
      have hk := ih fun j hj => hbefore j (by omega)
      obtain ⟨happ, -⟩ := appends_round rand ((Populating.round rand)^[k] (beforeRounds data))
      rw [Function.iterate_succ_apply', happ.text]
      -- The round writes nothing, or a sequence below `N`.
      rcases roundBytes_cases rand ((Populating.round rand)^[k] (beforeRounds data)).calls with
        ⟨-, hempty⟩ | ⟨-, hgen⟩
      · rw [hempty, List.append_nil]
        exact hk
      · refine hk.append ?_ hgen
        rw [length_slice]
        exact hbefore k (by omega)

/-! ### A run for every text -/

/-- From the call number `k` on, `rand()` gives the values `xs`. -/
def Gives (rand : ℕ → ℕ) : ℕ → List ℕ → Prop
  | _, [] => True
  | k, x :: xs => rand k = x ∧ Gives rand (k + 1) xs

/-- `rand()` gives a list of values when it gives its parts, one after the other. -/
theorem gives_append {rand : ℕ → ℕ} {k : ℕ} {xs ys : List ℕ} :
    Gives rand k (xs ++ ys) ↔ Gives rand k xs ∧ Gives rand (k + xs.length) ys := by
  induction xs generalizing k with
  | nil => simp [Gives]
  | cons x xs ih =>
      simp only [List.cons_append, Gives, ih, and_assoc, List.length_cons]
      rw [Nat.add_assoc k 1, Nat.add_comm 1]

/-- A list gives its own values. -/
theorem gives_getD (front xs : List ℕ) :
    Gives (fun k => (front ++ xs).getD k 0) front.length xs := by
  induction xs generalizing front with
  | nil => trivial
  | cons x xs ih =>
      refine ⟨by simp, ?_⟩
      simpa using ih (front ++ [x])

/-- The statement can store `b`. -/
def Stores : Emit → Byte → Prop
  | .byte w, b => BitVec.ofNat 8 w = b
  | .random lo hi, b => lo ≤ b.toNat ∧ b.toNat ≤ hi

/-- A statement and a byte are compared by values. -/
instance : DecidableRel Stores
  | .byte w, b => inferInstanceAs (Decidable (BitVec.ofNat 8 w = b))
  | .random lo hi, b => inferInstanceAs (Decidable (lo ≤ b.toNat ∧ b.toNat ≤ hi))

/-- The value of `rand()`, if any, with which the statement stores `b`. -/
def draw (b : Byte) : Emit → List ℕ
  | .byte _ => []
  | .random lo _ => [b.toNat - lo]

/-- The values with which the statements store a string. -/
def draws : List Emit → List Byte → List ℕ
  | e :: es, b :: u => draw b e ++ draws es u
  | _, _ => []

/-- With the values drawn for a sequence, the statements store it. -/
theorem stored_of_stores {rand : ℕ → ℕ} {k : ℕ} {es : List Emit} {u : List Byte}
    (h : List.Forall₂ Stores es u) (hgives : Gives rand k (draws es u)) :
    stored rand k es = u ∧ (es.map callsOf).sum = (draws es u).length := by
  induction h generalizing k with
  | nil => exact ⟨rfl, rfl⟩
  | @cons e b es u heb _ ih =>
      rw [draws, gives_append] at hgives
      have hhead : emitted (rand k) e = b ∧ callsOf e = (draw b e).length := by
        cases e with
        | byte w => exact ⟨heb, rfl⟩
        | random lo hi =>
            -- `b` is in the range, so the remainder is the whole difference.
            obtain ⟨hlo, hhi⟩ := heb
            refine ⟨?_, rfl⟩
            rw [emitted, hgives.1.1, Nat.mod_eq_of_lt (by omega), Nat.add_sub_cancel' hlo,
              BitVec.ofNat_toNat, BitVec.setWidth_eq]
      obtain ⟨htail, hsum⟩ := ih hgives.2
      rw [stored, hhead.1, hhead.2, htail, List.map_cons, List.sum_cons, hhead.2, hsum, draws,
        List.length_append]
      exact ⟨rfl, rfl⟩

/-- A value that selects a branch for the sequences that begin with `b`. -/
def selector (b : Byte) : ℕ :=
  if b < 0x80 then 0
  -- These branches draw their first byte, so one value selects all of them.
  else if b < 0xE0 then 0x80
  else if 0xF1 ≤ b ∧ b ≤ 0xF3 then 0xF1
  -- The others store the value itself.
  else b.toNat

/-- The value chosen for a byte selects its branch unchanged by the mask. -/
theorem selector_and (b : Byte) : selector b &&& 0xFF = selector b := by
  revert b
  decide +kernel

/-- Behind the first byte, the branch has one statement for each range of the row. -/
theorem emits_selector : ∀ row ∈ legalSequences, ∀ b : Byte,
    leads ByteRange.admits row b = true → (b ≤ 0x7F → b = 0x20) →
      (emits (selector b)).tail = row.tail.map (fun r => .random r.lo.toNat r.hi.toNat) ∧
        ∃ e ∈ (emits (selector b)).head?, Stores e b := by
  decide +kernel

/-- Statements with the ranges of a row can store any sequence of the row. -/
theorem stores_ranges {row : List ByteRange} {u : List Byte}
    (h : List.Forall₂ (fun c b => ByteRange.admits c b = true) row u) :
    List.Forall₂ Stores (row.map fun r => .random r.lo.toNat r.hi.toNat) u := by
  induction h with
  | nil => exact .nil
  | cons hrb _ ih => exact .cons (of_decide_eq_true hrb) ih

/-- The branch that `selector` selects can store the sequence. -/
theorem Generated.stores {b : Byte} {u : List Byte} (h : Generated (b :: u)) :
    List.Forall₂ Stores (emits (selector b)) (b :: u) := by
  obtain ⟨row, hrow, hmatch⟩ := h.legal
  obtain ⟨r, rest, hrb, hrest, rfl⟩ := List.forall₂_cons_right_iff.mp hmatch
  obtain ⟨htail, e, he, hstores⟩ :=
    emits_selector _ hrow b hrb (h.space b List.mem_cons_self)
  -- One statement for the first byte, and one for each range behind it.
  rw [Option.mem_def, List.head?_eq_some_iff] at he
  obtain ⟨es, hes⟩ := he
  rw [hes, List.tail_cons] at htail
  rw [hes, htail]
  exact .cons hstores (stores_ranges hrest)

/-- The values of `rand()` with which a round writes a sequence. -/
def script : List Byte → List ℕ
  | [] => []
  | b :: u => selector b :: draws (emits (selector b)) (b :: u)

/-- A round with these values writes the sequence. -/
theorem roundBytes_script {rand : ℕ → ℕ} {k : ℕ} {u : List Byte} (hu : Generated u)
    (hgives : Gives rand k (script u)) :
    roundBytes rand k = u ∧ roundCalls rand k = (script u).length := by
  cases u with
  | nil => exact absurd rfl (ne_nil_of_mem_rowLanguage unambiguous_legalSequences hu.legal)
  | cons b u =>
      obtain ⟨hselect, hdraws⟩ := hgives
      have hselected : selected rand k = selector b := by
        rw [selected, hselect, selector_and]
      obtain ⟨hbytes, hcalls⟩ := stored_of_stores hu.stores hdraws
      rw [roundBytes, roundCalls, hselected, hbytes, hcalls, script, List.length_cons,
        Nat.add_comm]
      exact ⟨rfl, rfl⟩

/-- The run lemma: a run with the values for some sequences writes them. Induction on the
sequences still to be written. -/
theorem loop_script {rand : ℕ → ℕ} {N : ℕ} (us : List (List Byte)) (s : Populating)
    (hus : ∀ u ∈ us, Generated u) (hgives : Gives rand s.calls (us.flatMap script))
    (hlong : N ≤ s.i + us.flatten.length)
    (hlast : ∀ front last, us = front ++ [last] → s.i + front.flatten.length < N) :
    ∃ s', Populating.loop rand N us.length s = some s' ∧ Appends s s' us.flatten := by
  induction us generalizing s with
  | nil =>
      -- Nothing is left to write, so the counter has passed `N`.
      refine ⟨s, ?_, .refl s⟩
      exact if_neg (Nat.not_lt.mpr hlong)
  | cons u us ih =>
      rw [List.flatMap_cons, gives_append] at hgives
      obtain ⟨hbytes, hcalls⟩ := roundBytes_script (hus u List.mem_cons_self) hgives.1
      obtain ⟨happ, hround⟩ := appends_round rand s
      rw [hbytes] at happ
      rw [hcalls] at hround
      -- The last sequence starts below `N`, so this one does.
      have hlt : s.i < N := by
        rcases List.eq_nil_or_concat' us with rfl | ⟨front, last, rfl⟩
        · simpa using hlast [] u rfl
        · have hbound := hlast (u :: front) last rfl
          omega
      obtain ⟨s', hloop, happ'⟩ := ih (s.round rand)
        (fun v hv => hus v (List.mem_cons_of_mem u hv))
        (by rw [hround]; exact hgives.2)
        (by rw [happ.length, Nat.add_assoc, ← List.length_append]; exact hlong)
        (fun front last hfront => by
          rw [happ.length, Nat.add_assoc, ← List.length_append]
          exact hlast (u :: front) last (by rw [hfront]; rfl))
      exact ⟨s', (if_pos hlt).trans hloop, happ.trans happ'⟩

/-! ### The texts at the exit -/

/-- The NUL byte behind the text is not part of it. -/
theorem slice_store (s : Populating) (x : ℕ) :
    slice (s.store x).data (s.store x).i = slice s.data s.i :=
  slice_congr fun _ hj => Function.update_of_ne (Nat.ne_of_lt hj) _ _

/-- Every text of a head of the loop that has `N` bytes is written by some run. -/
theorem Growing.exists_run {N : ℕ} {t : List Byte} (h : Growing N t) (hlong : N ≤ t.length)
    (data : Ptr) :
    ∃ (rand : ℕ → ℕ) (fuel : ℕ) (s : Populating),
      populateUtf8 rand fuel data N = some s ∧ slice s.data s.i = t := by
  obtain ⟨us, rfl, hus⟩ := Language.mem_kstar.mp h.wellFormed
  -- `rand()` gives the values for one sequence after the other.
  have hgives := gives_getD [] (us.flatMap script)
  obtain ⟨s, hloop, happ⟩ := loop_script (N := N) us (beforeRounds data)
    (fun u hu => ⟨hus u hu, fun b hb => h.space b (List.mem_flatten.mpr ⟨u, hu, hb⟩)⟩)
    hgives (by simpa [beforeRounds] using hlong) (fun front last hfront => by
      have hlast := h.last front.flatten last (by rw [hfront]; simp)
        (hus last (by rw [hfront]; simp))
      simpa [beforeRounds] using hlast)
  refine ⟨fun k => ([] ++ us.flatMap script).getD k 0, us.length, s.store 0, ?_, ?_⟩
  · exact Option.map_eq_some_iff.mpr ⟨s, hloop, rfl⟩
  · rw [slice_store, happ.text]
    rfl

/-- The texts that the generator can write for `N` are the well-formed texts of at least `N`
bytes whose ASCII bytes are spaces and whose last sequence starts below `N`. -/
theorem populateUtf8_outputs (data : Ptr) (N : ℕ) (t : List Byte) :
    (∃ (rand : ℕ → ℕ) (fuel : ℕ) (s : Populating),
      populateUtf8 rand fuel data N = some s ∧ slice s.data s.i = t) ↔
    WellFormed t ∧ (∀ b ∈ t, b ≤ 0x7F → b = 0x20) ∧ N ≤ t.length ∧
      ∀ u v, t = u ++ v → v ∈ legalSequence → u.length < N := by
  constructor
  · rintro ⟨rand, fuel, s, hrun, rfl⟩
    obtain ⟨s₀, hloop, rfl⟩ := Option.map_eq_some_iff.mp hrun
    -- The exit is the first head of the loop at `N` or above.
    rw [loop_eq_whileFuel, whileFuel_eq_some_iff] at hloop
    obtain ⟨k, -, rfl, hbefore, hexit⟩ := hloop
    have hgrow := growing_iterate rand data N k hbefore
    rw [slice_store]
    refine ⟨hgrow.wellFormed, hgrow.space, ?_, hgrow.last⟩
    rw [length_slice]
    exact Nat.le_of_not_lt hexit
  · rintro ⟨hwf, hspace, hlong, hlast⟩
    exact Growing.exists_run ⟨hwf, hspace, hlast⟩ hlong data

/-! ### The size of the buffer -/

/-- Spaces, below `N` or up to it. -/
theorem growing_spaces {N : ℕ} (k : ℕ) (hk : k ≤ N) : Growing N (List.replicate k 0x20) := by
  induction k with
  | zero => exact growing_nil N
  | succ k ih =>
      rw [List.replicate_succ']
      refine (ih (by omega)).append (by rw [List.length_replicate]; omega) ⟨?_, ?_⟩
      · exact ⟨[⟨0x00, 0x7F⟩], by decide, .cons (by decide) .nil⟩
      · intro b hb _
        exact List.mem_singleton.mp hb

/-- From `N = 4` on a run stores nothing behind the first `2 * N` bytes. -/
theorem written_lt_of_populateUtf8 {rand : ℕ → ℕ} {fuel N : ℕ} {data : Ptr} {s : Populating}
    (hN : 4 ≤ N) (hrun : populateUtf8 rand fuel data N = some s) :
    ∀ j ∈ s.written, j < 2 * N := by
  intro j hj
  obtain ⟨s₀, rfl, hpop, hN3⟩ := populated_of_populateUtf8 hrun
  -- Either the NUL byte, or a byte of the text.
  rcases List.mem_cons.mp hj with rfl | hj
  · omega
  · have hlt := hpop.written j hj
    omega

/-- The buffer of `2 * N` bytes that `demo_utf8` allocates is large enough for every run
exactly when `N` is at least four. The product is a natural here. In the source it is a
`size_t`, which has this value for `N` below `2 ^ 63`. -/
theorem populateUtf8_fits_iff (N : ℕ) :
    (∀ (rand : ℕ → ℕ) (fuel : ℕ) (data : Ptr) (s : Populating),
      populateUtf8 rand fuel data N = some s → ∀ j ∈ s.written, j < 2 * N) ↔ 4 ≤ N := by
  constructor
  · intro h
    by_contra hN
    -- A text of `N + 3` bytes, or the empty one for `N = 0`.
    have hlongest : ∃ t, Growing N t ∧ N ≤ t.length ∧ 2 * N ≤ t.length := by
      cases N with
      | zero => exact ⟨[], growing_nil 0, Nat.le_refl 0, Nat.le_refl 0⟩
      | succ k =>
          refine ⟨List.replicate k 0x20 ++ [0xF0, 0x90, 0x80, 0x80],
            (growing_spaces k (by omega)).append (by rw [List.length_replicate]; omega)
              ⟨?_, by decide⟩, ?_, ?_⟩
          · refine ⟨[⟨0xF0, 0xF0⟩, ⟨0x90, 0xBF⟩, ⟨0x80, 0xBF⟩, ⟨0x80, 0xBF⟩], by decide, ?_⟩
            exact .cons (by decide) (.cons (by decide) (.cons (by decide)
              (.cons (by decide) .nil)))
          · simp
          · simp
            omega
    obtain ⟨t, hgrow, hlong, hbig⟩ := hlongest
    obtain ⟨rand, fuel, s, hrun, rfl⟩ := hgrow.exists_run hlong fun _ => 0
    obtain ⟨s₀, hloop, rfl⟩ := Option.map_eq_some_iff.mp hrun
    -- The NUL byte goes to the index behind the text.
    have hnul := h rand fuel _ _ hrun s₀.i List.mem_cons_self
    rw [length_slice] at hbig
    exact absurd hnul (Nat.not_lt.mpr hbig)
  · intro hN rand fuel data s hrun
    exact written_lt_of_populateUtf8 hN hrun

end FastValidate.Proofs
