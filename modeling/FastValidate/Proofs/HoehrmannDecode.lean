import FastValidate.Lib.Decoder
import FastValidate.Proofs.CodePoints
import FastValidate.Proofs.Hoehrmann

/-!
# `FastValidate.Proofs.HoehrmannDecode`: the decoders

`decode` is `updatestate` with a register. Between two sequences the register takes the bits
that the class of the byte lets through, and inside a sequence it takes six bits more. At the
end of a sequence it holds the code point (`register_legalSequence`), so the calls that
return `UTF8_ACCEPT` leave the code points of the text in `codep`, in order.

`shiftless_decode` differs in the numbers of its states only.
-/

set_option autoImplicit false

namespace FastValidate.Proofs

open Simd (Byte)
open Automata
open FastValidate.Spec
open FastValidate.Code

/-! ### Calls in a row -/

/-- What `codep` holds after each call that returned `UTF8_ACCEPT`, over the bytes of a
text. -/
def decoded (next : Decoding → Byte → Decoding) (d : Decoding) : List Byte → List (BitVec 32)
  | [] => []
  | b :: text =>
      if (next d b).state = UTF8_ACCEPT then (next d b).codep :: decoded next (next d b) text
      else decoded next (next d b) text

/-- What both decoders store in `codep`. -/
def nextCodep (state : ℕ) (codep : BitVec 32) (byte : Byte) : BitVec 32 :=
  if state ≠ UTF8_ACCEPT then (byte.setWidth 32 &&& 0x3f#32) ||| (codep <<< 6)
  else (0xff#32 >>> utf8d.getD byte.toNat 0) &&& byte.setWidth 32

/-- A decoder steps its state as `update` does, and stores `nextCodep`. -/
def DecodesAlong (update : ℕ → Byte → ℕ) (next : Decoding → Byte → Decoding) : Prop :=
  ∀ d b, next d b = ⟨update d.state b, nextCodep d.state d.codep b⟩

/-- `decode` moves its state as `updatestate` does. -/
theorem decodesAlong_decode : DecodesAlong updatestate decode := fun _ _ => rfl

/-- `shiftless_decode` moves its state as `shiftless_updatestate` does. -/
theorem decodesAlong_shiftlessDecode : DecodesAlong shiftlessUpdatestate shiftlessDecode :=
  fun _ _ => rfl

section Along

variable {update : ℕ → Byte → ℕ} {next : Decoding → Byte → Decoding}

/-- So it does over a whole text. -/
theorem DecodesAlong.state_foldl (h : DecodesAlong update next) (d : Decoding)
    (text : List Byte) : (text.foldl next d).state = text.foldl update d.state := by
  induction text generalizing d with
  | nil => rfl
  | cons b text ih => rw [List.foldl_cons, List.foldl_cons, ih, h]

/-- What a decoder gives is what the scan with its table gives. -/
theorem DecodesAlong.decoded_eq_scan (h : DecodesAlong update next) (d : Decoding)
    (text : List Byte) :
    decoded next d text = scan update nextCodep UTF8_ACCEPT d.state d.codep text := by
  induction text generalizing d with
  | nil => rfl
  | cons b text ih => rw [decoded, scan, ih, h]

end Along

/-! ### The register -/

/-- Six bits more. -/
theorem pushBits_eq (codep : BitVec 32) (b : Byte) :
    (b.setWidth 32 &&& 0x3f#32) ||| (codep <<< 6)
      = BitVec.ofNat 32 (64 * codep.toNat + b.toNat % 64) := by
  have hlow : (b.setWidth 32 &&& 0x3f#32).toNat = b.toNat % 64 := by
    rw [BitVec.toNat_and, BitVec.toNat_setWidth, Nat.mod_eq_of_lt (by omega)]
    exact Nat.and_two_pow_sub_one_eq_mod b.toNat 6
  have hhigh : (codep <<< 6).toNat = (codep.toNat % 2 ^ 26) <<< 6 := by
    rw [BitVec.toNat_shiftLeft, Nat.shiftLeft_eq, Nat.shiftLeft_eq]
    omega
  apply BitVec.eq_of_toNat_eq
  -- The shifted bits are above the six low ones, so the disjunction is a sum.
  rw [BitVec.toNat_or, hlow, hhigh, Nat.or_comm,
    ← Nat.shiftLeft_add_eq_or_of_lt (Nat.mod_lt _ (by omega)), Nat.shiftLeft_eq,
    BitVec.toNat_ofNat]
  omega

/-- The class of a first byte lets the bits of the code point through. -/
theorem maskBits_eq (b : Byte) (h : (lead b).isSome) :
    (0xff#32 >>> byteClass b) &&& b.setWidth 32
      = BitVec.ofNat 32 (payload b) := by
  revert b
  decide +kernel

/-- The machine of well-formed strings with the register of the decoders. -/
def decodeMachine : Decoder Byte State (BitVec 32) where
  toPartial := utf8Machine
  load q codep b := nextCodep (stateNumber q) codep b

/-- Only the start state has the number of `UTF8_ACCEPT`. -/
theorem stateNumber_eq_accept_iff (q : State) : stateNumber q = UTF8_ACCEPT ↔ q = .start := by
  cases q <;> decide

/-- No two states have the same number. -/
theorem stateNumber_injective : Function.Injective stateNumber := by
  intro q p
  cases q <;> cases p <;> decide

/-- Nor have they the same number multiplied by sixteen. -/
theorem shiftlessNumber_injective : Function.Injective fun q => 16 * stateNumber q := by
  intro q p
  cases q <;> cases p <;> decide

/-- Inside a sequence the register takes six bits of each byte. -/
theorem register_inside {q : State} {w : List Byte}
    (hinside : ∀ u v, w = u ++ v → v ≠ [] → utf8Machine.run q u ≠ some .start)
    (hrun : (utf8Machine.run q w).isSome) (v : ℕ) :
    decodeMachine.register q (BitVec.ofNat 32 v) w
      = BitVec.ofNat 32 (w.foldl (fun v c => 64 * v + c.toNat % 64) v) := by
  induction w generalizing q v with
  | nil => rfl
  | cons b w ih =>
      -- Not at the start, so the byte adds to the register and does not overwrite it.
      have hq : stateNumber q ≠ UTF8_ACCEPT := by
        rw [Ne, stateNumber_eq_accept_iff]
        rintro rfl
        exact hinside [] (b :: w) rfl (List.cons_ne_nil b w) rfl
      rw [Partial.run_cons] at hrun
      cases hstep : utf8Machine.step q b with
      | none => simp [hstep] at hrun
      | some p =>
          have hload : decodeMachine.load q (BitVec.ofNat 32 v) b
              = BitVec.ofNat 32 (64 * v + b.toNat % 64) := by
            show nextCodep (stateNumber q) _ b = _
            rw [nextCodep, if_pos hq, pushBits_eq]
            apply BitVec.eq_of_toNat_eq
            simp only [BitVec.toNat_ofNat]
            omega
          rw [Decoder.register_cons (D := decodeMachine) hstep, hload, List.foldl_cons]
          refine ih ?_ (by simpa [hstep] using hrun) _
          rintro u v' rfl hv' hu
          refine hinside (b :: u) v' rfl hv' ?_
          rw [Partial.run_cons, hstep]
          exact hu

/-- `utf8Machine` reads the legal sequences. -/
theorem codes_utf8Machine : utf8Machine.Codes legalSequence where
  sound w hw := by
    refine (run_utf8Machine_eq_start_iff w).mpr (Language.mem_kstar.mpr ⟨[w], ?_, ?_⟩)
    · exact List.flatten_singleton.symm
    · simpa using hw
  split w hne hrun := by
    refine (codes_rowMachine unambiguous_legalSequences).split w hne ?_
    change utf8Machine.run .start w = some .start at hrun
    show (rowMachine ByteRange.admits legalSequences).run [] w = some []
    rw [← rest_run_utf8Machine, hrun]
    rfl
  complete w q hrun := by
    change utf8Machine.run .start w = some q at hrun
    obtain ⟨r, hr⟩ := (isSome_run_utf8Machine_iff w).mp (by rw [hrun]; rfl)
    rw [← run_utf8Machine_eq_start_iff, Partial.run_append, hrun] at hr
    exact ⟨r, hr⟩

/-- `utf8Machine` is not back at its start inside a legal sequence. -/
theorem run_utf8Machine_ne_of_mem {u v : List Byte} (hw : u ++ v ∈ legalSequence) (hu : u ≠ [])
    (hv : v ≠ []) : utf8Machine.run .start u ≠ some .start := by
  intro hrun
  have hrest := rest_run_utf8Machine u
  rw [hrun] at hrest
  exact rowMachine_run_ne_of_mem unambiguous_legalSequences hw hu hv hrest.symm

/-- Over a legal sequence the register comes to hold the code point, whatever it held. -/
theorem register_legalSequence {w : List Byte} (hw : w ∈ legalSequence) (codep : BitVec 32) :
    decodeMachine.register .start codep w = BitVec.ofNat 32 (codePoint w) := by
  have hrun := codes_utf8Machine.sound w hw
  cases w with
  | nil => exact absurd rfl (ne_nil_of_mem_rowLanguage unambiguous_legalSequences hw)
  | cons b w =>
      rw [Partial.run_cons] at hrun
      obtain ⟨p, hstep, hrest⟩ := Option.bind_eq_some_iff.mp hrun
      change utf8Machine.step .start b = some p at hstep
      -- The first byte overwrites the register, and the others add to it.
      have hload : decodeMachine.load .start codep b = BitVec.ofNat 32 (payload b) := by
        have hlead : lead b = some p := hstep
        show nextCodep (stateNumber .start) codep b = _
        rw [nextCodep, if_neg (by decide), utf8d_getD, maskBits_eq b (by rw [hlead]; rfl)]
      rw [Decoder.register_cons (D := decodeMachine) hstep, hload]
      refine register_inside ?_ (by rw [hrest]; rfl) _
      rintro u v rfl hv hu
      refine run_utf8Machine_ne_of_mem (u := b :: u) hw (List.cons_ne_nil b u) hv ?_
      rw [Partial.run_cons, hstep]
      exact hu

/-- The register machine decodes the legal sequences. -/
theorem decodes_decodeMachine :
    decodeMachine.Decodes legalSequence fun w => BitVec.ofNat 32 (codePoint w) where
  codes := codes_utf8Machine
  ne_nil _ hw := ne_nil_of_mem_rowLanguage unambiguous_legalSequences hw
  first := by
    rintro _ hw u v rfl hu hv
    exact run_utf8Machine_ne_of_mem hw hu hv
  value_eq _ hw codep := register_legalSequence hw codep

/-! ### The decoders -/

section Decoders

variable {update : ℕ → Byte → ℕ} {reject : ℕ} {num : State → ℕ}
  {next : Decoding → Byte → Decoding}

/-- The numbered state is the start exactly when the run is back there. -/
theorem foldl_eq_start_iff (h : utf8Machine.Implements update reject num)
    (hinj : Function.Injective num) (text : List Byte) :
    text.foldl update (num .start) = num .start ↔ utf8Machine.run .start text = some .start := by
  rw [h.foldl]
  cases utf8Machine.run .start text with
  | none => simpa using (h.num_ne .start).symm
  | some q => simpa using hinj.eq_iff

/-- A decoder puts out what the machine with the register does. -/
theorem decoded_eq_outputs (h : utf8Machine.Implements update reject num)
    (hinj : Function.Injective num) (haccept : num .start = UTF8_ACCEPT)
    (hnext : DecodesAlong update next) (codep : BitVec 32) (text : List Byte) :
    decoded next ⟨UTF8_ACCEPT, codep⟩ text = decodeMachine.outputs .start codep text := by
  have hload : ∀ q r b, nextCodep (num q) r b = decodeMachine.load q r b := by
    intro q r b
    -- Both numberings have the start at `UTF8_ACCEPT` and no other state there.
    have hq : num q = UTF8_ACCEPT ↔ stateNumber q = UTF8_ACCEPT := by
      rw [← haccept, hinj.eq_iff, haccept, stateNumber_eq_accept_iff]
    show nextCodep (num q) r b = nextCodep (stateNumber q) r b
    simp only [nextCodep, Ne, hq]
  rw [hnext.decoded_eq_scan, ← haccept]
  exact scan_eq_outputs (D := decodeMachine) h hinj hload .start codep text

/-- Over whole sequences and an unfinished rest a decoder puts out the code points of the
sequences, and its state tells what the rest is: nothing, the beginning of a sequence, or an
error. -/
theorem decoded_encodeText_append (h : utf8Machine.Implements update reject num)
    (hinj : Function.Injective num) (haccept : num .start = UTF8_ACCEPT)
    (hnext : DecodesAlong update next) (codep : BitVec 32) (vs : List CodePoint)
    {rest : List Byte} (hrest : utf8Machine.Unfinished .start rest) :
    decoded next ⟨UTF8_ACCEPT, codep⟩ (encodeText vs ++ rest)
        = vs.map CodePoint.toWord ∧
      (((encodeText vs ++ rest).foldl next ⟨UTF8_ACCEPT, codep⟩).state = UTF8_ACCEPT
        ↔ rest = []) ∧
      (((encodeText vs ++ rest).foldl next ⟨UTF8_ACCEPT, codep⟩).state = reject
        ↔ ¬ IsPrefix rest) := by
  have hws : ∀ w ∈ vs.map (fun v : CodePoint => encode v), w ∈ legalSequence := by
    intro w hw
    obtain ⟨v, -, rfl⟩ := List.mem_map.mp hw
    exact encode_mem_legalSequence v
  -- Behind whole sequences the machine is at its start.
  have hparse : utf8Machine.run .start (encodeText vs ++ rest)
      = utf8Machine.run .start rest := codes_utf8Machine.run_parse hws rest
  rw [hnext.state_foldl, ← haccept, foldl_eq_start_iff h hinj, hparse]
  refine ⟨?_, hrest.run_eq_start_iff, ?_⟩
  · rw [haccept, decoded_eq_outputs h hinj haccept hnext]
    refine (decodes_decodeMachine.outputs_flatten hws hrest codep).trans ?_
    rw [List.map_map]
    exact List.map_congr_left fun v _ => congrArg (BitVec.ofNat 32) (codePoint_encode_val v)
  · rw [← isSome_run_utf8Machine_iff, ← hparse, ← h.foldl_ne_iff, not_not]

end Decoders

/-- Every text begins with whole sequences, behind which it is unfinished. -/
theorem exists_encodeText_append (text : List Byte) :
    ∃ (vs : List CodePoint) (rest : List Byte), text = encodeText vs ++ rest ∧
      utf8Machine.Unfinished .start rest := by
  obtain ⟨ws, rest, rfl, hws, hrest⟩ := codes_utf8Machine.exists_parse text
  obtain ⟨vs, rfl⟩ := exists_encodeText hws
  exact ⟨vs, rest, rfl, hrest⟩

/-- The empty text is unfinished from the start state. -/
theorem unfinished_nil : utf8Machine.Unfinished .start [] := by
  rintro u v huv hu
  exact absurd (List.append_eq_nil_iff.mp huv.symm).1 hu

/-- Whatever `codep` holds before, both decoders turn the encoding of a list of code points
back into the list, and end ready for the next one. -/
theorem decoders_roundTrip (vs : List CodePoint) (codep : BitVec 32) :
    (decoded decode ⟨UTF8_ACCEPT, codep⟩ (encodeText vs) = vs.map CodePoint.toWord ∧
      ((encodeText vs).foldl decode ⟨UTF8_ACCEPT, codep⟩).state = UTF8_ACCEPT) ∧
    decoded shiftlessDecode ⟨UTF8_ACCEPT, codep⟩ (encodeText vs)
        = vs.map CodePoint.toWord ∧
      ((encodeText vs).foldl shiftlessDecode ⟨UTF8_ACCEPT, codep⟩).state = UTF8_ACCEPT := by
  obtain ⟨hplain, hend, -⟩ := decoded_encodeText_append implements_updatestate
    stateNumber_injective rfl decodesAlong_decode codep vs unfinished_nil
  obtain ⟨hshiftless, hend', -⟩ := decoded_encodeText_append implements_shiftlessUpdatestate
    shiftlessNumber_injective rfl decodesAlong_shiftlessDecode codep vs unfinished_nil
  rw [List.append_nil] at hplain hend hshiftless hend'
  exact ⟨⟨hplain, hend.mpr rfl⟩, hshiftless, hend'.mpr rfl⟩

/-- Over any bytes both decoders put out the code points of the whole sequences that the
bytes begin with. What is left begins with no sequence. The last state is `UTF8_ACCEPT` when
nothing is left, and the reject state when what is left cannot become a sequence. -/
theorem decoders_anyBytes (text : List Byte) (codep : BitVec 32) :
    ∃ (vs : List CodePoint) (rest : List Byte), text = encodeText vs ++ rest ∧
      (∀ u v, rest = u ++ v → WellFormed u → u = []) ∧
      (decoded decode ⟨UTF8_ACCEPT, codep⟩ text = vs.map CodePoint.toWord ∧
        ((text.foldl decode ⟨UTF8_ACCEPT, codep⟩).state = UTF8_ACCEPT ↔ rest = []) ∧
        ((text.foldl decode ⟨UTF8_ACCEPT, codep⟩).state = UTF8_REJECT ↔ ¬ IsPrefix rest)) ∧
      decoded shiftlessDecode ⟨UTF8_ACCEPT, codep⟩ text = vs.map CodePoint.toWord ∧
        ((text.foldl shiftlessDecode ⟨UTF8_ACCEPT, codep⟩).state = UTF8_ACCEPT ↔ rest = []) ∧
        ((text.foldl shiftlessDecode ⟨UTF8_ACCEPT, codep⟩).state = SHIFTLESS_UTF8_REJECT
          ↔ ¬ IsPrefix rest) := by
  obtain ⟨vs, rest, rfl, hrest⟩ := exists_encodeText_append text
  refine ⟨vs, rest, rfl, ?_, ?_, ?_⟩
  · intro u v hsplit hu
    by_contra hne
    exact hrest u v hsplit hne ((run_utf8Machine_eq_start_iff u).mpr hu)
  · exact decoded_encodeText_append implements_updatestate stateNumber_injective rfl
      decodesAlong_decode codep vs hrest
  · exact decoded_encodeText_append implements_shiftlessUpdatestate shiftlessNumber_injective
      rfl decodesAlong_shiftlessDecode codep vs hrest

/-! ### The two tables -/

/-- The shifted table has the entries of the other table, multiplied by sixteen. -/
theorem shiftedUtf8dTransition_eq :
    shiftedUtf8dTransition = utf8dTransition.map (16 * ·) := by
  decide +kernel

/-- The entries of the transition table are states. -/
theorem utf8dTransition_lt : ∀ s ∈ utf8dTransition, s < 9 := by
  decide +kernel

/-- The table has a row for each of its nine states. -/
theorem index_lt {s : ℕ} (hs : s < 9) (b : Byte) :
    16 * s + utf8d.getD b.toNat 0 < utf8dTransition.length := by
  have hclass := byteClass_lt b
  have hlen : utf8dTransition.length = 144 := rfl
  rw [utf8d_getD, hlen]
  omega

/-- `updatestate` gives a state of the table for any number. -/
theorem updatestate_lt (s : ℕ) (b : Byte) : updatestate s b < 9 := by
  rw [updatestate, List.getD_eq_getElem?_getD]
  cases h : utf8dTransition[16 * s + utf8d.getD b.toNat 0]? with
  | none => decide
  | some t => exact utf8dTransition_lt t (List.mem_of_getElem? h)

/-- One call of `shiftless_decode` is one call of `decode`, with its state multiplied by
sixteen. -/
theorem shiftlessDecode_step (d : Decoding) (b : Byte) :
    shiftlessDecode ⟨16 * d.state, d.codep⟩ b
      = ⟨16 * (decode d b).state, (decode d b).codep⟩ := by
  have hstate : shiftlessUpdatestate (16 * d.state) b = 16 * updatestate d.state b := by
    rw [shiftlessUpdatestate, updatestate, shiftedUtf8dTransition_eq]
    exact List.getD_map utf8dTransition 0 (16 * ·)
  have haccept : 16 * d.state = UTF8_ACCEPT ↔ d.state = UTF8_ACCEPT := by
    simp [UTF8_ACCEPT]
  rw [decodesAlong_shiftlessDecode, decodesAlong_decode, hstate]
  simp only [nextCodep, Ne, haccept]

/-- From every state of the table, over any bytes, `shiftless_decode` runs as `decode` does:
its state is sixteen times the other one, and `codep` is the same. No call reads outside its
table. -/
theorem decoders_inStep (d : Decoding) (hd : d.state < 9) (text : List Byte) :
    text.foldl shiftlessDecode ⟨16 * d.state, d.codep⟩
        = ⟨16 * (text.foldl decode d).state, (text.foldl decode d).codep⟩ ∧
      ∀ b : Byte,
        16 * (text.foldl decode d).state + utf8d.getD b.toNat 0 < utf8dTransition.length ∧
        (text.foldl shiftlessDecode ⟨16 * d.state, d.codep⟩).state + utf8d.getD b.toNat 0
          < shiftedUtf8dTransition.length := by
  induction text generalizing d with
  | nil => exact ⟨rfl, fun b => ⟨index_lt hd b, index_lt hd b⟩⟩
  | cons b text ih =>
      -- `decode` steps to a state of the table again, from which the rest is in step.
      rw [List.foldl_cons, List.foldl_cons, shiftlessDecode_step]
      exact ih (decode d b) (updatestate_lt d.state b)

/-- Over `C3 A9`, from the start. -/
theorem decoders_inStep_C3_A9 :
    [0xC3, 0xA9].foldl shiftlessDecode ⟨16 * 0, 0⟩
      = ⟨16 * ([0xC3, 0xA9].foldl decode ⟨0, 0⟩).state,
          ([0xC3, 0xA9].foldl decode ⟨0, 0⟩).codep⟩ :=
  (decoders_inStep ⟨0, 0⟩ (by decide) [0xC3, 0xA9]).1

end FastValidate.Proofs
