import FastValidate.Proofs.Block

/-!
# `FastValidate.Proofs.Shape`: the bodies shared by the widths

The lemmas about the functions in `Code.Shape`, for any width. A width enters through two
facts: its lookback functions move bytes across the block boundary (`Lookback`), and its
tables repeat a table of sixteen entries (`TableSpec`).

`ChecksSpec` says what the four checks of a version add to its errors; the lemmas
`isZero_check*` prove it for the versions that keep their errors in a register, SSE and
AVX2. `blockStep` is the block step of a version, `blockStep_spec` computes it lane by lane,
and `follows_blockStep` concludes that it implements `lateMachine`. The carry sums are
computed on bytes: `toNat_carryContinuations` shows that with the bound of `Coherent` no
addition wraps.
-/

set_option autoImplicit false

namespace FastValidate.Proofs

open Simd
open FastValidate.Spec
open FastValidate.Code

variable {n : ℕ}

/-! ### Lookbacks and tables -/

/-- `push1` and `push2` move a register up by one and by two lanes, behind the last lanes of
the register before it. -/
structure Lookback (push1 push2 : Reg n → Reg n → Reg n) : Prop where
  one : ∀ a b, ∀ i < n, lane (push1 a b) i = delay (lane a (n - 1)) (lane b) i
  two : ∀ a b, ∀ i < n,
    lane (push2 a b) i = delay (lane a (n - 2)) (delay (lane a (n - 1)) (lane b)) i

/-- `table` repeats the sixteen entries `xs` in each group of lanes. -/
structure TableSpec (table : Reg n) (xs : List Byte) : Prop where
  groups : n % 16 = 0
  lanes : ∀ i < n, lane table i = xs.getD (i % 16) 0

/-- A lookup by high nibbles. -/
theorem TableSpec.lookup {table idx : Reg n} {xs : List Byte} (h : TableSpec table xs)
    {i : ℕ} (hi : i < n) {b : Byte} (hidx : lane idx i = b >>> 4) :
    lane (shuffleEpi8 table idx) i = atNibble xs b := by
  have hlt : (lane idx i).toNat < 16 := by
    rw [hidx]
    exact nibble_lt b
  have hgroups := h.groups
  have hentry : (16 * (i / 16) + (lane idx i).toNat) % 16 = (lane idx i).toNat := by omega
  rw [lane_shuffleEpi8 table idx hi hlt, h.lanes _ (by omega), hentry, hidx]
  rfl

/-- The nibbles of a block behind the last nibble of the block before it are the nibbles of
the delayed bytes. -/
theorem delay_nibble {p : ProcessedUtfBytes n} (hp : Coherent p) {cur hi : Reg n}
    (hhi : ∀ i < n, lane hi i = lane cur i >>> 4) {i : ℕ} (h : i < n) :
    delay (lane p.highNibbles (n - 1)) (lane hi) i
      = delay (lastByte p) (lane cur) i >>> 4 := by
  rw [hp.nibble, map_delay (fun b : Byte => b >>> 4)]
  exact delay_congr _ fun j hj => hhi j (by omega)

/-- The word shift and the mask leave the high nibble of each byte. -/
theorem lane_countNibbles (bytes : Reg n) (answer : ProcessedUtfBytes n) :
    ∀ i < n, lane (Shape.countNibbles bytes answer).highNibbles i = lane bytes i >>> 4 :=
  fun _ hi => lane_srliEpi16_and_0F bytes hi

/-- The lengths that a block step looks up. -/
theorem toNat_lookupLengths {lenTable : Reg n} (hlen : TableSpec lenTable lengthTable)
    (cur : Reg n) :
    ∀ i < n, (lane (shuffleEpi8 lenTable
      (Shape.countNibbles cur (ProcessedUtfBytes.zero n)).highNibbles) i).toNat
        = lengths cur i := by
  intro i hi
  rw [hlen.lookup hi (lane_countNibbles cur (ProcessedUtfBytes.zero n) i hi)]
  rfl

/-! ### The carry -/

/-- The local `right1` of `carryContinuations`. -/
def carryRight1 (push1 : Reg n → Reg n → Reg n) (initialLengths previousCarries : Reg n) :
    Reg n :=
  subsEpu8 (push1 previousCarries initialLengths) (set1Epi8 n 1)

/-- The local `sum`. -/
def carrySum (push1 : Reg n → Reg n → Reg n) (initialLengths previousCarries : Reg n) :
    Reg n :=
  addEpi8 initialLengths (carryRight1 push1 initialLengths previousCarries)

/-- The local `right2`. -/
def carryRight2 (push1 push2 : Reg n → Reg n → Reg n)
    (initialLengths previousCarries : Reg n) : Reg n :=
  subsEpu8 (push2 previousCarries (carrySum push1 initialLengths previousCarries))
    (set1Epi8 n 2)

/-- The lengths of a block as naturals, and the bound of the last two carries before it. -/
structure CarryInput (lens prev : Reg n) (L : ℕ → ℕ) : Prop where
  lengths : ∀ i < n, (lane lens i).toNat = L i
  le_four : ∀ i, L i ≤ 4
  last : (lane prev (n - 1)).toNat ≤ 12
  beforeLast : (lane prev (n - 2)).toNat ≤ 12

section Locals

variable {push1 push2 : Reg n → Reg n → Reg n} {lens prev : Reg n} {L : ℕ → ℕ}

/-- `right1` subtracts one from the lengths moved up by one lane. -/
theorem toNat_carryRight1 (hpush : Lookback push1 push2) (h : CarryInput lens prev L)
    {i : ℕ} (hi : i < n) :
    (lane (carryRight1 push1 lens prev) i).toNat
      = delay (lane prev (n - 1)).toNat L i - 1 := by
  rw [carryRight1, toNat_lane_subsEpu8 _ _ hi, hpush.one _ _ i hi, lane_set1Epi8 _ hi,
    map_delay BitVec.toNat]
  congr 1
  exact delay_congr _ fun j hj => h.lengths j (by omega)

/-- The first addition does not wrap. -/
theorem toNat_carrySum (hpush : Lookback push1 push2) (h : CarryInput lens prev L)
    {i : ℕ} (hi : i < n) :
    (lane (carrySum push1 lens prev) i).toNat = sumAt L (lane prev (n - 1)).toNat i := by
  have hsum : L i + (delay (lane prev (n - 1)).toNat L i - 1) ≤ 15 :=
    (carryAt_le h.le_four h.last h.beforeLast i).1
  rw [carrySum, lane_addEpi8 _ _ hi, BitVec.toNat_add, h.lengths i hi,
    toNat_carryRight1 hpush h hi]
  exact Nat.mod_eq_of_lt (by omega)

/-- `right2` subtracts two from the sums moved up by two lanes. -/
theorem toNat_carryRight2 (hpush : Lookback push1 push2) (h : CarryInput lens prev L)
    {i : ℕ} (hi : i < n) :
    (lane (carryRight2 push1 push2 lens prev) i).toNat
      = delay (lane prev (n - 2)).toNat
          (delay (lane prev (n - 1)).toNat (sumAt L (lane prev (n - 1)).toNat)) i - 2 := by
  rw [carryRight2, toNat_lane_subsEpu8 _ _ hi, hpush.two _ _ i hi, lane_set1Epi8 _ hi,
    map_delay BitVec.toNat]
  congr 1
  refine delay_congr _ fun j hj => ?_
  rw [map_delay BitVec.toNat]
  exact delay_congr _ fun k hk => toNat_carrySum hpush h (by omega)

/-- The second addition does not wrap either. -/
theorem toNat_carryAt (hpush : Lookback push1 push2) (h : CarryInput lens prev L)
    {i : ℕ} (hi : i < n) :
    (lane (Shape.carryContinuations push1 push2 lens prev) i).toNat
      = carryAt L (lane prev (n - 1)).toNat (lane prev (n - 2)).toNat i := by
  have hcarry := (carryAt_le h.le_four h.last h.beforeLast i).2.1
  rw [carryAt] at hcarry
  show (lane (addEpi8 (carrySum push1 lens prev) (carryRight2 push1 push2 lens prev))
    i).toNat = _
  rw [lane_addEpi8 _ _ hi, BitVec.toNat_add, toNat_carrySum hpush h hi,
    toNat_carryRight2 hpush h hi]
  exact Nat.mod_eq_of_lt (by omega)

end Locals

/-- The carries as bytes are the carries as naturals. The bound of the last two carries
keeps every sum below 256. -/
theorem toNat_carryContinuations {push1 push2 : Reg n → Reg n → Reg n}
    (hpush : Lookback push1 push2) {lens : Reg n} {cur : Reg n}
    (hlens : ∀ i < n, (lane lens i).toNat = lengths cur i) {p : ProcessedUtfBytes n}
    (hp : Coherent p) :
    ∀ i < n,
      (lane (Shape.carryContinuations push1 push2 lens p.carriedContinuations) i).toNat
        = carries cur p i := by
  intro i hi
  exact toNat_carryAt hpush ⟨hlens, lengths_le cur, hp.last, hp.beforeLast⟩ hi

/-! ### The checks of the register versions -/

/-- The first check adds no error when all bytes are at most `F4`. -/
theorem isZero_checkSmallerThan0xF4 (cur e : Reg n) :
    IsZero (Shape.checkSmallerThan0xF4 cur e)
      ↔ IsZero e ∧ ∀ i < n, lane cur i ≤ 0xF4 := by
  rw [Shape.checkSmallerThan0xF4, isZero_orSi]
  refine and_congr_right fun _ => forall₂_congr fun i hi => ?_
  rw [← BitVec.toNat_inj, toNat_lane_subsEpu8 _ _ hi, lane_set1Epi8 _ hi, BitVec.le_def]
  exact Nat.sub_eq_zero_iff_le

/-- The two signed comparisons of the overlap and underlap check, as comparisons of
naturals. -/
theorem slt_lengths_carries {lens car : Reg n} {L C : ℕ → ℕ}
    (hL : ∀ i < n, (lane lens i).toNat = L i ∧ L i < 128)
    (hC : ∀ i < n, (lane car i).toNat = C i ∧ C i < 128) {i : ℕ} (hi : i < n) :
    ((lane lens i).slt (lane car i) ↔ L i < C i) ∧
      ((0 : Byte).slt (lane lens i) ↔ 0 < L i) := by
  obtain ⟨hLi, hL128⟩ := hL i hi
  obtain ⟨hCi, hC128⟩ := hC i hi
  constructor
  · rw [slt_iff_toNat_lt (by omega) (by omega), hLi, hCi]
  · rw [slt_iff_toNat_lt (by decide) (by omega), hLi]
    rfl

/-- The overlap and underlap check, where lengths and carries are below 128. -/
theorem isZero_checkContinuations {lens car : Reg n} {L C : ℕ → ℕ}
    (hL : ∀ i < n, (lane lens i).toNat = L i ∧ L i < 128)
    (hC : ∀ i < n, (lane car i).toNat = C i ∧ C i < 128) (e : Reg n) :
    IsZero (Shape.checkContinuations lens car e) ↔ IsZero e ∧ ∀ i < n, Fits L C i := by
  rw [Shape.checkContinuations, isZero_orSi]
  refine and_congr_right fun _ => ?_
  rw [isZero_iff_of_lane (p := fun i => L i < C i ↔ 0 < L i)]
  · refine forall₂_congr fun i _ => ?_
    unfold Fits
    omega
  · intro i hi
    obtain ⟨hgt, hpos⟩ := slt_lengths_carries hL hC hi
    rw [lane_cmpeqEpi8 _ _ hi, lane_cmpgtEpi8 _ _ hi, lane_cmpgtEpi8 _ _ hi, lane_setzero hi]
    simp only [hgt, hpos]
    by_cases h1 : L i < C i <;> by_cases h2 : 0 < L i <;> simp [h1, h2]

/-- The check behind `ED` and `F4` adds no error when no lane is above its bound, as a signed
byte. -/
theorem isZero_checkFirstContinuationMax (cur off1 e : Reg n) :
    IsZero (Shape.checkFirstContinuationMax cur off1 e) ↔ IsZero e ∧
      ∀ i < n, ¬ ((lane off1 i = 0xED ∧ (0x9F : Byte).slt (lane cur i)) ∨
        (lane off1 i = 0xF4 ∧ (0x8F : Byte).slt (lane cur i))) := by
  rw [Shape.checkFirstContinuationMax, isZero_orSi]
  refine and_congr_right fun _ => isZero_iff_of_lane fun i hi => ?_
  rw [lane_orSi _ _ hi, lane_andSi _ _ hi, lane_andSi _ _ hi, lane_cmpgtEpi8 _ _ hi,
    lane_cmpgtEpi8 _ _ hi, lane_cmpeqEpi8 _ _ hi, lane_cmpeqEpi8 _ _ hi,
    lane_set1Epi8 _ hi, lane_set1Epi8 _ hi, lane_set1Epi8 _ hi, lane_set1Epi8 _ hi,
    ite_and_ite, ite_and_ite, ite_or_ite]
  simp only [and_comm]

/-- The check for overlong sequences adds no error when no lane has both bytes under their
minimum. -/
theorem isZero_checkOverlong {minTable secTable : Reg n}
    (hmin : TableSpec minTable initialMinTable) (hsec : TableSpec secTable secondMinTable)
    {cur off1 off1Hi : Reg n} (hhi : ∀ i < n, lane off1Hi i = lane off1 i >>> 4)
    (e : Reg n) :
    IsZero (Shape.checkOverlong minTable secTable cur off1 off1Hi e) ↔ IsZero e ∧
      ∀ i < n, ¬ ((lane off1 i).slt (atNibble initialMinTable (lane off1 i)) ∧
        (lane cur i).slt (atNibble secondMinTable (lane off1 i))) := by
  rw [Shape.checkOverlong, isZero_orSi]
  refine and_congr_right fun _ => isZero_iff_of_lane fun i hi => ?_
  rw [lane_andSi _ _ hi, lane_cmpgtEpi8 _ _ hi, lane_cmpgtEpi8 _ _ hi,
    hmin.lookup hi (hhi i hi), hsec.lookup hi (hhi i hi), ite_and_ite]

/-! ### The four checks together -/

/-- The four checks of a version, with errors in `ε`. The last check takes the nibbles of the
delayed bytes. -/
structure Checks (n : ℕ) (ε : Type) where
  smaller : Reg n → ε → ε
  continuations : Reg n → Reg n → ε → ε
  firstMax : Reg n → Reg n → ε → ε
  overlong : Reg n → Reg n → Reg n → ε → ε

/-- What each check adds to the errors, where `clean` means no error. -/
structure ChecksSpec {ε : Type} (clean : ε → Prop) (checks : Checks n ε) : Prop where
  smaller : ∀ cur e, clean (checks.smaller cur e) ↔ clean e ∧ ∀ i < n, lane cur i ≤ 0xF4
  continuations : ∀ {lens car : Reg n} {L C : ℕ → ℕ},
    (∀ i < n, (lane lens i).toNat = L i ∧ L i < 128) →
    (∀ i < n, (lane car i).toNat = C i ∧ C i < 128) →
    ∀ e, clean (checks.continuations lens car e) ↔ clean e ∧ ∀ i < n, Fits L C i
  firstMax : ∀ cur off1 e, clean (checks.firstMax cur off1 e) ↔ clean e ∧
    ∀ i < n, ¬ ((lane off1 i = 0xED ∧ (0x9F : Byte).slt (lane cur i)) ∨
      (lane off1 i = 0xF4 ∧ (0x8F : Byte).slt (lane cur i)))
  overlong : ∀ {cur off1 off1Hi : Reg n},
    (∀ i < n, lane off1Hi i = lane off1 i >>> 4) →
    ∀ e, clean (checks.overlong cur off1 off1Hi e) ↔ clean e ∧
      ∀ i < n, ¬ ((lane off1 i).slt (atNibble initialMinTable (lane off1 i)) ∧
        (lane cur i).slt (atNibble secondMinTable (lane off1 i)))
  sticky_continuations : ∀ lens car e, clean (checks.continuations lens car e) → clean e
  sticky_overlong : ∀ cur off1 off1Hi e, clean (checks.overlong cur off1 off1Hi e) → clean e

/-- The checks of the versions that keep their errors in a register. -/
def vectorChecks (minTable secTable : Reg n) : Checks n (Reg n) where
  smaller := Shape.checkSmallerThan0xF4
  continuations := Shape.checkContinuations
  firstMax := Shape.checkFirstContinuationMax
  overlong := Shape.checkOverlong minTable secTable

/-- The four checks of the SSE and AVX2 versions, with tables of their width. -/
theorem checksSpec_vector {minTable secTable : Reg n}
    (hmin : TableSpec minTable initialMinTable) (hsec : TableSpec secTable secondMinTable) :
    ChecksSpec IsZero (vectorChecks minTable secTable) where
  smaller := isZero_checkSmallerThan0xF4
  continuations := isZero_checkContinuations
  firstMax := isZero_checkFirstContinuationMax
  overlong := isZero_checkOverlong hmin hsec
  sticky_continuations _ _ _ h := ((isZero_orSi _ _).mp h).1
  sticky_overlong _ _ _ _ h := ((isZero_orSi _ _).mp h).1

/-! ### The block step -/

section Step

variable {ε : Type} {clean : ε → Prop} {checks : Checks n ε}
  {push1 push2 : Reg n → Reg n → Reg n} {lenTable : Reg n}

/-- The body of the three block steps, for given lookbacks, length table and checks. -/
def blockStep (push1 push2 : Reg n → Reg n → Reg n) (lenTable : Reg n) (checks : Checks n ε)
    (cur : Reg n) (p : ProcessedUtfBytes n) (e : ε) : ProcessedUtfBytes n × ε :=
  let nibbles := (Shape.countNibbles cur (.zero n)).highNibbles
  let lens := shuffleEpi8 lenTable nibbles
  let car := Shape.carryContinuations push1 push2 lens p.carriedContinuations
  let off1 := push1 p.rawbytes cur
  let e := checks.smaller cur e
  let e := checks.continuations lens car e
  let e := checks.firstMax cur off1 e
  let e := checks.overlong cur off1 (push1 p.highNibbles nibbles) e
  ({ rawbytes := cur, highNibbles := nibbles, carriedContinuations := car }, e)

/-- No check clears an error. -/
theorem sticky_blockStep (hchecks : ChecksSpec clean checks) (cur : Reg n)
    (p : ProcessedUtfBytes n) (e : ε)
    (h : clean (blockStep push1 push2 lenTable checks cur p e).2) : clean e := by
  have h1 := hchecks.sticky_overlong _ _ _ _ h
  have h2 := ((hchecks.firstMax _ _ _).mp h1).1
  have h3 := hchecks.sticky_continuations _ _ _ h2
  exact ((hchecks.smaller _ _).mp h3).1

/-- The block step, lane by lane. -/
theorem blockStep_spec (hpush : Lookback push1 push2) (hlen : TableSpec lenTable lengthTable)
    (hchecks : ChecksSpec clean checks) (cur : Reg n) {p : ProcessedUtfBytes n}
    (hp : Coherent p) (e : ε) :
    StepSpec cur p (clean e)
      (clean (blockStep push1 push2 lenTable checks cur p e).2)
      (blockStep push1 push2 lenTable checks cur p e).1 := by
  have hnib := lane_countNibbles cur (ProcessedUtfBytes.zero n)
  have hlens := toNat_lookupLengths hlen cur
  have hcar := toNat_carryContinuations hpush hlens hp
  have hoff1 := hpush.one p.rawbytes cur
  have hoff1Hi : ∀ i < n, lane (push1 p.highNibbles
      (Shape.countNibbles cur (ProcessedUtfBytes.zero n)).highNibbles) i
        = lane (push1 p.rawbytes cur) i >>> 4 := by
    intro i hi
    rw [hpush.one _ _ i hi, hoff1 i hi]
    exact delay_nibble hp hnib hi
  -- Both operands of the signed comparisons are below 128.
  have hlens128 : ∀ i < n, _ ∧ lengths cur i < 128 := fun i hi =>
    ⟨hlens i hi, Nat.lt_of_le_of_lt (lengths_le cur i) (by omega)⟩
  have hcar128 : ∀ i < n, _ ∧ carries cur p i < 128 := fun i hi =>
    ⟨hcar i hi, Nat.lt_of_le_of_lt
      (carryAt_le (lengths_le cur) hp.last hp.beforeLast i).2.1 (by omega)⟩
  refine ⟨rfl, hnib, hcar, ?_⟩
  show clean (checks.overlong _ _ _ (checks.firstMax _ _ (checks.continuations _ _
    (checks.smaller _ _)))) ↔ _
  rw [hchecks.overlong hoff1Hi, hchecks.firstMax, hchecks.continuations hlens128 hcar128,
    hchecks.smaller]
  -- The three byte checks together are `PairOk` on the neighbours.
  constructor
  · rintro ⟨⟨⟨⟨he, hsmall⟩, hfits⟩, hmax⟩, hover⟩
    refine ⟨he, hfits, ?_⟩
    intro i hi
    have hmaxi := hmax i hi
    have hoveri := hover i hi
    rw [hoff1 i hi] at hmaxi hoveri
    exact ⟨hsmall i hi, hmaxi, hoveri⟩
  · rintro ⟨he, hfits, hpair⟩
    refine ⟨⟨⟨⟨he, ?_⟩, hfits⟩, ?_⟩, ?_⟩
    · intro i hi
      exact (hpair i hi).smaller
    · intro i hi
      rw [hoff1 i hi]
      exact (hpair i hi).firstMax
    · intro i hi
      rw [hoff1 i hi]
      exact (hpair i hi).overlong

/-- The block step implements `lateMachine`. -/
theorem follows_blockStep (hn : 5 ≤ n) (hpush : Lookback push1 push2)
    (hlen : TableSpec lenTable lengthTable) (hchecks : ChecksSpec clean checks) :
    Follows clean (blockStep push1 push2 lenTable checks) where
  sticky := sticky_blockStep hchecks
  reads cur _ e _ hp :=
    (blockStep_spec hpush hlen hchecks cur hp.coherent e).atBoundary hn hp

end Step

/-! ### The carry threshold -/

/-- The limits of a carry threshold: 1 in the last lane and 9 in the others. -/
def limitAt (n i : ℕ) : Byte := if i = n - 1 then 1 else 9

/-- At a boundary, the carries are under their limits exactly when nothing is owed. Only
the last lane can be over its limit. -/
theorem limits_iff (hn : 0 < n) {v : Seen} {p : ProcessedUtfBytes n} (hp : AtBoundary v p) :
    (∀ i < n, ¬ (limitAt n i).slt (lane p.carriedContinuations i)) ↔ v.need = 0 := by
  have hlast := hp.carry.last
  have hslt : ∀ i < n, (limitAt n i).slt (lane p.carriedContinuations i)
      ↔ (limitAt n i).toNat < (lane p.carriedContinuations i).toNat := by
    intro i hi
    have hsmall := hp.small i hi
    refine slt_iff_toNat_lt ?_ (by omega)
    unfold limitAt
    split <;> decide
  constructor
  · intro h
    have hover := h (n - 1) (by omega)
    rw [hslt (n - 1) (by omega), limitAt, if_pos rfl] at hover
    have hle : lastCarry p ≤ 1 := Nat.le_of_not_lt hover
    omega
  · intro hneed i hi
    rw [hslt i hi]
    by_cases hin : i = n - 1
    · -- The last carry is what is owed and one.
      subst hin
      have hle : lastCarry p ≤ 1 := by omega
      rw [limitAt, if_pos rfl]
      exact Nat.not_lt_of_le hle
    · have hsmall := hp.small i hi
      rw [limitAt, if_neg hin]
      show ¬ 9 < _
      omega

/-- A threshold that compares the carries with a register of limits. -/
theorem thresholdSpec_vector (hn : 0 < n) {limits : Reg n}
    (hlimits : ∀ i < n, lane limits i = limitAt n i) :
    ThresholdSpec IsZero fun (p : ProcessedUtfBytes n) (e : Reg n) =>
      orSi (cmpgtEpi8 p.carriedContinuations limits) e where
  sticky p e h := ((isZero_orSi _ _).mp h).2
  reads p e v hp := by
    rw [isZero_orSi, ← limits_iff hn hp, and_comm]
    refine and_congr_right fun _ => isZero_iff_of_lane fun i hi => ?_
    rw [lane_cmpgtEpi8 _ _ hi, hlimits i hi]

end FastValidate.Proofs
