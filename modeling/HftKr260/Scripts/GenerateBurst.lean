import HftKr260.Rtl.EngineFeed

/-!
# demo.py: the message buffer

`struct.pack`, the message builders and `generate_burst` of the demo. Python integers do not
wrap: packing a number out of range raises, which is `none` here, and so do a choice from an
empty list and the deletion of a key that is not there. `random.Random` is any generator that
keeps the ranges of its draws.

## Main results

* `buildAdd_eq_some_iff` — when a builder returns, and what: the network encoding
-/

set_option autoImplicit false

namespace HftKr260

namespace Demo

open Foundation

/-! ### Packing -/

/-- `struct.pack('>Q', v)`. -/
def packQ (v : ℤ) : Option (List Byte) :=
  if 0 ≤ v ∧ v < 2 ^ 64 then some (beBytes 8 (BitVec.ofInt 64 v)) else none

/-- `struct.pack('>I', v)`. -/
def packI (v : ℤ) : Option (List Byte) :=
  if 0 ≤ v ∧ v < 2 ^ 32 then some (beBytes 4 (BitVec.ofInt 32 v)) else none

/-- `struct.pack('>q', v)`. -/
def packSignedQ (v : ℤ) : Option (List Byte) :=
  if -2 ^ 63 ≤ v ∧ v < 2 ^ 63 then some (beBytes 8 (BitVec.ofInt 64 v)) else none

/-- The byte of a side, `'B'` or `'S'`. -/
def sideByte (side : Side) : Byte := if side = .bid then 0x42 else 0x53

def buildAdd (ts ref : ℤ) (side : Side) (qty priceTicks : ℤ) : Option (List Byte) := do
  let tsBytes ← packQ ts
  let refBytes ← packQ ref
  let qtyBytes ← packI qty
  let priceBytes ← packSignedQ priceTicks
  some ([0x41] ++ tsBytes ++ refBytes ++ [sideByte side] ++ qtyBytes ++ priceBytes)

def buildDelete (ts ref : ℤ) : Option (List Byte) := do
  let tsBytes ← packQ ts
  let refBytes ← packQ ref
  some ([0x44] ++ tsBytes ++ refBytes)

def buildExecute (ts ref execQty : ℤ) : Option (List Byte) := do
  let tsBytes ← packQ ts
  let refBytes ← packQ ref
  let qtyBytes ← packI execQty
  some ([0x45] ++ tsBytes ++ refBytes ++ qtyBytes)

/-- The Add the arguments of `build_add` name. -/
def addOf (ts ref : ℤ) (side : Side) (qty priceTicks : ℤ) : MsgAddOrder where
  timestampNs := BitVec.ofInt 64 ts
  orderRef := BitVec.ofInt 64 ref
  side := sideByte side
  quantity := BitVec.ofInt 32 qty
  price := BitVec.ofInt 64 priceTicks

def deleteOf (ts ref : ℤ) : MsgDeleteOrder where
  timestampNs := BitVec.ofInt 64 ts
  orderRef := BitVec.ofInt 64 ref

def executeOf (ts ref execQty : ℤ) : MsgExecute where
  timestampNs := BitVec.ofInt 64 ts
  orderRef := BitVec.ofInt 64 ref
  executedQty := BitVec.ofInt 32 execQty

section Builders

variable {ts ref qty price : ℤ} {side : Side} {bytes : List Byte}

/-- A number fits an unsigned field. -/
def Fits (w : ℕ) (v : ℤ) : Prop := 0 ≤ v ∧ v < 2 ^ w

theorem packQ_eq_some_iff :
    packQ ts = some bytes ↔ Fits 64 ts ∧ bytes = beBytes 8 (BitVec.ofInt 64 ts) := by
  rw [packQ, Option.ite_none_right_eq_some, Option.some.injEq, eq_comm (b := bytes)]
  rfl

theorem packI_eq_some_iff :
    packI qty = some bytes ↔ Fits 32 qty ∧ bytes = beBytes 4 (BitVec.ofInt 32 qty) := by
  rw [packI, Option.ite_none_right_eq_some, Option.some.injEq, eq_comm (b := bytes)]
  rfl

theorem packSignedQ_eq_some_iff :
    packSignedQ price = some bytes ↔
      (-2 ^ 63 ≤ price ∧ price < 2 ^ 63) ∧ bytes = beBytes 8 (BitVec.ofInt 64 price) := by
  rw [packSignedQ, Option.ite_none_right_eq_some, Option.some.injEq, eq_comm (b := bytes)]

/-- `build_add` returns exactly if every field fits, and then the encoding of the Add. -/
theorem buildAdd_eq_some_iff :
    buildAdd ts ref side qty price = some bytes ↔
      (Fits 64 ts ∧ Fits 64 ref ∧ Fits 32 qty ∧ -2 ^ 63 ≤ price ∧ price < 2 ^ 63) ∧
        bytes = (Msg.add (addOf ts ref side qty price)).encode := by
  simp only [buildAdd, Option.bind_eq_bind, Option.bind_eq_some_iff, packQ_eq_some_iff,
    packI_eq_some_iff, packSignedQ_eq_some_iff, Option.some.injEq]
  constructor
  · rintro ⟨_, ⟨hts, rfl⟩, _, ⟨href, rfl⟩, _, ⟨hqty, rfl⟩, _, ⟨hprice, rfl⟩, rfl⟩
    exact ⟨⟨hts, href, hqty, hprice⟩, rfl⟩
  · rintro ⟨⟨hts, href, hqty, hprice⟩, rfl⟩
    exact ⟨_, ⟨hts, rfl⟩, _, ⟨href, rfl⟩, _, ⟨hqty, rfl⟩, _, ⟨hprice, rfl⟩, rfl⟩

theorem buildDelete_eq_some_iff :
    buildDelete ts ref = some bytes ↔
      (Fits 64 ts ∧ Fits 64 ref) ∧ bytes = (Msg.delete (deleteOf ts ref)).encode := by
  simp only [buildDelete, Option.bind_eq_bind, Option.bind_eq_some_iff, packQ_eq_some_iff,
    Option.some.injEq]
  constructor
  · rintro ⟨_, ⟨hts, rfl⟩, _, ⟨href, rfl⟩, rfl⟩
    exact ⟨⟨hts, href⟩, rfl⟩
  · rintro ⟨⟨hts, href⟩, rfl⟩
    exact ⟨_, ⟨hts, rfl⟩, _, ⟨href, rfl⟩, rfl⟩

theorem buildExecute_eq_some_iff :
    buildExecute ts ref qty = some bytes ↔
      (Fits 64 ts ∧ Fits 64 ref ∧ Fits 32 qty) ∧
        bytes = (Msg.execute (executeOf ts ref qty)).encode := by
  simp only [buildExecute, Option.bind_eq_bind, Option.bind_eq_some_iff, packQ_eq_some_iff,
    packI_eq_some_iff, Option.some.injEq]
  constructor
  · rintro ⟨_, ⟨hts, rfl⟩, _, ⟨href, rfl⟩, _, ⟨hqty, rfl⟩, rfl⟩
    exact ⟨⟨hts, href, hqty⟩, rfl⟩
  · rintro ⟨⟨hts, href, hqty⟩, rfl⟩
    exact ⟨_, ⟨hts, rfl⟩, _, ⟨href, rfl⟩, _, ⟨hqty, rfl⟩, rfl⟩

/-- What is packed is not changed. -/
theorem toNat_ofInt_of_fits {w : ℕ} {v : ℤ} (h : Fits w v) :
    ((BitVec.ofInt w v).toNat : ℤ) = v := by
  rw [BitVec.toNat_ofInt, Int.toNat_of_nonneg (Int.emod_nonneg _ (by positivity))]
  exact Int.emod_eq_of_lt h.1 (by exact_mod_cast h.2)

end Builders

/-! ### Randomness -/

/-- `random.Random` in state `σ`. `random()` counts units of `2 ^ -53`; `randbelow` is the index
that `choice` draws. -/
structure Random (σ : Type) where
  randint : ℤ → ℤ → σ → ℤ × σ
  random : σ → ℕ × σ
  randbelow : ℕ → σ → ℕ × σ
  randint_mem : ∀ {a b : ℤ} (s : σ), a ≤ b → a ≤ (randint a b s).1 ∧ (randint a b s).1 ≤ b
  random_lt : ∀ s : σ, (random s).1 < 2 ^ 53
  randbelow_lt : ∀ {n : ℕ} (s : σ), 0 < n → (randbelow n s).1 < n

/-- The literals `0.6` and `0.5` in the units of `random()`. -/
def sixTenths : ℕ := 5404319552844595
def oneHalf : ℕ := 2 ^ 52

section Generator

variable {σ : Type} (R : Random σ)

/-- `choice` raises on an empty sequence. -/
def Random.choice {α : Type} (seq : List α) (s : σ) : Option (α × σ) :=
  (seq[(R.randbelow seq.length s).1]?).map fun x => (x, (R.randbelow seq.length s).2)

theorem Random.choice_mem {α : Type} {seq : List α} {s s' : σ} {x : α}
    (h : R.choice seq s = some (x, s')) : x ∈ seq := by
  obtain ⟨y, hy, heq⟩ := Option.map_eq_some_iff.mp h
  obtain ⟨rfl, -⟩ := Prod.mk.inj heq
  exact List.mem_of_getElem? hy

theorem Random.exists_choice {α : Type} {l : List α} (hne : l ≠ []) (s : σ) :
    ∃ x s', R.choice l s = some (x, s') := by
  have hlt := R.randbelow_lt s (List.length_pos_iff.mpr hne)
  rw [Random.choice, List.getElem?_eq_getElem hlt]
  exact ⟨_, _, rfl⟩

/-! ### generate_burst -/

/-- `active_refs`, in the order of insertion. -/
abbrev ActiveRefs := List (ℤ × Side × ℤ)

/-- `d[key] = value`: a new key goes to the end. -/
def setItem (d : ActiveRefs) (key : ℤ) (value : Side × ℤ) : ActiveRefs :=
  -- a key that is there keeps its place
  if key ∈ d.map Prod.fst then d.map fun e => if e.1 = key then (key, value) else e
  else d ++ [(key, value)]

/-- `del d[key]`. -/
def delItem (d : ActiveRefs) (key : ℤ) : Option ActiveRefs :=
  if key ∈ d.map Prod.fst then some (d.eraseP fun e => e.1 = key) else none

/-- The local variables of the loop. -/
structure BurstState (σ : Type) where
  rng : σ
  ts : ℤ := 34200000000000
  activeRefs : ActiveRefs := []
  refCounter : ℤ := 1
  buf : List Byte := []

/-- The price of a new order, next to `base`. -/
def Random.quote (side : Side) (rng : σ) : ℤ × σ :=
  let base := 10000
  match side with
  | .bid => (base - (R.randint 0 20 rng).1, (R.randint 0 20 rng).2)
  | .ask => (base + (R.randint 1 20 rng).1, (R.randint 1 20 rng).2)

namespace BurstState

variable (s : BurstState σ)

/-- Add a new order. -/
def emitAdd : Option (BurstState σ) := do
  let (x, rng) := R.random s.rng
  let side := if x < oneHalf then Side.bid else .ask
  -- prices cluster next to the base
  let (price, rng) := R.quote side rng
  let (qty, rng) ← R.choice [100, 200, 300, 500] rng
  let msg ← buildAdd s.ts s.refCounter side qty price
  some
    { rng := rng
      ts := s.ts
      activeRefs := setItem s.activeRefs s.refCounter (side, price)
      refCounter := s.refCounter + 1
      buf := s.buf ++ msg }

/-- Execute part of an existing order. -/
def emitExecute : Option (BurstState σ) := do
  let (ref, rng) ← R.choice (s.activeRefs.map Prod.fst) s.rng
  let (execQty, rng) ← R.choice [100, 200] rng
  let msg ← buildExecute s.ts ref execQty
  some { s with rng := rng, buf := s.buf ++ msg }

/-- Delete an existing order. -/
def emitDelete : Option (BurstState σ) := do
  let (ref, rng) ← R.choice (s.activeRefs.map Prod.fst) s.rng
  let activeRefs ← delItem s.activeRefs ref
  let msg ← buildDelete s.ts ref
  some { s with rng := rng, activeRefs := activeRefs, buf := s.buf ++ msg }

/-- `len(active_refs) < 20 or rng.random() < 0.6`. -/
def decidesAdd : Bool × σ :=
  if s.activeRefs.length < 20 then (true, s.rng)
  else (decide ((R.random s.rng).1 < sixTenths), (R.random s.rng).2)

/-- `rng.random() < 0.5 and active_refs`, then `active_refs`. -/
def emitOther : Option (BurstState σ) :=
  let (x, rng) := R.random s.rng
  if x < oneHalf ∧ s.activeRefs ≠ [] then { s with rng := rng }.emitExecute R
  else if s.activeRefs ≠ [] then { s with rng := rng }.emitDelete R
  else some { s with rng := rng }

/-- The realistic inter-message gap. -/
def advance : BurstState σ :=
  let (gap, rng) := R.randint 100 10000 s.rng
  { s with ts := s.ts + gap, rng := rng }

/-- The body of the loop. -/
def step : Option (BurstState σ) :=
  let (adds, rng) := (s.advance R).decidesAdd R
  if adds then { s.advance R with rng := rng }.emitAdd R
  else { s.advance R with rng := rng }.emitOther R

end BurstState

/-- The local variables after some rounds of the loop. -/
def burstLoop (seeded : σ) : ℕ → Option (BurstState σ)
  | 0 => some { rng := seeded }
  | n + 1 => (burstLoop seeded n).bind (BurstState.step R)

/-- `generate_burst`; `seeded` is the state of `random.Random(seed)`. -/
def generateBurst (seeded : σ) (nMessages : ℕ) : Option (List Byte) :=
  (burstLoop R seeded nMessages).map BurstState.buf

end Generator

end Demo

end HftKr260
