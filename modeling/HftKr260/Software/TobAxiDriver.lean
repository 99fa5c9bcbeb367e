import HftKr260.Foundation.SharedReads
import HftKr260.Rtl.TobAxiLite
import HftKr260.Software.OrderBook

/-!
# tob_axi_driver.hpp

`TobAxiDriver::read_tob` reads the top of book one 32-bit register at a time, between two
reads of the clear-on-read `TOB_CHANGED`. If the second one reports a change it starts over,
but only once: what the second pass has read is returned whatever its check says.

The device answers with the register map of `tob_axi_lite`. An update replaces the prices and
quantities and sets the latch.

## Main results

* `readTobLoop_consistent` — a pass without updates between its reads returns one moment
* `read_tob_consistent_iff` — the schedules of updates under which the result is one moment
-/

set_option autoImplicit false

namespace HftKr260

open Foundation

/-! ### The device -/

/-- The registers an update replaces. -/
structure TobRegisters where
  bidPrice : BitVec 64
  bidQty : BitVec 32
  askPrice : BitVec 64
  askQty : BitVec 32
  deriving DecidableEq, Repr

/-- What the reads depend on. -/
structure TobDevice where
  status : TobStatus
  tobChangedLatch : Bool
  parseErrorLatch : Bool
  deriving DecidableEq, Repr

namespace TobDevice

/-- A read of one register: the register map, and the clear of `TOB_CHANGED`. -/
def respond (d : TobDevice) (offset : BitVec 6) : BitVec 32 × TobDevice :=
  (TobAxiLite.readData d.tobChangedLatch d.parseErrorLatch d.status offset,
    if offset = TobAxiLite.regTobChanged then { d with tobChangedLatch := false } else d)

def update (d : TobDevice) (u : TobRegisters) : TobDevice where
  status := { d.status with
    bestBidPrice := u.bidPrice
    bestBidQty := u.bidQty
    bestAskPrice := u.askPrice
    bestAskQty := u.askQty }
  tobChangedLatch := true
  parseErrorLatch := d.parseErrorLatch

/-- A read accepted by `tob_axi_lite` at an edge without an event is a read of the device. -/
theorem respond_of_takesRead (s : TobAxiLite) (i : AxiLiteIn) (h : s.takesRead i = true)
    (hevent : i.status.tobChanged = false) :
    (s.next i).rdata =
        ((TobDevice.mk i.status s.tobChangedLatch s.parseErrorLatch).respond i.araddr).1 ∧
      (s.next i).tobChangedLatch =
        ((TobDevice.mk i.status s.tobChangedLatch s.parseErrorLatch).respond
          i.araddr).2.tobChangedLatch := by
  refine ⟨?_, ?_⟩
  · rw [TobAxiLite.next, h]
    rfl
  · rw [TobAxiLite.next, TobAxiLite.readTobChanged, h, respond, hevent]
    by_cases haddr : i.araddr = TobAxiLite.regTobChanged <;> simp [haddr]

/-- The top of book the register file holds. -/
def tob (d : TobDevice) : TopOfBook where
  bid := { price := d.status.bestBidPrice.toInt, quantity := d.status.bestBidQty.toNat }
  ask := { price := d.status.bestAskPrice.toInt, quantity := d.status.bestAskQty.toNat }

end TobDevice

/-! ### The driver -/

abbrev RegProgram : Type → Type := ReadProgram (BitVec 6) (BitVec 32)

namespace TobAxiDriver

def readReg (offset : BitVec 6) : RegProgram (BitVec 32) := .request offset .done

def tobChangedAndClear : RegProgram Bool := do
  let value ← readReg TobAxiLite.regTobChanged
  pure (value.getLsbD 0)

/-- `static_cast<Price>((hi << 32) | lo)`. -/
def joinPrice (lo hi : BitVec 32) : ℤ := (hi.setWidth 64 <<< 32 ||| lo.setWidth 64).toInt

/-- The body of the loop: the check at its end, and the values. -/
def readTobPass : RegProgram (Bool × TopOfBook) := do
  let _ ← tobChangedAndClear
  let bidLo ← readReg TobAxiLite.regBidPriceLo
  let bidHi ← readReg TobAxiLite.regBidPriceHi
  let bidQty ← readReg TobAxiLite.regBidQty
  let askLo ← readReg TobAxiLite.regAskPriceLo
  let askHi ← readReg TobAxiLite.regAskPriceHi
  let askQty ← readReg TobAxiLite.regAskQty
  let changed ← tobChangedAndClear
  pure (changed,
    { bid := { price := joinPrice bidLo bidHi, quantity := bidQty.toNat }
      ask := { price := joinPrice askLo askHi, quantity := askQty.toNat } })

/-- The loop, with the retries that are left. -/
def readTobLoop : ℕ → RegProgram TopOfBook
  | 0 => do
      -- `retries++ < 1` fails: the values are taken, changed or not
      let pass ← readTobPass
      pure pass.2
  | left + 1 => do
      let pass ← readTobPass
      if pass.1 then readTobLoop left else pure pass.2

def readTob : RegProgram TopOfBook := readTobLoop 1

/-! ### One pass -/

theorem joinPrice_halves (p : BitVec 64) :
    joinPrice (p.extractLsb 31 0) (p.extractLsb 63 32) = p.toInt := by
  have hjoin : (p.extractLsb 63 32).setWidth 64 <<< 32 ||| (p.extractLsb 31 0).setWidth 64 = p := by
    ext i hi
    rcases Nat.lt_or_ge i 32 with hlt | hge
    · simp [hlt, BitVec.getLsbD_eq_getElem hi]
    · simp [Nat.not_lt.mpr hge, Nat.le_of_lt_succ hi, Nat.not_le.mpr hge,
        Nat.add_sub_cancel' hge, BitVec.getLsbD_eq_getElem hi]
  rw [joinPrice, hjoin]

section Pass

variable (gaps : ℕ → List TobRegisters)

/-- A run of the driver under a schedule. -/
def exec {α : Type} (p : RegProgram α) (i : ℕ) (d : TobDevice) : ReadProgram.Outcome TobDevice α :=
  p.exec TobDevice.respond TobDevice.update gaps i d

/-- The device as a pass that starts with read `k` finds it at its read `k + i`. -/
def found (k : ℕ) (d : TobDevice) : ℕ → TobDevice
  | 0 => (gaps k).foldl TobDevice.update d
  | 1 => (gaps (k + 1)).foldl TobDevice.update { found k d 0 with tobChangedLatch := false }
  | i + 2 => (gaps (k + (i + 2))).foldl TobDevice.update (found k d (i + 1))

/-- What the check of a pass reads. -/
theorem getLsbD_latch (latch : Bool) : (0#31 ++ BitVec.ofBool latch).getLsbD 0 = latch := by
  cases latch <;> rfl

/-- The top of book put together from six devices. -/
def assembled (found : ℕ → TobDevice) : TopOfBook where
  bid := {
    price := joinPrice ((found 1).status.bestBidPrice.extractLsb 31 0)
      ((found 2).status.bestBidPrice.extractLsb 63 32)
    quantity := (found 3).status.bestBidQty.toNat }
  ask := {
    price := joinPrice ((found 4).status.bestAskPrice.extractLsb 31 0)
      ((found 5).status.bestAskPrice.extractLsb 63 32)
    quantity := (found 6).status.bestAskQty.toNat }

theorem exec_readTobPass_value (k : ℕ) (d : TobDevice) :
    (exec gaps readTobPass k d).value =
      ((found gaps k d 7).tobChangedLatch, assembled (found gaps k d)) := by
  rw [← getLsbD_latch (found gaps k d 7).tobChangedLatch]
  rfl

theorem found_mem_seen (k : ℕ) (d : TobDevice) :
    found gaps k d 1 ∈ (exec gaps readTobPass k d).seen := by
  have hscan : found gaps k d 1 ∈ (gaps (k + 1)).scanl TobDevice.update
      { found gaps k d 0 with tobChangedLatch := false } :=
    ReadProgram.foldl_mem_scanl _ _
  exact List.mem_append_right _ (List.mem_append_left _ hscan)

theorem found_succ (k : ℕ) (d : TobDevice) (i : ℕ) :
    found gaps k d (i + 2) =
      (gaps (k + (i + 2))).foldl TobDevice.update (found gaps k d (i + 1)) := rfl

/-- Without updates in between, two reads find the same device. -/
theorem found_of_calm (k : ℕ) (d : TobDevice) (i : ℕ)
    (hcalm : ∀ b, 1 ≤ b → b ≤ i → gaps (k + (b + 1)) = []) :
    found gaps k d (i + 1) = found gaps k d 1 := by
  induction i with
  | zero => rfl
  | succ i ih =>
    rw [found_succ, hcalm (i + 1) (Nat.le_add_left 1 i) (Nat.le_refl _)]
    exact ih fun b hb hbi => hcalm b hb (Nat.le_succ_of_le hbi)

/-- Six reads of the same device give its top of book. -/
theorem assembled_of_same {f : ℕ → TobDevice} {d : TobDevice}
    (h : ∀ i, i < 6 → f (i + 1) = d) : assembled f = d.tob := by
  rw [assembled, h 0 (by decide), h 1 (by decide), h 2 (by decide), h 3 (by decide),
    h 4 (by decide), h 5 (by decide), joinPrice_halves, joinPrice_halves]
  rfl

theorem foldl_update_latch (us : List TobRegisters) (d : TobDevice) :
    (us.foldl TobDevice.update d).tobChangedLatch = (d.tobChangedLatch || !us.isEmpty) := by
  induction us generalizing d with
  | nil => simp
  | cons u us ih => simp [ih, TobDevice.update]

/-- The latch is set by the updates since the pass cleared it. -/
theorem found_latch (k : ℕ) (d : TobDevice) (i : ℕ) :
    (found gaps k d (i + 1)).tobChangedLatch = true ↔
      ∃ b, 1 ≤ b ∧ b ≤ i + 1 ∧ gaps (k + b) ≠ [] := by
  induction i with
  | zero =>
    rw [found, foldl_update_latch, Bool.false_or, Bool.not_eq_true', List.isEmpty_eq_false_iff]
    constructor
    · exact fun h => ⟨1, Nat.le_refl 1, Nat.le_refl 1, h⟩
    · rintro ⟨b, hb, hb1, h⟩
      rwa [Nat.le_antisymm hb1 hb] at h
  | succ i ih =>
    rw [found_succ, foldl_update_latch, Bool.or_eq_true, ih, Bool.not_eq_true',
      List.isEmpty_eq_false_iff]
    constructor
    · rintro (⟨b, hb, hbi, h⟩ | h)
      · exact ⟨b, hb, Nat.le_succ_of_le hbi, h⟩
      · exact ⟨i + 2, Nat.le_add_left 1 _, Nat.le_refl _, h⟩
    · rintro ⟨b, hb, hbi, h⟩
      rcases Nat.lt_or_ge b (i + 2) with hlt | hge
      · exact .inl ⟨b, hb, Nat.le_of_lt_succ hlt, h⟩
      · rw [Nat.le_antisymm hbi hge] at h
        exact .inr h

/-- A pass without updates between its value reads returns a moment of its own. -/
theorem pass_of_calm (k : ℕ) (d : TobDevice)
    (hcalm : ∀ b, 2 ≤ b → b ≤ 6 → gaps (k + b) = []) :
    (exec gaps readTobPass k d).value.2 ∈
      (exec gaps readTobPass k d).seen.map TobDevice.tob := by
  have hsame : assembled (found gaps k d) = (found gaps k d 1).tob :=
    assembled_of_same fun i hi => found_of_calm gaps k d i fun b hb hbi =>
      hcalm (b + 1) (Nat.succ_le_succ hb) (by omega)
  rw [exec_readTobPass_value, hsame]
  exact List.mem_map_of_mem (found_mem_seen gaps k d)

end Pass

/-! ### The loop -/

/-- Some update lands before one of the reads `a` to `b`, when `n i` land before read `i`. -/
def Disturbed (n : ℕ → ℕ) (a b : ℕ) : Prop := ∃ i, a ≤ i ∧ i ≤ b ∧ n i ≠ 0

/-- From read `k` on, some pass that returns is calm: one between its first and last read, or
the last one between its value reads. -/
def Settles (n : ℕ → ℕ) : ℕ → ℕ → Prop
  | 0, k => ¬Disturbed n (k + 2) (k + 6)
  | left + 1, k => ¬Disturbed n (k + 1) (k + 7) ∨ Settles n left (k + 8)

section Loop

variable {gaps : ℕ → List TobRegisters}

theorem exec_readTobLoop_zero (k : ℕ) (d : TobDevice) :
    exec gaps (readTobLoop 0) k d =
      { exec gaps readTobPass k d with value := (exec gaps readTobPass k d).value.2 } := by
  rw [readTobLoop, exec, ReadProgram.exec_bind]
  simp only [ReadProgram.exec_pure, List.append_nil]
  rfl

/-- A pass that has seen no change ends the loop. -/
theorem exec_readTobLoop_done (left k : ℕ) (d : TobDevice)
    (h : (exec gaps readTobPass k d).value.1 = false) :
    exec gaps (readTobLoop (left + 1)) k d =
      { exec gaps readTobPass k d with value := (exec gaps readTobPass k d).value.2 } := by
  rw [exec] at h
  rw [readTobLoop, exec, ReadProgram.exec_bind]
  simp only [h, Bool.false_eq_true, if_false, ReadProgram.exec_pure, List.append_nil]
  rfl

/-- A pass that has seen a change is followed by another. -/
theorem exec_readTobLoop_again (left k : ℕ) (d : TobDevice)
    (h : (exec gaps readTobPass k d).value.1 = true) :
    exec gaps (readTobLoop (left + 1)) k d =
      let next := exec gaps (readTobLoop left) (k + 8) (exec gaps readTobPass k d).state
      { next with seen := (exec gaps readTobPass k d).seen ++ next.seen } := by
  rw [exec] at h
  rw [readTobLoop, exec, ReadProgram.exec_bind]
  simp only [h, if_true]
  rfl

variable {n : ℕ → ℕ}

theorem gap_eq_nil (hn : ∀ i, (gaps i).length = n i) {a b : ℕ} (h : ¬Disturbed n a b) {i : ℕ}
    (hai : a ≤ i) (hib : i ≤ b) : gaps i = [] := by
  refine List.eq_nil_of_length_eq_zero ((hn i).trans ?_)
  by_contra hne
  exact h ⟨i, hai, hib, hne⟩

/-- The check of a pass reports the updates since the pass cleared the latch. -/
theorem changed_iff (hn : ∀ i, (gaps i).length = n i) (k : ℕ) (d : TobDevice) :
    (exec gaps readTobPass k d).value.1 = true ↔ Disturbed n (k + 1) (k + 7) := by
  rw [exec_readTobPass_value, found_latch]
  constructor
  · rintro ⟨b, hb, hb7, h⟩
    refine ⟨k + b, by omega, by omega, ?_⟩
    rw [← hn]
    exact fun hlen => h (List.eq_nil_of_length_eq_zero hlen)
  · rintro ⟨i, hki, hi, h⟩
    refine ⟨i - k, by omega, by omega, fun hnil => ?_⟩
    rw [Nat.add_sub_cancel' (by omega)] at hnil
    rw [← hn, hnil] at h
    exact h rfl

/-- **A loop that settles** returns one moment, whatever the updates write. -/
theorem readTobLoop_consistent (hn : ∀ i, (gaps i).length = n i) (left k : ℕ) (d : TobDevice)
    (h : Settles n left k) :
    (exec gaps (readTobLoop left) k d).value ∈
      (exec gaps (readTobLoop left) k d).seen.map TobDevice.tob := by
  induction left generalizing k d with
  | zero =>
    rw [exec_readTobLoop_zero]
    exact pass_of_calm gaps k d fun b hb hb6 => gap_eq_nil hn h (by omega) (by omega)
  | succ left ih =>
    cases hchanged : (exec gaps readTobPass k d).value.1 with
    | false =>
      have hcalm : ¬Disturbed n (k + 1) (k + 7) := by
        rw [← changed_iff hn k d, hchanged]
        exact Bool.false_ne_true
      rw [exec_readTobLoop_done left k d hchanged]
      exact pass_of_calm gaps k d fun b hb hb6 => gap_eq_nil hn hcalm (by omega) (by omega)
    | true =>
      have hlater : Settles n left (k + 8) :=
        h.resolve_left fun hcalm => hcalm ((changed_iff hn k d).mp hchanged)
      rw [exec_readTobLoop_again left k d hchanged, List.map_append]
      exact List.mem_append_right _ (ih (k + 8) _ hlater)

end Loop

/-! ### Torn results -/

/-- The device shows these registers. -/
structure Shows (u : TobRegisters) (d : TobDevice) : Prop where
  bidPrice : d.status.bestBidPrice = u.bidPrice
  bidQty : d.status.bestBidQty = u.bidQty
  askPrice : d.status.bestAskPrice = u.askPrice
  askQty : d.status.bestAskQty = u.askQty

namespace Shows

variable {u : TobRegisters} {d : TobDevice}

theorem update (d : TobDevice) (u : TobRegisters) : Shows u (d.update u) := ⟨rfl, rfl, rfl, rfl⟩

theorem respond (h : Shows u d) (offset : BitVec 6) : Shows u (d.respond offset).2 := by
  rw [TobDevice.respond]
  split_ifs
  · exact ⟨h.bidPrice, h.bidQty, h.askPrice, h.askQty⟩
  · exact h

theorem clear (h : Shows u d) : Shows u { d with tobChangedLatch := false } :=
  ⟨h.bidPrice, h.bidQty, h.askPrice, h.askQty⟩

/-- Updates with the registers already shown change nothing. -/
theorem foldl_same (h : Shows u d) (m : ℕ) :
    Shows u ((List.replicate m u).foldl TobDevice.update d) := by
  refine ReadProgram.foldl_invariant (fun s v hv _ => ?_) h
  rw [List.eq_of_mem_replicate hv]
  exact update s u

/-- After some updates with the same registers, these are shown. -/
theorem foldl_new (d : TobDevice) {m : ℕ} (hm : m ≠ 0) :
    Shows u ((List.replicate m u).foldl TobDevice.update d) := by
  obtain ⟨m, rfl⟩ := Nat.exists_eq_succ_of_ne_zero hm
  rw [List.replicate_succ, List.foldl_cons]
  exact (update d u).foldl_same m

end Shows

def early : TobRegisters := ⟨0, 0, 0, 0⟩
def late : TobRegisters := ⟨1, 0, 0, 1⟩

/-- `n i` updates before read `i`, all early before read `j` and late from there on. -/
def lateFrom (j : ℕ) (n : ℕ → ℕ) (i : ℕ) : List TobRegisters :=
  List.replicate (n i) (if i < j then early else late)

section Torn

variable {n : ℕ → ℕ} {j k : ℕ} {d : TobDevice}

theorem lateFrom_early {i : ℕ} (h : i < j) : lateFrom j n i = List.replicate (n i) early := by
  rw [lateFrom, if_pos h]

theorem lateFrom_late {i : ℕ} (h : j ≤ i) : lateFrom j n i = List.replicate (n i) late := by
  rw [lateFrom, if_neg (Nat.not_lt.mpr h)]

/-- Before read `j` the device is the early one. -/
theorem found_early (hd : Shows early d) (i : ℕ) (hi : k + i < j) :
    Shows early (found (lateFrom j n) k d i) := by
  induction i with
  | zero =>
    rw [found, lateFrom_early (by omega)]
    exact hd.foldl_same _
  | succ i ih =>
    have hbefore := ih (by omega)
    cases i with
    | zero =>
      rw [found, lateFrom_early hi]
      exact hbefore.clear.foldl_same _
    | succ i =>
      rw [found_succ, lateFrom_early hi]
      exact hbefore.foldl_same _

/-- From an update before read `j` on the device is the late one. -/
theorem found_late (hn : n j ≠ 0) (hj : k + 2 ≤ j) (i : ℕ) (hi : j ≤ k + (i + 2)) :
    Shows late (found (lateFrom j n) k d (i + 2)) := by
  induction i with
  | zero =>
    obtain rfl : j = k + 2 := Nat.le_antisymm hi hj
    rw [found_succ, lateFrom_late (Nat.le_refl _)]
    exact Shows.foldl_new _ hn
  | succ i ih =>
    rw [found_succ, lateFrom_late hi]
    rcases Nat.lt_or_ge (k + (i + 2)) j with hlt | hge
    · obtain rfl : j = k + (i + 1 + 2) := by omega
      exact Shows.foldl_new _ hn
    · exact (ih hge).foldl_same _

/-- A bid price of the early registers with an ask quantity of the late ones. -/
def Mixed (t : TopOfBook) : Prop := t.bid.price = 0 ∧ t.ask.quantity = 1

/-- A pass with an update between its value reads. -/
theorem pass_torn (hn : n j ≠ 0) (hj : k + 2 ≤ j) (hj6 : j ≤ k + 6) (hd : Shows early d) :
    Mixed (exec (lateFrom j n) readTobPass k d).value.2 := by
  have hlo := (found_early (n := n) (j := j) (k := k) hd 1 (by omega)).bidPrice
  have hhi : (found (lateFrom j n) k d 2).status.bestBidPrice.extractLsb 63 32 = 0 := by
    rcases Nat.lt_or_ge (k + 2) j with hlt | hge
    · rw [(found_early (n := n) hd 2 hlt).bidPrice]
      rfl
    · rw [(found_late (d := d) hn hj 0 hge).bidPrice]
      rfl
  have hqty := (found_late (d := d) hn hj 4 hj6).askQty
  have hprice : joinPrice (early.bidPrice.extractLsb 31 0) 0 = 0 := by decide
  rw [exec_readTobPass_value, Mixed, assembled, hlo, hhi, hqty]
  exact ⟨hprice, rfl⟩

/-- A loop that does not settle can return a mixture. -/
theorem readTobLoop_torn (left k : ℕ) (h : ¬Settles n left k) :
    ∃ j, k + 8 * left + 2 ≤ j ∧ ∀ d, Shows early d →
      Mixed (exec (lateFrom j n) (readTobLoop left) k d).value := by
  induction left generalizing k with
  | zero =>
    obtain ⟨j, hj, hj6, hn⟩ := not_not.mp h
    refine ⟨j, by omega, fun d hd => ?_⟩
    rw [exec_readTobLoop_zero]
    exact pass_torn hn hj hj6 hd
  | succ left ih =>
    obtain ⟨hdisturbed, hlater⟩ := not_or.mp h
    obtain ⟨j, hj, htorn⟩ := ih (k + 8) hlater
    refine ⟨j, by omega, fun d hd => ?_⟩
    have hlength : ∀ i, (lateFrom j n i).length = n i := fun i => List.length_replicate
    have hchanged := (changed_iff hlength k d).mpr (not_not.mp hdisturbed)
    rw [exec_readTobLoop_again left k d hchanged]
    exact htorn _ (found_early hd 7 (by omega)).clear

end Torn

/-! ### The call -/

/-- The result of a call is a top of book the register file held between its start and its
return. -/
def OneMoment (gaps : ℕ → List TobRegisters) (d : TobDevice) : Prop :=
  let call := exec gaps readTob 0 d
  -- the states seen on the way, and those between the last read and the return
  call.value ∈
    (call.seen ++ (gaps call.count).scanl TobDevice.update call.state).map TobDevice.tob

instance (gaps : ℕ → List TobRegisters) (d : TobDevice) : Decidable (OneMoment gaps d) :=
  inferInstanceAs (Decidable (_ ∈ _))

/-- A mixture is no moment of a device that is early or late throughout. -/
theorem not_oneMoment_of_mixed {n : ℕ → ℕ} {j : ℕ} {d : TobDevice} (hd : Shows early d)
    (h : Mixed (exec (lateFrom j n) readTob 0 d).value) : ¬OneMoment (lateFrom j n) d := by
  have hupdate : ∀ i s, ∀ u ∈ lateFrom j n i, Shows early s ∨ Shows late s →
      Shows early (TobDevice.update s u) ∨ Shows late (TobDevice.update s u) := by
    intro i s u hu _
    rw [List.eq_of_mem_replicate hu]
    split_ifs
    · exact .inl (Shows.update s _)
    · exact .inr (Shows.update s _)
  have hrespond : ∀ s r, Shows early s ∨ Shows late s →
      Shows early (TobDevice.respond s r).2 ∨ Shows late (TobDevice.respond s r).2 :=
    fun s r hs => hs.imp (·.respond r) (·.respond r)
  obtain ⟨hstate, hseen⟩ := ReadProgram.exec_invariant
    (P := fun s => Shows early s ∨ Shows late s) hrespond hupdate readTob (i := 0) (.inl hd)
  intro hmem
  obtain ⟨s, hs, hvalue⟩ := List.mem_map.mp hmem
  have hshows : Shows early s ∨ Shows late s := by
    rcases List.mem_append.mp hs with hs | hs
    · exact hseen s hs
    · exact ReadProgram.scanl_invariant (hupdate _) hstate s hs
  rw [← hvalue] at h
  rcases hshows with hearly | hlate
  · have hqty : (s.status.bestAskQty.toNat : ℤ) = 1 := h.2
    rw [hearly.askQty] at hqty
    exact absurd hqty (by decide)
  · have hprice : s.status.bestBidPrice.toInt = 0 := h.1
    rw [hlate.bidPrice] at hprice
    exact absurd hprice (by decide)

/-- **One moment.** A call of `read_tob` returns one moment whatever the updates write, exactly
if no update lands between the two checks of its first pass or none lands between the value
reads of its second. -/
theorem read_tob_consistent_iff (n : ℕ → ℕ) :
    (∀ gaps d, (∀ i, (gaps i).length = n i) → OneMoment gaps d) ↔
      ¬(Disturbed n 1 7 ∧ Disturbed n 10 14) := by
  have hsettles : Settles n 1 0 ↔ ¬(Disturbed n 1 7 ∧ Disturbed n 10 14) := not_and_or.symm
  rw [← hsettles]
  constructor
  · intro h
    by_contra hno
    obtain ⟨j, -, htorn⟩ := readTobLoop_torn 1 0 hno
    have hd : Shows early ⟨default, false, false⟩ := ⟨rfl, rfl, rfl, rfl⟩
    exact not_oneMoment_of_mixed hd (htorn _ hd)
      (h _ _ fun i => List.length_replicate)
  · intro h gaps d hn
    rw [OneMoment, List.map_append]
    exact List.mem_append_left _ (readTobLoop_consistent hn 1 0 d h)

/-- A quote of 100 for 10 against 101 for 20 while the first pass reads, and one of 200 for 30
against 201 for 40 between the bid and the ask of the second. -/
def twoUpdates : ℕ → List TobRegisters
  | 3 => [⟨100, 10, 101, 20⟩]
  | 12 => [⟨200, 30, 201, 40⟩]
  | _ => []

/-- The call returns the bid of the first quote against the ask of the second. -/
theorem read_tob_torn :
    (exec twoUpdates readTob 0 ⟨default, false, false⟩).value =
        { bid := { price := 100, quantity := 10 }, ask := { price := 201, quantity := 40 } } ∧
      ¬∀ gaps d, OneMoment gaps d := by
  refine ⟨by decide, fun h => ?_⟩
  exact absurd (h twoUpdates ⟨default, false, false⟩) (by decide)

end TobAxiDriver

end HftKr260
