import HftKr260.Foundation.Handshake
import HftKr260.Rtl.TobAxiLite

/-!
# Reads

The read channel from the master's side. A read is accepted at an edge at which no response is
pending. In the next cycle the address is answered and the response is there, and it stays
until the master takes it. What an address is answered with is looked up in the register map,
which is the one at the head of the source.

## Main results

* `one_response_per_read` — every read has exactly one response, with the right data
-/

set_option autoImplicit false

namespace HftKr260

open Foundation

/-! ### The register map -/

namespace TobAxiLite

/-- A word of flags, from bit 0 on. -/
def flags (bits : List Bool) : BitVec 32 := (BitVec.ofBoolListLE bits).setWidth 32

/-- The two words of a register of 64 bits. -/
def lowWord (x : BitVec 64) : BitVec 32 := x.setWidth 32
def highWord (x : BitVec 64) : BitVec 32 := (x >>> 32).setWidth 32

/-- The register map, address by address. -/
def registerMap (tobChangedLatch parseErrorLatch : Bool) (status : TobStatus) :
    List (BitVec 6 × BitVec 32) :=
  [(0x00, flags [status.tobValid, status.crossedBook, parseErrorLatch]),
    (0x04, flags [tobChangedLatch]),
    (0x08, lowWord status.msgCount),
    (0x0C, highWord status.msgCount),
    (0x10, lowWord status.bestBidPrice),
    (0x14, highWord status.bestBidPrice),
    (0x18, status.bestBidQty),
    (0x1C, lowWord status.bestAskPrice),
    (0x20, highWord status.bestAskPrice),
    (0x24, status.bestAskQty),
    (0x28, lowWord status.spread),
    (0x2C, highWord status.spread)]

theorem append_eq_flags_three (a b c : Bool) :
    0#29 ++ BitVec.ofBool c ++ BitVec.ofBool b ++ BitVec.ofBool a = flags [a, b, c] := by
  revert a b c
  decide

theorem append_eq_flags_one (a : Bool) : 0#31 ++ BitVec.ofBool a = flags [a] := by
  revert a
  decide

theorem extractLsb_low (x : BitVec 64) : x.extractLsb 31 0 = lowWord x := by
  apply BitVec.eq_of_getLsbD_eq
  intro i hi
  simp [lowWord, Nat.lt_succ_iff]

theorem extractLsb_high (x : BitVec 64) : x.extractLsb 63 32 = highWord x := by
  apply BitVec.eq_of_getLsbD_eq
  intro i hi
  simp [highWord, Nat.lt_succ_iff]

theorem getD_lookup_cons {a k : BitVec 6} {v d : BitVec 32} {l : List (BitVec 6 × BitVec 32)} :
    (List.lookup a ((k, v) :: l)).getD d = if a = k then v else (List.lookup a l).getD d := by
  by_cases h : a = k
  · rw [if_pos h, h, List.lookup_cons_self, Option.getD_some]
  · rw [if_neg h, List.lookup_cons, beq_eq_false_iff_ne.mpr h]

/-- The data lines show the register of the address. -/
theorem readData_eq_lookup (tobChangedLatch parseErrorLatch : Bool) (status : TobStatus)
    (araddr : BitVec 6) :
    readData tobChangedLatch parseErrorLatch status araddr =
      ((registerMap tobChangedLatch parseErrorLatch status).lookup araddr).getD 0xDEADBEEF := by
  rw [readData, registerMap]
  simp only [getD_lookup_cons, append_eq_flags_three, append_eq_flags_one, extractLsb_low,
    extractLsb_high]
  rfl

end TobAxiLite

/-! ### The read channel -/

/-- A read master that follows the protocol: an address stays until it is accepted. -/
def ReadMaster (input : ℕ → AxiLiteIn) : Prop :=
  Handshake.Held (fun t => (input t).arvalid) (fun t => (tobAxiLite input t).arready)
    (fun t => (input t).araddr)

/-- A master that is played back is checked as long as it plays. -/
theorem ReadMaster.of_playback {l : List AxiLiteIn}
    (h : ∀ t < l.length, (axiPlayback l t).arvalid = true →
      (tobAxiLite (axiPlayback l) t).arready = false →
      (axiPlayback l (t + 1)).arvalid = true ∧
        (axiPlayback l (t + 1)).araddr = (axiPlayback l t).araddr) :
    ReadMaster (axiPlayback l) :=
  .of_idle h fun t ht => by rw [axiPlayback_of_le ht]; rfl

/-- The edge that ends cycle `t` accepts a read of `addr`. -/
def AcceptsRead (input : ℕ → AxiLiteIn) (addr : BitVec 6) (t : ℕ) : Prop :=
  (tobAxiLite input t).takesRead (input t) = true ∧ (input t).araddr = addr

instance (input : ℕ → AxiLiteIn) (addr : BitVec 6) : DecidablePred (AcceptsRead input addr) :=
  fun _ => inferInstanceAs (Decidable (_ ∧ _))

/-- The value the register map assigns to the address shown in cycle `t`. -/
def mapped (input : ℕ → AxiLiteIn) (t : ℕ) : BitVec 32 :=
  ((TobAxiLite.registerMap (tobAxiLite input t).tobChangedLatch
    (tobAxiLite input t).parseErrorLatch (input t).status).lookup (input t).araddr).getD 0xDEADBEEF

theorem mapped_eq_readData (input : ℕ → AxiLiteIn) (t : ℕ) :
    mapped input t = TobAxiLite.readData (tobAxiLite input t).tobChangedLatch
      (tobAxiLite input t).parseErrorLatch (input t).status (input t).araddr :=
  (TobAxiLite.readData_eq_lookup _ _ _ _).symm

/-- The addresses of the AR handshakes of the first `t` cycles. -/
def arHandshakes (input : ℕ → AxiLiteIn) : ℕ → List (BitVec 6) :=
  Handshake.handshakes (fun t => (input t).arvalid) (fun t => (tobAxiLite input t).arready)
    (fun t => (input t).araddr)

/-- The data of the R handshakes of the first `t` cycles. -/
def rHandshakes (input : ℕ → AxiLiteIn) : ℕ → List (BitVec 32) :=
  Handshake.handshakes (fun t => (tobAxiLite input t).rvalid) (fun t => (input t).rready)
    (fun t => (tobAxiLite input t).rdata)

/-- The reads accepted in the first `t` cycles, each with the value the register map assigned
to its address at that edge. -/
def acceptedReads (input : ℕ → AxiLiteIn) : ℕ → List (BitVec 6 × BitVec 32) :=
  Clocked.transferred (fun t => (tobAxiLite input t).takesRead (input t))
    (fun t => ((input t).araddr, mapped input t))

section Read

variable (input : ℕ → AxiLiteIn)

/-- An address is answered together with its response. -/
theorem rvalid_of_arready (t : ℕ) (h : (tobAxiLite input t).arready = true) :
    (tobAxiLite input t).rvalid = true := by
  cases t with
  | zero => exact absurd h Bool.false_ne_true
  | succ t =>
    have htake : (tobAxiLite input t).takesRead (input t) = true := h
    rw [tobAxiLite_succ, TobAxiLite.next]
    have hfree : (tobAxiLite input t).rvalid = false := by
      simpa using (Bool.and_eq_true_iff.mp htake).2
    simp [htake, hfree]

/-- `ARREADY` answers the accepted reads, one cycle later. -/
theorem arready_registered :
    Handshake.Registered (fun t => (input t).arvalid) (fun t => (tobAxiLite input t).arready)
      (fun t => (tobAxiLite input t).takesRead (input t)) where
  start := rfl
  next := fun _ => rfl
  shown := fun _ h => (Bool.and_eq_true_iff.mp h).1

/-- No read is accepted while the one before is answered. -/
theorem arready_of_takesRead (t : ℕ) (h : (tobAxiLite input t).takesRead (input t) = true) :
    (tobAxiLite input t).arready = false := by
  by_contra hready
  have hpending := rvalid_of_arready input t (Bool.not_eq_false _ ▸ hready)
  rw [TobAxiLite.takesRead, hpending] at h
  exact absurd h (by simp)

/-- The responses taken, and the one pending, are those of the reads accepted. -/
theorem acceptedReads_eq (t : ℕ) :
    (acceptedReads input t).map Prod.snd =
      rHandshakes input t ++
        if (tobAxiLite input t).rvalid then [(tobAxiLite input t).rdata] else [] := by
  induction t with
  | zero => rfl
  | succ t ih =>
    have hmap : (acceptedReads input (t + 1)).map Prod.snd =
        (acceptedReads input t).map Prod.snd ++
          if (tobAxiLite input t).takesRead (input t) then [mapped input t] else [] := by
      rw [acceptedReads, Clocked.transferred_succ, List.map_append]
      split_ifs <;> rfl
    have hresp : rHandshakes input (t + 1) = rHandshakes input t ++
        if (tobAxiLite input t).rvalid && (input t).rready then [(tobAxiLite input t).rdata]
        else [] := Clocked.transferred_succ t
    rw [hmap, hresp, ih, tobAxiLite_succ]
    cases hv : (tobAxiLite input t).rvalid with
    | false =>
      cases ha : (input t).arvalid <;>
        simp [TobAxiLite.next, TobAxiLite.takesRead, hv, ha, mapped_eq_readData]
    | true =>
      cases hr : (input t).rready <;>
        simp [TobAxiLite.next, TobAxiLite.takesRead, hv, hr]

/-- A response does not change while it is pending. -/
theorem rdata_stable (t : ℕ) (h : (tobAxiLite input t).rvalid = true) :
    (tobAxiLite input (t + 1)).rdata = (tobAxiLite input t).rdata := by
  simp [tobAxiLite_succ, TobAxiLite.next, TobAxiLite.takesRead, h]

/-- All but the pending response have been taken by the end of the cycle. -/
theorem responses_succ (t : ℕ) :
    (acceptedReads input t).map Prod.snd = rHandshakes input (t + 1) ∨
      ((tobAxiLite input (t + 1)).rvalid = true ∧
        (acceptedReads input t).map Prod.snd =
          rHandshakes input (t + 1) ++ [(tobAxiLite input (t + 1)).rdata]) := by
  have hresp : rHandshakes input (t + 1) = rHandshakes input t ++
      if (tobAxiLite input t).rvalid && (input t).rready then [(tobAxiLite input t).rdata]
      else [] := Clocked.transferred_succ t
  rw [acceptedReads_eq, hresp]
  cases hv : (tobAxiLite input t).rvalid with
  | false => exact .inl (by simp)
  | true =>
    cases hr : (input t).rready with
    | true => exact .inl (by simp)
    | false =>
      -- not taken: it is still pending, and the same
      refine .inr ⟨?_, ?_⟩
      · simp [tobAxiLite_succ, TobAxiLite.next, hv, hr]
      · simp [rdata_stable input t hv]

/-- The latch behind `TOB_CHANGED` is cleared by the edges that accept a read of it. -/
theorem tobChangedLatch_cleared_iff (t : ℕ)
    (h : ((tobAxiLite input t).tobChangedLatch || (input t).status.tobChanged) = true) :
    (tobAxiLite input (t + 1)).tobChangedLatch = false ↔
      AcceptsRead input TobAxiLite.regTobChanged t := by
  rw [Bool.or_comm] at h
  rw [tobAxiLite_succ]
  simp [TobAxiLite.next, TobAxiLite.readTobChanged, AcceptsRead, h]

/-- A read is accepted at an edge exactly if its AR handshake follows in the next cycle. -/
theorem acceptsRead_iff (hmaster : ReadMaster input) (addr : BitVec 6) (t : ℕ) :
    AcceptsRead input addr t ↔
      (input (t + 1)).arvalid = true ∧ (tobAxiLite input (t + 1)).arready = true ∧
        (input (t + 1)).araddr = addr := by
  constructor
  · rintro ⟨htake, rfl⟩
    obtain ⟨hvalid, haddr⟩ :=
      hmaster t ((arready_registered input).shown t htake) (arready_of_takesRead input t htake)
    exact ⟨hvalid, htake, haddr⟩
  · rintro ⟨-, hready, rfl⟩
    have htake : (tobAxiLite input t).takesRead (input t) = true := hready
    obtain ⟨-, haddr⟩ :=
      hmaster t ((arready_registered input).shown t htake) (arready_of_takesRead input t htake)
    exact ⟨htake, haddr.symm⟩

/-- The read channel after `t + 1` cycles. -/
structure ReadsAnswered (t : ℕ) : Prop where
  /-- the AR handshakes are the reads accepted one cycle before -/
  addresses : arHandshakes input (t + 1) = (acceptedReads input t).map Prod.fst
  /-- each has had its response, in order and with the value of the register map at the
  accepting edge, but for the last, which may be pending -/
  responses : (acceptedReads input t).map Prod.snd = rHandshakes input (t + 1) ∨
    ((tobAxiLite input (t + 1)).rvalid = true ∧
      (acceptedReads input t).map Prod.snd =
        rHandshakes input (t + 1) ++ [(tobAxiLite input (t + 1)).rdata])
  stable : (tobAxiLite input t).rvalid = true →
    (tobAxiLite input (t + 1)).rdata = (tobAxiLite input t).rdata
  /-- an edge that accepts a read is followed by the one AR handshake of that read -/
  accepted : ∀ addr, AcceptsRead input addr t ↔
    (input (t + 1)).arvalid = true ∧ (tobAxiLite input (t + 1)).arready = true ∧
      (input (t + 1)).araddr = addr
  /-- the latch is cleared by the edges that accept a read of `TOB_CHANGED` -/
  cleared : ((tobAxiLite input t).tobChangedLatch || (input t).status.tobChanged) = true →
    ((tobAxiLite input (t + 1)).tobChangedLatch = false ↔
      AcceptsRead input TobAxiLite.regTobChanged t)

/-- **One correct response per read**, for every master that follows the protocol, whenever it
takes the responses and whatever the status inputs do. -/
theorem one_response_per_read (hmaster : ReadMaster input) (t : ℕ) : ReadsAnswered input t where
  addresses := by
    rw [acceptedReads, ← Clocked.transferred_map]
    exact (arready_registered input).handshakes_eq hmaster fun c _ =>
      arready_of_takesRead input c
  responses := responses_succ input t
  stable := rdata_stable input t
  accepted := fun addr => acceptsRead_iff input hmaster addr t
  cleared := tobChangedLatch_cleared_iff input t

end Read

/-- A change, then a read of `TOB_CHANGED` whose response is taken at once. -/
def changeThenRead : List AxiLiteIn :=
  let read : AxiLiteIn := { (default : AxiLiteIn) with
    arvalid := true, araddr := TobAxiLite.regTobChanged, rready := true }
  [{ (default : AxiLiteIn) with status := { (default : TobStatus) with tobChanged := true } },
    read, read]

theorem changeThenRead_answered : ReadsAnswered (axiPlayback changeThenRead) 2 :=
  one_response_per_read _ (.of_playback (by decide)) 2

example : rHandshakes (axiPlayback changeThenRead) 3 = [1] := by decide

end HftKr260
