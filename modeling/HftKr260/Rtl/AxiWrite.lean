import HftKr260.Foundation.Handshake
import HftKr260.Rtl.TobAxiLite

/-!
# Writes

The write channel from the master's side. A write takes an address, then a data beat, then
answers, and only the answer makes room for the next address. Data is taken whenever an
address is held, so a beat that is already shown while the answer is pending is taken for the
address of the write before.

## Main results

* `WriteTracks.next` — what one cycle does to the addresses, beats and responses so far
* `writes_paired_iff` — every beat belongs to its own address exactly if no beat is shown
  while a response is pending
-/

set_option autoImplicit false

namespace HftKr260

open Foundation

/-- A write master that follows the protocol: on each channel what is shown stays until it is
accepted. -/
structure WriteMaster (input : ℕ → AxiLiteIn) : Prop where
  addr : Handshake.Held (fun t => (input t).awvalid) (fun t => (tobAxiLite input t).awready)
    (fun t => (input t).awaddr)
  data : Handshake.Held (fun t => (input t).wvalid) (fun t => (tobAxiLite input t).wready)
    (fun t => (input t).wdata)

/-- A master that is played back is checked as long as it plays. -/
theorem WriteMaster.of_playback {l : List AxiLiteIn}
    (haddr : ∀ t < l.length, (axiPlayback l t).awvalid = true →
      (tobAxiLite (axiPlayback l) t).awready = false →
      (axiPlayback l (t + 1)).awvalid = true ∧
        (axiPlayback l (t + 1)).awaddr = (axiPlayback l t).awaddr)
    (hdata : ∀ t < l.length, (axiPlayback l t).wvalid = true →
      (tobAxiLite (axiPlayback l) t).wready = false →
      (axiPlayback l (t + 1)).wvalid = true ∧
        (axiPlayback l (t + 1)).wdata = (axiPlayback l t).wdata) :
    WriteMaster (axiPlayback l) where
  addr := .of_idle haddr fun t ht => by rw [axiPlayback_of_le ht]; rfl
  data := .of_idle hdata fun t ht => by rw [axiPlayback_of_le ht]; rfl

/-- The addresses of the AW handshakes of the first `t` cycles. -/
def awHandshakes (input : ℕ → AxiLiteIn) : ℕ → List (BitVec 6) :=
  Handshake.handshakes (fun t => (input t).awvalid) (fun t => (tobAxiLite input t).awready)
    (fun t => (input t).awaddr)

/-- The data of the W handshakes of the first `t` cycles. -/
def wHandshakes (input : ℕ → AxiLiteIn) : ℕ → List (BitVec 32) :=
  Handshake.handshakes (fun t => (input t).wvalid) (fun t => (tobAxiLite input t).wready)
    (fun t => (input t).wdata)

/-- The B handshakes of the first `t` cycles. -/
def bHandshakes (input : ℕ → AxiLiteIn) : ℕ → List (BitVec 2) :=
  Handshake.handshakes (fun t => (tobAxiLite input t).bvalid) (fun t => (input t).bready)
    (fun t => (tobAxiLite input t).bresp)

/-- The writes of the first `t` edges, each with the address it is applied to. -/
def appliedWrites (input : ℕ → AxiLiteIn) : ℕ → List (BitVec 6 × BitVec 32) :=
  Clocked.transferred (fun t => (tobAxiLite input t).takesData (input t))
    (fun t => ((tobAxiLite input t).wrAddr, (input t).wdata))

/-- The address and data beats taken at the first `t` edges. -/
def takenAddrs (input : ℕ → AxiLiteIn) : ℕ → List (BitVec 6) :=
  Clocked.transferred (fun t => (tobAxiLite input t).takesAddr (input t))
    (fun t => (input t).awaddr)

def takenData (input : ℕ → AxiLiteIn) : ℕ → List (BitVec 32) :=
  Clocked.transferred (fun t => (tobAxiLite input t).takesData (input t))
    (fun t => (input t).wdata)

/-- Where the write channel is, in terms of the addresses and beats taken, the writes applied
and the responses accepted. -/
inductive WriteTracks (s : TobAxiLite) (addrs : List (BitVec 6)) (data : List (BitVec 32))
    (responses : ℕ) : Prop
  /-- no write is open -/
  | idle (active : s.awActive = false) (wready : s.wready = false) (bvalid : s.bvalid = false)
      (addrs_length : addrs.length = responses) (data_length : data.length = responses)
  /-- an address is held, its beat is to come -/
  | addressed (active : s.awActive = true) (wready : s.wready = false)
      (bvalid : s.bvalid = false) (before : List (BitVec 6))
      (addrs_eq : addrs = before ++ [s.wrAddr]) (before_length : before.length = responses)
      (data_length : data.length = responses)
  /-- the beat has been taken and is being answered -/
  | taken (active : s.awActive = true) (wready : s.wready = true) (bvalid : s.bvalid = false)
      (addrs_length : addrs.length = responses + 1) (data_length : data.length = responses + 1)
  /-- the response is pending -/
  | response (active : s.awActive = true) (wready : s.wready = false)
      (bvalid : s.bvalid = true) (addrs_length : addrs.length = responses + 1)
      (data_length : data.length = responses + 1)

/-- A further address without its beat pairs with nothing. -/
theorem zip_concat_left {α β : Type*} {as : List α} {bs : List β} (h : as.length = bs.length)
    (a : α) : (as ++ [a]).zip bs = as.zip bs := by
  have hzip : (as ++ [a]).zip (bs ++ []) = as.zip bs ++ [a].zip [] := List.zip_append h
  rw [List.append_nil, List.zip_nil_right, List.append_nil] at hzip
  exact hzip

section Step

variable {s : TobAxiLite} {addrs : List (BitVec 6)} {data : List (BitVec 32)} {responses : ℕ}

/-- While a response is pending its address is held, and its beat has been taken. -/
theorem WriteTracks.pending (h : WriteTracks s addrs data responses) (hb : s.bvalid = true) :
    s.awActive = true ∧ s.wready = false ∧ addrs.length = responses + 1 ∧
      data.length = responses + 1 := by
  cases h with
  | idle _ _ bvalid _ _ => exact absurd (bvalid.symm.trans hb) Bool.false_ne_true
  | addressed _ _ bvalid _ _ _ _ => exact absurd (bvalid.symm.trans hb) Bool.false_ne_true
  | taken _ _ bvalid _ _ => exact absurd (bvalid.symm.trans hb) Bool.false_ne_true
  | response active wready _ haddrs hdata => exact ⟨active, wready, haddrs, hdata⟩

/-- What one cycle does, when no beat is shown while a response is pending. -/
theorem WriteTracks.next (h : WriteTracks s addrs data responses) (i : AxiLiteIn)
    (hquiet : s.bvalid = true → i.wvalid = false) :
    WriteTracks (s.next i) (addrs ++ if s.takesAddr i then [i.awaddr] else [])
      (data ++ if s.takesData i then [i.wdata] else [])
      (responses + if s.bvalid && i.bready then 1 else 0) := by
  cases h with
  | idle active wready bvalid haddrs hdata =>
    cases hv : i.awvalid with
    | false =>
      exact .idle (by simp [TobAxiLite.next, TobAxiLite.takesAddr, active, hv, bvalid])
        (by simp [TobAxiLite.next, TobAxiLite.takesData, active])
        (by simp [TobAxiLite.next, wready, bvalid])
        (by simp [TobAxiLite.takesAddr, hv, bvalid, haddrs])
        (by simp [TobAxiLite.takesData, active, bvalid, hdata])
    | true =>
      have htake : s.takesAddr i = true := by simp [TobAxiLite.takesAddr, hv, active]
      exact .addressed (by simp [TobAxiLite.next, htake, bvalid])
        (by simp [TobAxiLite.next, TobAxiLite.takesData, active])
        (by simp [TobAxiLite.next, wready, bvalid]) addrs
        (by simp [TobAxiLite.next, htake]) (by simp [bvalid, haddrs])
        (by simp [TobAxiLite.takesData, active, bvalid, hdata])
  | addressed active wready bvalid before haddrs hbefore hdata =>
    have hkeep : s.takesAddr i = false := by simp [TobAxiLite.takesAddr, active]
    cases hv : i.wvalid with
    | false =>
      have hnone : s.takesData i = false := by simp [TobAxiLite.takesData, hv]
      exact .addressed (by simp [TobAxiLite.next, active, bvalid])
        (by simp [TobAxiLite.next, hnone])
        (by simp [TobAxiLite.next, wready, bvalid]) before
        (by simp [TobAxiLite.next, hkeep, haddrs]) (by simp [bvalid, hbefore])
        (by simp [hnone, bvalid, hdata])
    | true =>
      have htake : s.takesData i = true := by simp [TobAxiLite.takesData, hv, active, wready]
      exact .taken (by simp [TobAxiLite.next, active, bvalid])
        (by simp [TobAxiLite.next, htake])
        (by simp [TobAxiLite.next, wready, bvalid])
        (by simp [hkeep, haddrs, bvalid, hbefore])
        (by simp [htake, bvalid, hdata])
  | taken active wready bvalid haddrs hdata =>
    have hkeep : s.takesAddr i = false := by simp [TobAxiLite.takesAddr, active]
    have hnone : s.takesData i = false := by simp [TobAxiLite.takesData, wready]
    exact .response (by simp [TobAxiLite.next, active, bvalid])
      (by simp [TobAxiLite.next, hnone])
      (by simp [TobAxiLite.next, wready, bvalid])
      (by simp [hkeep, haddrs, bvalid]) (by simp [hnone, hdata, bvalid])
  | response active wready bvalid haddrs hdata =>
    have hkeep : s.takesAddr i = false := by simp [TobAxiLite.takesAddr, active]
    have hnone : s.takesData i = false := by simp [TobAxiLite.takesData, hquiet bvalid]
    cases hr : i.bready with
    | false =>
      exact .response (by simp [TobAxiLite.next, active, hr])
        (by simp [TobAxiLite.next, hnone]) (by simp [TobAxiLite.next, bvalid, hr])
        (by simp [hkeep, haddrs]) (by simp [hnone, hdata])
    | true =>
      exact .idle (by simp [TobAxiLite.next, bvalid, hr]) (by simp [TobAxiLite.next, hnone])
        (by simp [TobAxiLite.next, bvalid, hr]) (by simp [hkeep, haddrs, bvalid])
        (by simp [hnone, hdata, bvalid])

/-- What one cycle does to the pairs of addresses and beats. -/
theorem WriteTracks.zip_next (h : WriteTracks s addrs data responses) (i : AxiLiteIn)
    (hquiet : s.bvalid = true → i.wvalid = false) :
    (addrs ++ if s.takesAddr i then [i.awaddr] else []).zip
        (data ++ if s.takesData i then [i.wdata] else []) =
      addrs.zip data ++ if s.takesData i then [(s.wrAddr, i.wdata)] else [] := by
  cases h with
  | idle active wready bvalid haddrs hdata =>
    have hnone : s.takesData i = false := by simp [TobAxiLite.takesData, active]
    cases hv : s.takesAddr i with
    | false => simp [hnone]
    | true => simp [hnone, zip_concat_left (haddrs.trans hdata.symm)]
  | addressed active wready bvalid before haddrs hbefore hdata =>
    have hkeep : s.takesAddr i = false := by simp [TobAxiLite.takesAddr, active]
    have hlen : before.length = data.length := hbefore.trans hdata.symm
    cases hv : s.takesData i with
    | false => simp [hkeep]
    | true => simp [hkeep, haddrs, zip_concat_left hlen, List.zip_append hlen]
  | taken active wready bvalid haddrs hdata =>
    have hkeep : s.takesAddr i = false := by simp [TobAxiLite.takesAddr, active]
    have hnone : s.takesData i = false := by simp [TobAxiLite.takesData, wready]
    simp [hkeep, hnone]
  | response active wready bvalid haddrs hdata =>
    have hkeep : s.takesAddr i = false := by simp [TobAxiLite.takesAddr, active]
    have hnone : s.takesData i = false := by simp [TobAxiLite.takesData, hquiet bvalid]
    simp [hkeep, hnone]

end Step

section Run

variable (input : ℕ → AxiLiteIn)

/-- No beat is shown while a response is pending, up to cycle `t`. -/
def QuietBefore (t : ℕ) : Prop :=
  ∀ c < t, (tobAxiLite input c).bvalid = true → (input c).wvalid = false

theorem QuietBefore.of_succ {input : ℕ → AxiLiteIn} {t : ℕ} (h : QuietBefore input (t + 1)) :
    QuietBefore input t := fun c hc => h c (Nat.lt_succ_of_lt hc)

/-- The channel is tracked as long as it is quiet. -/
theorem writeTracks (t : ℕ) (hquiet : QuietBefore input t) :
    WriteTracks (tobAxiLite input t) (takenAddrs input t) (takenData input t)
      (bHandshakes input t).length := by
  induction t with
  | zero => exact .idle rfl rfl rfl rfl rfl
  | succ t ih =>
    have hstep := (ih hquiet.of_succ).next (input t) (hquiet t (Nat.lt_succ_self t))
    have hresp : (bHandshakes input (t + 1)).length = (bHandshakes input t).length +
        if (tobAxiLite input t).bvalid && (input t).bready then 1 else 0 := by
      rw [bHandshakes, Handshake.handshakes, Clocked.transferred_succ, List.length_append]
      split_ifs <;> rfl
    rw [hresp]
    exact hstep

/-- As long as it is quiet, every beat is applied to the address taken with it. -/
theorem appliedWrites_eq_taken (t : ℕ) (hquiet : QuietBefore input t) :
    appliedWrites input t = (takenAddrs input t).zip (takenData input t) := by
  induction t with
  | zero => rfl
  | succ t ih =>
    have hstep := (writeTracks input t hquiet.of_succ).zip_next (input t)
      (hquiet t (Nat.lt_succ_self t))
    rw [takenAddrs, takenData, Clocked.transferred_succ, Clocked.transferred_succ,
      appliedWrites, Clocked.transferred_succ]
    refine Eq.trans ?_ hstep.symm
    rw [← ih hquiet.of_succ]
    rfl

/-- The beats of the writes applied are the beats taken. -/
theorem appliedWrites_length (t : ℕ) :
    (appliedWrites input t).length = (takenData input t).length := by
  have hdata : takenData input t = (appliedWrites input t).map Prod.snd := by
    rw [appliedWrites, ← Clocked.transferred_map]
    rfl
  rw [hdata, List.length_map]

/-- `AWREADY` answers the addresses taken, one cycle later. -/
theorem awready_registered :
    Handshake.Registered (fun t => (input t).awvalid) (fun t => (tobAxiLite input t).awready)
      (fun t => (tobAxiLite input t).takesAddr (input t)) where
  start := rfl
  next := fun _ => rfl
  shown := fun _ h => (Bool.and_eq_true_iff.mp h).1

/-- `WREADY` answers the beats taken, one cycle later. -/
theorem wready_registered :
    Handshake.Registered (fun t => (input t).wvalid) (fun t => (tobAxiLite input t).wready)
      (fun t => (tobAxiLite input t).takesData (input t)) where
  start := rfl
  next := fun _ => rfl
  shown := fun _ h => (Bool.and_eq_true_iff.mp (Bool.and_eq_true_iff.mp h).1).1

/-- As long as it is quiet, an address that is answered is held. -/
theorem awActive_of_awready (t : ℕ) (hquiet : QuietBefore input t)
    (h : (tobAxiLite input t).awready = true) : (tobAxiLite input t).awActive = true := by
  cases t with
  | zero => exact absurd h Bool.false_ne_true
  | succ t =>
    have htake : (tobAxiLite input t).takesAddr (input t) = true := h
    have hfree : (tobAxiLite input t).awActive = false := by
      simpa using (Bool.and_eq_true_iff.mp htake).2
    -- a response is only pending while an address is held
    have hnone : (tobAxiLite input t).bvalid = false := Bool.eq_false_iff.mpr fun hpending =>
      absurd (hfree.symm.trans ((writeTracks input t hquiet.of_succ).pending hpending).1)
        Bool.false_ne_true
    simp [tobAxiLite_succ, TobAxiLite.next, htake, hnone]

variable {input}

/-- The AW handshakes are the addresses taken, as long as it is quiet. -/
theorem awHandshakes_succ (hmaster : WriteMaster input) (t : ℕ)
    (hquiet : QuietBefore input t) : awHandshakes input (t + 1) = takenAddrs input t := by
  refine (awready_registered input).handshakes_eq hmaster.addr fun c hc htake => ?_
  by_contra hready
  have hactive := awActive_of_awready input c (fun b hb => hquiet b (hb.trans hc))
    (Bool.not_eq_false _ ▸ hready)
  rw [TobAxiLite.takesAddr, hactive] at htake
  exact absurd htake (by simp)

/-- The W handshakes are the beats taken. -/
theorem wHandshakes_succ (hmaster : WriteMaster input) (t : ℕ) :
    wHandshakes input (t + 1) = takenData input t := by
  refine (wready_registered input).handshakes_eq hmaster.data fun c _ htake => ?_
  simpa using (Bool.and_eq_true_iff.mp htake).2

/-- The parse-error latch is cleared by a beat for `STATUS` with bit 2 set only. -/
theorem parseErrorLatch_cleared (t : ℕ) (hset : (tobAxiLite input t).parseErrorLatch = true)
    (hclear : (tobAxiLite input (t + 1)).parseErrorLatch = false) :
    ∃ d, appliedWrites input (t + 1) = appliedWrites input t ++ [(TobAxiLite.regStatus, d)] ∧
      d.getLsbD 2 = true := by
  have hwrite : (tobAxiLite input t).writeClearParse (input t) = true := by
    by_contra hno
    rw [tobAxiLite_succ, TobAxiLite.next] at hclear
    simp [hno, hset] at hclear
  obtain ⟨htakes, hbit⟩ := Bool.and_eq_true_iff.mp hwrite
  obtain ⟨htake, haddr⟩ := Bool.and_eq_true_iff.mp htakes
  refine ⟨(input t).wdata, ?_, hbit⟩
  rw [← eq_of_beq haddr]
  exact Clocked.transferred_succ_of_valid htake

variable (input)

/-- The write channel after `t + 1` cycles. -/
structure WritesPaired (t : ℕ) : Prop where
  /-- the beat of each W handshake is applied to the address of its AW handshake -/
  paired : appliedWrites input t = (awHandshakes input (t + 1)).zip (wHandshakes input (t + 1))
  /-- each pair has had its own response, but for the last, which may be pending -/
  responses : min (awHandshakes input (t + 1)).length (wHandshakes input (t + 1)).length =
    (bHandshakes input (t + 1)).length + if (tobAxiLite input (t + 1)).bvalid then 1 else 0
  /-- the latch is cleared by a pair for `STATUS` with bit 2 set -/
  cleared : (tobAxiLite input t).parseErrorLatch = true →
    (tobAxiLite input (t + 1)).parseErrorLatch = false →
    ∃ d, appliedWrites input (t + 1) = appliedWrites input t ++ [(TobAxiLite.regStatus, d)] ∧
      d.getLsbD 2 = true

variable {input}

/-- The responses, as long as it is quiet. -/
theorem responses_of_quiet (t : ℕ) (hquiet : QuietBefore input t) :
    min (takenAddrs input t).length (takenData input t).length =
      (bHandshakes input (t + 1)).length +
        if (tobAxiLite input (t + 1)).bvalid then 1 else 0 := by
  have hresp : bHandshakes input (t + 1) = bHandshakes input t ++
      if (tobAxiLite input t).bvalid && (input t).bready then [(tobAxiLite input t).bresp]
      else [] := Clocked.transferred_succ t
  rw [hresp, tobAxiLite_succ]
  cases writeTracks input t hquiet with
  | idle active wready bvalid haddrs hdata =>
    simp [TobAxiLite.next, wready, bvalid, haddrs, hdata]
  | addressed active wready bvalid before haddrs hbefore hdata =>
    simp [TobAxiLite.next, wready, bvalid, haddrs, hbefore, hdata]
  | taken active wready bvalid haddrs hdata =>
    simp [TobAxiLite.next, wready, bvalid, haddrs, hdata]
  | response active wready bvalid haddrs hdata =>
    cases hr : (input t).bready with
    | false => simp [TobAxiLite.next, bvalid, hr, haddrs, hdata]
    | true => simp [TobAxiLite.next, bvalid, hr, haddrs, hdata]

/-- As long as it is quiet, the beats are paired. -/
theorem writesPaired_of_quiet (hmaster : WriteMaster input) (t : ℕ)
    (hquiet : QuietBefore input t) : WritesPaired input t where
  paired := by
    rw [awHandshakes_succ hmaster t hquiet, wHandshakes_succ hmaster t]
    exact appliedWrites_eq_taken input t hquiet
  responses := by
    rw [awHandshakes_succ hmaster t hquiet, wHandshakes_succ hmaster t]
    exact responses_of_quiet t hquiet
  cleared := parseErrorLatch_cleared t

/-- The first beat shown while a response is pending is taken: a beat more than addresses. -/
theorem not_writesPaired_of_overrun (hmaster : WriteMaster input) (t : ℕ)
    (hquiet : QuietBefore input t) (hpending : (tobAxiLite input t).bvalid = true)
    (hshown : (input t).wvalid = true) : ¬WritesPaired input (t + 1) := by
  intro hpaired
  obtain ⟨active, wready, haddrs, hdata⟩ := (writeTracks input t hquiet).pending hpending
  have htake : (tobAxiLite input t).takesData (input t) = true := by
    simp [TobAxiLite.takesData, active, wready, hshown]
  have hready : (tobAxiLite input (t + 1)).awready = false := by
    simp [tobAxiLite_succ, TobAxiLite.next, TobAxiLite.takesAddr, active]
  have haw : awHandshakes input (t + 2) = takenAddrs input t := by
    rw [← awHandshakes_succ hmaster t hquiet]
    exact Clocked.transferred_succ_of_idle (by simp [hready])
  have happlied : (appliedWrites input (t + 1)).length = (bHandshakes input t).length + 2 := by
    rw [appliedWrites_length, takenData, Clocked.transferred_succ_of_valid htake,
      List.length_append]
    exact congrArg (· + 1) hdata
  have hzip : (appliedWrites input (t + 1)).length ≤ (takenAddrs input t).length := by
    rw [hpaired.paired, haw, List.length_zip]
    exact Nat.min_le_left _ _
  omega

/-- **Beats and addresses.** For every master that follows the protocol, each beat is applied
to its own address and has its own response, exactly if no beat is ever shown while a response
is pending. -/
theorem writes_paired_iff (hmaster : WriteMaster input) :
    (∀ t, WritesPaired input t) ↔
      ∀ t, (tobAxiLite input t).bvalid = true → (input t).wvalid = false := by
  constructor
  · intro hpaired t
    induction t using Nat.strong_induction_on with
    | _ t ih =>
      intro hpending
      by_contra hshown
      exact not_writesPaired_of_overrun hmaster t ih hpending
        (Bool.not_eq_false _ ▸ hshown) (hpaired (t + 1))
  · intro hquiet t
    exact writesPaired_of_quiet hmaster t fun c _ => hquiet c

end Run

/-- A write to `STATUS`, address and beat shown together, and one to `TOB_CHANGED`, whose beat is
shown before its address. -/
def twoWrites : List AxiLiteIn :=
  let first : AxiLiteIn := { AxiLiteIn.waiting with
    awvalid := true, awaddr := TobAxiLite.regStatus, wvalid := true, wdata := 4 }
  let beat : AxiLiteIn := { AxiLiteIn.waiting with wvalid := true, wdata := 1 }
  let both : AxiLiteIn := { beat with awvalid := true, awaddr := TobAxiLite.regTobChanged }
  [first, first, { first with awvalid := false }, .waiting, beat, both, both, beat]

/-- The beats go to their own addresses. -/
theorem twoWrites_paired :
    appliedWrites (axiPlayback twoWrites) 8 =
        [(TobAxiLite.regStatus, 4), (TobAxiLite.regTobChanged, 1)] ∧
      ∀ t, WritesPaired (axiPlayback twoWrites) t := by
  have hshown : ∀ t < 8, (tobAxiLite (axiPlayback twoWrites) t).bvalid = true →
      (axiPlayback twoWrites t).wvalid = false := by decide
  have hquiet : ∀ t, (tobAxiLite (axiPlayback twoWrites) t).bvalid = true →
      (axiPlayback twoWrites t).wvalid = false := by
    intro t
    rcases Nat.lt_or_ge t 8 with hlt | hge
    · exact hshown t hlt
    · rw [axiPlayback_of_le hge]
      exact fun _ => rfl
  exact ⟨by decide, (writes_paired_iff (.of_playback (by decide) (by decide))).mpr hquiet⟩

/-- A write of `0` to `STATUS`, then one of `4` to `TOB_CHANGED` whose beat is shown while the
response to the first is pending and before its address. -/
def nextBeatEarly : List AxiLiteIn :=
  let first : AxiLiteIn := { AxiLiteIn.waiting with
    awvalid := true, awaddr := TobAxiLite.regStatus, wvalid := true, wdata := 0 }
  let beat : AxiLiteIn := { AxiLiteIn.waiting with wvalid := true, wdata := 4 }
  let addr : AxiLiteIn := { AxiLiteIn.waiting with
    awvalid := true, awaddr := TobAxiLite.regTobChanged }
  [first, first, { first with awvalid := false }, beat, beat, addr, addr]

/-- The beat for `TOB_CHANGED` is applied to `STATUS`. -/
theorem nextBeatEarly_misapplied :
    ¬∀ input, WriteMaster input → ∀ t, WritesPaired input t := by
  intro h
  have hmaster : WriteMaster (axiPlayback nextBeatEarly) :=
    .of_playback (by decide) (by decide)
  exact absurd (h _ hmaster 6).paired (by decide)

end HftKr260
