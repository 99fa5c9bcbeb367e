import HftKr260.Foundation.SplitCounter
import HftKr260.Software.TobAxiDriver

/-!
# The message counter

`TobAxiDriver::msg_count` reads the 64-bit counter in two registers, low word first, while
messages are counted. Nothing is read again.

A call is surrounded by increments: some before its first read, some between its reads and
some before it returns. A run is a sequence of calls, with increments between them as well.

## Main results

* `linearizable_iff` — when the result is a value the counter had during the call
* `msg_count_linearizable_iff` — the same for every call of a run, and for the order of results
-/

set_option autoImplicit false

namespace HftKr260

open Foundation

/-- A message is counted. -/
def TobDevice.countMessage (d : TobDevice) (_ : Unit) : TobDevice :=
  { d with status := { d.status with msgCount := d.status.msgCount + 1 } }

/-- The increments around a call: since the call before it, before its first read, between its
reads, and before its return. -/
structure CallGaps where
  idle : ℕ
  before : ℕ
  between : ℕ
  behind : ℕ
  deriving DecidableEq, Repr

/-- The increments before the first read, before the second and behind it. -/
def CallGaps.schedule (g : CallGaps) : ℕ → List Unit
  | 0 => List.replicate g.before ()
  | 1 => List.replicate g.between ()
  | _ => List.replicate g.behind ()

def CallGaps.total (g : CallGaps) : ℕ := g.idle + g.before + g.between + g.behind

namespace TobAxiDriver

def msgCount : RegProgram (BitVec 64) := do
  let lo ← readReg TobAxiLite.regMsgCntLo
  let hi ← readReg TobAxiLite.regMsgCntHi
  pure (hi.setWidth 64 <<< 32 ||| lo.setWidth 64)

/-- `n` messages are counted. -/
def countMessages (n : ℕ) (d : TobDevice) : TobDevice :=
  (List.replicate n ()).foldl TobDevice.countMessage d

/-- A call on the device as it is at the start. -/
def call (d : TobDevice) (g : CallGaps) : ReadProgram.Outcome TobDevice (BitVec 64) :=
  msgCount.exec TobDevice.respond TobDevice.countMessage g.schedule 0
    (countMessages g.idle d)

/-- The device at the return. -/
def leave (d : TobDevice) (g : CallGaps) : TobDevice := countMessages g.behind (call d g).state

/-- The devices between the start of a call and its return. -/
def during (d : TobDevice) (g : CallGaps) : List TobDevice :=
  (call d g).seen ++
    (g.schedule (call d g).count).scanl TobDevice.countMessage (call d g).state

/-- The call returns a value the counter had between its start and its return. -/
def Linearizable (d : TobDevice) (g : CallGaps) : Prop :=
  (call d g).value ∈ (during d g).map fun s => s.status.msgCount

instance (d : TobDevice) (g : CallGaps) : Decidable (Linearizable d g) :=
  inferInstanceAs (Decidable (_ ∈ _))

/-! ### Counting -/

theorem countMessage_add (d : TobDevice) (m : ℕ) :
    (d.countMessage ()).status.msgCount + BitVec.ofNat 64 m =
      d.status.msgCount + BitVec.ofNat 64 (m + 1) := by
  rw [Nat.add_comm m 1, BitVec.ofNat_add, ← BitVec.add_assoc]
  rfl

@[simp] theorem msgCount_countMessages (n : ℕ) (d : TobDevice) :
    (countMessages n d).status.msgCount = d.status.msgCount + BitVec.ofNat 64 n := by
  induction n generalizing d with
  | zero => simp [countMessages]
  | succ n ih => exact (ih (d.countMessage ())).trans (countMessage_add d n)

/-- The values of the counter while messages are counted. -/
theorem mem_scanl_countMessage {n : ℕ} {d : TobDevice} {c : BitVec 64} :
    c ∈ ((List.replicate n ()).scanl TobDevice.countMessage d).map (fun s => s.status.msgCount) ↔
      ∃ m ≤ n, c = d.status.msgCount + BitVec.ofNat 64 m := by
  induction n generalizing d with
  | zero => simp
  | succ n ih =>
    rw [List.replicate_succ, List.scanl_cons, List.map_cons, List.mem_cons, ih]
    constructor
    · rintro (rfl | ⟨m, hm, rfl⟩)
      · exact ⟨0, Nat.zero_le _, by simp⟩
      · exact ⟨m + 1, Nat.succ_le_succ hm, countMessage_add d m⟩
    · rintro ⟨m, hm, rfl⟩
      cases m with
      | zero => exact .inl (by simp)
      | succ m => exact .inr ⟨m, Nat.le_of_succ_le_succ hm, (countMessage_add d m).symm⟩

/-- The two words joined. -/
theorem toNat_join (lo hi : BitVec 32) :
    (hi.setWidth 64 <<< 32 ||| lo.setWidth 64).toNat = hi.toNat * 2 ^ 32 + lo.toNat := by
  have hlt : hi.toNat * 2 ^ 32 < 2 ^ 64 := by
    have := hi.isLt
    omega
  have hor := Nat.two_pow_add_eq_or_of_lt lo.isLt hi.toNat
  rw [BitVec.toNat_or, BitVec.toNat_shiftLeft, BitVec.toNat_setWidth_of_le (by decide),
    BitVec.toNat_setWidth_of_le (by decide), Nat.shiftLeft_eq, Nat.mod_eq_of_lt hlt, Nat.mul_comm,
    ← hor]

theorem eq_add_ofNat_iff {c c₀ : BitVec 64} {m : ℕ} :
    c = c₀ + BitVec.ofNat 64 m ↔ c.toNat ≡ c₀.toNat + m [MOD 2 ^ 64] := by
  rw [← BitVec.toNat_inj, BitVec.toNat_add, BitVec.toNat_ofNat, Nat.add_mod_mod, Nat.ModEq,
    Nat.mod_eq_of_lt c.isLt]

/-! ### One call -/

section Call

variable (d : TobDevice) (g : CallGaps)

/-- The device when the call starts, at its two reads and at its return. -/
def atStart : TobDevice := countMessages g.idle d
def atLo : TobDevice := countMessages g.before (atStart d g)
def atHi : TobDevice := countMessages g.between (atLo d g)

theorem call_state : (call d g).state = atHi d g := rfl

theorem call_value :
    (call d g).value =
      ((atHi d g).status.msgCount.extractLsb 63 32).setWidth 64 <<< 32 |||
        ((atLo d g).status.msgCount.extractLsb 31 0).setWidth 64 := rfl

theorem during_eq :
    during d g =
      (List.replicate g.before ()).scanl TobDevice.countMessage (atStart d g) ++
        ((List.replicate g.between ()).scanl TobDevice.countMessage (atLo d g) ++ []) ++
        (List.replicate g.behind ()).scanl TobDevice.countMessage (atHi d g) := rfl

/-- The result is the low word at the first read and the high word at the second. -/
theorem toNat_call_value :
    (call d g).value.toNat =
      splitRead (2 ^ 32) ((atStart d g).status.msgCount.toNat + g.before) g.between := by
  rw [call_value, toNat_join, splitRead, BitVec.extractLsb_toNat, BitVec.extractLsb_toNat, atHi,
    atLo, msgCount_countMessages, msgCount_countMessages, BitVec.toNat_add, BitVec.toNat_add,
    BitVec.toNat_ofNat, BitVec.toNat_ofNat, Nat.shiftRight_eq_div_pow, Nat.shiftRight_zero]
  omega

/-- The values of the counter during the call. -/
theorem mem_during {c : BitVec 64} :
    c ∈ (during d g).map (fun s => s.status.msgCount) ↔
      ∃ m ≤ g.before + g.between + g.behind,
        c.toNat ≡ (atStart d g).status.msgCount.toNat + m [MOD 2 ^ 64] := by
  simp only [during_eq, List.append_nil, List.map_append, List.mem_append,
    mem_scanl_countMessage, atHi, atLo, msgCount_countMessages, ← eq_add_ofNat_iff]
  -- a moment is before the first read, between the reads or behind them
  constructor
  · rintro ((⟨m, hm, rfl⟩ | ⟨m, hm, rfl⟩) | ⟨m, hm, rfl⟩)
    · exact ⟨m, by omega, rfl⟩
    · refine ⟨g.before + m, by omega, ?_⟩
      rw [BitVec.ofNat_add, BitVec.add_assoc]
    · refine ⟨g.before + g.between + m, by omega, ?_⟩
      rw [BitVec.ofNat_add, BitVec.ofNat_add, BitVec.add_assoc, BitVec.add_assoc, BitVec.add_assoc]
  · rintro ⟨m, hm, rfl⟩
    rcases Nat.le_total m g.before with hlo | hlo
    · exact .inl (.inl ⟨m, hlo, rfl⟩)
    · obtain ⟨m, rfl⟩ := Nat.exists_eq_add_of_le hlo
      rw [BitVec.ofNat_add, ← BitVec.add_assoc]
      rcases Nat.le_total m g.between with hhi | hhi
      · exact .inl (.inr ⟨m, hhi, rfl⟩)
      · obtain ⟨m, rfl⟩ := Nat.exists_eq_add_of_le hhi
        rw [BitVec.ofNat_add, ← BitVec.add_assoc]
        exact .inr ⟨m, by omega, rfl⟩

/-- The wraps of the low word between the reads are made up for behind the first read, or what
they lack of a whole turn before it. Without a wrap this always holds, and with one it takes
`2 ^ 32` increments within the call. -/
def Untorn (start : BitVec 64) (g : CallGaps) : Prop :=
  let turns := wraps (2 ^ 32) (start.toNat + g.before) g.between % 2 ^ 32
  2 ^ 32 * turns ≤ g.between + g.behind ∨ 2 ^ 32 * ((2 ^ 32 - turns) % 2 ^ 32) ≤ g.before

theorem untorn_of_not_wraps {start : BitVec 64} {g : CallGaps}
    (h : (start.toNat + g.before) % 2 ^ 32 + g.between < 2 ^ 32) : Untorn start g := by
  refine .inl ?_
  rw [wraps, Nat.div_eq_of_lt h]
  exact Nat.zero_le _

/-- **One call** returns a value the counter had during the call, exactly if it is not torn. -/
theorem linearizable_iff :
    Linearizable d g ↔ Untorn (atStart d g).status.msgCount g := by
  rw [Linearizable, mem_during, toNat_call_value]
  exact splitRead_moment_iff (by decide) _ _ _ _

end Call

/-! ### Runs of calls -/

/-- The calls of a run, each with the device the call before it left. -/
def calls (d : TobDevice) : List CallGaps → List (TobDevice × CallGaps)
  | [] => []
  | g :: gs => (d, g) :: calls (leave d g) gs

/-- The results of a run. -/
def results (d : TobDevice) (gs : List CallGaps) : List (BitVec 64) :=
  (calls d gs).map fun x => (call x.1 x.2).value

/-- The increments of a run. -/
def totalCount (gs : List CallGaps) : ℕ := (gs.map CallGaps.total).sum

section Runs

variable {d : TobDevice} {g : CallGaps} {gs : List CallGaps}

theorem msgCount_leave (d : TobDevice) (g : CallGaps) :
    (leave d g).status.msgCount = d.status.msgCount + BitVec.ofNat 64 g.total := by
  rw [leave, call_state, atHi, atLo, atStart, CallGaps.total]
  simp only [msgCount_countMessages, BitVec.ofNat_add, BitVec.add_assoc]

theorem toNat_leave (hfits : d.status.msgCount.toNat + g.total < 2 ^ 64) :
    (leave d g).status.msgCount.toNat = d.status.msgCount.toNat + g.total := by
  rw [msgCount_leave, BitVec.toNat_add, BitVec.toNat_ofNat]
  omega

/-- A moment of a call lies between the counter before the call and the one it leaves. -/
theorem Linearizable.bounds (h : Linearizable d g)
    (hfits : d.status.msgCount.toNat + g.total < 2 ^ 64) :
    d.status.msgCount.toNat ≤ (call d g).value.toNat ∧
      (call d g).value.toNat ≤ (leave d g).status.msgCount.toNat := by
  obtain ⟨m, hm, hmoment⟩ := (mem_during d g).mp h
  have hlt := (call d g).value.isLt
  rw [atStart, msgCount_countMessages, BitVec.toNat_add, BitVec.toNat_ofNat, Nat.ModEq] at hmoment
  rw [msgCount_leave, BitVec.toNat_add, BitVec.toNat_ofNat]
  rw [CallGaps.total] at hfits ⊢
  omega

/-- The first call of a run, and what it leaves to the later ones. -/
theorem first_call (hlin : ∀ x ∈ calls d (g :: gs), Linearizable x.1 x.2)
    (hfits : d.status.msgCount.toNat + totalCount (g :: gs) < 2 ^ 64) :
    (d.status.msgCount.toNat ≤ (call d g).value.toNat ∧
        (call d g).value.toNat ≤ (leave d g).status.msgCount.toNat) ∧
      (∀ x ∈ calls (leave d g) gs, Linearizable x.1 x.2) ∧
        (leave d g).status.msgCount.toNat + totalCount gs < 2 ^ 64 := by
  have htotal : totalCount (g :: gs) = g.total + totalCount gs := rfl
  have hcall : Linearizable d g := hlin (d, g) List.mem_cons_self
  have hleave : (leave d g).status.msgCount.toNat = d.status.msgCount.toNat + g.total :=
    toNat_leave (by omega)
  exact ⟨hcall.bounds (by omega), fun x hx => hlin x (List.mem_cons_of_mem _ hx), by omega⟩

/-- While the counter does not wrap, no result is below the counter before the run. -/
theorem le_of_mem_results (hlin : ∀ x ∈ calls d gs, Linearizable x.1 x.2)
    (hfits : d.status.msgCount.toNat + totalCount gs < 2 ^ 64) :
    ∀ r ∈ results d gs, d.status.msgCount ≤ r := by
  induction gs generalizing d with
  | nil => exact fun r hr => absurd hr List.not_mem_nil
  | cons g gs ih =>
    obtain ⟨⟨hlo, hhi⟩, hlater, hrest⟩ := first_call hlin hfits
    intro r hr
    rcases List.mem_cons.mp hr with rfl | hr
    · exact hlo
    · -- a later result is no lower than the counter this call leaves
      exact Nat.le_trans (hlo.trans hhi) (ih hlater hrest r hr)

/-- Results of linearizable calls do not decrease while the counter does not wrap. -/
theorem pairwise_results (hlin : ∀ x ∈ calls d gs, Linearizable x.1 x.2)
    (hfits : d.status.msgCount.toNat + totalCount gs < 2 ^ 64) :
    (results d gs).Pairwise (· ≤ ·) := by
  induction gs generalizing d with
  | nil => exact List.Pairwise.nil
  | cons g gs ih =>
    obtain ⟨⟨-, hhi⟩, hlater, hrest⟩ := first_call hlin hfits
    refine List.Pairwise.cons (fun r hr => ?_) (ih hlater hrest)
    exact Nat.le_trans hhi (le_of_mem_results hlater hrest r hr)

end Runs

/-- **Linearizability.** Every call of a run returns a value the counter had during the call, and
the results do not decrease unless the counter itself wraps, exactly if no call is torn. -/
theorem msg_count_linearizable_iff (d : TobDevice) (gs : List CallGaps) :
    ((∀ x ∈ calls d gs, Linearizable x.1 x.2) ∧
        (d.status.msgCount.toNat + totalCount gs < 2 ^ 64 →
          (results d gs).Pairwise (· ≤ ·))) ↔
      ∀ x ∈ calls d gs, Untorn (atStart x.1 x.2).status.msgCount x.2 := by
  constructor
  · exact fun h x hx => (linearizable_iff x.1 x.2).mp (h.1 x hx)
  · intro h
    have hlin : ∀ x ∈ calls d gs, Linearizable x.1 x.2 := fun x hx =>
      (linearizable_iff x.1 x.2).mpr (h x hx)
    exact ⟨hlin, pairwise_results hlin⟩

/-- The counter at its last value before the carry, and one message between the reads: the
result is `2 ^ 32` too high, and the next call returns less. -/
theorem msg_count_torn :
    let d : TobDevice := ⟨{ (default : TobStatus) with msgCount := 0xFFFFFFFF }, false, false⟩
    let gs : List CallGaps := [⟨0, 0, 1, 0⟩, ⟨0, 0, 0, 0⟩]
    results d gs = [0x1FFFFFFFF, 0x100000000] ∧
      ¬ ((∀ x ∈ calls d gs, Linearizable x.1 x.2) ∧
        (d.status.msgCount.toNat + totalCount gs < 2 ^ 64 →
          (results d gs).Pairwise (· ≤ ·))) := by
  refine ⟨by decide, fun h => ?_⟩
  exact absurd (h.1 _ List.mem_cons_self) (by decide)

end TobAxiDriver

end HftKr260
