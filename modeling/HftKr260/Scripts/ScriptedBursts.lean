import HftKr260.Scripts.Bursts

/-!
# Every burst can come

For each burst there are draws that make the generator produce it, so what is proved of bursts
is proved of no more than the generator can send.

## Main results

* `generateBurst_exact` — the generator produces the bursts and nothing else
-/

set_option autoImplicit false

namespace HftKr260

namespace Demo

open Foundation

/-! ### Every burst can come -/

/-- The generator that draws what is written down, where that is in range. -/
def scripted : Random (List ℤ) where
  randint a b s := (if a ≤ s.headI ∧ s.headI ≤ b then s.headI else a, s.tail)
  random s := (if s.headI.toNat < 2 ^ 53 then s.headI.toNat else 0, s.tail)
  randbelow n s := (if s.headI.toNat < n then s.headI.toNat else 0, s.tail)
  randint_mem := by
    intro a b s hab
    dsimp only
    split_ifs with h
    · exact h
    · exact ⟨le_rfl, hab⟩
  random_lt := by
    intro s
    dsimp only
    split_ifs with h
    · exact h
    · exact Nat.two_pow_pos 53
  randbelow_lt := by
    intro n s hn
    dsimp only
    split_ifs with h
    · exact h
    · exact hn

section Scripts

variable {rest : List ℤ}

theorem scripted_randint {a b x : ℤ} (ha : a ≤ x) (hb : x ≤ b) :
    scripted.randint a b (x :: rest) = (x, rest) := by
  simp [scripted, ha, hb]

theorem scripted_random {k : ℕ} (hk : k < 2 ^ 53) :
    scripted.random ((k : ℤ) :: rest) = (k, rest) := by
  have hhead : (((k : ℤ) :: rest).headI).toNat = k := Int.toNat_natCast k
  simp only [scripted, hhead, if_pos hk]
  rfl

theorem scripted_choice {α : Type} [DecidableEq α] {seq : List α} {x : α} (h : x ∈ seq) :
    scripted.choice seq ((seq.idxOf x : ℤ) :: rest) = some (x, rest) := by
  have hlt := List.idxOf_lt_length_iff.mpr h
  have hhead : (((seq.idxOf x : ℤ) :: rest).headI).toNat = seq.idxOf x := Int.toNat_natCast _
  have hdraw : scripted.randbelow seq.length ((seq.idxOf x : ℤ) :: rest) = (seq.idxOf x, rest) := by
    simp only [scripted, hhead, if_pos hlt]
    rfl
  rw [Random.choice, hdraw, List.getElem?_eq_getElem hlt, List.getElem_idxOf hlt]
  rfl

end Scripts

/-! The draws behind each message. -/

def choiceDraw (seq : List ℤ) (v : ℕ) : ℤ := seq.idxOf (v : ℤ)

def addDraws (a : MsgAddOrder) : List ℤ :=
  if a.side = charB then
    [0, 10000 - a.price.toInt, choiceDraw [100, 200, 300, 500] a.quantity.toNat]
  else
    [oneHalf, a.price.toInt - 10000, choiceDraw [100, 200, 300, 500] a.quantity.toNat]

def executeDraws (live : List ℕ) (e : MsgExecute) : List ℤ :=
  [choiceDraw (live.map Nat.cast) e.orderRef.toNat, choiceDraw [100, 200] e.executedQty.toNat]

def deleteDraws (live : List ℕ) (d : MsgDeleteOrder) : List ℤ :=
  [choiceDraw (live.map Nat.cast) d.orderRef.toNat]

namespace BurstState

variable {s : BurstState (List ℤ)} {ms : List Msg} {rest : List ℤ}

theorem ofInt_toNat {w : ℕ} (x : BitVec w) : BitVec.ofInt w (x.toNat : ℤ) = x := by
  rw [BitVec.ofInt_natCast, BitVec.ofNat_toNat, BitVec.setWidth_eq]

theorem fits_toNat {w : ℕ} (x : BitVec w) : Fits w (x.toNat : ℤ) :=
  ⟨Int.natCast_nonneg _, by exact_mod_cast x.isLt⟩

/-- The Add the script asks for, once the draws have named its side and price. -/
theorem scripted_add_of_quote {a : MsgAddOrder} (side : Side) {k : ℕ} {rng : List ℤ}
    (hts : s.ts = a.timestampNs.toNat) (href : s.refCounter = a.orderRef.toNat)
    (hqty : a.quantity.toNat ∈ [100, 200, 300, 500]) (hbyte : sideByte side = a.side)
    (hrng : scripted.random s.rng = (k, rng))
    (hside : side = if k < oneHalf then Side.bid else .ask)
    (hquote : scripted.quote side rng =
      (a.price.toInt, choiceDraw [100, 200, 300, 500] a.quantity.toNat :: rest)) :
    ∃ s', s.emitAdd scripted = some s' ∧ s'.rng = rest ∧
      s'.buf = s.buf ++ (Msg.add a).encode := by
  have hdraw : (a.quantity.toNat : ℤ) ∈ ([100, 200, 300, 500] : List ℤ) := by
    simp only [List.mem_cons, List.not_mem_nil, or_false] at hqty ⊢
    omega
  have hadd : addOf s.ts s.refCounter side a.quantity.toNat a.price.toInt = a := by
    rw [addOf, hts, href, hbyte, ofInt_toNat, ofInt_toNat, ofInt_toNat, BitVec.ofInt_toInt]
  have hbounds : -2 ^ 63 ≤ a.price.toInt ∧ a.price.toInt < 2 ^ 63 :=
    ⟨BitVec.le_toInt a.price, BitVec.toInt_lt⟩
  refine ⟨_, emitAdd_eq_some_iff.mpr ⟨side, a.price.toInt, a.quantity.toNat, rest, _, ?_, ?_, ?_,
    buildAdd_eq_some_iff.mpr ⟨⟨hts ▸ fits_toNat _, href ▸ fits_toNat _, fits_toNat _, hbounds⟩,
      rfl⟩, rfl⟩, rfl, ?_⟩
  · rw [hrng, hside]
  · rw [hrng, hquote]
  · rw [hrng, hquote]
    exact scripted_choice hdraw
  · rw [hadd]

theorem scripted_add {a : MsgAddOrder} (hts : s.ts = a.timestampNs.toNat)
    (href : s.refCounter = a.orderRef.toNat) (hquoted : Quoted a)
    (hrng : s.rng = addDraws a ++ rest) :
    ∃ s', s.emitAdd scripted = some s' ∧ s'.rng = rest ∧
      s'.buf = s.buf ++ (Msg.add a).encode := by
  -- zero draws a bid, one half an ask
  rcases hquoted.price with ⟨hside, hlo, hhi⟩ | ⟨hside, hlo, hhi⟩
  · rw [addDraws, if_pos hside] at hrng
    have hrandom : scripted.random s.rng = (0, (10000 - a.price.toInt) ::
        choiceDraw [100, 200, 300, 500] a.quantity.toNat :: rest) := by
      rw [hrng]
      exact scripted_random (k := 0) (by decide)
    refine scripted_add_of_quote .bid hts href hquoted.quantity hside.symm hrandom
      (by decide) ?_
    rw [Random.quote, scripted_randint (by omega) (by omega), sub_sub_cancel]
  · have hne : a.side ≠ charB := by
      rw [hside]
      decide
    rw [addDraws, if_neg hne] at hrng
    have hrandom : scripted.random s.rng = (oneHalf, (a.price.toInt - 10000) ::
        choiceDraw [100, 200, 300, 500] a.quantity.toNat :: rest) := by
      rw [hrng]
      exact scripted_random (by decide)
    refine scripted_add_of_quote .ask hts href hquoted.quantity hside.symm hrandom
      (by decide) ?_
    rw [Random.quote, scripted_randint (by omega) (by omega), add_sub_cancel]

theorem scripted_execute {e : MsgExecute} (hts : s.ts = e.timestampNs.toNat)
    (hkeys : s.activeRefs.map Prod.fst = (liveRefs ms).map Nat.cast)
    (href : e.orderRef.toNat ∈ liveRefs ms) (hqty : e.executedQty.toNat ∈ [100, 200])
    (hrng : s.rng = executeDraws (liveRefs ms) e ++ rest) :
    ∃ s', s.emitExecute scripted = some s' ∧ s'.rng = rest ∧
      s'.buf = s.buf ++ (Msg.execute e).encode := by
  have hdraw : (e.executedQty.toNat : ℤ) ∈ ([100, 200] : List ℤ) := by
    simp only [List.mem_cons, List.not_mem_nil, or_false] at hqty ⊢
    omega
  have hexecute : executeOf s.ts e.orderRef.toNat e.executedQty.toNat = e := by
    rw [executeOf, hts, ofInt_toNat, ofInt_toNat, ofInt_toNat]
  refine ⟨_, emitExecute_eq_some_iff.mpr ⟨e.orderRef.toNat, _, e.executedQty.toNat, rest, _, ?_,
    scripted_choice hdraw, buildExecute_eq_some_iff.mpr
      ⟨⟨hts ▸ fits_toNat _, fits_toNat _, fits_toNat _⟩, rfl⟩, rfl⟩, rfl, ?_⟩
  · rw [hkeys, hrng]
    exact scripted_choice (List.mem_map_of_mem href)
  · rw [hexecute]

theorem scripted_delete {d : MsgDeleteOrder} (hts : s.ts = d.timestampNs.toNat)
    (hkeys : s.activeRefs.map Prod.fst = (liveRefs ms).map Nat.cast)
    (href : d.orderRef.toNat ∈ liveRefs ms)
    (hrng : s.rng = deleteDraws (liveRefs ms) d ++ rest) :
    ∃ s', s.emitDelete scripted = some s' ∧ s'.rng = rest ∧
      s'.buf = s.buf ++ (Msg.delete d).encode := by
  have hdelete : deleteOf s.ts d.orderRef.toNat = d := by
    rw [deleteOf, hts, ofInt_toNat, ofInt_toNat]
  refine ⟨_, emitDelete_eq_some_iff.mpr ⟨d.orderRef.toNat, rest, _, ?_,
    buildDelete_eq_some_iff.mpr ⟨⟨hts ▸ fits_toNat _, fits_toNat _⟩, rfl⟩, rfl⟩, rfl, ?_⟩
  · rw [hkeys, hrng]
    exact scripted_choice (List.mem_map_of_mem href)
  · rw [hdelete]

/-- The draw of the gap. -/
def gapDraw (ms : List Msg) (m : Msg) : ℤ := stamp m - lastStamp ms

/-- What is sent, and that the script has been used up to here. -/
def Sends (s : BurstState (List ℤ)) (m : Msg) (rest : List ℤ) : Prop :=
  ∃ s', s.step scripted = some s' ∧ s'.rng = rest ∧ s'.buf = s.buf ++ m.encode

/-- Behind the gap the timestamp is the message's. -/
theorem advance_eq (h : s.Sent ms) {m : Msg} (hts : Spaced ms m) {tail : List ℤ}
    (hrng : s.rng = gapDraw ms m :: tail) :
    s.advance scripted = { s with ts := (stamp m : ℤ), rng := tail } := by
  have hgap := hts
  have hnow := h.ts
  unfold Spaced at hgap
  have hdraw : scripted.randint 100 10000 s.rng = ((stamp m : ℤ) - lastStamp ms, tail) := by
    rw [hrng, gapDraw]
    exact scripted_randint (by omega) (by omega)
  simp only [advance, hdraw, hnow, add_sub_cancel]

theorem Sent.length_activeRefs (h : s.Sent ms) :
    s.activeRefs.length = (liveRefs ms).length := by
  have hlen := congrArg List.length h.keys
  simpa only [List.length_map] using hlen

theorem Sent.sends_add (h : s.Sent ms) {a : MsgAddOrder} (hts : Spaced ms (.add a))
    (href : a.orderRef.toNat = addCount ms + 1) (hquoted : Quoted a)
    (hrng : s.rng = gapDraw ms (.add a) ::
      ((if (liveRefs ms).length < 20 then [] else [0]) ++ (addDraws a ++ rest))) :
    s.Sends (.add a) rest := by
  have hcount : s.refCounter = a.orderRef.toNat := by
    have hcounter := h.refCounter
    omega
  rw [Sends, BurstState.step, advance_eq h hts hrng, decidesAdd]
  -- the draw of the decision is made only with twenty orders in use
  by_cases hfew : (liveRefs ms).length < 20
  · simp only [h.length_activeRefs, hfew, if_true]
    exact scripted_add rfl hcount hquoted rfl
  · have hrandom : scripted.random (0 :: (addDraws a ++ rest)) = (0, addDraws a ++ rest) :=
      scripted_random (k := 0) (by decide)
    simp only [h.length_activeRefs, hfew, if_false, List.singleton_append, hrandom,
      show 0 < sixTenths by decide, decide_true, if_true]
    exact scripted_add rfl hcount hquoted rfl

/-- With enough orders in use the script may decide against an Add. -/
theorem Sent.sends_other (h : s.Sent ms) {m : Msg} (hts : Spaced ms m)
    (hlive : 20 ≤ (liveRefs ms).length) {k : ℕ} (hk : k < 2 ^ 53) {draws : List ℤ}
    (hrng : s.rng = gapDraw ms m :: (2 ^ 53 - 1 : ℕ) :: (k : ℤ) :: draws)
    (hsends : ∃ s', (if k < oneHalf then
        ({ s with ts := (stamp m : ℤ), rng := draws } : BurstState (List ℤ)).emitExecute scripted
      else
        ({ s with ts := (stamp m : ℤ), rng := draws } : BurstState (List ℤ)).emitDelete scripted) =
          some s' ∧ s'.rng = rest ∧ s'.buf = s.buf ++ m.encode) :
    s.Sends m rest := by
  have hlen := h.length_activeRefs
  have hne : s.activeRefs ≠ [] := by
    intro hnil
    rw [hnil] at hlen
    simp only [List.length_nil] at hlen
    omega
  rw [Sends, BurstState.step, advance_eq h hts hrng, decidesAdd]
  simp only [hlen, Nat.not_lt.mpr hlive, if_false, scripted_random (k := 2 ^ 53 - 1) (by decide),
    show ¬ (2 ^ 53 - 1 < sixTenths) by decide, decide_false, Bool.false_eq_true, emitOther,
    scripted_random hk, hne, ne_eq, not_false_eq_true, and_true, if_true]
  exact hsends

/-- What is sent has been sent. -/
theorem Sent.of_sends (h : s.Sent ms) {m : Msg} (hsends : s.Sends m rest) :
    ∃ s', s.step scripted = some s' ∧ s'.rng = rest ∧ s'.Sent (ms ++ [m]) := by
  obtain ⟨s', hstep, hrng, hbuf⟩ := hsends
  -- some message is sent, and it is the one whose bytes were appended
  obtain ⟨m', hsent⟩ := h.step hstep
  have hstream : stream (ms ++ [m']) = stream (ms ++ [m]) := by
    rw [← hsent.buf, hbuf, h.buf, stream_concat]
  obtain rfl : m' = m := by simpa using stream_injective hstream
  exact ⟨s', hstep, hrng, hsent⟩

end BurstState

/-- Every burst has a script. -/
theorem Burst.exists_script {ms : List Msg} (h : Burst ms) :
    ∃ script, ∀ rest, ∃ s, burstLoop scripted (script ++ rest) ms.length = some s ∧
      s.rng = rest ∧ s.Sent ms := by
  have hmore {ms : List Msg} {m : Msg} (draws : List ℤ)
      (ih : ∃ script, ∀ rest, ∃ s, burstLoop scripted (script ++ rest) ms.length = some s ∧
        s.rng = rest ∧ s.Sent ms)
      (hsends : ∀ (s : BurstState (List ℤ)) (rest : List ℤ), s.Sent ms → s.rng = draws ++ rest →
        s.Sends m rest) :
      ∃ script, ∀ rest, ∃ s, burstLoop scripted (script ++ rest) (ms ++ [m]).length = some s ∧
        s.rng = rest ∧ s.Sent (ms ++ [m]) := by
    obtain ⟨script, hscript⟩ := ih
    refine ⟨script ++ draws, fun rest => ?_⟩
    obtain ⟨s, hloop, hrng, hsent⟩ := hscript (draws ++ rest)
    obtain ⟨s', hstep, hrng', hsent'⟩ := hsent.of_sends (hsends s rest hsent hrng)
    refine ⟨s', ?_, hrng', hsent'⟩
    rw [List.append_assoc, List.length_append, List.length_singleton, burstLoop, hloop]
    exact hstep
  induction h with
  | start => exact ⟨[], fun rest => ⟨_, rfl, rfl, ⟨.start, rfl, rfl, rfl, rfl⟩⟩⟩
  | @add ms a h hts href hquoted ih =>
    refine hmore (BurstState.gapDraw ms (.add a) ::
      ((if (liveRefs ms).length < 20 then [] else [0]) ++ addDraws a)) ih ?_
    intro s rest hsent hrng
    refine hsent.sends_add hts href hquoted (hrng.trans ?_)
    rw [List.cons_append, List.append_assoc]
  | @execute ms e h hts hlive href hqty ih =>
    refine hmore (BurstState.gapDraw ms (.execute e) :: (2 ^ 53 - 1 : ℕ) :: ((0 : ℕ) : ℤ) ::
      executeDraws (liveRefs ms) e) ih ?_
    intro s rest hsent hrng
    refine hsent.sends_other hts hlive (by decide) hrng ?_
    rw [if_pos (by decide)]
    exact BurstState.scripted_execute rfl hsent.keys href hqty rfl
  | @delete ms d h hts hlive href ih =>
    refine hmore (BurstState.gapDraw ms (.delete d) :: (2 ^ 53 - 1 : ℕ) :: (oneHalf : ℤ) ::
      deleteDraws (liveRefs ms) d) ih ?_
    intro s rest hsent hrng
    refine hsent.sends_other hts hlive (by decide) hrng ?_
    rw [if_neg (Nat.lt_irrefl _)]
    exact BurstState.scripted_delete rfl hsent.keys href rfl

/-! ### The generator -/

/-- What `generate_burst` returns when asked for `n` messages. -/
structure GeneratesBursts (n : ℕ) : Prop where
  /-- A burst of `n` messages, whenever it returns. -/
  sound : ∀ (σ : Type) (R : Random σ) (seeded : σ) (buf : List Byte),
    generateBurst R seeded n = some buf → ∃ ms, Burst ms ∧ ms.length = n ∧ buf = stream ms
  /-- Any of them. -/
  complete : ∀ ms, Burst ms → ms.length = n →
    ∃ (σ : Type) (R : Random σ) (seeded : σ), generateBurst R seeded n = some (stream ms)
  /-- It returns as long as the latest timestamp that is possible fits. -/
  returns : 34200000000000 + 10000 * n < 2 ^ 64 →
    ∀ (σ : Type) (R : Random σ) (seeded : σ), ∃ buf, generateBurst R seeded n = some buf

/-- **The generator produces the bursts**, for every generator of random numbers and seed. -/
theorem generateBurst_exact (n : ℕ) : GeneratesBursts n where
  sound := by
    intro σ R seeded buf h
    obtain ⟨s, hs, rfl⟩ := Option.map_eq_some_iff.mp h
    obtain ⟨ms, hsent, hlen⟩ := sent_burstLoop hs
    exact ⟨ms, hsent.burst, hlen, hsent.buf⟩
  complete := by
    rintro ms h rfl
    obtain ⟨script, hscript⟩ := h.exists_script
    obtain ⟨s, hloop, -, hsent⟩ := hscript []
    refine ⟨List ℤ, scripted, script ++ [], ?_⟩
    rw [generateBurst, hloop, Option.map_some, hsent.buf]
  returns := by
    intro hn σ R seeded
    obtain ⟨s, hs⟩ := exists_burstLoop (R := R) hn seeded
    exact ⟨s.buf, by rw [generateBurst, hs]; rfl⟩

end Demo

end HftKr260
