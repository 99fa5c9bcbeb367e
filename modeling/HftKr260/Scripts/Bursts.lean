import HftKr260.Scripts.GenerateBurst

/-!
# Bursts

The message lists that `generate_burst` is meant to produce, and that it produces no others: one
round of its loop appends one message that may come next.

## Main results

* `Burst` — these lists
* `sent_burstLoop` — what the loop has sent is a burst
* `exists_burstLoop` — the loop returns while the timestamps fit
-/

set_option autoImplicit false

namespace HftKr260

namespace Demo

open Foundation

/-! ### Bursts -/

/-- The timestamp of a message. -/
def stamp : Msg → ℕ
  | .add m => m.timestampNs.toNat
  | .update m => m.timestampNs.toNat
  | .delete m => m.timestampNs.toNat
  | .execute m => m.timestampNs.toNat
  | .trade m => m.timestampNs.toNat

/-- The timestamp of the last message, or the time the generator starts at. -/
def lastStamp (ms : List Msg) : ℕ := ((ms.map stamp).getLast?).getD 34200000000000

/-- What a message does to the references in use. -/
def useStep (live : List ℕ) : Msg → List ℕ
  | .add a => live ++ [a.orderRef.toNat]
  | .delete d => live.erase d.orderRef.toNat
  | _ => live

/-- The references added and not deleted. -/
def liveRefs (ms : List Msg) : List ℕ := ms.foldl useStep []

/-- The number of Adds. -/
def addCount (ms : List Msg) : ℕ :=
  ms.countP fun
    | .add _ => true
    | _ => false

/-- A new order: bids up to twenty ticks below the base, asks up to twenty above it. -/
structure Quoted (a : MsgAddOrder) : Prop where
  price : a.side = charB ∧ 9980 ≤ a.price.toInt ∧ a.price.toInt ≤ 10000 ∨
    a.side = charS ∧ 10001 ≤ a.price.toInt ∧ a.price.toInt ≤ 10020
  quantity : a.quantity.toNat ∈ [100, 200, 300, 500]

/-- The gap before a message. -/
def Spaced (ms : List Msg) (m : Msg) : Prop :=
  lastStamp ms + 100 ≤ stamp m ∧ stamp m ≤ lastStamp ms + 10000

/-- The message lists of the generator. References count up from one, and an Execute or a Delete
names one in use while twenty are. -/
inductive Burst : List Msg → Prop
  | start : Burst []
  | add {ms : List Msg} {a : MsgAddOrder} (h : Burst ms) (hts : Spaced ms (.add a))
      (href : a.orderRef.toNat = addCount ms + 1) (hquoted : Quoted a) : Burst (ms ++ [.add a])
  | execute {ms : List Msg} {e : MsgExecute} (h : Burst ms) (hts : Spaced ms (.execute e))
      (hlive : 20 ≤ (liveRefs ms).length) (href : e.orderRef.toNat ∈ liveRefs ms)
      (hqty : e.executedQty.toNat ∈ [100, 200]) : Burst (ms ++ [.execute e])
  | delete {ms : List Msg} {d : MsgDeleteOrder} (h : Burst ms) (hts : Spaced ms (.delete d))
      (hlive : 20 ≤ (liveRefs ms).length) (href : d.orderRef.toNat ∈ liveRefs ms) :
      Burst (ms ++ [.delete d])

/-- A burst of a bid and an ask. -/
def bidAndAsk : List Msg :=
  [.add ⟨34200000000100, 1, charB, 100, 9990⟩, .add ⟨34200000000200, 2, charS, 200, 10010⟩]

theorem burst_bidAndAsk : Burst bidAndAsk := by
  refine .add (.add .start ⟨by decide, by decide⟩ (by decide) ?_) ⟨by decide, by decide⟩
    (by decide) ?_
  · exact ⟨.inl ⟨rfl, by decide, by decide⟩, by decide⟩
  · exact ⟨.inr ⟨rfl, by decide, by decide⟩, by decide⟩

section Lists

variable {ms : List Msg} {m : Msg}

@[simp] theorem lastStamp_concat : lastStamp (ms ++ [m]) = stamp m := by
  simp [lastStamp]

theorem liveRefs_concat : liveRefs (ms ++ [m]) = useStep (liveRefs ms) m :=
  List.foldl_concat _ _ _ _

theorem addCount_concat_add {a : MsgAddOrder} :
    addCount (ms ++ [.add a]) = addCount ms + 1 := by
  simp [addCount]

theorem stream_concat : stream (ms ++ [m]) = stream ms ++ m.encode := by
  simp [stream]

/-- The references in use are different ones among those handed out. -/
theorem Burst.live (h : Burst ms) :
    (liveRefs ms).Nodup ∧ ∀ ref ∈ liveRefs ms, 1 ≤ ref ∧ ref ≤ addCount ms := by
  induction h with
  | start => exact ⟨List.nodup_nil, fun ref href => absurd href List.not_mem_nil⟩
  | @add ms a h hts href hquoted ih =>
    obtain ⟨hnodup, hrange⟩ := ih
    rw [liveRefs_concat, addCount_concat_add, useStep, href]
    constructor
    · rw [← List.concat_eq_append]
      refine hnodup.concat fun hmem => ?_
      have hle := (hrange _ hmem).2
      omega
    · intro ref hmem
      rcases List.mem_append.mp hmem with hold | hnew
      · have hle := hrange ref hold
        omega
      · obtain rfl := List.mem_singleton.mp hnew
        omega
  | @execute ms e h hts hlive href hqty ih =>
    have hcount : addCount (ms ++ [.execute e]) = addCount ms := by simp [addCount]
    rw [liveRefs_concat, hcount]
    exact ih
  | @delete ms d h hts hlive href ih =>
    have hcount : addCount (ms ++ [.delete d]) = addCount ms := by simp [addCount]
    rw [liveRefs_concat, hcount]
    exact ⟨ih.1.erase _, fun ref hmem => ih.2 ref (List.mem_of_mem_erase hmem)⟩

theorem Burst.quoted (h : Burst ms) : ∀ a, Msg.add a ∈ ms → Quoted a := by
  induction h with
  | start => exact fun a ha => absurd ha List.not_mem_nil
  | @add ms a _ _ _ hquoted ih =>
    intro a' ha'
    rcases List.mem_append.mp ha' with hold | hnew
    · exact ih a' hold
    · obtain rfl := Msg.add.inj (List.mem_singleton.mp hnew)
      exact hquoted
  | execute _ _ _ _ _ ih | delete _ _ _ _ ih =>
    intro a' ha'
    rcases List.mem_append.mp ha' with hold | hnew
    · exact ih a' hold
    · exact absurd (List.mem_singleton.mp hnew) (by simp)

theorem stream_cons : stream (m :: ms) = m.encode ++ stream ms := by
  simp [stream]

theorem stream_cons_ne_nil : stream (m :: ms) ≠ [] := by
  obtain ⟨body, hbody⟩ := m.encode_eq_cons
  rw [stream_cons, hbody]
  simp

/-- The messages can be read off their encodings. -/
theorem stream_injective : Function.Injective stream := by
  intro ms
  induction ms with
  | nil =>
    intro ms' h
    cases ms' with
    | nil => rfl
    | cons m ms' => exact absurd h.symm stream_cons_ne_nil
  | cons m ms ih =>
    intro ms' h
    cases ms' with
    | nil => exact absurd h stream_cons_ne_nil
    | cons m' ms' =>
      rw [stream_cons, stream_cons] at h
      have hreceive := receive_encode (stream ms) m
      rw [h, receive_encode (stream ms') m'] at hreceive
      obtain rfl : m' = m := by simpa using hreceive
      rw [ih (List.append_cancel_left h)]

end Lists

/-! ### What a round appends -/

section Rounds

variable {σ : Type} {R : Random σ}

namespace BurstState

variable {s s' : BurstState σ}

theorem emitAdd_eq_some_iff :
    s.emitAdd R = some s' ↔
      ∃ side price qty rng msg,
        side = (if (R.random s.rng).1 < oneHalf then Side.bid else .ask) ∧
        price = (R.quote side (R.random s.rng).2).1 ∧
        R.choice [100, 200, 300, 500] (R.quote side (R.random s.rng).2).2 = some (qty, rng) ∧
        buildAdd s.ts s.refCounter side qty price = some msg ∧
        s' =
          { rng := rng
            ts := s.ts
            activeRefs := setItem s.activeRefs s.refCounter (side, price)
            refCounter := s.refCounter + 1
            buf := s.buf ++ msg } := by
  simp only [emitAdd, Option.bind_eq_bind, Option.bind_eq_some_iff, Prod.exists, Option.some.injEq]
  constructor
  · rintro ⟨qty, rng, hqty, msg, hmsg, rfl⟩
    exact ⟨_, _, qty, rng, msg, rfl, rfl, hqty, hmsg, rfl⟩
  · rintro ⟨_, _, qty, rng, msg, rfl, rfl, hqty, hmsg, rfl⟩
    exact ⟨qty, rng, hqty, msg, hmsg, rfl⟩

theorem emitExecute_eq_some_iff :
    s.emitExecute R = some s' ↔
      ∃ ref rng execQty rng' msg, R.choice (s.activeRefs.map Prod.fst) s.rng = some (ref, rng) ∧
        R.choice [100, 200] rng = some (execQty, rng') ∧
        buildExecute s.ts ref execQty = some msg ∧
        s' = { s with rng := rng', buf := s.buf ++ msg } := by
  simp only [emitExecute, Option.bind_eq_bind, Option.bind_eq_some_iff, Prod.exists,
    Option.some.injEq]
  constructor
  · rintro ⟨ref, rng, href, execQty, rng', hqty, msg, hmsg, rfl⟩
    exact ⟨ref, rng, execQty, rng', msg, href, hqty, hmsg, rfl⟩
  · rintro ⟨ref, rng, execQty, rng', msg, href, hqty, hmsg, rfl⟩
    exact ⟨ref, rng, href, execQty, rng', hqty, msg, hmsg, rfl⟩

theorem emitDelete_eq_some_iff :
    s.emitDelete R = some s' ↔
      ∃ ref rng msg, R.choice (s.activeRefs.map Prod.fst) s.rng = some (ref, rng) ∧
        buildDelete s.ts ref = some msg ∧
        s' = { s with
          rng := rng
          activeRefs := s.activeRefs.eraseP fun e => e.1 = ref
          buf := s.buf ++ msg } := by
  simp only [emitDelete, delItem, Option.bind_eq_bind, Option.bind_eq_some_iff, Prod.exists,
    Option.some.injEq, Option.ite_none_right_eq_some]
  constructor
  · rintro ⟨ref, rng, href, _, ⟨-, rfl⟩, msg, hmsg, rfl⟩
    exact ⟨ref, rng, msg, href, hmsg, rfl⟩
  · -- the key is there, because it was chosen among the keys
    rintro ⟨ref, rng, msg, href, hmsg, rfl⟩
    exact ⟨ref, rng, href, _, ⟨R.choice_mem href, rfl⟩, msg, hmsg, rfl⟩

/-- What the loop has sent. -/
structure Sent (s : BurstState σ) (ms : List Msg) : Prop where
  burst : Burst ms
  buf : s.buf = stream ms
  ts : s.ts = lastStamp ms
  refCounter : s.refCounter = addCount ms + 1
  keys : s.activeRefs.map Prod.fst = (liveRefs ms).map Nat.cast

/-- The same behind the gap before the next message. -/
structure Due (s : BurstState σ) (ms : List Msg) : Prop where
  burst : Burst ms
  buf : s.buf = stream ms
  gap : lastStamp ms + 100 ≤ s.ts ∧ s.ts ≤ lastStamp ms + 10000
  refCounter : s.refCounter = addCount ms + 1
  keys : s.activeRefs.map Prod.fst = (liveRefs ms).map Nat.cast

section Due

variable {ms : List Msg}

theorem Sent.advance (h : s.Sent ms) : (s.advance R).Due ms where
  burst := h.burst
  buf := h.buf
  gap := by
    have hgap := R.randint_mem (a := 100) (b := 10000) s.rng (by decide)
    have hts := h.ts
    change lastStamp ms + 100 ≤ s.ts + (R.randint 100 10000 s.rng).1 ∧
      s.ts + (R.randint 100 10000 s.rng).1 ≤ lastStamp ms + 10000
    omega
  refCounter := h.refCounter
  keys := h.keys

theorem Due.setRng (h : s.Due ms) (rng : σ) : ({ s with rng := rng } : BurstState σ).Due ms :=
  ⟨h.burst, h.buf, h.gap, h.refCounter, h.keys⟩

theorem Due.length_activeRefs (h : s.Due ms) : s.activeRefs.length = (liveRefs ms).length := by
  have hlen := congrArg List.length h.keys
  simpa only [List.length_map] using hlen

/-- A reference that is chosen is in use. -/
theorem Due.mem_liveRefs (h : s.Due ms) {ref : ℤ} {rng rng' : σ}
    (href : R.choice (s.activeRefs.map Prod.fst) rng = some (ref, rng')) :
    ∃ r ∈ liveRefs ms, ref = (r : ℤ) := by
  have hmem := R.choice_mem href
  rw [h.keys] at hmem
  obtain ⟨r, hr, rfl⟩ := List.mem_map.mp hmem
  exact ⟨r, hr, rfl⟩

/-- The timestamp that is packed keeps the gap. -/
theorem Due.spaced (h : s.Due ms) (hfits : Fits 64 s.ts) {m : Msg}
    (hm : stamp m = (BitVec.ofInt 64 s.ts).toNat) : Spaced ms m := by
  have hts := toNat_ofInt_of_fits hfits
  have hgap := h.gap
  rw [Spaced, hm]
  omega

/-- The keys of the reference counter's next value. -/
theorem Due.map_setItem (h : s.Due ms) (value : Side × ℤ) :
    (setItem s.activeRefs s.refCounter value).map Prod.fst =
      s.activeRefs.map Prod.fst ++ [s.refCounter] := by
  -- the counter is ahead of every reference it has handed out
  have hfresh : s.refCounter ∉ s.activeRefs.map Prod.fst := by
    rw [h.keys, h.refCounter]
    intro hmem
    obtain ⟨r, hr, heq⟩ := List.mem_map.mp hmem
    have hle := (h.burst.live.2 r hr).2
    omega
  rw [setItem, if_neg hfresh, List.map_append]
  rfl

theorem map_fst_eraseP (d : ActiveRefs) (ref : ℤ) :
    (d.eraseP fun e => e.1 = ref).map Prod.fst = (d.map Prod.fst).erase ref := by
  induction d with
  | nil => rfl
  | cons e d ih =>
    by_cases he : e.1 = ref
    · rw [List.eraseP_cons_of_pos (by simpa using he), List.map_cons, he, List.erase_cons_head]
    · rw [List.eraseP_cons_of_neg (by simpa using he), List.map_cons, List.map_cons, ih,
        List.erase_cons_tail (by simpa using he)]

/-- An Add that is sent. -/
theorem Due.add (h : s.Due ms) (hs' : s.emitAdd R = some s') :
    ∃ a, s'.Sent (ms ++ [.add a]) := by
  obtain ⟨side, price, qty, rng, bytes, hside, hprice, hqty, hbytes, rfl⟩ :=
    emitAdd_eq_some_iff.mp hs'
  obtain ⟨⟨hts, href, hqfits, hpfits⟩, rfl⟩ := buildAdd_eq_some_iff.mp hbytes
  have hstamp := toNat_ofInt_of_fits hts
  have hrefNat := toNat_ofInt_of_fits href
  have hqtyNat := toNat_ofInt_of_fits hqfits
  have hpriceInt : (BitVec.ofInt 64 price).toInt = price := BitVec.toInt_ofInt_eq_self
    (by decide) hpfits.1 hpfits.2
  have hcount := h.refCounter
  refine ⟨addOf s.ts s.refCounter side qty price, ?_, ?_, ?_, ?_, ?_⟩
  · refine h.burst.add (h.spaced hts rfl) ?_ ⟨?_, ?_⟩
    · change (BitVec.ofInt 64 s.refCounter).toNat = _
      omega
    · change sideByte side = charB ∧ 9980 ≤ (BitVec.ofInt 64 price).toInt ∧ _ ∨
        sideByte side = charS ∧ _
      change _ ∧ _ ∧ (BitVec.ofInt 64 price).toInt ≤ 10000 ∨
        _ ∧ 10001 ≤ (BitVec.ofInt 64 price).toInt ∧ (BitVec.ofInt 64 price).toInt ≤ 10020
      rw [hpriceInt, hprice]
      cases side with
      | bid =>
        have hdraw := R.randint_mem (a := 0) (b := 20) (R.random s.rng).2 (by decide)
        refine .inl ⟨rfl, ?_, ?_⟩ <;> simp only [Random.quote] <;> omega
      | ask =>
        have hdraw := R.randint_mem (a := 1) (b := 20) (R.random s.rng).2 (by decide)
        refine .inr ⟨rfl, ?_, ?_⟩ <;> simp only [Random.quote] <;> omega
    · have hmem := R.choice_mem hqty
      change (BitVec.ofInt 32 qty).toNat ∈ _
      simp only [List.mem_cons, List.not_mem_nil, or_false] at hmem ⊢
      omega
  · rw [stream_concat, ← h.buf]
  · rw [lastStamp_concat]
    exact hstamp.symm
  · rw [addCount_concat_add]
    change s.refCounter + 1 = _
    omega
  · change (setItem s.activeRefs s.refCounter (side, price)).map Prod.fst = _
    rw [h.map_setItem, h.keys, liveRefs_concat, useStep, List.map_append]
    change _ = _ ++ [((BitVec.ofInt 64 s.refCounter).toNat : ℤ)]
    rw [hrefNat]

/-- An Execute. -/
theorem Due.execute (h : s.Due ms) (hlive : 20 ≤ (liveRefs ms).length)
    (hs' : s.emitExecute R = some s') : ∃ e, s'.Sent (ms ++ [.execute e]) := by
  obtain ⟨ref, rng, execQty, rng', bytes, href, hqty, hbytes, rfl⟩ :=
    emitExecute_eq_some_iff.mp hs'
  obtain ⟨⟨hts, hrfits, hqfits⟩, rfl⟩ := buildExecute_eq_some_iff.mp hbytes
  obtain ⟨r, hr, rfl⟩ := h.mem_liveRefs href
  have hrefNat := toNat_ofInt_of_fits hrfits
  have hqtyNat := toNat_ofInt_of_fits hqfits
  refine ⟨executeOf s.ts r execQty, ?_, ?_, ?_, ?_, ?_⟩
  · refine h.burst.execute (h.spaced hts rfl) hlive ?_ ?_
    · change (BitVec.ofInt 64 (r : ℤ)).toNat ∈ _
      rwa [show (BitVec.ofInt 64 (r : ℤ)).toNat = r by omega]
    · have hmem := R.choice_mem hqty
      change (BitVec.ofInt 32 execQty).toNat ∈ _
      simp only [List.mem_cons, List.not_mem_nil, or_false] at hmem ⊢
      omega
  · rw [stream_concat, ← h.buf]
  · rw [lastStamp_concat]
    exact (toNat_ofInt_of_fits hts).symm
  · rw [show addCount (ms ++ [Msg.execute _]) = addCount ms by simp [addCount]]
    exact h.refCounter
  · rw [liveRefs_concat]
    exact h.keys

/-- A Delete. -/
theorem Due.delete (h : s.Due ms) (hlive : 20 ≤ (liveRefs ms).length)
    (hs' : s.emitDelete R = some s') : ∃ d, s'.Sent (ms ++ [.delete d]) := by
  obtain ⟨ref, rng, bytes, href, hbytes, rfl⟩ := emitDelete_eq_some_iff.mp hs'
  obtain ⟨⟨hts, hrfits⟩, rfl⟩ := buildDelete_eq_some_iff.mp hbytes
  obtain ⟨r, hr, rfl⟩ := h.mem_liveRefs href
  have hrefNat := toNat_ofInt_of_fits hrfits
  have hcode : (BitVec.ofInt 64 (r : ℤ)).toNat = r := by omega
  refine ⟨deleteOf s.ts r, ?_, ?_, ?_, ?_, ?_⟩
  · refine h.burst.delete (h.spaced hts rfl) hlive ?_
    change (BitVec.ofInt 64 (r : ℤ)).toNat ∈ _
    rwa [hcode]
  · rw [stream_concat, ← h.buf]
  · rw [lastStamp_concat]
    exact (toNat_ofInt_of_fits hts).symm
  · rw [show addCount (ms ++ [Msg.delete _]) = addCount ms by simp [addCount]]
    exact h.refCounter
  · change (s.activeRefs.eraseP fun e => e.1 = (r : ℤ)).map Prod.fst = _
    rw [map_fst_eraseP, h.keys, liveRefs_concat, useStep]
    change _ = ((liveRefs ms).erase (BitVec.ofInt 64 (r : ℤ)).toNat).map Nat.cast
    rw [hcode, List.map_erase Nat.cast_injective]

/-- One round sends one message. -/
theorem Sent.step (h : s.Sent ms) (hs' : s.step R = some s') : ∃ m, s'.Sent (ms ++ [m]) := by
  have hdue := h.advance (R := R)
  have hlen := hdue.length_activeRefs
  rw [BurstState.step] at hs'
  by_cases hfew : (s.advance R).activeRefs.length < 20
  · simp only [decidesAdd, hfew, if_true] at hs'
    obtain ⟨a, ha⟩ := (hdue.setRng _).add hs'
    exact ⟨_, ha⟩
  · have hlive : 20 ≤ (liveRefs ms).length := by omega
    -- twenty orders are some, so the branches for no order are dead
    have hne : (s.advance R).activeRefs ≠ [] := by
      intro hnil
      rw [hnil] at hfew
      exact hfew (by decide)
    simp only [decidesAdd, hfew, if_false, decide_eq_true_eq, emitOther, hne, ne_eq,
      not_false_eq_true, and_true, if_true] at hs'
    split_ifs at hs'
    · obtain ⟨a, ha⟩ := (hdue.setRng _).add hs'
      exact ⟨_, ha⟩
    · obtain ⟨e, he⟩ := ((hdue.setRng _).setRng _).execute hlive hs'
      exact ⟨_, he⟩
    · obtain ⟨d, hd⟩ := ((hdue.setRng _).setRng _).delete hlive hs'
      exact ⟨_, hd⟩

end Due

end BurstState

/-- The loop sends one message a round. -/
theorem sent_burstLoop {seeded : σ} {n : ℕ} {s : BurstState σ}
    (h : burstLoop R seeded n = some s) : ∃ ms, s.Sent ms ∧ ms.length = n := by
  induction n generalizing s with
  | zero =>
    obtain rfl := Option.some.inj h
    exact ⟨[], ⟨.start, rfl, rfl, rfl, rfl⟩, rfl⟩
  | succ n ih =>
    obtain ⟨s₀, hs₀, hstep⟩ := Option.bind_eq_some_iff.mp h
    obtain ⟨ms, hsent, hlen⟩ := ih hs₀
    obtain ⟨m, hm⟩ := hsent.step hstep
    exact ⟨ms ++ [m], hm, by rw [List.length_append, hlen]; rfl⟩

end Rounds

/-! ### The generator returns -/

section Returns

variable {σ : Type} {R : Random σ} {ms : List Msg}

namespace BurstState

variable {s : BurstState σ}

/-- The next message's fields still fit. -/
structure Room (ms : List Msg) : Prop where
  stamp : lastStamp ms + 10000 < 2 ^ 64
  refs : addCount ms + 1 < 2 ^ 64

theorem Due.fits_ts (h : s.Due ms) (hroom : Room ms) : Fits 64 s.ts := by
  have hgap := h.gap
  have hstamp := hroom.stamp
  constructor <;> omega

theorem Due.exists_add (h : s.Due ms) (hroom : Room ms) : ∃ s', s.emitAdd R = some s' := by
  obtain ⟨side, hside⟩ : ∃ side, side = (if (R.random s.rng).1 < oneHalf then Side.bid else .ask) :=
    ⟨_, rfl⟩
  obtain ⟨qty, rng, hqty⟩ := R.exists_choice (l := ([100, 200, 300, 500] : List ℤ)) (by decide)
    (R.quote side (R.random s.rng).2).2
  have hmem := R.choice_mem hqty
  simp only [List.mem_cons, List.not_mem_nil, or_false] at hmem
  have hcount := h.refCounter
  have hrefs := hroom.refs
  refine ⟨_, emitAdd_eq_some_iff.mpr ⟨side, _, qty, rng, _, hside, rfl, hqty,
    buildAdd_eq_some_iff.mpr ⟨⟨h.fits_ts hroom, ⟨?_, ?_⟩, ⟨?_, ?_⟩, ?_⟩, rfl⟩, rfl⟩⟩
  · omega
  · omega
  · omega
  · omega
  · cases side with
    | bid =>
      have hdraw := R.randint_mem (a := 0) (b := 20) (R.random s.rng).2 (by decide)
      constructor <;> simp only [Random.quote] <;> omega
    | ask =>
      have hdraw := R.randint_mem (a := 1) (b := 20) (R.random s.rng).2 (by decide)
      constructor <;> simp only [Random.quote] <;> omega

/-- A reference in use fits. -/
theorem Due.fits_ref (h : s.Due ms) (hroom : Room ms) {ref : ℤ} {rng rng' : σ}
    (href : R.choice (s.activeRefs.map Prod.fst) rng = some (ref, rng')) : Fits 64 ref := by
  obtain ⟨r, hr, rfl⟩ := h.mem_liveRefs href
  have hle := (h.burst.live.2 r hr).2
  have hrefs := hroom.refs
  constructor <;> omega

theorem Due.exists_execute (h : s.Due ms) (hroom : Room ms) (hne : s.activeRefs ≠ []) :
    ∃ s', s.emitExecute R = some s' := by
  obtain ⟨ref, rng, href⟩ := R.exists_choice (l := s.activeRefs.map Prod.fst) (by simpa) s.rng
  obtain ⟨qty, rng', hqty⟩ := R.exists_choice (l := ([100, 200] : List ℤ)) (by decide) rng
  have hmem := R.choice_mem hqty
  simp only [List.mem_cons, List.not_mem_nil, or_false] at hmem
  refine ⟨_, emitExecute_eq_some_iff.mpr ⟨ref, rng, qty, rng', _, href, hqty,
    buildExecute_eq_some_iff.mpr ⟨⟨h.fits_ts hroom, h.fits_ref hroom href, ⟨?_, ?_⟩⟩, rfl⟩, rfl⟩⟩
  · omega
  · omega

theorem Due.exists_delete (h : s.Due ms) (hroom : Room ms) (hne : s.activeRefs ≠ []) :
    ∃ s', s.emitDelete R = some s' := by
  obtain ⟨ref, rng, href⟩ := R.exists_choice (l := s.activeRefs.map Prod.fst) (by simpa) s.rng
  exact ⟨_, emitDelete_eq_some_iff.mpr ⟨ref, rng, _, href,
    buildDelete_eq_some_iff.mpr ⟨⟨h.fits_ts hroom, h.fits_ref hroom href⟩, rfl⟩, rfl⟩⟩

theorem Sent.exists_step (h : s.Sent ms) (hroom : Room ms) : ∃ s', s.step R = some s' := by
  have hdue := h.advance (R := R)
  rw [BurstState.step]
  by_cases hfew : (s.advance R).activeRefs.length < 20
  · simp only [decidesAdd, hfew, if_true]
    exact (hdue.setRng _).exists_add hroom
  · have hne : (s.advance R).activeRefs ≠ [] := by
      intro hnil
      rw [hnil] at hfew
      exact hfew (by decide)
    simp only [decidesAdd, hfew, if_false, decide_eq_true_eq, emitOther, hne, ne_eq,
      not_false_eq_true, and_true, if_true]
    split_ifs
    · exact (hdue.setRng _).exists_add hroom
    · exact ((hdue.setRng _).setRng _).exists_execute hroom hne
    · exact ((hdue.setRng _).setRng _).exists_delete hroom hne

end BurstState

/-- How far a burst gets. -/
theorem Burst.bounds (h : Burst ms) :
    lastStamp ms ≤ 34200000000000 + 10000 * ms.length ∧ addCount ms ≤ ms.length := by
  refine ⟨?_, List.countP_le_length⟩
  induction h with
  | start => exact le_rfl
  | add h hts _ _ ih | execute h hts _ _ _ ih | delete h hts _ _ ih =>
    rw [lastStamp_concat, List.length_append, List.length_singleton]
    refine hts.2.trans ?_
    rw [Nat.mul_succ, ← Nat.add_assoc]
    exact Nat.add_le_add_right ih _

theorem Burst.room (h : Burst ms) (hn : 34200000000000 + 10000 * (ms.length + 1) < 2 ^ 64) :
    BurstState.Room ms := by
  obtain ⟨hstamp, hcount⟩ := h.bounds
  refine ⟨Nat.lt_of_le_of_lt ?_ hn, by omega⟩
  rw [Nat.mul_succ, ← Nat.add_assoc]
  exact Nat.add_le_add_right hstamp _

theorem exists_burstLoop {n : ℕ} (hn : 34200000000000 + 10000 * n < 2 ^ 64) (seeded : σ) :
    ∃ s, burstLoop R seeded n = some s := by
  induction n with
  | zero => exact ⟨_, rfl⟩
  | succ n ih =>
    obtain ⟨s, hs⟩ := ih (by omega)
    obtain ⟨ms, hsent, hlen⟩ := sent_burstLoop hs
    obtain ⟨s', hs'⟩ := hsent.exists_step (R := R) (hsent.burst.room (by rwa [hlen]))
    exact ⟨s', by rw [burstLoop, hs]; exact hs'⟩

end Returns

end Demo

end HftKr260
