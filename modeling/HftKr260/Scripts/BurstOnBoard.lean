import HftKr260.Rtl.TobOutputs
import HftKr260.Scripts.Bursts
import HftKr260.Software.BoardDriver

/-!
# A burst on the board

What `kr260_top` makes of a burst that is streamed into it, with any gaps between the bytes. It
counts the messages. It reads the type of a message thirty bytes before its end, so the first
Execute or Delete of a burst, which follows an Add, is reported as an error.

## Main results

* `burst_counted` — the message counter, and the LED of `parse_error`
* `burst_prices` — the prices shown are never among those the burst quotes
-/

set_option autoImplicit false

namespace HftKr260

namespace Demo

open Foundation MarketDataParser

/-- The cycle of an event, by its number. -/
theorem exists_of_lt_count {p : ℕ → Prop} [DecidablePred p] {i T : ℕ} (h : i < Nat.count p T) :
    ∃ c < T, p c ∧ Nat.count p c = i := by
  induction T with
  | zero => exact absurd h (Nat.not_lt_zero i)
  | succ T ih =>
    by_cases hlt : i < Nat.count p T
    · obtain ⟨c, hc, hp, hi⟩ := ih hlt
      exact ⟨c, Nat.lt_succ_of_lt hc, hp, hi⟩
    · rw [Nat.count_succ] at h
      split_ifs at h with hp
      · exact ⟨T, Nat.lt_succ_self T, hp, by omega⟩
      · exact absurd h hlt

/-! ### Message streams without trades -/

/-- The bytes of the messages come in the first `T` cycles, and nothing behind. -/
structure SentBy (ms : List Msg) (input : ℕ → AxisIn) (T : ℕ) : Prop where
  all : accepted input T = stream ms
  idle : ∀ c, T ≤ c → (input c).tvalid = false

section Streams

variable {ms : List Msg} {input : ℕ → AxisIn} {T c : ℕ}

theorem accepted_prefix {t t' : ℕ} (h : t ≤ t') : accepted input t <+: accepted input t' := by
  induction t', h using Nat.le_induction with
  | base => exact List.prefix_rfl
  | succ t' h ih =>
    refine ih.trans ?_
    rw [accepted, Clocked.transferred_succ]
    exact List.prefix_append _ _

theorem SentBy.front (h : SentBy ms input T) (t : ℕ) : accepted input t <+: stream ms := by
  rw [← h.all]
  rcases Nat.le_total t T with ht | ht
  · exact accepted_prefix ht
  · rw [accepted_of_idle h.idle ht]

/-- A segment that ends is a message of the stream. -/
theorem exists_of_ends (htrade : ∀ m ∈ ms, ¬ m.IsTrade)
    (hfront : accepted input (c + 1) <+: stream ms) (hends : EndsSegment input c) :
    ∃ before m after, ms = before ++ m :: after ∧
      before.length = (frames (accepted input c)).1.length ∧
      accepted input (c + 1) = stream before ++ m.encode ∧ frameAt input c = m.encode := by
  rcases frames_accepted_succ input c with ⟨-, hcut⟩ | ⟨hnot, -⟩
  · have hsegs : ∀ s ∈ ms.map Msg.encode, Segmentation.Complete frameLen s := by
      intro s hs
      obtain ⟨m, hm, rfl⟩ := List.mem_map.mp hs
      exact (complete_encode_iff m).mpr (htrade m hm)
    -- what has been cut off so far is a prefix of the messages
    obtain ⟨rest, hrest⟩ := Segmentation.segment_of_front frameLen_pos hsegs hfront
    change (frames (accepted input (c + 1))).1 ++ rest = ms.map Msg.encode at hrest
    obtain ⟨done, after, rfl, hdone, -⟩ := List.map_eq_append_iff.mp hrest.symm
    have hframes := hdone
    rw [hcut] at hdone
    obtain ⟨before, last, rfl, hbefore, hlast⟩ := List.map_eq_append_iff.mp hdone
    obtain ⟨m, rfl, hm⟩ := List.map_eq_singleton_iff.mp hlast
    obtain ⟨done, m', heq, hbytes, -⟩ := accepted_of_ends hends hframes.symm
    obtain ⟨rfl, hlast⟩ := List.append_inj' heq rfl
    obtain rfl := List.singleton_inj.mp hlast
    refine ⟨before, m, after, by simp, ?_, hbytes, hm.symm⟩
    rw [← hbefore, List.length_map]
  · exact absurd hends hnot

/-- Each message of the stream ends a segment. -/
theorem SentBy.exists_ends (h : SentBy ms input T) (htrade : ∀ m ∈ ms, ¬ m.IsTrade)
    {before after : List Msg} {m : Msg} (hms : ms = before ++ m :: after) :
    ∃ c < T, EndsSegment input c ∧ accepted input (c + 1) = stream before ++ m.encode ∧
      frameAt input c = m.encode := by
  have hcount : before.length < Nat.count (EndsSegment input) T := by
    rw [count_endsSegment, h.all, stream, (frames_encode_iff ms).mpr htrade, hms]
    simp
  obtain ⟨c, hc, hends, hnth⟩ := exists_of_lt_count hcount
  obtain ⟨before', m', after', hms', hlen, hbytes, hframe⟩ :=
    exists_of_ends htrade (h.front _) hends
  rw [← count_endsSegment, hnth] at hlen
  rw [hms] at hms'
  obtain ⟨rfl, hrest⟩ := List.append_inj hms' hlen.symm
  obtain ⟨rfl, -⟩ := List.cons.inj hrest
  exact ⟨c, hc, hends, hbytes, hframe⟩

end Streams

/-! ### The messages that are reported -/

/-- The kinds of messages. -/
def IsAdd : Msg → Prop
  | .add _ => True
  | _ => False

instance : DecidablePred IsAdd
  | .add _ => inferInstanceAs (Decidable True)
  | .update _ => inferInstanceAs (Decidable False)
  | .delete _ => inferInstanceAs (Decidable False)
  | .execute _ => inferInstanceAs (Decidable False)
  | .trade _ => inferInstanceAs (Decidable False)

section Bursts

variable {ms : List Msg}

theorem Burst.not_trade (h : Burst ms) : ∀ m ∈ ms, ¬ m.IsTrade := by
  induction h with
  | start => exact fun m hm => absurd hm List.not_mem_nil
  | add _ _ _ _ ih | execute _ _ _ _ _ ih | delete _ _ _ _ ih =>
    intro m hm
    rcases List.mem_append.mp hm with hold | hnew
    · exact ih m hold
    · obtain rfl := List.mem_singleton.mp hnew
      exact id

/-- Orders are in use only behind an Add. -/
theorem exists_concat_add (hadds : ∀ m ∈ ms, IsAdd m) (hlive : 20 ≤ (liveRefs ms).length) :
    ∃ before a, ms = before ++ [.add a] := by
  induction ms using List.reverseRecOn with
  | nil => exact absurd hlive (by decide)
  | append_singleton before m =>
    have hm := hadds m (List.mem_append_right _ (List.mem_singleton_self m))
    cases m with
    | add a => exact ⟨before, a, rfl⟩
    | _ => exact absurd hm id

/-- The first message of a burst that is no Add stands behind an Add. -/
theorem Burst.first_other (h : Burst ms) :
    (∀ m ∈ ms, IsAdd m) ∨
      ∃ before a m after, ms = before ++ [.add a] ++ m :: after ∧ ¬ IsAdd m ∧
        (m.size = 17 ∨ m.size = 21) := by
  have hmore {ms : List Msg} (m : Msg)
      (hex : ∃ before a m after, ms = before ++ [.add a] ++ m :: after ∧ ¬ IsAdd m ∧
        (m.size = 17 ∨ m.size = 21)) :
      ∃ before a m' after, ms ++ [m] = before ++ [.add a] ++ m' :: after ∧ ¬ IsAdd m' ∧
        (m'.size = 17 ∨ m'.size = 21) := by
    obtain ⟨before, a, m', after, rfl, hrest⟩ := hex
    exact ⟨before, a, m', after ++ [m], by simp, hrest⟩
  induction h with
  | start => exact .inl fun m hm => absurd hm List.not_mem_nil
  | @add ms a _ _ _ _ ih =>
    rcases ih with hadds | hex
    · refine .inl fun m hm => ?_
      rcases List.mem_append.mp hm with hold | hnew
      · exact hadds m hold
      · obtain rfl := List.mem_singleton.mp hnew
        trivial
    · exact .inr (hmore _ hex)
  -- so far Adds only: the message before this one is an Add
  | @execute ms e _ _ hlive _ _ ih =>
    rcases ih with hadds | hex
    · obtain ⟨before, a, rfl⟩ := exists_concat_add hadds hlive
      exact .inr ⟨before, a, .execute e, [], rfl, id, .inr rfl⟩
    · exact .inr (hmore _ hex)
  | @delete ms d _ _ hlive _ ih =>
    rcases ih with hadds | hex
    · obtain ⟨before, a, rfl⟩ := exists_concat_add hadds hlive
      exact .inr ⟨before, a, .delete d, [], rfl, id, .inl rfl⟩
    · exact .inr (hmore _ hex)

end Bursts

section Reports

variable {input : ℕ → AxisIn} {c : ℕ} {before : List Msg}

/-- An Add is not reported. -/
theorem not_reported_add {a : MsgAddOrder}
    (hbytes : accepted input (c + 1) = stream before ++ (Msg.add a).encode)
    (hframe : frameAt input c = (Msg.add a).encode) : ¬ Reported input c := by
  intro hreported
  have htype : typeByteRead input c = msgAdd := by
    rw [typeByteRead, hbytes]
    exact (addWindow_encode (stream before) a).msgType
  have herror := hreported.error
  rw [htype, hframe, Msg.length_encode] at herror
  change decodeType msgAdd = typeUnkn ∨ MsgAddOrder.size < minLength msgAdd at herror
  exact absurd herror (by decide)

/-- The byte of an Add that is read as the type of the message behind it: its side, or the low
byte of its quantity. -/
theorem typeByteRead_behind_add {a : MsgAddOrder} {m : Msg}
    (hbytes : accepted input (c + 1) = stream (before ++ [.add a]) ++ m.encode) :
    (m.size = 17 → typeByteRead input c = a.side) ∧
      (m.size = 21 → typeByteRead input c = byte a.quantity 0) := by
  -- thirty bytes back from the end of a shorter message lies in the Add before it
  have hwindow := addWindow_encode (stream before) a
  rw [typeByteRead, hbytes, stream_concat]
  constructor
  · intro hsize
    rw [recent_append_of_le _ (by rw [Msg.length_encode]; omega), Msg.length_encode, hsize]
    exact hwindow.side
  · intro hsize
    rw [recent_append_of_le _ (by rw [Msg.length_encode]; omega), Msg.length_encode, hsize]
    have hbyte := congrArg (fun w => byte w 3) hwindow.quantity
    beta_reduce at hbyte
    rw [byte_word32 _ _ 3 (by decide), byte_bswap32 _ 3 (by decide)] at hbyte
    exact hbyte

/-- The quantities of the generator end in a byte that is no type. -/
theorem Quoted.byte_quantity {a : MsgAddOrder} (h : Quoted a) :
    decodeType (byte a.quantity 0) = typeUnkn := by
  have hqty : a.quantity = BitVec.ofNat 32 a.quantity.toNat := by
    rw [BitVec.ofNat_toNat, BitVec.setWidth_eq]
  have hmem := h.quantity
  simp only [List.mem_cons, List.not_mem_nil, or_false] at hmem
  rcases hmem with hn | hn | hn | hn
  · rw [hqty, hn]
    decide
  · rw [hqty, hn]
    decide
  · rw [hqty, hn]
    decide
  · rw [hqty, hn]
    decide

theorem Quoted.side_unkn {a : MsgAddOrder} (h : Quoted a) : decodeType a.side = typeUnkn := by
  rcases h.price with ⟨hside, -⟩ | ⟨hside, -⟩
  · rw [hside]
    rfl
  · rw [hside]
    rfl

/-- A Delete or an Execute behind an Add is reported. -/
theorem reported_behind_add {a : MsgAddOrder} {m : Msg} (hquoted : Quoted a)
    (hsize : m.size = 17 ∨ m.size = 21) (hends : EndsSegment input c)
    (hbytes : accepted input (c + 1) = stream (before ++ [.add a]) ++ m.encode) :
    Reported input c where
  ends := hends
  error := by
    obtain ⟨hdelete, hexecute⟩ := typeByteRead_behind_add hbytes
    rcases hsize with hsize | hsize
    · rw [hdelete hsize]
      exact .inl hquoted.side_unkn
    · rw [hexecute hsize]
      exact .inl hquoted.byte_quantity

/-- In a burst of Adds only nothing is reported. -/
theorem Burst.not_reported {ms : List Msg} (h : Burst ms) (hadds : ∀ m ∈ ms, IsAdd m)
    (hfront : accepted input (c + 1) <+: stream ms) : ¬ Reported input c := by
  intro hreported
  obtain ⟨before, m, after, rfl, -, hbytes, hframe⟩ :=
    exists_of_ends h.not_trade hfront hreported.ends
  have hm := hadds m (by simp)
  cases m with
  | add a => exact not_reported_add hbytes hframe hreported
  | _ => exact hm

/-- In any other burst something is. -/
theorem Burst.exists_reported {ms : List Msg} {T : ℕ} (h : Burst ms)
    (hother : ∃ m ∈ ms, ¬ IsAdd m) (hsent : SentBy ms input T) : ∃ c < T, Reported input c := by
  obtain ⟨m, hm, hother⟩ := hother
  rcases h.first_other with hadds | ⟨before, a, m', after, rfl, -, hsize⟩
  · exact absurd (hadds m hm) hother
  · obtain ⟨c, hc, hends, hbytes, -⟩ := hsent.exists_ends h.not_trade rfl
    have hquoted := h.quoted a (by simp)
    exact ⟨c, hc, reported_behind_add hquoted hsize hends hbytes⟩

end Reports

/-! ### Counting and reporting -/

/-- What the board reports of a burst. -/
structure BurstCounted (powerUp : OrderBookEngine) (axiPowerUp : AxiDomain) (input : ℕ → AxisIn)
    (ms : List Msg) (T : ℕ) : Prop where
  /-- the two words of the message counter, read behind the burst under any schedule -/
  counter : ∀ sched n n',
    AcceptsAt powerUp axiPowerUp input sched TobAxiLite.regMsgCntLo n →
    AcceptsAt powerUp axiPowerUp input sched TobAxiLite.regMsgCntHi n' →
    (∃ e < n, sched.isAxi e = true ∧ T + 4 ≤ sched.plBefore e) →
    (∃ e < n', sched.isAxi e = true ∧ T + 4 ≤ sched.plBefore e) →
    readAt powerUp axiPowerUp input sched n' ++ readAt powerUp axiPowerUp input sched n =
      BitVec.ofNat 64 ms.length
  /-- the error LED comes on with no Add -/
  silent : (∀ m ∈ ms, IsAdd m) → ∀ t, (plDomain powerUp input t).plLed 3 = false
  /-- and is on behind any other burst -/
  alarm : (∃ m ∈ ms, ¬ IsAdd m) → ∀ t, T + 4 ≤ t → (plDomain powerUp input t).plLed 3 = true

/-- **A burst is counted, and reported as an error unless it has Adds only**, whatever the gaps
between its bytes and the clocks of the board. -/
theorem burst_counted (powerUp : OrderBookEngine) (axiPowerUp : AxiDomain) {input : ℕ → AxisIn}
    {ms : List Msg} {T : ℕ} (hburst : Burst ms) (hsent : SentBy ms input T) :
    BurstCounted powerUp axiPowerUp input ms T where
  counter := by
    intro sched n n' hlo hhi hn hn'
    rw [readAt_drained input sched hsent.idle hlo hhi hn hn', hsent.all, stream,
      (frames_encode_iff ms).mpr hburst.not_trade, List.length_map]
  silent := by
    intro hadds t
    refine Bool.eq_false_of_not_eq_true fun hled => ?_
    obtain ⟨c, -, hreported⟩ := (led3_iff powerUp input t).mp hled
    exact hburst.not_reported hadds (hsent.front _) hreported
  alarm := by
    intro hother t ht
    obtain ⟨c, hc, hreported⟩ := hburst.exists_reported hother hsent
    exact (led3_iff powerUp input t).mpr ⟨c, by omega, hreported⟩

theorem sentBy_playback (ms : List Msg) :
    SentBy ms (playback (stream ms)) (stream ms).length where
  all := accepted_playback_of_le le_rfl
  idle := fun c hc => Bool.eq_false_iff.mpr fun hvalid =>
    absurd ((tvalid_playback_iff _ c).mp hvalid) (by omega)

theorem burst_counted_bidAndAsk :
    BurstCounted default default (playback (stream bidAndAsk)) bidAndAsk
      (stream bidAndAsk).length :=
  burst_counted default default burst_bidAndAsk (sentBy_playback bidAndAsk)

/-! ### The prices shown -/

section Prices

/-- Numbers with a nonzero byte are not small. -/
theorem le_toNat_of_byte {w : ℕ} {x : BitVec w} {j : ℕ} (h : byte x j ≠ 0) :
    2 ^ (8 * j) ≤ x.toNat := by
  by_contra hlt
  apply h
  apply BitVec.eq_of_toNat_eq
  rw [byte, BitVec.extractLsb'_toNat, Nat.shiftRight_eq_div_pow,
    Nat.div_eq_of_lt (Nat.not_le.mp hlt)]
  rfl

/-- A number that is not divisible by `2 ^ 32` has a nonzero byte among the lowest four. -/
theorem exists_byte_ne_zero {w : ℕ} {x : BitVec w} (h : x.toNat % 2 ^ 32 ≠ 0) :
    ∃ i < 4, byte x i ≠ 0 := by
  by_contra hall
  simp only [not_exists, not_and, ne_eq, not_not] at hall
  apply h
  have hlow : x.setWidth 32 = 0 := by
    refine eq_of_byte_eq (n := 4) rfl fun i hi => ?_
    have hbyte : byte (x.setWidth 32) i = byte x i := by
      apply BitVec.eq_of_getLsbD_eq
      intro j hj
      rw [getLsbD_byte, getLsbD_byte, BitVec.getLsbD_setWidth]
      simp [show 8 * i + j < 32 by omega]
    rw [hbyte, hall i hi]
    apply BitVec.eq_of_getLsbD_eq
    intro j hj
    rw [getLsbD_byte]
    simp
  have hnat := congrArg BitVec.toNat hlow
  rwa [BitVec.toNat_setWidth] at hnat

theorem recent_beBytes {n w i : ℕ} (front : List Byte) (x : BitVec w) (hi : i < n) :
    recent (front ++ beBytes n x) i = byte x i := by
  rw [recent_append_of_lt _ (by rwa [length_beBytes]), recent_eq_getD (by rwa [length_beBytes]),
    length_beBytes, List.getD_eq_getElem _ _ (by rw [length_beBytes]; omega)]
  simp only [beBytes, List.getElem_map, List.getElem_range]
  congr 1
  omega

/-- The price in the window behind a message with a nonzero byte among its last four. -/
theorem priceRead_ge {bytes : List Byte} {i : ℕ} (hi : i < 4) (h : recent bytes i ≠ 0) :
    2 ^ 32 ≤ (priceRead bytes).toNat := by
  have hbyte : byte (priceRead bytes) (7 - i) ≠ 0 := by
    rw [priceRead, byte_word64 _ _ _ (by omega), show 0 + (7 - (7 - i)) = i by omega]
    exact h
  exact (Nat.pow_le_pow_right (by decide) (by omega)).trans (le_toNat_of_byte hbyte)

/-- A message ends in a field that is not divisible by `2 ^ 32`. -/
def EndsNonzero (m : Msg) : Prop :=
  ∃ (w : ℕ) (x : BitVec w) (n : ℕ) (front : List Byte), 4 ≤ n ∧ m.encode = front ++ beBytes n x ∧
    x.toNat % 2 ^ 32 ≠ 0

theorem EndsNonzero.priceRead_ge {m : Msg} (h : EndsNonzero m) (before : List Byte) :
    2 ^ 32 ≤ (priceRead (before ++ m.encode)).toNat := by
  obtain ⟨w, x, n, front, hn, hencode, hx⟩ := h
  obtain ⟨i, hi, hbyte⟩ := exists_byte_ne_zero hx
  apply Demo.priceRead_ge hi
  rwa [hencode, ← List.append_assoc, recent_beBytes _ _ (by omega)]

/-- The messages of a burst end so: in a price, a reference or a quantity of the generator. -/
theorem Burst.endsNonzero {ms : List Msg} (h : Burst ms) (hlen : ms.length < 2 ^ 32) :
    ∀ m ∈ ms, EndsNonzero m := by
  induction h with
  | start => exact fun m hm => absurd hm List.not_mem_nil
  | @add ms a _ _ _ hquoted ih =>
    intro m hm
    rcases List.mem_append.mp hm with hold | hnew
    · exact ih (by simp at hlen; omega) m hold
    · obtain rfl := List.mem_singleton.mp hnew
      refine ⟨64, a.price, 8, _, by decide, rfl, ?_⟩
      have hrange : 9980 ≤ a.price.toInt ∧ a.price.toInt ≤ 10020 := by
        rcases hquoted.price with ⟨-, hlo, hhi⟩ | ⟨-, hlo, hhi⟩ <;> constructor <;> omega
      rw [BitVec.toInt_eq_toNat_cond] at hrange
      split_ifs at hrange <;> omega
  | @execute ms e _ _ _ _ hqty ih =>
    intro m hm
    rcases List.mem_append.mp hm with hold | hnew
    · exact ih (by simp at hlen; omega) m hold
    · obtain rfl := List.mem_singleton.mp hnew
      refine ⟨32, e.executedQty, 4, _, le_rfl, rfl, ?_⟩
      simp only [List.mem_cons, List.not_mem_nil, or_false] at hqty
      omega
  | @delete ms d h _ _ href ih =>
    intro m hm
    rcases List.mem_append.mp hm with hold | hnew
    · exact ih (by simp at hlen; omega) m hold
    · obtain rfl := List.mem_singleton.mp hnew
      refine ⟨64, d.orderRef, 8, _, by decide, rfl, ?_⟩
      -- a Delete in its reference, which is one of those counted so far
      have hlive := h.live.2 _ href
      have hcount := h.bounds.2
      rw [List.length_append, List.length_singleton] at hlen
      omega

/-- What the update of a side keeps of the prices of its levels. -/
theorem write_forall {P : BitVec 64 → Prop} {l : LevelArray}
    (h : ∀ i, l.valid i = true → P (l.price i)) (matchR emptyR inMsgType : BitVec 4)
    (q : BitVec 32) {p : BitVec 64} (hp : P p) :
    ∀ i, (l.write matchR emptyR inMsgType q p).valid i = true →
      P ((l.write matchR emptyR inMsgType q p).price i) := by
  have hclear (j i : Fin 8) (hi : Function.update l.valid j false i = true) : P (l.price i) := by
    rw [Function.update_apply] at hi
    split_ifs at hi
    exact h i hi
  unfold LevelArray.write
  split_ifs
  · exact h
  · intro i hi
    dsimp only at hi ⊢
    rw [Function.update_apply] at hi ⊢
    split_ifs at hi ⊢
    · exact hp
    · exact h i hi
  · exact h
  · exact hclear _
  · exact h
  · exact h
  · exact hclear _
  · exact h
  · exact h

/-- Not a price that the generator quotes: none, or far above. -/
def NoQuote (p : BitVec 64) : Prop := p = 0 ∨ 2 ^ 32 ≤ p.toNat

section Shown

variable (powerUp : OrderBookEngine) {input : ℕ → AxisIn} {ms : List Msg}

/-- No level is at a small price. -/
theorem levels_high (hburst : Burst ms) (hlen : ms.length < 2 ^ 32)
    (hfront : ∀ t, accepted input t <+: stream ms) (t : ℕ) (side : Side) :
    ∀ i, ((engine powerUp input t).levels side).valid i = true →
      2 ^ 32 ≤ (((engine powerUp input t).levels side).price i).toNat := by
  induction t with
  | zero =>
    intro i hi
    cases side <;> exact absurd hi Bool.false_ne_true
  | succ t ih =>
    change ∀ i, (((engine powerUp input t).next (parsedOf input t)).levels side).valid i = true →
      2 ^ 32 ≤ ((((engine powerUp input t).next (parsedOf input t)).levels side).price i).toNat
    cases hvalid : (parsedOf input t).inValid with
    | false =>
      rw [OrderBookEngine.levels_next_of_idle _ side hvalid]
      exact ih
    | true =>
      rw [OrderBookEngine.levels_next_of_valid _ side hvalid]
      obtain ⟨c, rfl, hends⟩ := (inValid_iff input t).mp hvalid
      obtain ⟨before, m, after, rfl, -, hbytes, -⟩ :=
        exists_of_ends hburst.not_trade (hfront _) hends
      have hprice : (parsedOf input (c + 4)).inPrice = priceRead (stream before ++ m.encode) := by
        rw [← hbytes, accepted_succ_of_valid hends.1]
        exact (shows_behind input c).price
      have hhigh := (hburst.endsNonzero hlen m (by simp)).priceRead_ge (stream before)
      rw [← hprice] at hhigh
      split_ifs
      · exact write_forall (P := fun p => 2 ^ 32 ≤ p.toNat) ih _ _ _ _ hhigh
      · exact ih

/-- The best price of a side is the price of a level, or stands for none. -/
theorem noQuote_bestPrice (hburst : Burst ms) (hlen : ms.length < 2 ^ 32)
    (hfront : ∀ t, accepted input t <+: stream ms) (t : ℕ) (side : Side) :
    NoQuote ((engine powerUp input (t + 2)).bestPrice side) := by
  have hbest : (engine powerUp input (t + 2)).bestPrice side =
      ((engine powerUp input t).levels side).tree side.beats side.absent :=
    ((engine powerUp input t).next_next_outputs (parsedOf input t) (parsedOf input (t + 1))).2 side
  rw [hbest]
  obtain ⟨i, hi⟩ := ((engine powerUp input t).levels side).tree_leaf side.beats side.absent
  rw [← hi, LevelArray.leaf]
  split_ifs with hvalid
  · exact .inr (levels_high powerUp hburst hlen hfront t side i hvalid)
  · cases side with
    | bid => exact .inl rfl
    | ask => exact .inr (by decide)

theorem Quoted.not_noQuote {a : MsgAddOrder} (h : Quoted a) : ¬ NoQuote a.price := by
  have hrange : 9980 ≤ a.price.toInt ∧ a.price.toInt ≤ 10020 := by
    rcases h.price with ⟨-, hlo, hhi⟩ | ⟨-, hlo, hhi⟩ <;> constructor <;> omega
  rintro (hzero | hhigh)
  · rw [hzero] at hrange
    exact absurd hrange.1 (by decide)
  · have hlt := a.price.isLt
    rw [BitVec.toInt_eq_toNat_cond] at hrange
    split_ifs at hrange <;> omega

/-- A capture comes behind the second cycle. -/
theorem two_le_of_captures {axiPowerUp : AxiDomain} {sched : Schedule} {e : ℕ}
    (h : capturesAt powerUp axiPowerUp input sched e = true) : 2 ≤ sched.plBefore e := by
  obtain ⟨-, hshown⟩ := Bool.and_eq_true_iff.mp h
  -- the announcement is five cycles behind a byte
  obtain ⟨m, ⟨-, hcount⟩, hsent⟩ := (shown_iff_sent StatusBit.tobChanged e).mp hshown
  simp only [StatusBit.sent, engine_kr260Board] at hsent
  obtain ⟨c, hc, -⟩ := (tobChanged_true_iff powerUp input _).mp hsent
  have hme : m ≤ e := by
    by_contra hlt
    have hmono : sched.axiBefore e ≤ sched.axiBefore m :=
      Nat.count_monotone _ (Nat.le_of_lt (Nat.not_le.mp hlt))
    omega
  have hle : sched.plBefore m ≤ sched.plBefore e := Schedule.plBefore_mono hme
  omega

/-- What has been captured is no quote. -/
theorem noQuote_heldAt {axiPowerUp : AxiDomain} {sched : Schedule} {e n : ℕ} (hburst : Burst ms)
    (hlen : ms.length < 2 ^ 32) (hfront : ∀ t, accepted input t <+: stream ms) (hen : e < n)
    (hcaptures : capturesAt powerUp axiPowerUp input sched e = true) :
    NoQuote (heldAt powerUp axiPowerUp input sched n).bidPrice ∧
      NoQuote (heldAt powerUp axiPowerUp input sched n).askPrice := by
  rcases Clocked.last_or_none (fun c => capturesAt powerUp axiPowerUp input sched c = true) n with
    ⟨l, hl, hlcaptures, hnone⟩ | hnone
  · rw [heldAt_capture.last hl hlcaptures fun b hlb hbn =>
      Bool.eq_false_of_not_eq_true (hnone b hlb hbn)]
    obtain ⟨t, ht⟩ := Nat.exists_eq_add_of_le' (two_le_of_captures powerUp hlcaptures)
    rw [offeredAt, ht]
    exact ⟨noQuote_bestPrice powerUp hburst hlen hfront t .bid,
      noQuote_bestPrice powerUp hburst hlen hfront t .ask⟩
  · exact absurd hcaptures (hnone e hen)

/-- The prices of a burst and what the board shows for them. -/
structure BurstPrices (axiPowerUp : AxiDomain) (input : ℕ → AxisIn) (ms : List Msg) : Prop where
  /-- the engine's outputs, from the second cycle behind the reset on -/
  shown : ∀ t side, NoQuote ((engine powerUp input (t + 2)).bestPrice side)
  /-- the registers on the bus, behind the first capture -/
  held : ∀ sched e n, e < n → capturesAt powerUp axiPowerUp input sched e = true →
    NoQuote (heldAt powerUp axiPowerUp input sched n).bidPrice ∧
      NoQuote (heldAt powerUp axiPowerUp input sched n).askPrice
  /-- the prices of the burst are quotes -/
  quoted : ∀ a, Msg.add a ∈ ms → ¬ NoQuote a.price

/-- **The board never shows a price of the burst**, however its bytes come: a level is always at
a price read in the wrong byte order, or out of a Delete or an Execute. -/
theorem burst_prices (axiPowerUp : AxiDomain) (hburst : Burst ms) (hlen : ms.length < 2 ^ 32)
    (hfront : ∀ t, accepted input t <+: stream ms) : BurstPrices powerUp axiPowerUp input ms where
  shown := noQuote_bestPrice powerUp hburst hlen hfront
  held := fun _ _ _ hen hcaptures => noQuote_heldAt powerUp hburst hlen hfront hen hcaptures
  quoted := fun a ha => (hburst.quoted a ha).not_noQuote

theorem burst_prices_bidAndAsk :
    BurstPrices default default (playback (stream bidAndAsk)) bidAndAsk :=
  burst_prices default default burst_bidAndAsk (by decide) (sentBy_playback bidAndAsk).front

end Shown

end Prices

end Demo

end HftKr260
