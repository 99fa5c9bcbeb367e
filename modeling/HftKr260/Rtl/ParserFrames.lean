import HftKr260.Rtl.MarketDataParser

/-!
# Frames and pulses

The parser answers every frame with one pulse of `out_valid`, in order
(`parser_pulses`). What the pulse shows is read off the last thirty bytes received,
which for a shorter frame begin before it: the type comes from the byte thirty places
before the frame's end, whatever frame that byte belongs to.

## Main results

* `parser_pulses` — one pulse a frame, decoded from the window at the frame's end
* `frames_classified_iff` — when a pulse shows the frame's own type and error, and for
  which frames the order reference is the frame's own
-/

set_option autoImplicit false

namespace HftKr260

open Foundation MarketDataParser

/-! ### One pulse a frame -/

/-- The register values at the pulses of `out_valid` in the first `t` cycles. -/
def pulses (input : ℕ → FramedIn) : ℕ → List MarketDataParser :=
  Clocked.transferred (fun c => (parser input c).outValid) (parser input)

/-- A pulse decoded from the window at the end of `frame`, which followed `before`. -/
structure PulseOf (p : MarketDataParser) (before frame : List Byte) : Prop where
  shows : Shows p (before ++ frame)
  msgType : p.outMsgType = decodeType (recent (before ++ frame) 29)
  error : p.outError =
    decodeError (recent (before ++ frame) 29) (BitVec.ofNat 6 frame.length)

/-- Pulses that answer frames one for one. -/
structure PulsesOf (ps : List MarketDataParser) (fs : List (List Byte)) : Prop where
  length : ps.length = fs.length
  pulse : ∀ k p f, ps[k]? = some p → fs[k]? = some f → PulseOf p (fs.take k).flatten f

theorem PulsesOf.concat {ps : List MarketDataParser} {fs : List (List Byte)}
    (h : PulsesOf ps fs) {p : MarketDataParser} {f : List Byte} (hp : PulseOf p fs.flatten f) :
    PulsesOf (ps ++ [p]) (fs ++ [f]) where
  length := by simp [h.length]
  pulse := by
    intro k p' f' hp' hf'
    -- an earlier frame, the new one, or none
    rcases lt_trichotomy k fs.length with hk | rfl | hk
    · -- an earlier pulse keeps its frame
      rw [List.getElem?_append_left (by rw [h.length]; exact hk)] at hp'
      rw [List.getElem?_append_left hk] at hf'
      rw [List.take_append_of_le_length hk.le]
      exact h.pulse k p' f' hp' hf'
    · -- the new pulse answers the new frame, behind all the others
      rw [← h.length, List.getElem?_concat_length] at hp'
      rw [List.getElem?_concat_length] at hf'
      obtain rfl := Option.some.inj hp'
      obtain rfl := Option.some.inj hf'
      rwa [List.take_left]
    · rw [List.getElem?_eq_none (by rw [List.length_append]; exact hk)] at hf'
      exact absurd hf' (by simp)

section Pulses

variable (input : ℕ → FramedIn)

theorem map_fst_beats (t : ℕ) : (beats input t).map Prod.fst = received input t :=
  (Clocked.transferred_map Prod.fst t).symm

/-- The frames completed by cycle `t` have been answered by cycle `t + 3`. -/
theorem parser_pulses (t : ℕ) :
    PulsesOf (pulses input (t + 3)) (Segmentation.cutAfter (beats input t)).1 := by
  induction t with
  | zero => exact ⟨rfl, fun k p f hp _ => absurd hp (by simp [pulses, Clocked.transferred,
      parser_outValid_early])⟩
  | succ t ih =>
    -- the pulse in cycle `t + 3` belongs to the beat of cycle `t`
    have hvalid := parser_outValid input t
    cases hv : (input t).tvalid with
    | false =>
      have hbeats : beats input (t + 1) = beats input t := Clocked.transferred_succ_of_idle hv
      have hpulses : pulses input (t + 1 + 3) = pulses input (t + 3) :=
        Clocked.transferred_succ_of_idle (hvalid.trans (by rw [hv]; rfl))
      rw [hbeats, hpulses]
      exact ih
    | true =>
      have hbeats : beats input (t + 1) = beats input t ++ [((input t).tdata, (input t).tlast)] :=
        Clocked.transferred_succ_of_valid hv
      rw [hbeats]
      cases hl : (input t).tlast with
      | false =>
        have hpulses : pulses input (t + 1 + 3) = pulses input (t + 3) :=
          Clocked.transferred_succ_of_idle (hvalid.trans (by rw [hv, hl]; rfl))
        rw [Segmentation.cutAfter_concat_false, hpulses]
        exact ih
      | true =>
        have hlast : ((input t).tvalid && (input t).tlast) = true := by rw [hv, hl]; rfl
        have hpulses : pulses input (t + 1 + 3) = pulses input (t + 3) ++ [parser input (t + 3)] :=
          Clocked.transferred_succ_of_valid (hvalid.trans hlast)
        rw [Segmentation.cutAfter_concat_true, hpulses]
        refine ih.concat ?_
        -- the bytes seen are the frames before, and the frame that ends here
        have hseen : (Segmentation.cutAfter (beats input t)).1.flatten ++
            ((Segmentation.cutAfter (beats input t)).2 ++ [(input t).tdata]) = seen input t := by
          rw [← List.append_assoc, Segmentation.cutAfter_flatten, map_fst_beats]
          rfl
        obtain ⟨htype, herror⟩ := parser_class input t hlast
        refine ⟨?_, ?_, ?_⟩
        · rw [hseen]
          exact parser_shows input t
        · rw [hseen]
          exact htype
        · rw [hseen, herror, parser_byteCnt, List.length_append, BitVec.ofNat_add]
          rfl

end Pulses

/-! ### A frame's own class -/

/-- The type a frame names with its first byte. -/
def ownType (frame : List Byte) : BitVec 4 := decodeType (frame.headD 0)

/-- The minimum length of a frame of the type its first byte names. -/
def minLength (b : Byte) : ℕ :=
  if b = msgAdd then 30
  else if b = msgUpdate then 21
  else if b = msgDelete then 17
  else if b = msgExec then 21
  else if b = msgTrade then 23
  else 0

/-- The minimum length of a frame of a type. -/
def typeLength (t : BitVec 4) : ℕ :=
  if t = typeAdd then 30
  else if t = typeUpdate then 21
  else if t = typeDelete then 17
  else if t = typeExec then 21
  else if t = typeTrade then 23
  else 0

/-- The minimum length depends on the type only. -/
theorem minLength_eq_typeLength (b : Byte) : minLength b = typeLength (decodeType b) := by
  unfold minLength decodeType
  split_ifs <;> rfl

/-- A frame is in error when its type is unknown or it is too short for its type. -/
def OwnError (frame : List Byte) : Prop :=
  ownType frame = typeUnkn ∨ frame.length < minLength (frame.headD 0)

/-- A frame of an order message with at least its minimum length. -/
def OrderFrame (frame : List Byte) : Prop :=
  (ownType frame = typeAdd ∨ ownType frame = typeUpdate ∨ ownType frame = typeDelete ∨
    ownType frame = typeExec) ∧ minLength (frame.headD 0) ≤ frame.length

theorem OrderFrame.length_ge {frame : List Byte} (h : OrderFrame frame) : 17 ≤ frame.length := by
  obtain ⟨htype, hmin⟩ := h
  rw [minLength_eq_typeLength] at hmin
  refine le_trans ?_ hmin
  -- the shortest order message is a Delete
  unfold ownType at htype
  rcases htype with htype | htype | htype | htype <;> rw [htype] <;> decide

theorem decodeType_eq_unkn_iff (b : Byte) :
    decodeType b = typeUnkn ↔
      b ≠ msgAdd ∧ b ≠ msgUpdate ∧ b ≠ msgDelete ∧ b ≠ msgExec ∧ b ≠ msgTrade := by
  unfold decodeType
  split_ifs <;> simp_all [typeAdd, typeUpdate, typeDelete, typeExec, typeTrade, typeUnkn]

/-- The error flag is the one for the type and length read. -/
theorem decodeError_iff (b : Byte) {n : ℕ} (hn : n < 64) :
    decodeError b (BitVec.ofNat 6 n) = true ↔ decodeType b = typeUnkn ∨ n < minLength b := by
  have hlt (m : ℕ) (hm : m < 64) :
      decide (BitVec.ofNat 6 n < BitVec.ofNat 6 m) = true ↔ n < m := by
    rw [decide_eq_true_iff, BitVec.lt_def, BitVec.toNat_ofNat, BitVec.toNat_ofNat,
      Nat.mod_eq_of_lt hn, Nat.mod_eq_of_lt hm]
  rw [decodeType_eq_unkn_iff]
  unfold decodeError minLength
  split_ifs with hA hU hD hE hP
  · exact (hlt 30 (by decide)).trans (by simp [hA])
  · exact (hlt 21 (by decide)).trans (by simp [hU])
  · exact (hlt 17 (by decide)).trans (by simp [hD])
  · exact (hlt 21 (by decide)).trans (by simp [hE])
  · exact (hlt 23 (by decide)).trans (by simp [hP])
  · simp [hA, hU, hD, hE, hP]

/-- Bytes of one known type are equal, so their minimum lengths are. -/
theorem minLength_eq_of_decodeType_eq {b b' : Byte} (h : decodeType b = decodeType b') :
    minLength b = minLength b' := by
  rw [minLength_eq_typeLength, minLength_eq_typeLength, h]

/-- A pulse shows its frame's own type and error exactly when the byte thirty places before
the frame's end has the frame's own type. -/
theorem PulseOf.own_iff {p : MarketDataParser} {before frame : List Byte}
    (h : PulseOf p before frame) (hlen : frame.length ≤ 30) :
    (p.outMsgType = ownType frame ∧ (p.outError = true ↔ OwnError frame)) ↔
      decodeType (recent (before ++ frame) 29) = ownType frame := by
  rw [h.msgType, h.error, decodeError_iff _ (by omega)]
  refine ⟨fun hown => hown.1, fun htype => ⟨htype, ?_⟩⟩
  unfold OwnError
  rw [htype, minLength_eq_of_decodeType_eq htype]

/-! ### The order reference -/

/-- With 21 bytes the order reference is read inside the frame. -/
theorem PulseOf.orderRef_of_le {p : MarketDataParser} {before frame : List Byte}
    (h : PulseOf p before frame) (hlen : 21 ≤ frame.length) :
    p.outOrderRef = word64 (recent frame) 13 := by
  rw [h.shows.orderRef]
  refine eq_of_byte_eq (n := 8) rfl fun j hj => ?_
  rw [byte_word64 _ _ j hj, byte_word64 _ _ j hj, recent_append_of_lt before (by omega)]

/-- With fewer, its lowest byte lies before the frame. -/
theorem PulseOf.orderRef_of_lt {p : MarketDataParser} {before frame : List Byte}
    (h : PulseOf p before frame) (hlen : frame.length ≤ 20) :
    byte p.outOrderRef 0 = recent before (20 - frame.length) := by
  rw [h.shows.orderRef, byte_word64 _ _ 0 (by decide), recent_append_of_le before hlen]

/-! ### Delivered frames -/

/-- Non-empty frames of at most thirty bytes, delivered by cycle `t` with a mark on the
last byte of each and any gaps. -/
structure Delivered (fs : List (List Byte)) (input : ℕ → FramedIn) (t : ℕ) : Prop where
  frame : ∀ f ∈ fs, f ≠ [] ∧ f.length ≤ 30
  sent : beats input t = fs.flatMap Segmentation.mark

theorem Delivered.pulsesOf {fs : List (List Byte)} {input : ℕ → FramedIn} {t : ℕ}
    (h : Delivered fs input t) : PulsesOf (pulses input (t + 3)) fs := by
  have hcut : Segmentation.cutAfter (beats input t) = (fs, []) := by
    have hmarked : Segmentation.marked (fs, []) = fs.flatMap Segmentation.mark :=
      List.append_nil _
    rw [h.sent, ← hmarked]
    exact Segmentation.cutAfter_marked fun f hf => (h.frame f hf).1
  have hpulses := parser_pulses input t
  rwa [hcut] at hpulses

/-- A delivered frame has a pulse, decoded at its end. -/
theorem Delivered.exists_pulse {fs : List (List Byte)} {input : ℕ → FramedIn} {t k : ℕ}
    {f : List Byte} (h : Delivered fs input t) (hf : fs[k]? = some f) :
    ∃ p, (pulses input (t + 3))[k]? = some p ∧ PulseOf p (fs.take k).flatten f := by
  obtain ⟨hk, -⟩ := List.getElem?_eq_some_iff.mp hf
  have hp := List.getElem?_eq_getElem (h.pulsesOf.length.symm ▸ hk)
  exact ⟨_, hp, h.pulsesOf.pulse k _ f hp hf⟩

/-- A list of beats sent without gaps, then silence. -/
def framedPlayback (l : List (Byte × Bool)) (t : ℕ) : FramedIn :=
  match l[t]? with
  | some (b, last) => { tdata := b, tvalid := true, tlast := last }
  | none => { tdata := 0, tvalid := false, tlast := false }

theorem beats_framedPlayback (l : List (Byte × Bool)) (t : ℕ) :
    beats (framedPlayback l) t = l.take t := by
  induction t with
  | zero => rfl
  | succ t ih =>
    cases hb : l[t]? with
    | none =>
      have hle : l.length ≤ t := List.getElem?_eq_none_iff.mp hb
      have hidle : beats (framedPlayback l) (t + 1) = beats (framedPlayback l) t :=
        Clocked.transferred_succ_of_idle (by simp [framedPlayback, hb])
      rw [hidle, ih, List.take_of_length_le hle, List.take_of_length_le (by omega)]
    | some beat =>
      have hmore : beats (framedPlayback l) (t + 1) = beats (framedPlayback l) t ++ _ :=
        Clocked.transferred_succ_of_valid (by simp [framedPlayback, hb])
      rw [hmore, ih, List.take_add_one, hb]
      simp [framedPlayback, hb]

theorem Delivered.playback {fs : List (List Byte)} (h : ∀ f ∈ fs, f ≠ [] ∧ f.length ≤ 30) :
    Delivered fs (framedPlayback (fs.flatMap Segmentation.mark))
      (fs.flatMap Segmentation.mark).length where
  frame := h
  sent := by rw [beats_framedPlayback, List.take_length]

/-- An order frame of fewer than 21 bytes lets an earlier frame into its reference. -/
theorem exists_orderRef_byte {f : List Byte} (hge : 17 ≤ f.length) (hlt : f.length < 21)
    (b : Byte) :
    ∃ (fs : List (List Byte)) (input : ℕ → FramedIn) (t k : ℕ) (p : MarketDataParser),
      Delivered fs input t ∧ (pulses input (t + 3))[k]? = some p ∧ fs[k]? = some f ∧
        byte p.outOrderRef 0 = b := by
  -- four bytes in front are enough to fill the window's last places
  have hok : ∀ f' ∈ [List.replicate 4 b, f], f' ≠ [] ∧ f'.length ≤ 30 := by
    intro f' hf'
    rcases List.mem_pair.mp hf' with rfl | rfl
    · simp
    · exact ⟨fun hnil => by rw [hnil] at hge; exact absurd hge (by decide), by omega⟩
  have h := Delivered.playback hok
  have hf : [List.replicate 4 b, f][1]? = some f := rfl
  obtain ⟨p, hp, hpulse⟩ := h.exists_pulse hf
  refine ⟨_, _, _, 1, p, h, hp, hf, ?_⟩
  have hbefore : ([List.replicate 4 b, f].take 1).flatten = List.replicate 4 b := by simp
  rw [hpulse.orderRef_of_lt (by omega), hbefore, recent, List.reverse_replicate]
  exact List.getD_replicate b (by omega)

/-- **When frames are classified by their own bytes.** The pulse of a frame shows the
frame's own type and error exactly when the byte thirty places before the frame's end,
which for a shorter frame is an earlier frame's or the reset value, has the type of the
frame's first byte. The order reference of an order frame is the same wherever the frame
is delivered exactly when the frame has 21 bytes. -/
theorem frames_classified_iff (fs : List (List Byte)) (input : ℕ → FramedIn) (t : ℕ)
    (h : Delivered fs input t) :
    (pulses input (t + 3)).length = fs.length ∧
    ∀ (k : ℕ) (p : MarketDataParser) (f : List Byte),
      (pulses input (t + 3))[k]? = some p → fs[k]? = some f →
      ((p.outMsgType = ownType f ∧ (p.outError = true ↔ OwnError f)) ↔
        decodeType (recent ((fs.take k).flatten ++ f) 29) = ownType f) ∧
      (OrderFrame f →
        ((∀ (fs' : List (List Byte)) (input' : ℕ → FramedIn) (t' k' : ℕ)
            (p' : MarketDataParser), Delivered fs' input' t' →
            (pulses input' (t' + 3))[k']? = some p' → fs'[k']? = some f →
            p'.outOrderRef = p.outOrderRef) ↔ 21 ≤ f.length)) := by
  refine ⟨h.pulsesOf.length, fun k p f hp hf => ⟨?_, fun horder => ⟨fun hsame => ?_, ?_⟩⟩⟩
  · exact (h.pulsesOf.pulse k p f hp hf).own_iff (h.frame f (List.mem_of_getElem? hf)).2
  · by_contra hshort
    -- the same frame behind bytes of one value and of another
    have hbyte (b : Byte) : byte p.outOrderRef 0 = b := by
      obtain ⟨fs', input', t', k', p', h', hp', hf', hb⟩ :=
        exists_orderRef_byte horder.length_ge (not_le.mp hshort) b
      rw [← hsame fs' input' t' k' p' h' hp' hf', hb]
    exact absurd ((hbyte 0).symm.trans (hbyte 1)) (by decide)
  · intro hle fs' input' t' k' p' h' hp' hf'
    rw [(h'.pulsesOf.pulse k' p' f hp' hf').orderRef_of_le hle,
      (h.pulsesOf.pulse k p f hp hf).orderRef_of_le hle]

/-- An Add with the type of the Execute behind it in the low byte of its quantity. -/
def addThenExecute : List (List Byte) :=
  [msgAdd :: List.replicate 20 0 ++ msgExec :: List.replicate 8 0,
    msgExec :: List.replicate 20 0]

theorem addThenExecute_classified :
    (pulses (framedPlayback (addThenExecute.flatMap Segmentation.mark)) 54).length = 2 ∧
      ∀ (k : ℕ) (p : MarketDataParser) (f : List Byte),
        (pulses (framedPlayback (addThenExecute.flatMap Segmentation.mark)) 54)[k]? = some p →
        addThenExecute[k]? = some f →
        p.outMsgType = ownType f ∧ (p.outError = true ↔ OwnError f) := by
  have hsent : Delivered addThenExecute
      (framedPlayback (addThenExecute.flatMap Segmentation.mark)) 51 :=
    Delivered.playback (by decide : ∀ f ∈ addThenExecute, f ≠ [] ∧ f.length ≤ 30)
  obtain ⟨hlen, hclassified⟩ := frames_classified_iff _ _ _ hsent
  refine ⟨hlen, fun k p f hp hf => ((hclassified k p f hp hf).1).mpr ?_⟩
  -- the window of the Execute reaches back to the quantity of the Add
  have hwindow : ∀ k f, addThenExecute[k]? = some f →
      decodeType (recent ((addThenExecute.take k).flatten ++ f) 29) = ownType f := by
    rintro (_ | _ | k) f hf
    · obtain rfl := Option.some.inj hf
      decide +kernel
    · obtain rfl := Option.some.inj hf
      decide +kernel
    · exact absurd hf (by simp [addThenExecute])
  exact hwindow k f hf

/-- A Delete of minimum length, first after reset. -/
def deleteFrame : List Byte := msgDelete :: List.replicate 16 0

/-- Its type is read from the reset value of the shift register, and is unknown. -/
theorem deleteFrame_misclassified :
    Delivered [deleteFrame] (framedPlayback (Segmentation.mark deleteFrame)) 17 ∧
      ownType deleteFrame = typeDelete ∧ ¬ OwnError deleteFrame ∧
      ∃ p, (pulses (framedPlayback (Segmentation.mark deleteFrame)) 20)[0]? = some p ∧
        p.outMsgType = typeUnkn ∧ p.outError = true := by
  have hsent : Delivered [deleteFrame] (framedPlayback (Segmentation.mark deleteFrame)) 17 :=
    Delivered.playback (by decide : ∀ f ∈ [deleteFrame], f ≠ [] ∧ f.length ≤ 30)
  refine ⟨hsent, by decide, by simp [OwnError]; decide, ?_⟩
  obtain ⟨p, hp, hpulse⟩ := hsent.exists_pulse (k := 0) rfl
  exact ⟨p, hp, hpulse.msgType.trans (by decide), hpulse.error.trans (by decide)⟩

end HftKr260
