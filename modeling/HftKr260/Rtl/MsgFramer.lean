import HftKr260.Foundation.Segmentation
import HftKr260.Rtl.ByteStream

/-!
# msg_framer

The first stage of the datapath: a continuous byte stream comes in, the same bytes go out
one cycle later, with `m_tlast` on the last byte of every message. The framer reads the
type byte of each message and counts its bytes; an unknown type byte is a message of its
own.

Registers keep their Verilog widths, and the values of all registers during a cycle are
one `MsgFramer`; `next` is the clocked block. The reset value is `MsgFramer.reset`.

## Main results

* `Tracks.next` — the counters follow the open segment of the reference segmentation
* `framer_marks_segments` — the output is the input, marked at the segment ends
-/

set_option autoImplicit false

namespace HftKr260

open Foundation

/-- The registers of `msg_framer`. -/
structure MsgFramer where
  expectedLen : BitVec 6
  byteCnt : BitVec 6
  inMessage : Bool
  mTdata : Byte
  mTvalid : Bool
  mTlast : Bool
  deriving DecidableEq, Repr

namespace MsgFramer

def typeAdd : Byte := 0x41
def typeUpdate : Byte := 0x55
def typeDelete : Byte := 0x44
def typeExec : Byte := 0x45
def typeTrade : Byte := 0x50

/-- `case (s_tdata)`: the length an opening byte announces. -/
def typeLen (sTdata : Byte) : BitVec 6 :=
  if sTdata = typeAdd then 30
  else if sTdata = typeUpdate then 21
  else if sTdata = typeDelete then 17
  else if sTdata = typeExec then 21
  else if sTdata = typeTrade then 23
  else 1

def reset : MsgFramer where
  expectedLen := 1
  byteCnt := 0
  inMessage := false
  mTdata := 0
  mTvalid := false
  mTlast := false

/-- The clocked block outside reset. -/
def next (s : MsgFramer) (sTdata : Byte) (sTvalid mTready : Bool) : MsgFramer :=
  -- data, valid and the default of `m_tlast` are assigned in every cycle
  let forward := { s with mTvalid := sTvalid, mTdata := sTdata, mTlast := false }
  if sTvalid && mTready then
    if !s.inMessage then
      -- the opening byte sets the length; an unknown type is a message of one byte
      let first :=
        { forward with inMessage := true, byteCnt := 1, expectedLen := typeLen sTdata }
      if sTdata ≠ typeAdd ∧ sTdata ≠ typeUpdate ∧ sTdata ≠ typeDelete ∧ sTdata ≠ typeExec ∧
          sTdata ≠ typeTrade then
        { first with mTlast := true, inMessage := false, byteCnt := 0 }
      else first
    else
      -- the count is compared before it is increased
      let body := { forward with byteCnt := s.byteCnt + 1 }
      if s.byteCnt = s.expectedLen - 1 then
        { body with mTlast := true, inMessage := false, byteCnt := 0 }
      else body
  else forward

/-- `s_tready` passes the back-pressure through. -/
def sTready (mTready : Bool) : Bool := mTready

end MsgFramer

/-! ### The reference segmentation -/

/-- The documented length of a message that opens with this byte. -/
def frameLen (b : Byte) : ℕ :=
  if b = MsgFramer.typeAdd then 30
  else if b = MsgFramer.typeUpdate then 21
  else if b = MsgFramer.typeDelete then 17
  else if b = MsgFramer.typeExec then 21
  else if b = MsgFramer.typeTrade then 23
  else 1

theorem frameLen_pos (b : Byte) : 0 < frameLen b := by
  unfold frameLen
  split_ifs <;> omega

theorem frameLen_le (b : Byte) : frameLen b ≤ 30 := by
  unfold frameLen
  split_ifs <;> omega

theorem toNat_typeLen (b : Byte) : (MsgFramer.typeLen b).toNat = frameLen b := by
  unfold MsgFramer.typeLen frameLen
  split_ifs <;> rfl

/-- The bytes of a stream cut into messages, with the incomplete rest. -/
def frames (bytes : List Byte) : List (List Byte) × List Byte :=
  Segmentation.segment frameLen bytes

@[simp] theorem frames_nil : frames [] = ([], []) :=
  Segmentation.segment_of_incomplete Segmentation.incomplete_nil

/-! ### The framer follows the segmentation -/

namespace MsgFramer

variable {s : MsgFramer} {bytes : List Byte}

/-- The counters describe the open segment of the accepted bytes. -/
structure Tracks (s : MsgFramer) (bytes : List Byte) : Prop where
  idle : (frames bytes).2 = [] → s.inMessage = false
  body : ∀ b t, (frames bytes).2 = b :: t →
    s.inMessage = true ∧ s.byteCnt.toNat = t.length + 1 ∧ s.expectedLen = typeLen b

theorem tracks_reset : Tracks reset [] where
  idle := fun _ => rfl
  body := by
    intro b t h
    simp at h

/-- Without a byte the counters stay. -/
theorem Tracks.next_idle (h : Tracks s bytes) (d : Byte) (r : Bool) :
    Tracks (s.next d false r) bytes where
  idle := h.idle
  body := h.body

theorem mTlast_next_idle (d : Byte) (r : Bool) : (s.next d false r).mTlast = false := rfl

/-- Between messages an accepted byte opens one, and ends it if the type is unknown. -/
private theorem next_first (hidle : s.inMessage = false) (d : Byte) :
    ((s.next d true true).mTlast = true ↔ frameLen d = 1) ∧
      ((s.next d true true).inMessage = true ↔ frameLen d ≠ 1) ∧
      (frameLen d ≠ 1 → (s.next d true true).byteCnt = 1 ∧
        (s.next d true true).expectedLen = typeLen d) := by
  have hknown : (d ≠ typeAdd ∧ d ≠ typeUpdate ∧ d ≠ typeDelete ∧ d ≠ typeExec ∧
      d ≠ typeTrade) ↔ frameLen d = 1 := by
    unfold frameLen
    split_ifs <;> simp_all
  simp only [next, hidle, Bool.and_self, Bool.not_false, if_true, hknown]
  split_ifs with h <;> simp [h]

/-- Inside a message an accepted byte counts, and ends the message at its length. -/
private theorem next_body (hin : s.inMessage = true) (d : Byte) :
    ((s.next d true true).mTlast = true ↔ s.byteCnt = s.expectedLen - 1) ∧
      ((s.next d true true).inMessage = true ↔ s.byteCnt ≠ s.expectedLen - 1) ∧
      (s.byteCnt ≠ s.expectedLen - 1 → (s.next d true true).byteCnt = s.byteCnt + 1 ∧
        (s.next d true true).expectedLen = s.expectedLen) := by
  simp only [next, hin, Bool.and_self, Bool.not_true, if_true, Bool.false_eq_true, if_false]
  split_ifs with h
  · exact ⟨iff_of_true rfl h, iff_of_false id (not_not.mpr h),
      fun hne => absurd h hne⟩
  · exact ⟨iff_of_false id h, iff_of_true rfl h, fun _ => ⟨rfl, rfl⟩⟩

/-- What an accepted byte does behind an open segment: it is marked and closes the message
if it completes the segment, and is counted if it does not. -/
structure Advances (s : MsgFramer) (rest : List Byte) (d : Byte) : Prop where
  mTlast : (s.next d true true).mTlast = true ↔ Segmentation.Complete frameLen (rest ++ [d])
  inMessage : (s.next d true true).inMessage = true ↔
    ¬ Segmentation.Complete frameLen (rest ++ [d])
  counts : ¬ Segmentation.Complete frameLen (rest ++ [d]) → ∀ b t, rest ++ [d] = b :: t →
    (s.next d true true).byteCnt.toNat = t.length + 1 ∧
      (s.next d true true).expectedLen = typeLen b

/-- The first byte of a segment. -/
private theorem Tracks.advances_first (h : Tracks s bytes) (hrest : (frames bytes).2 = [])
    (d : Byte) : Advances s [] d := by
  obtain ⟨hlast, hin, hcount⟩ := next_first (h.idle hrest) d
  have hcomplete : Segmentation.Complete frameLen ([] ++ [d]) ↔ frameLen d = 1 := by
    constructor
    · rintro ⟨b, t, hbt, hlen⟩
      obtain ⟨rfl, rfl⟩ := List.cons.inj hbt
      exact hlen.symm
    · exact fun hlen => ⟨d, [], rfl, hlen.symm⟩
  refine ⟨by rw [hcomplete]; exact hlast, by rw [hcomplete]; exact hin, fun hne b t hbt => ?_⟩
  rw [hcomplete] at hne
  obtain ⟨rfl, rfl⟩ := List.cons.inj hbt
  obtain ⟨hcnt, hexp⟩ := hcount hne
  exact ⟨by rw [hcnt]; rfl, hexp⟩

/-- A further byte of a segment. -/
private theorem Tracks.advances_body (h : Tracks s bytes) {b : Byte} {t : List Byte}
    (hrest : (frames bytes).2 = b :: t) (d : Byte) : Advances s (b :: t) d := by
  obtain ⟨hin, hcnt, hexp⟩ := h.body b t hrest
  obtain ⟨hlast, hin', hcount⟩ := next_body hin d
  have hlt : (frames bytes).2.length < frameLen b :=
    Segmentation.incomplete_rest frameLen_pos bytes b t hrest
  rw [hrest, List.length_cons] at hlt
  have hle := frameLen_le b
  have hlen := toNat_typeLen b
  -- the counter stands at the length of the open segment
  have hcomplete : Segmentation.Complete frameLen (b :: t ++ [d]) ↔
      s.byteCnt = s.expectedLen - 1 := by
    rw [hexp, ← BitVec.toNat_inj]
    have hsub : (typeLen b - 1).toNat = frameLen b - 1 := by
      rw [← hlen]
      bv_omega
    rw [hsub, hcnt]
    constructor
    · rintro ⟨b', t', hbt, hlen'⟩
      obtain ⟨rfl, rfl⟩ := List.cons.inj hbt
      simp only [List.cons_append, List.length_cons, List.length_append,
        List.length_nil] at hlen'
      omega
    · intro heq
      refine ⟨b, t ++ [d], rfl, ?_⟩
      simp only [List.cons_append, List.length_cons, List.length_append, List.length_nil]
      omega
  refine ⟨by rw [hcomplete]; exact hlast, by rw [hcomplete]; exact hin',
    fun hne b' t' hbt => ?_⟩
  rw [hcomplete] at hne
  obtain ⟨rfl, ht⟩ := List.cons.inj hbt
  have ht' : t'.length = t.length + 1 := by rw [← ht]; exact List.length_append
  obtain ⟨hcnt', hexp'⟩ := hcount hne
  refine ⟨?_, by rw [hexp', hexp]⟩
  -- no message is long enough to overflow the six-bit counter
  rw [hcnt', BitVec.toNat_add, hcnt, ht']
  show (t.length + 1 + 1) % 64 = _
  omega

theorem Tracks.advances (h : Tracks s bytes) (d : Byte) : Advances s (frames bytes).2 d := by
  cases hrest : (frames bytes).2 with
  | nil => exact h.advances_first hrest d
  | cons b t => exact h.advances_body hrest d

/-- An accepted byte keeps the counters in step, and is marked when it ends a segment. -/
theorem Tracks.next (h : Tracks s bytes) (d : Byte) :
    Tracks (s.next d true true) (bytes ++ [d]) ∧
      ((s.next d true true).mTlast = true ↔ (frames (bytes ++ [d])).2 = []) := by
  -- the two ways a byte can continue the segmentation, and what the counters do in each
  have hadv := h.advances d
  have hcut : Segmentation.Complete frameLen ((frames bytes).2 ++ [d]) ∨
      Segmentation.Incomplete frameLen ((frames bytes).2 ++ [d]) :=
    Segmentation.complete_or_incomplete frameLen_pos bytes d
  rcases hcut with hcomplete | hincomplete
  · have hframes : frames (bytes ++ [d]) = _ :=
      Segmentation.segment_concat_of_complete frameLen_pos hcomplete
    have hnil : (frames (bytes ++ [d])).2 = [] := by rw [hframes]
    refine ⟨⟨fun _ => ?_, fun b t hbt => ?_⟩, ?_⟩
    · exact Bool.eq_false_of_not_eq_true fun htrue => hadv.inMessage.mp htrue hcomplete
    · rw [hnil] at hbt
      exact absurd hbt (by simp)
    · exact ⟨fun _ => hnil, fun _ => hadv.mTlast.mpr hcomplete⟩
  · have hframes : frames (bytes ++ [d]) = _ :=
      Segmentation.segment_concat_of_incomplete frameLen_pos hincomplete
    have hrest : (frames (bytes ++ [d])).2 = (frames bytes).2 ++ [d] := by rw [hframes]; rfl
    have hnot : ¬ Segmentation.Complete frameLen ((frames bytes).2 ++ [d]) := by
      rintro ⟨b, t, hbt, hlen⟩
      have hlt := hincomplete b t hbt
      omega
    refine ⟨⟨fun hnil => ?_, fun b t hbt => ?_⟩, ?_⟩
    · rw [hrest] at hnil
      exact absurd hnil (by simp)
    · rw [hrest] at hbt
      exact ⟨hadv.inMessage.mpr hnot, hadv.counts hnot b t hbt⟩
    · rw [hrest]
      exact ⟨fun hl => absurd (hadv.mTlast.mp hl) hnot, fun hnil => absurd hnil (by simp)⟩

@[simp] theorem mTvalid_next (d : Byte) (v r : Bool) : (s.next d v r).mTvalid = v := by
  unfold next
  dsimp only
  split_ifs <;> rfl

@[simp] theorem mTdata_next (d : Byte) (v r : Bool) : (s.next d v r).mTdata = d := by
  unfold next
  dsimp only
  split_ifs <;> rfl

end MsgFramer

/-! ### Runs -/

/-- The framer's registers from reset on, with `m_tready` at the parser's constant 1. -/
def framer (input : ℕ → AxisIn) : ℕ → MsgFramer :=
  Clocked.run (fun s i => s.next i.tdata i.tvalid true) MsgFramer.reset input

section Runs

variable (input : ℕ → AxisIn)

theorem framer_succ (t : ℕ) :
    framer input (t + 1) = (framer input t).next (input t).tdata (input t).tvalid true := rfl

/-- Always the counters describe the open segment of the bytes accepted so far. -/
theorem framer_tracks (t : ℕ) : (framer input t).Tracks (accepted input t) := by
  refine Clocked.run_invariant (P := fun t s => MsgFramer.Tracks s (accepted input t))
    MsgFramer.tracks_reset (fun t s ih => ?_) t
  cases hv : (input t).tvalid with
  | false =>
    rw [accepted_succ_of_idle hv]
    exact ih.next_idle _ _
  | true =>
    rw [accepted_succ_of_valid hv]
    exact (ih.next _).1

/-- `m_tlast` is up exactly one cycle after a byte that ends a segment. -/
theorem framer_mTlast (t : ℕ) :
    (framer input (t + 1)).mTlast = true ↔
      (input t).tvalid = true ∧ (frames (accepted input (t + 1))).2 = [] := by
  rw [framer_succ]
  cases hv : (input t).tvalid with
  | false => simp [MsgFramer.mTlast_next_idle]
  | true =>
    have hmore := accepted_succ_of_valid hv
    rw [hmore, ((framer_tracks input t).next (input t).tdata).2]
    simp

/-- What the framer has put out: the accepted bytes, marked at the segment ends. -/
theorem framer_output (t : ℕ) :
    Clocked.transferred (fun c => (framer input c).mTvalid)
        (fun c => ((framer input c).mTdata, (framer input c).mTlast)) (t + 1) =
      Segmentation.marked (frames (accepted input t)) := by
  induction t with
  | zero => rw [show accepted input 0 = [] from rfl, frames_nil]; rfl
  | succ t ih =>
    have hvalid : (framer input (t + 1)).mTvalid = (input t).tvalid :=
      MsgFramer.mTvalid_next _ _ _
    cases hv : (input t).tvalid with
    | false =>
      have hsame := accepted_succ_of_idle hv
      rw [Clocked.transferred_succ_of_idle (hvalid.trans hv), ih, hsame]
    | true =>
      have hmore := accepted_succ_of_valid hv
      have hdata : (framer input (t + 1)).mTdata = (input t).tdata :=
        MsgFramer.mTdata_next _ _ _
      have hlast : (framer input (t + 1)).mTlast =
          (frames (accepted input t ++ [(input t).tdata])).2.isEmpty := by
        rw [Bool.eq_iff_iff, framer_mTlast, hmore, List.isEmpty_iff]
        simp [hv]
      rw [Clocked.transferred_succ_of_valid (hvalid.trans hv), ih, hmore, hdata, hlast]
      exact (Segmentation.marked_segment_concat frameLen_pos _ _).symm

/-- The output of the framer, cut after the marks, is the cut of the accepted bytes. -/
theorem cutAfter_framer (t : ℕ) :
    Segmentation.cutAfter
        (Clocked.transferred (fun c => (framer input c).mTvalid)
          (fun c => ((framer input c).mTdata, (framer input c).mTlast)) (t + 1)) =
      frames (accepted input t) := by
  rw [framer_output]
  exact Segmentation.cutAfter_marked fun s hs =>
    (Segmentation.complete_of_mem_segment frameLen_pos hs).ne_nil

end Runs

/-- **The framer segments every byte stream.** The bytes put out are the bytes accepted,
each one cycle later, and the marks stand on the last bytes of the segments. -/
theorem framer_marks_segments (input : ℕ → AxisIn) (t : ℕ) :
    ((framer input 0).mTvalid = false ∧
      (framer input (t + 1)).mTvalid = (input t).tvalid ∧
      ((input t).tvalid = true → (framer input (t + 1)).mTdata = (input t).tdata)) ∧
    Clocked.transferred (fun c => (framer input c).mTvalid) (fun c => (framer input c).mTdata)
        (t + 1) = accepted input t ∧
    ((framer input (t + 1)).mTlast = true ↔
      (input t).tvalid = true ∧ (frames (accepted input (t + 1))).2 = []) ∧
    Clocked.transferred (fun c => (framer input c).mTvalid)
        (fun c => ((framer input c).mTdata, (framer input c).mTlast)) (t + 1) =
      Segmentation.marked (frames (accepted input t)) := by
  have hvalid (c : ℕ) : (framer input (c + 1)).mTvalid = (input c).tvalid :=
    MsgFramer.mTvalid_next _ _ _
  have hdata (c : ℕ) : (framer input (c + 1)).mTdata = (input c).tdata :=
    MsgFramer.mTdata_next _ _ _
  exact ⟨⟨rfl, hvalid t, fun _ => hdata t⟩,
    Clocked.transferred_delay rfl hvalid (fun c _ => hdata c) t, framer_mTlast input t,
    framer_output input t⟩

end HftKr260
