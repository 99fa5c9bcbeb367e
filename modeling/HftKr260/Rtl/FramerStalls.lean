import HftKr260.Foundation.Handshake
import HftKr260.Rtl.MsgFramer

/-!
# msg_framer under back-pressure

`s_tready` is the `m_tready` of the same cycle, but the output registers are loaded in every
cycle, also in one in which nothing is accepted. A stall overwrites the byte that waits in
them, and shows the byte at the input before it has been accepted.

The framer is in step when what it shows is what it still has to transfer, and ahead when it
shows a byte although everything accepted has been transferred. In step it loses a byte or
repeats one unless the source happens to show the right one; once ahead it stays ahead, and only
a source that repeats one byte for ever hides it.

## Main results

* `InStep.next`, `InStep.overtakes` — what a cycle does to a framer in step
* `framer_obeys_iff` — the streams and stalls under which the protocol is kept
-/

set_option autoImplicit false

namespace HftKr260

open Foundation

/-- One cycle of the ports: what the source shows and what the sink answers. -/
structure StreamIn extends AxisIn where
  mTready : Bool
  deriving DecidableEq, Repr

/-- The framer's registers from reset on. -/
def stalledFramer (input : ℕ → StreamIn) : ℕ → MsgFramer :=
  Clocked.run (fun s i => s.next i.tdata i.tvalid i.mTready) MsgFramer.reset input

section Ports

variable (input : ℕ → StreamIn)

/-- A source that keeps what it shows until `s_tready`. -/
def Compliant : Prop :=
  Handshake.Held (fun t => (input t).tvalid) (fun t => MsgFramer.sTready (input t).mTready)
    fun t => (input t).tdata

/-- The bytes accepted in the first `t` cycles. -/
def upstream : ℕ → List Byte :=
  Handshake.handshakes (fun t => (input t).tvalid)
    (fun t => MsgFramer.sTready (input t).mTready) fun t => (input t).tdata

/-- The bytes transferred in the first `t` cycles, with their marks. -/
def downstream : ℕ → List (Byte × Bool) :=
  Handshake.handshakes (fun t => (stalledFramer input t).mTvalid) (fun t => (input t).mTready)
    fun t => ((stalledFramer input t).mTdata, (stalledFramer input t).mTlast)

/-- The accepted bytes behind cycle `t` end a segment. -/
def EndsMessage (t : ℕ) : Prop := (frames (upstream input (t + 1))).2 = []

/-- The protocol at the output: always a prefix of what has been accepted, with the marks of
the segmentation, and nothing changes before it is taken. -/
structure Obeys : Prop where
  transfers : ∀ t, downstream input t <+: Segmentation.marked (frames (upstream input t))
  held : Handshake.Held (fun t => (stalledFramer input t).mTvalid) (fun t => (input t).mTready)
    fun t => ((stalledFramer input t).mTdata, (stalledFramer input t).mTlast)

end Ports

/-! ### One cycle -/

namespace MsgFramer

variable {s : MsgFramer} {bytes : List Byte} {v r : Bool}

/-- Without a handshake the counters stay and nothing is marked. -/
theorem Tracks.next_stalled (h : Tracks s bytes) (d : Byte) (hvr : (v && r) = false) :
    Tracks (s.next d v r) bytes := by
  rw [MsgFramer.next, hvr]
  exact ⟨h.idle, h.body⟩

theorem mTlast_next_stalled (d : Byte) (hvr : (v && r) = false) :
    (s.next d v r).mTlast = false := by
  rw [next, hvr]
  rfl

end MsgFramer

section Cycle

variable {input : ℕ → StreamIn} {t : ℕ}

theorem stalledFramer_succ (input : ℕ → StreamIn) (t : ℕ) :
    stalledFramer input (t + 1) =
      (stalledFramer input t).next (input t).tdata (input t).tvalid (input t).mTready := rfl

@[simp] theorem stalled_mTvalid (input : ℕ → StreamIn) (t : ℕ) :
    (stalledFramer input (t + 1)).mTvalid = (input t).tvalid := MsgFramer.mTvalid_next _ _ _

@[simp] theorem stalled_mTdata (input : ℕ → StreamIn) (t : ℕ) :
    (stalledFramer input (t + 1)).mTdata = (input t).tdata := MsgFramer.mTdata_next _ _ _

theorem upstream_accept (hv : (input t).tvalid = true) (hr : (input t).mTready = true) :
    upstream input (t + 1) = upstream input t ++ [(input t).tdata] :=
  Clocked.transferred_succ_of_valid (Bool.and_eq_true_iff.mpr ⟨hv, hr⟩)

theorem upstream_wait (h : ((input t).tvalid && (input t).mTready) = false) :
    upstream input (t + 1) = upstream input t := Clocked.transferred_succ_of_idle h

theorem downstream_take (hv : (stalledFramer input t).mTvalid = true)
    (hr : (input t).mTready = true) :
    downstream input (t + 1) = downstream input t ++
      [((stalledFramer input t).mTdata, (stalledFramer input t).mTlast)] :=
  Clocked.transferred_succ_of_valid (Bool.and_eq_true_iff.mpr ⟨hv, hr⟩)

theorem downstream_wait (h : ((stalledFramer input t).mTvalid && (input t).mTready) = false) :
    downstream input (t + 1) = downstream input t := Clocked.transferred_succ_of_idle h

/-- Always the counters describe the open segment of the bytes accepted so far. -/
theorem stalled_tracks (input : ℕ → StreamIn) (t : ℕ) :
    (stalledFramer input t).Tracks (upstream input t) := by
  refine Clocked.run_invariant (P := fun t s => MsgFramer.Tracks s (upstream input t))
    MsgFramer.tracks_reset (fun t s ih => ?_) t
  cases hvr : (input t).tvalid && (input t).mTready with
  | false =>
    rw [upstream_wait hvr]
    exact ih.next_stalled _ hvr
  | true =>
    obtain ⟨hv, hr⟩ := Bool.and_eq_true_iff.mp hvr
    rw [upstream_accept hv hr, hv, hr]
    exact (ih.next _).1

/-- A mark stands behind an accepted byte that ends a segment. -/
theorem stalled_mTlast_accept (hv : (input t).tvalid = true) (hr : (input t).mTready = true) :
    (stalledFramer input (t + 1)).mTlast = true ↔ EndsMessage input t := by
  rw [stalledFramer_succ, EndsMessage, upstream_accept hv hr, hv, hr]
  exact ((stalled_tracks input t).next _).2

theorem stalled_mTlast_wait (h : ((input t).tvalid && (input t).mTready) = false) :
    (stalledFramer input (t + 1)).mTlast = false := MsgFramer.mTlast_next_stalled _ h

/-- One more accepted byte, with its mark. -/
theorem marked_accept (hv : (input t).tvalid = true) (hr : (input t).mTready = true) :
    Segmentation.marked (frames (upstream input (t + 1))) =
      Segmentation.marked (frames (upstream input t)) ++
        [((input t).tdata, (stalledFramer input (t + 1)).mTlast)] := by
  have hmark : (stalledFramer input (t + 1)).mTlast =
      (frames (upstream input t ++ [(input t).tdata])).2.isEmpty := by
    rw [Bool.eq_iff_iff, stalled_mTlast_accept hv hr, EndsMessage, upstream_accept hv hr,
      List.isEmpty_iff]
  rw [hmark, upstream_accept hv hr]
  exact Segmentation.marked_segment_concat frameLen_pos _ _

end Cycle

/-! ### In step and ahead -/

section Modes

variable (input : ℕ → StreamIn) (t : ℕ)

/-- The byte in the output registers. -/
def shown : List (Byte × Bool) :=
  if (stalledFramer input t).mTvalid then
    [((stalledFramer input t).mTdata, (stalledFramer input t).mTlast)]
  else []

/-- What is shown is what is still to be transferred. -/
def InStep : Prop :=
  downstream input t ++ shown input t = Segmentation.marked (frames (upstream input t))

/-- Nothing is still to be transferred, and a byte is shown. -/
structure Ahead : Prop where
  transferred : downstream input t = Segmentation.marked (frames (upstream input t))
  valid : (stalledFramer input t).mTvalid = true

end Modes

section Steps

variable {input : ℕ → StreamIn} {t : ℕ}

theorem inStep_zero (input : ℕ → StreamIn) : InStep input 0 := by
  have hbytes : upstream input 0 = [] := rfl
  rw [InStep, hbytes, frames_nil]
  rfl

theorem shown_of_valid (h : (stalledFramer input t).mTvalid = true) :
    shown input t = [((stalledFramer input t).mTdata, (stalledFramer input t).mTlast)] := if_pos h

theorem shown_of_idle (h : (stalledFramer input t).mTvalid = false) : shown input t = [] := by
  rw [shown, h]
  rfl

/-- Without a stall the framer stays in step. -/
theorem InStep.ready (h : InStep input t) (hr : (input t).mTready = true) :
    InStep input (t + 1) := by
  have htaken : downstream input (t + 1) = Segmentation.marked (frames (upstream input t)) := by
    rw [← h]
    cases hvalid : (stalledFramer input t).mTvalid with
    | false => rw [downstream_wait (by rw [hvalid]; rfl), shown_of_idle hvalid, List.append_nil]
    | true => rw [downstream_take hvalid hr, shown_of_valid hvalid]
  rw [InStep, htaken]
  cases hv : (input t).tvalid with
  | false =>
    rw [shown_of_idle (by rw [stalled_mTvalid, hv]), List.append_nil,
      upstream_wait (by rw [hv]; rfl)]
  | true =>
    rw [shown_of_valid (by rw [stalled_mTvalid, hv]), stalled_mTdata, marked_accept hv hr]

/-- In a stall nothing is accepted and nothing transferred. -/
theorem stall_waits (hr : (input t).mTready = false) :
    upstream input (t + 1) = upstream input t ∧
      downstream input (t + 1) = downstream input t :=
  ⟨upstream_wait (by rw [hr, Bool.and_false]), downstream_wait (by rw [hr, Bool.and_false])⟩

/-- In a stall the framer stays in step as long as its output stays what it is. -/
theorem InStep.held (h : InStep input t) (hr : (input t).mTready = false)
    (hshown : shown input (t + 1) = shown input t) : InStep input (t + 1) := by
  obtain ⟨hup, hdown⟩ := stall_waits hr
  rw [InStep, hup, hdown, hshown]
  exact h

/-- A byte that meets a stall at an empty output is shown before it is accepted. -/
theorem InStep.overtakes (h : InStep input t) (hr : (input t).mTready = false)
    (hempty : (stalledFramer input t).mTvalid = false) (hv : (input t).tvalid = true) :
    Ahead input (t + 1) := by
  obtain ⟨hup, hdown⟩ := stall_waits hr
  rw [InStep, shown_of_idle hempty, List.append_nil] at h
  refine ⟨?_, by rw [stalled_mTvalid, hv]⟩
  rw [hup, hdown, h]

/-- If a stalled output stays what it is, a framer in step stays in step unless a byte meets a
stall at an empty output. -/
theorem InStep.next (h : InStep input t)
    (hkept : (stalledFramer input t).mTvalid = true → (input t).mTready = false →
      shown input (t + 1) = shown input t) :
    InStep input (t + 1) ∨ ((input t).mTready = false ∧
      (stalledFramer input t).mTvalid = false ∧ (input t).tvalid = true) := by
  cases hr : (input t).mTready with
  | true => exact .inl (h.ready hr)
  | false =>
    cases hvalid : (stalledFramer input t).mTvalid with
    | true => exact .inl (h.held hr (hkept hvalid hr))
    | false =>
      cases hv : (input t).tvalid with
      | false =>
        refine .inl (h.held hr ?_)
        rw [shown_of_idle hvalid, shown_of_idle (by rw [stalled_mTvalid, hv])]
      | true => exact .inr ⟨rfl, rfl, rfl⟩

end Steps

/-! ### Stalls that are harmless -/

section Stalls

variable (input : ℕ → StreamIn)

/-- A byte accepted just before a stall is shown again by the source, and is not the last of
its message. -/
def RepeatsAccepted : Prop :=
  ∀ t, (input t).tvalid = true → (input t).mTready = true → (input (t + 1)).mTready = false →
    (input (t + 1)).tvalid = true ∧ (input (t + 1)).tdata = (input t).tdata ∧
      ¬ EndsMessage input t

/-- From cycle `t` on the source shows the byte `b` only, and no message ends. -/
def RepeatsForever (b : Byte) (t : ℕ) : Prop :=
  ∀ u, t ≤ u → (input u).tvalid = true ∧ (input u).tdata = b ∧
    ((input u).mTready = true → ¬ EndsMessage input u)

/-- A byte that meets a stall behind an idle cycle is all the source ever shows again. -/
def NeverOvertaken : Prop :=
  ∀ t, (input t).mTready = false → (input t).tvalid = true →
    (∀ s, t = s + 1 → (input s).tvalid = false) →
      RepeatsForever input (input t).tdata (t + 1)

end Stalls

section Modes

variable {input : ℕ → StreamIn} {t : ℕ} {b : Byte}

/-- The output is empty exactly behind an idle cycle. -/
theorem mTvalid_eq_false_iff (input : ℕ → StreamIn) (t : ℕ) :
    (stalledFramer input t).mTvalid = false ↔ ∀ s, t = s + 1 → (input s).tvalid = false := by
  cases t with
  | zero => exact iff_of_true rfl fun s hs => absurd hs (Nat.succ_ne_zero s).symm
  | succ t =>
    rw [stalled_mTvalid]
    constructor
    · intro h s hs
      rwa [← Nat.succ_injective hs]
    · exact fun h => h t rfl

/-- Ahead of a source that shows one unmarked byte only. -/
theorem Ahead.next (h : Ahead input t) (hforever : RepeatsForever input b t)
    (hdata : (stalledFramer input t).mTdata = b) (hlast : (stalledFramer input t).mTlast = false) :
    Ahead input (t + 1) ∧ (stalledFramer input (t + 1)).mTdata = b ∧
      (stalledFramer input (t + 1)).mTlast = false := by
  obtain ⟨hv, hb, hend⟩ := hforever t (Nat.le_refl t)
  have hvalid : (stalledFramer input (t + 1)).mTvalid = true := by rw [stalled_mTvalid, hv]
  cases hr : (input t).mTready with
  | false =>
    obtain ⟨hup, hdown⟩ := stall_waits hr
    refine ⟨⟨?_, hvalid⟩, by rw [stalled_mTdata, hb], ?_⟩
    · rw [hup, hdown, h.transferred]
    · exact stalled_mTlast_wait (by rw [hr, Bool.and_false])
  | true =>
    have hunmarked : (stalledFramer input (t + 1)).mTlast = false :=
      Bool.eq_false_of_not_eq_true fun hl => hend hr ((stalled_mTlast_accept hv hr).mp hl)
    refine ⟨⟨?_, hvalid⟩, by rw [stalled_mTdata, hb], hunmarked⟩
    -- the byte transferred is the byte accepted, and neither is marked
    rw [downstream_take h.valid hr, marked_accept hv hr, h.transferred, hdata, hlast, hb,
      hunmarked]

/-- In step, or ahead of a source that shows one unmarked byte only. -/
def Harmless (input : ℕ → StreamIn) (t : ℕ) : Prop :=
  InStep input t ∨ ∃ b, Ahead input t ∧ RepeatsForever input b t ∧
    (stalledFramer input t).mTdata = b ∧ (stalledFramer input t).mTlast = false

/-- A stalled byte stays in the output of a framer in step. -/
theorem shown_of_stall (hsource : Compliant input) (hrepeats : RepeatsAccepted input)
    (hr : (input t).mTready = false) (hvalid : (stalledFramer input t).mTvalid = true) :
    (stalledFramer input (t + 1)).mTvalid = true ∧
      (stalledFramer input (t + 1)).mTdata = (stalledFramer input t).mTdata ∧
      (stalledFramer input (t + 1)).mTlast = (stalledFramer input t).mTlast := by
  have hlast : (stalledFramer input (t + 1)).mTlast = false :=
    stalled_mTlast_wait (by rw [hr, Bool.and_false])
  rw [hlast, stalled_mTvalid, stalled_mTdata]
  cases t with
  | zero => exact absurd hvalid Bool.false_ne_true
  | succ t =>
    rw [stalled_mTvalid] at hvalid
    rw [stalled_mTdata]
    -- the byte was accepted a cycle ago, or has been waiting at the input
    cases hbefore : (input t).mTready with
    | true =>
      obtain ⟨hv, hd, hend⟩ := hrepeats t hvalid hbefore hr
      refine ⟨hv, hd, ?_⟩
      exact (Bool.eq_false_of_not_eq_true fun hl =>
        hend ((stalled_mTlast_accept hvalid hbefore).mp hl)).symm
    | false =>
      obtain ⟨hv, hd⟩ := hsource t hvalid hbefore
      exact ⟨hv, hd, (stalled_mTlast_wait (by rw [hbefore, Bool.and_false])).symm⟩

theorem Harmless.next (hsource : Compliant input) (hrepeats : RepeatsAccepted input)
    (hnever : NeverOvertaken input) (h : Harmless input t) : Harmless input (t + 1) := by
  rcases h with hstep | ⟨b, hahead, hforever, hdata, hlast⟩
  · have hkept : (stalledFramer input t).mTvalid = true → (input t).mTready = false →
        shown input (t + 1) = shown input t := by
      intro hvalid hr
      obtain ⟨hvalid', hdata, hlast⟩ := shown_of_stall hsource hrepeats hr hvalid
      rw [shown_of_valid hvalid', shown_of_valid hvalid, hdata, hlast]
    rcases hstep.next hkept with hstep' | ⟨hr, hempty, hv⟩
    · exact .inl hstep'
    · -- the byte that overtakes is repeated for ever, so being ahead does not show
      have hforever := hnever t hr hv ((mTvalid_eq_false_iff input t).mp hempty)
      exact .inr ⟨_, hstep.overtakes hr hempty hv, hforever, stalled_mTdata input t,
        stalled_mTlast_wait (by rw [hr, Bool.and_false])⟩
  · obtain ⟨hahead', hdata', hlast'⟩ := hahead.next hforever hdata hlast
    exact .inr ⟨b, hahead', fun u hu => hforever u (Nat.le_of_succ_le hu), hdata', hlast'⟩

theorem harmless (hsource : Compliant input) (hrepeats : RepeatsAccepted input)
    (hnever : NeverOvertaken input) (t : ℕ) : Harmless input t := by
  induction t with
  | zero => exact .inl (inStep_zero input)
  | succ t ih => exact ih.next hsource hrepeats hnever

/-- Harmless stalls keep the protocol. -/
theorem obeys_of_harmless (hsource : Compliant input) (hrepeats : RepeatsAccepted input)
    (hnever : NeverOvertaken input) : Obeys input where
  transfers := by
    intro t
    rcases harmless hsource hrepeats hnever t with hstep | ⟨b, hahead, -, -, -⟩
    · exact ⟨shown input t, hstep⟩
    · exact ⟨[], by rw [hahead.transferred, List.append_nil]⟩
  held := by
    intro t hvalid hr
    obtain ⟨hvalid', hdata, hlast⟩ := shown_of_stall hsource hrepeats hr hvalid
    exact ⟨hvalid', Prod.ext hdata hlast⟩

/-! ### The protocol leaves nothing else -/

/-- A framer that obeys and is ahead has its byte shown again, marked as it is. -/
theorem Obeys.ahead_next (h : Obeys input) (hahead : Ahead input t) :
    (input t).tvalid = true ∧ (input t).tdata = (stalledFramer input t).mTdata ∧
      ((input t).mTready = true →
        (EndsMessage input t ↔ (stalledFramer input t).mTlast = true)) ∧
      Ahead input (t + 1) ∧
      (stalledFramer input (t + 1)).mTlast = (stalledFramer input t).mTlast := by
  cases hr : (input t).mTready with
  | false =>
    obtain ⟨hvalid, hout⟩ := h.held t hahead.valid hr
    obtain ⟨hdata, hlast⟩ := Prod.ext_iff.mp hout
    obtain ⟨hup, hdown⟩ := stall_waits hr
    -- nothing moves, and the output has to stay
    have hahead' : Ahead input (t + 1) := ⟨by rw [hup, hdown, hahead.transferred], hvalid⟩
    exact ⟨(stalled_mTvalid input t).symm.trans hvalid,
      (stalled_mTdata input t).symm.trans hdata, fun h => absurd h Bool.false_ne_true, hahead',
      hlast⟩
  | true =>
    have hprefix := h.transfers (t + 1)
    rw [downstream_take hahead.valid hr, hahead.transferred] at hprefix
    cases hv : (input t).tvalid with
    | false =>
      -- a transfer without an accepted byte
      rw [upstream_wait (by rw [hv]; rfl)] at hprefix
      have hle := hprefix.length_le
      rw [List.length_append, List.length_singleton] at hle
      omega
    | true =>
      -- as much has been transferred as accepted, so the two bytes are one
      rw [marked_accept hv hr] at hprefix
      have heq := hprefix.eq_of_length (by rw [List.length_append, List.length_append]; rfl)
      obtain ⟨hdata, hlast⟩ := Prod.ext_iff.mp (List.singleton_inj.mp (List.append_cancel_left heq))
      dsimp only at hdata hlast
      refine ⟨rfl, hdata.symm, fun _ => ?_, ⟨?_, by rw [stalled_mTvalid, hv]⟩, hlast.symm⟩
      · rw [← stalled_mTlast_accept hv hr, hlast]
      · rw [downstream_take hahead.valid hr, marked_accept hv hr, hahead.transferred, hdata, hlast]

/-- Ahead with an unmarked byte a framer obeys only if this byte is all that comes. -/
theorem Obeys.repeatsForever (h : Obeys input) (hahead : Ahead input t)
    (hlast : (stalledFramer input t).mTlast = false) :
    RepeatsForever input (stalledFramer input t).mTdata t := by
  have hstays : ∀ u, t ≤ u → Ahead input u ∧
      (stalledFramer input u).mTdata = (stalledFramer input t).mTdata ∧
        (stalledFramer input u).mTlast = false := by
    intro u hu
    induction u, hu using Nat.le_induction with
    | base => exact ⟨hahead, rfl, hlast⟩
    | succ u hu ih =>
      obtain ⟨hahead_u, hdata_u, hlast_u⟩ := ih
      obtain ⟨-, hd, -, hahead', hlast'⟩ := h.ahead_next hahead_u
      exact ⟨hahead', by rw [stalled_mTdata, hd, hdata_u], hlast'.trans hlast_u⟩
  intro u hu
  obtain ⟨hahead_u, hdata_u, hlast_u⟩ := hstays u hu
  obtain ⟨hv, hd, hend, -, -⟩ := h.ahead_next hahead_u
  refine ⟨hv, hd.trans hdata_u, fun hr hends => ?_⟩
  rw [(hend hr).mp hends] at hlast_u
  exact absurd hlast_u (Bool.false_ne_true ∘ Eq.symm)

theorem Obeys.repeatsAccepted (h : Obeys input) : RepeatsAccepted input := by
  intro t hv hr hstall
  have hvalid : (stalledFramer input (t + 1)).mTvalid = true := by rw [stalled_mTvalid, hv]
  obtain ⟨hvalid', hout⟩ := h.held (t + 1) hvalid hstall
  obtain ⟨hdata, hlast⟩ := Prod.ext_iff.mp hout
  dsimp only at hvalid' hdata hlast
  rw [stalled_mTvalid] at hvalid'
  rw [stalled_mTdata, stalled_mTdata] at hdata
  rw [stalled_mTlast_wait (by rw [hstall, Bool.and_false])] at hlast
  refine ⟨hvalid', hdata, fun hends => ?_⟩
  rw [(stalled_mTlast_accept hv hr).mpr hends] at hlast
  exact absurd hlast Bool.false_ne_true

/-- A framer that obeys is in step or ahead. -/
theorem Obeys.inStep_or_ahead (h : Obeys input) (t : ℕ) : InStep input t ∨ Ahead input t := by
  induction t with
  | zero => exact .inl (inStep_zero input)
  | succ t ih =>
    rcases ih with hstep | hahead
    · have hkept : (stalledFramer input t).mTvalid = true → (input t).mTready = false →
          shown input (t + 1) = shown input t := by
        intro hvalid hr
        obtain ⟨hvalid', hout⟩ := h.held t hvalid hr
        rw [shown_of_valid hvalid', shown_of_valid hvalid]
        exact congrArg (fun x => [x]) hout
      rcases hstep.next hkept with hstep' | ⟨hr, hempty, hv⟩
      · exact .inl hstep'
      · exact .inr (hstep.overtakes hr hempty hv)
    · exact .inr (h.ahead_next hahead).2.2.2.1

theorem Obeys.neverOvertaken (h : Obeys input) : NeverOvertaken input := by
  intro t hr hv hidle
  have hempty := (mTvalid_eq_false_iff input t).mpr hidle
  have hstep : InStep input t := by
    refine (h.inStep_or_ahead t).resolve_right fun hahead => ?_
    rw [hahead.valid] at hempty
    exact absurd hempty (Bool.false_ne_true ∘ Eq.symm)
  have hlast : (stalledFramer input (t + 1)).mTlast = false :=
    stalled_mTlast_wait (by rw [hr, Bool.and_false])
  have hforever := h.repeatsForever (hstep.overtakes hr hempty hv) hlast
  rwa [stalled_mTdata] at hforever

end Modes

/-! ### Exactly the harmless stalls -/

/-- **Back-pressure.** Behind a source that keeps to the protocol the framer keeps to it exactly
if every byte accepted just before a stall is repeated and not the last of its message, and no
byte meets a stall behind an idle cycle, unless the source shows nothing else ever again. -/
theorem framer_obeys_iff (input : ℕ → StreamIn) (hsource : Compliant input) :
    Obeys input ↔ RepeatsAccepted input ∧ NeverOvertaken input :=
  ⟨fun h => ⟨h.repeatsAccepted, h.neverOvertaken⟩,
    fun h => obeys_of_harmless hsource h.1 h.2⟩

/-- The source shows its first byte twice, and the sink stalls between the two and again in an
idle cycle. -/
def stallBehindRepeat : ℕ → StreamIn
  | 0 => ⟨⟨0x41, true⟩, true⟩
  | 1 => ⟨⟨0x41, true⟩, false⟩
  | 2 => ⟨⟨0x41, true⟩, true⟩
  | 3 => ⟨⟨0x42, true⟩, true⟩
  | 5 => ⟨⟨0, false⟩, false⟩
  | _ => ⟨⟨0, false⟩, true⟩

theorem compliant_stallBehindRepeat : Compliant stallBehindRepeat := by
  have hheld : ∀ t < 6, (stallBehindRepeat t).tvalid = true →
      MsgFramer.sTready (stallBehindRepeat t).mTready = false →
      (stallBehindRepeat (t + 1)).tvalid = true ∧
        (stallBehindRepeat (t + 1)).tdata = (stallBehindRepeat t).tdata := by
    decide
  intro t hv hr
  match t with
  | 0 | 1 | 2 | 3 | 4 | 5 => exact hheld _ (by decide) hv hr
  | t + 6 => exact absurd hv Bool.false_ne_true

/-- Neither stall does harm. -/
theorem framer_obeys_stallBehindRepeat :
    (downstream stallBehindRepeat 7).map Prod.fst = [0x41, 0x41, 0x42] ∧
      Obeys stallBehindRepeat := by
  refine ⟨by decide, (framer_obeys_iff _ compliant_stallBehindRepeat).mpr ⟨?_, ?_⟩⟩
  · intro t hv hr hstall
    match t with
    | 0 =>
      refine ⟨rfl, rfl, ?_⟩
      rw [EndsMessage]
      decide +kernel
    | 1 => exact absurd hr (by decide)
    | 2 | 3 => exact absurd hstall (by decide)
    | 4 | 5 => exact absurd hv (by decide)
    | t + 6 => exact absurd hv Bool.false_ne_true
  · intro t hstall hv hidle
    match t with
    | 0 | 2 | 3 | 4 => exact absurd hstall (by decide)
    | 1 => exact absurd (hidle 0 rfl) (by decide)
    | 5 => exact absurd hv (by decide)
    | t + 6 => exact absurd hv Bool.false_ne_true

/-- Two bytes, and a stall behind the first. -/
def stallBehindFirst : ℕ → StreamIn
  | 0 => ⟨⟨0x41, true⟩, true⟩
  | 1 => ⟨⟨0x42, true⟩, false⟩
  | 2 => ⟨⟨0x42, true⟩, true⟩
  | _ => ⟨⟨0, false⟩, true⟩

/-- The first byte is lost, and the second transferred twice. -/
theorem framer_loses_stalled :
    Compliant stallBehindFirst ∧ upstream stallBehindFirst 4 = [0x41, 0x42] ∧
      (downstream stallBehindFirst 4).map Prod.fst = [0x42, 0x42] ∧ ¬ Obeys stallBehindFirst := by
  refine ⟨?_, by decide, by decide, fun h => ?_⟩
  · intro t hv hr
    match t with
    | 0 => exact absurd hr (by decide)
    | 1 => decide
    | 2 => exact absurd hr (by decide)
    | t + 3 => exact absurd hr (Bool.false_ne_true ∘ Eq.symm)
  · obtain ⟨-, hout⟩ := h.held 1 rfl rfl
    exact absurd hout (by decide)

end HftKr260
