import HftKr260.Foundation.Clocked

/-!
# Handshakes

A sender on a valid/ready channel that keeps what it shows until it is taken (`Held`), and a
receiver that takes it in one cycle and answers with `ready` in the next. Every take is then
one handshake, a cycle later and with the same data (`handshakes_eq`).
-/

set_option autoImplicit false

namespace Foundation

namespace Handshake

variable {α : Type*} {valid ready take : ℕ → Bool} {data : ℕ → α}

/-- What is shown stays until it is accepted. -/
def Held (valid ready : ℕ → Bool) (data : ℕ → α) : Prop :=
  ∀ t, valid t = true → ready t = false → valid (t + 1) = true ∧ data (t + 1) = data t

/-- A sender that is idle from some cycle on is checked up to there. -/
theorem Held.of_idle {n : ℕ} (h : ∀ t < n, valid t = true → ready t = false →
      valid (t + 1) = true ∧ data (t + 1) = data t)
    (hidle : ∀ t, n ≤ t → valid t = false) : Held valid ready data := by
  intro t hvalid hready
  rcases Nat.lt_or_ge t n with hlt | hge
  · exact h t hlt hvalid hready
  · exact absurd ((hidle t hge).symm.trans hvalid) Bool.false_ne_true

/-- What has been handed over in the first `t` cycles. -/
def handshakes (valid ready : ℕ → Bool) (data : ℕ → α) : ℕ → List α :=
  Clocked.transferred (fun c => valid c && ready c) data

/-- A receiver that answers in the cycle after it takes. -/
structure Registered (valid ready take : ℕ → Bool) : Prop where
  start : ready 0 = false
  next : ∀ t, ready (t + 1) = take t
  shown : ∀ t, take t = true → valid t = true

/-- As long as nothing is taken while it is answered, every take is one handshake, in the
next cycle and with the same data. -/
theorem Registered.handshakes_eq (h : Registered valid ready take)
    (hheld : Held valid ready data) {t : ℕ}
    (hidle : ∀ c < t, take c = true → ready c = false) :
    handshakes valid ready data (t + 1) = Clocked.transferred take data t := by
  induction t with
  | zero => exact Clocked.transferred_succ_of_idle (by rw [h.start, Bool.and_false])
  | succ t ih =>
    have hbefore := ih fun c hc => hidle c (Nat.lt_succ_of_lt hc)
    cases ht : take t with
    | false =>
      rw [Clocked.transferred_succ_of_idle ht, ← hbefore]
      exact Clocked.transferred_succ_of_idle (by rw [h.next, ht, Bool.and_false])
    | true =>
      obtain ⟨hvalid, hdata⟩ :=
        hheld t (h.shown t ht) (hidle t (Nat.lt_succ_self t) ht)
      rw [Clocked.transferred_succ_of_valid ht, ← hbefore, ← hdata]
      exact Clocked.transferred_succ_of_valid (by rw [h.next, ht, hvalid]; rfl)

end Handshake

end Foundation
