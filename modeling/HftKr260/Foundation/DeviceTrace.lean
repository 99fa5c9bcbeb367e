import HftKr260.Foundation.SharedReads
import Mathlib.Data.List.GetD

/-!
# Programs on a device that is a machine

A machine that is read by a program step by step need not be read in every step. A moment of it
is the request it answers, if any, with the answer, and the updates it takes behind the answer.
If the answers and the states of a machine are those of a device, then what a program computes
from the answers in some stretch is what it computes in a run on the device, under the schedule
of the updates between its requests.

## Main results

* `Follows.exec_value` — a program that follows the moments of a device
* `Follows.eq_answerWith` — a program that is answered by a function
* `Follows.only` — the requests of a program
* `follows_bind_iff` — one program behind another
-/

set_option autoImplicit false

namespace Foundation

namespace ReadProgram

variable {ρ β α γ σ υ : Type}

/-- The program makes these requests if it is answered so, and ends with a value. -/
inductive Follows : ReadProgram ρ β α → List (ρ × β) → α → Prop
  | done (value : α) : Follows (.done value) [] value
  | request {r : ρ} {rest : β → ReadProgram ρ β α} {b : β} {tail : List (ρ × β)} {value : α}
      (h : Follows (rest b) tail value) : Follows (.request r rest) ((r, b) :: tail) value

/-- What the program ends with if it is answered so. -/
def follow [DecidableEq ρ] : ReadProgram ρ β α → List (ρ × β) → Option α
  | .done value, [] => some value
  | .request r rest, (r', b) :: tail => if r = r' then follow (rest b) tail else none
  | _, _ => none

theorem follows_of_follow [DecidableEq ρ] {p : ReadProgram ρ β α} {reads : List (ρ × β)}
    {value : α} (h : p.follow reads = some value) : Follows p reads value := by
  induction p generalizing reads with
  | done v =>
    cases reads with
    | nil => exact Option.some.inj h ▸ .done v
    | cons q tail => exact absurd h (by simp [follow])
  | request r rest ih =>
    cases reads with
    | nil => exact absurd h (by simp [follow])
    | cons q tail =>
      obtain ⟨r', b⟩ := q
      rw [follow] at h
      split_ifs at h with hr
      exact hr ▸ .request (ih b h)

/-- What the program ends with if each request is answered by a function of it. -/
def answerWith (f : ρ → β) : ReadProgram ρ β α → α
  | .done value => value
  | .request r rest => answerWith f (rest (f r))

theorem Follows.eq_answerWith {p : ReadProgram ρ β α} {reads : List (ρ × β)} {value : α}
    (h : Follows p reads value) {f : ρ → β} (hf : ∀ q ∈ reads, q.2 = f q.1) :
    value = p.answerWith f := by
  induction h with
  | done value => rfl
  | request h ih =>
    rw [ih fun q hq => hf q (List.mem_cons_of_mem _ hq), answerWith, ← hf _ List.mem_cons_self]

/-- The program makes requests in `A` only. -/
def Only (A : ρ → Prop) : ReadProgram ρ β α → Prop
  | .done _ => True
  | .request r rest => A r ∧ ∀ b, Only A (rest b)

theorem Only.bind {A : ρ → Prop} {p : ReadProgram ρ β α} {f : α → ReadProgram ρ β γ}
    (hp : p.Only A) (hf : ∀ value, (f value).Only A) : (p >>= f).Only A := by
  induction p with
  | done value => exact hf value
  | request r rest ih => exact ⟨hp.1, fun b => ih b (hp.2 b)⟩

theorem Follows.only {A : ρ → Prop} {p : ReadProgram ρ β α} {reads : List (ρ × β)} {value : α}
    (h : Follows p reads value) (hp : p.Only A) : ∀ q ∈ reads, A q.1 := by
  induction h with
  | done value => exact fun q hq => absurd hq List.not_mem_nil
  | request h ih =>
    intro q hq
    rcases List.mem_cons.mp hq with rfl | hmem
    · exact hp.1
    · exact ih (hp.2 _) q hmem

/-- A moment of a machine: what it answers, and the updates behind. -/
structure Moment (ρ β υ : Type) where
  answered : Option (ρ × β)
  updates : List υ

/-- The requests of some moments, with their answers. -/
def requests (ms : List (Moment ρ β υ)) : List (ρ × β) := ms.filterMap Moment.answered

/-- The updates before each request, when some are pending. -/
def gapsOf (pending : List υ) : List (Moment ρ β υ) → List (List υ)
  | [] => [pending]
  | ⟨none, us⟩ :: ms => gapsOf (pending ++ us) ms
  | ⟨some _, us⟩ :: ms => pending :: gapsOf us ms

/-- The schedule of the updates of some moments. -/
def gapsAt (ms : List (Moment ρ β υ)) (i : ℕ) : List υ := (gapsOf [] ms).getD i []

/-- The moments are those of the device from state `s` on. -/
def Answers (respond : σ → ρ → β × σ) (update : σ → υ → σ) : σ → List (Moment ρ β υ) → Prop
  | _, [] => True
  | s, ⟨none, us⟩ :: ms => Answers respond update (us.foldl update s) ms
  | s, ⟨some (r, b), us⟩ :: ms =>
      (respond s r).1 = b ∧ Answers respond update (us.foldl update (respond s r).2) ms

variable {respond : σ → ρ → β × σ} {update : σ → υ → σ}

/-- With pending updates, and the schedule read from some request on. -/
theorem Follows.exec_value_pending {p : ReadProgram ρ β α} {value : α}
    (ms : List (Moment ρ β υ)) (h : Follows p (requests ms) value) (s : σ) (pending : List υ)
    (hms : Answers respond update (pending.foldl update s) ms) (gaps : ℕ → List υ) (i : ℕ)
    (hgaps : ∀ j, gaps (i + j) = (gapsOf pending ms).getD j []) :
    (exec respond update gaps p i s).value = value := by
  induction ms generalizing p s pending i with
  | nil =>
    cases h with
    | done => rfl
  | cons m ms ih =>
    obtain ⟨answered, us⟩ := m
    cases answered with
    | none =>
      -- nothing is asked: the updates wait for the next request
      refine ih h s (pending ++ us) ?_ i hgaps
      rw [List.foldl_append]
      exact hms
    | some q =>
      obtain ⟨r, b⟩ := q
      change Follows p ((r, b) :: requests ms) value at h
      obtain ⟨hanswer, hrest⟩ := hms
      cases h with
      | request h =>
        -- the request finds the pending updates done, and its own wait for the next one
        have hnow : gaps i = pending := hgaps 0
        change (exec respond update gaps _ (i + 1)
          (respond ((gaps i).foldl update s) r).2).value = value
        rw [hnow, hanswer]
        refine ih h _ us hrest (i + 1) fun j => ?_
        rw [Nat.add_assoc, Nat.add_comm 1 j]
        exact hgaps (j + 1)

/-- **A program that follows the moments of a device** computes what it computes in the run on
the device under the schedule of their updates. -/
theorem Follows.exec_value {p : ReadProgram ρ β α} {value : α} {ms : List (Moment ρ β υ)}
    (h : Follows p (requests ms) value) {s : σ} (hms : Answers respond update s ms) :
    (exec respond update (gapsAt ms) p 0 s).value = value :=
  h.exec_value_pending ms s [] hms (gapsAt ms) 0 fun j => by rw [Nat.zero_add, gapsAt]

/-- An update that some request finds pending comes from a moment. -/
theorem mem_gapsOf {pending : List υ} {ms : List (Moment ρ β υ)} {us : List υ} {u : υ}
    (hus : us ∈ gapsOf pending ms) (hu : u ∈ us) : u ∈ pending ∨ ∃ m ∈ ms, u ∈ m.updates := by
  induction ms generalizing pending with
  | nil =>
    rw [gapsOf, List.mem_singleton] at hus
    exact .inl (hus ▸ hu)
  | cons m ms ih =>
    obtain ⟨answered, own⟩ := m
    cases answered with
    | none =>
      rcases ih hus with hmem | ⟨m', hm', hmem⟩
      · rcases List.mem_append.mp hmem with hleft | hown
        · exact .inl hleft
        · exact .inr ⟨⟨none, own⟩, List.mem_cons_self, hown⟩
      · exact .inr ⟨m', List.mem_cons_of_mem _ hm', hmem⟩
    | some q =>
      rw [gapsOf, List.mem_cons] at hus
      rcases hus with rfl | hlater
      · exact .inl hu
      · rcases ih hlater with hown | ⟨m', hm', hmem⟩
        · exact .inr ⟨⟨some q, own⟩, List.mem_cons_self, hown⟩
        · exact .inr ⟨m', List.mem_cons_of_mem _ hm', hmem⟩

theorem mem_gapsAt {ms : List (Moment ρ β υ)} {i : ℕ} {u : υ} (hu : u ∈ gapsAt ms i) :
    ∃ m ∈ ms, u ∈ m.updates := by
  unfold gapsAt at hu
  -- behind the last request the schedule is empty
  rcases Nat.lt_or_ge i (gapsOf [] ms).length with hlt | hge
  · rw [List.getD_eq_getElem _ _ hlt] at hu
    exact (mem_gapsOf (List.getElem_mem hlt) hu).resolve_left List.not_mem_nil
  · rw [List.getD_eq_default _ _ hge] at hu
    exact absurd hu List.not_mem_nil

/-- A machine whose steps are those of the device. -/
theorem answers_of_steps {device : ℕ → σ} {moment : ℕ → Moment ρ β υ} {n : ℕ} (k : ℕ)
    (hanswer : ∀ e, n ≤ e → e < n + k → ∀ r b, (moment e).answered = some (r, b) →
      (respond (device e) r).1 = b)
    (hstep : ∀ e, n ≤ e → e < n + k → device (e + 1) =
      (moment e).updates.foldl update
        ((moment e).answered.elim (device e) fun q => (respond (device e) q.1).2)) :
    Answers respond update (device n) ((List.range' n k).map moment) := by
  induction k generalizing n with
  | zero => trivial
  | succ k ih =>
    have hrest := ih (n := n + 1) (fun e he hlt => hanswer e (by omega) (by omega))
      fun e he hlt => hstep e (by omega) (by omega)
    have hnow := hstep n (Nat.le_refl n) (by omega)
    have hfirst := hanswer n (Nat.le_refl n) (by omega)
    rw [List.range'_succ, List.map_cons]
    revert hnow hfirst
    -- a moment without a request moves the device by its updates only
    rcases moment n with ⟨_ | ⟨r, b⟩, us⟩
    · intro hnow _
      rw [Answers]
      exact hnow ▸ hrest
    · intro hnow hfirst
      exact ⟨hfirst r b rfl, hnow ▸ hrest⟩

end ReadProgram

end Foundation
