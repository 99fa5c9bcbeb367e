import HftKr260.Software.PriceWindow

/-!
# Books of Adds

A feed of Adds only, whose prices stay in one window of the price array. References do not matter
here: an Add under a reference that is in use adds its quantity like any other. The book is then,
at every price of every side, the sum of the quantities added there and their number.

## Main results

* `apply_adds` — the price-keyed book of some Adds
* `refines_adds` — the price array holds it
-/

set_option autoImplicit false

namespace HftKr260

/-- A quantity that is added at a price of a side. -/
structure AddedQty where
  side : Side
  price : ℤ
  qty : ℤ
  deriving DecidableEq, Repr

/-- The call that adds it. -/
def AddedQty.call (a : AddedQty) : BookCall := .updateLevel a.side a.price a.qty 1

/-- A quantity of a message that is not empty. -/
def AddedQty.Ok (a : AddedQty) : Prop := 0 < a.qty ∧ a.qty < 2 ^ 32

/-- What is added at a price of a side. -/
def addedAt (as : List AddedQty) (side : Side) (p : ℤ) : List ℤ :=
  (as.filter fun a => a.side = side ∧ a.price = p).map AddedQty.qty

/-- The book of what is added. -/
def addedBook (as : List AddedQty) : PriceBook := fun side p =>
  if addedAt as side p = [] then none
  else some ((addedAt as side p).sum, (addedAt as side p).length)

section Adds

variable {as : List AddedQty} {a : AddedQty} {side : Side} {p : ℤ}

theorem addedAt_concat (as : List AddedQty) (a : AddedQty) (side : Side) (p : ℤ) :
    addedAt (as ++ [a]) side p =
      addedAt as side p ++ if a.side = side ∧ a.price = p then [a.qty] else [] := by
  rw [addedAt, List.filter_append, List.map_append]
  refine congrArg (addedAt as side p ++ ·) ?_
  by_cases hhere : a.side = side ∧ a.price = p
  · simp [hhere]
  · rw [if_neg hhere, List.map_eq_nil_iff, List.filter_eq_nil_iff]
    simpa using hhere

theorem addedAt_length_le (as : List AddedQty) (side : Side) (p : ℤ) :
    (addedAt as side p).length ≤ as.length := by
  rw [addedAt, List.length_map]
  exact List.length_filter_le _ _

/-- The entry of a price, zero where nothing is added. -/
theorem getD_addedBook (as : List AddedQty) (side : Side) (p : ℤ) :
    (addedBook as side p).getD (0, 0) =
      ((addedAt as side p).sum, ((addedAt as side p).length : ℤ)) := by
  rw [addedBook]
  split_ifs with hnil
  · rw [hnil]
    rfl
  · rfl

theorem addedBook_ne_none_iff :
    addedBook as side p ≠ none ↔ ∃ a ∈ as, a.side = side ∧ a.price = p := by
  rw [addedBook, ne_eq, ite_eq_left_iff, Classical.not_imp, addedAt, List.map_eq_nil_iff,
    List.filter_eq_nil_iff]
  simp

theorem sum_addedAt_bounds (has : ∀ a ∈ as, a.Ok) (side : Side) (p : ℤ) :
    0 ≤ (addedAt as side p).sum ∧ (addedAt as side p).sum ≤ as.length * 2 ^ 32 := by
  induction as using List.reverseRecOn with
  | nil => simp [addedAt]
  | append_singleton as a ih =>
    obtain ⟨hlo, hhi⟩ := ih fun b hb => has b (by simp [hb])
    obtain ⟨hpos, hlt⟩ := has a (by simp)
    rw [addedAt_concat, List.sum_append, List.length_append]
    split_ifs
    · simp only [List.sum_cons, List.sum_nil, List.length_cons, List.length_nil]
      push_cast
      constructor <;> linarith
    · simp only [List.sum_nil, List.length_cons, List.length_nil]
      push_cast
      constructor <;> linarith

/-- One more Add. -/
theorem apply_add (has : ∀ a ∈ as, a.Ok) (ha : a.Ok) :
    (addedBook as).apply a.call = addedBook (as ++ [a]) := by
  funext side p
  have hnonneg := (sum_addedAt_bounds has a.side a.price).1
  by_cases hhere : a.side = side ∧ a.price = p
  · obtain ⟨rfl, rfl⟩ := hhere
    have hconcat : addedAt (as ++ [a]) a.side a.price = addedAt as a.side a.price ++ [a.qty] := by
      rw [addedAt_concat, if_pos ⟨rfl, rfl⟩]
    have hpos : ¬ (addedAt as a.side a.price).sum + a.qty ≤ 0 := by
      have := ha.1
      omega
    -- the sum stays positive, so the entry is not erased
    rw [AddedQty.call, PriceBook.apply, Function.update_self, PriceMap.update, Function.update_self,
      getD_addedBook, if_neg hpos, addedBook, hconcat, if_neg (by simp)]
    simp
  · have hconcat : addedAt (as ++ [a]) side p = addedAt as side p := by
      rw [addedAt_concat, if_neg hhere, List.append_nil]
    rw [addedBook, hconcat, AddedQty.call, PriceBook.apply]
    -- another price of the side, or the other side
    by_cases hside : side = a.side
    · subst hside
      rw [Function.update_self, PriceMap.update_of_ne fun hp => hhere ⟨rfl, hp.symm⟩]
      rfl
    · rw [Function.update_of_ne hside]
      rfl

/-- **The price-keyed book of some Adds.** -/
theorem apply_adds (has : ∀ a ∈ as, a.Ok) :
    (as.map AddedQty.call).foldl PriceBook.apply PriceBook.empty = addedBook as := by
  induction as using List.reverseRecOn with
  | nil => rfl
  | append_singleton as a ih =>
    have hbefore : ∀ b ∈ as, b.Ok := fun b hb => has b (by simp [hb])
    rw [List.map_append, List.foldl_append, ih hbefore]
    exact apply_add hbefore (has a (by simp))

theorem PriceBook.runFits_concat {m : PriceBook} {cs : List BookCall} {c : BookCall}
    (hcs : m.RunFits cs) (hc : (cs.foldl PriceBook.apply m).CallFits c) :
    m.RunFits (cs ++ [c]) := by
  induction cs generalizing m with
  | nil => exact ⟨hc, trivial⟩
  | cons d cs ih => exact ⟨hcs.1, ih hcs.2 hc⟩

/-- As long as the counter of a level suffices, nothing overflows. -/
theorem runFits_adds (has : ∀ a ∈ as, a.Ok) (hlen : as.length < 2 ^ 31) :
    PriceBook.empty.RunFits (as.map AddedQty.call) := by
  induction as using List.reverseRecOn with
  | nil => trivial
  | append_singleton as a ih =>
    have hbefore : ∀ b ∈ as, b.Ok := fun b hb => has b (by simp [hb])
    rw [List.length_append, List.length_singleton] at hlen
    rw [List.map_append]
    refine PriceBook.runFits_concat (ih hbefore (by omega)) ?_
    rw [apply_adds hbefore]
    obtain ⟨hlo, hhi⟩ := sum_addedAt_bounds hbefore a.side a.price
    obtain ⟨hpos, hlt⟩ := has a (by simp)
    have hcount := addedAt_length_le as a.side a.price
    simp only [AddedQty.call, PriceBook.CallFits, getD_addedBook]
    -- the sum of fewer than `2 ^ 31` quantities of 32 bits fits `int64_t`
    have hsum : ((as.length : ℤ)) * 2 ^ 32 ≤ (2 ^ 31 - 2) * 2 ^ 32 := by
      have : (as.length : ℤ) ≤ 2 ^ 31 - 2 := by omega
      linarith
    omega

end Adds

variable {k : Fin 64} {w : ℤ} {b : OrderBook k} {as : List AddedQty}

/-- **The price array of some Adds** holds their sums, if the prices stay in one window. -/
theorem refines_adds (hlo : nullPrice < w) (h : Refines w b PriceBook.empty)
    (hwin : ∀ a ∈ as, a.price ∈ window w k) (has : ∀ a ∈ as, a.Ok) (hlen : as.length < 2 ^ 31) :
    Refines w ((as.map AddedQty.call).foldl OrderBook.apply b) (addedBook as) := by
  rw [← apply_adds has]
  refine h.run hlo _ (fun c hc => ?_) (runFits_adds has hlen)
  obtain ⟨a, ha, rfl⟩ := List.mem_map.mp hc
  exact hwin a ha

end HftKr260
