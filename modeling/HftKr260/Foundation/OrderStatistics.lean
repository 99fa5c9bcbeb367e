import Mathlib.Data.List.Sort

/-!
# Order statistics

The value of rank `i` in a list, counted from zero: with more than `i` entries up to it, and at most
`i` below it. There is one such value (`IsOrderStat.unique`), it depends on the entries only and not
on their order (`IsOrderStat.perm`), and sorting puts it at position `i` (`isOrderStat_sort`).
-/

set_option autoImplicit false

namespace Foundation

namespace OrderStatistics

variable {α : Type*} [LinearOrder α]

/-- The value of rank `i`. -/
structure IsOrderStat (xs : List α) (i : ℕ) (v : α) : Prop where
  mem : v ∈ xs
  lt_count : i < xs.countP (· ≤ v)
  count_le : xs.countP (· < v) ≤ i

variable {xs ys : List α} {i j : ℕ} {v w : α}

/-- Higher ranks have higher values. -/
theorem IsOrderStat.le (hv : IsOrderStat xs i v) (hw : IsOrderStat xs j w) (hij : i ≤ j) :
    v ≤ w := by
  by_contra hlt
  -- otherwise all entries up to `w` are below `v`, more than the rank of `v` allows
  have hcount : xs.countP (· ≤ w) ≤ xs.countP (· < v) := by
    refine List.countP_mono_left fun x _ hx => ?_
    rw [decide_eq_true_iff] at hx ⊢
    exact hx.trans_lt (not_le.mp hlt)
  have hlow : xs.countP (· ≤ w) ≤ j := hcount.trans (hv.count_le.trans hij)
  exact absurd hw.lt_count (not_lt.mpr hlow)

theorem IsOrderStat.unique (hv : IsOrderStat xs i v) (hw : IsOrderStat xs i w) : v = w :=
  le_antisymm (hv.le hw le_rfl) (hw.le hv le_rfl)

theorem IsOrderStat.perm (hv : IsOrderStat xs i v) (h : xs.Perm ys) : IsOrderStat ys i v where
  mem := h.mem_iff.mp hv.mem
  lt_count := h.countP_eq _ ▸ hv.lt_count
  count_le := h.countP_eq _ ▸ hv.count_le

/-- An entry of a sorted list is the value of its position. -/
theorem isOrderStat_getElem (hsorted : ys.SortedLE) (hi : i < ys.length) :
    IsOrderStat ys i ys[i] where
  mem := List.getElem_mem hi
  lt_count := by
    -- the entries up to position `i`
    have hfront : (ys.take (i + 1)).countP (· ≤ ys[i]) = (ys.take (i + 1)).length := by
      refine List.countP_eq_length.mpr fun x hx => ?_
      obtain ⟨k, hk, rfl⟩ := List.mem_take_iff_getElem.mp hx
      rw [decide_eq_true_iff]
      exact hsorted.getElem_le_getElem_of_le (by omega)
    rw [List.length_take, min_eq_left hi] at hfront
    have hall := (List.take_sublist (i + 1) ys).countP_le (p := (· ≤ ys[i]))
    omega
  count_le := by
    -- from position `i` on none is below
    have hback : (ys.drop i).countP (· < ys[i]) = 0 := by
      refine List.countP_eq_zero.mpr fun x hx => ?_
      obtain ⟨k, hk, rfl⟩ := List.mem_drop_iff_getElem.mp hx
      rw [decide_eq_true_iff, not_lt]
      exact hsorted.getElem_le_getElem_of_le (by omega)
    have hsplit : ys.countP (· < ys[i]) =
        (ys.take i).countP (· < ys[i]) + (ys.drop i).countP (· < ys[i]) := by
      rw [← List.countP_append, List.take_append_drop]
    rw [hsplit, hback, Nat.add_zero]
    exact List.countP_le_length.trans (List.length_take_le _ _)

/-- **Sorting** puts each value at the position of its rank. -/
theorem isOrderStat_sort (hi : i < (xs.insertionSort (· ≤ ·)).length) :
    IsOrderStat xs i (xs.insertionSort (· ≤ ·))[i] :=
  (isOrderStat_getElem List.sortedLE_insertionSort hi).perm (List.perm_insertionSort _ _)

end OrderStatistics

end Foundation
