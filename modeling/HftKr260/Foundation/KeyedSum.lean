import Mathlib.Algebra.BigOperators.Group.List.Basic
import Mathlib.Algebra.Order.BigOperators.Group.List
import Mathlib.Data.List.AList

/-!
# Sums over association lists

`AList.total f s` sums `f` over the entries of a finite map. Inserting or erasing one
key changes the total by the terms of that key, so an aggregate kept by deltas can be
compared with the sum it stands for.
-/

set_option autoImplicit false

namespace Foundation

namespace KeyedSum

variable {α β M : Type*}

/-- The sum of `f` over the entries of a finite map. -/
def total [AddCommMonoid M] (f : β → M) (s : AList fun _ : α => β) : M :=
  (s.entries.map fun e => f e.2).sum

section Monoid

variable [AddCommMonoid M] {f : β → M} {s : AList fun _ : α => β} {a : α} {b : β}

@[simp] theorem total_empty : total f (∅ : AList fun _ : α => β) = 0 := rfl

variable [DecidableEq α]

theorem entries_erase (s : AList fun _ : α => β) (a : α) :
    (s.erase a).entries = s.entries.kerase a := rfl

/-- Writing a key replaces the term it had. -/
theorem total_insert (f : β → M) (s : AList fun _ : α => β) (a : α) (b : β) :
    total f (s.insert a b) = f b + total f (s.erase a) := by
  simp [total, AList.entries_insert, entries_erase]

/-- Erasing a key takes out the term it had. -/
theorem total_erase (f : β → M) (h : s.lookup a = some b) :
    f b + total f (s.erase a) = total f s := by
  obtain ⟨entries, nodup⟩ := s
  unfold total
  rw [entries_erase]
  simp only [AList.lookup] at h ⊢
  induction entries with
  | nil => simp at h
  | cons e rest ih =>
    obtain ⟨a', b'⟩ := e
    by_cases ha : a = a'
    · subst ha
      rw [List.dlookup_cons_eq] at h
      obtain rfl := Option.some.inj h
      simp
    · rw [List.dlookup_cons_ne _ _ ha] at h
      rw [List.kerase_cons_ne ha]
      simp only [List.map_cons, List.sum_cons]
      rw [add_left_comm, ih (List.nodupKeys_cons.mp nodup).2 h]

/-- Erasing an absent key changes nothing. -/
theorem erase_of_lookup_none (h : s.lookup a = none) : s.erase a = s := by
  apply AList.ext
  exact List.kerase_of_notMem_keys (AList.lookup_eq_none.mp h)

/-- A fresh key adds its term. -/
theorem total_insert_fresh (f : β → M) (h : s.lookup a = none) (b : β) :
    total f (s.insert a b) = f b + total f s := by
  rw [total_insert, erase_of_lookup_none h]

end Monoid

section Ordered

variable [DecidableEq α] {f : β → ℤ} {s : AList fun _ : α => β} {a : α} {b : β}

theorem lookup_of_mem_entries {e : Sigma fun _ : α => β} (h : e ∈ s.entries) :
    s.lookup e.1 = some e.2 :=
  (List.mem_dlookup_iff s.nodupKeys).mpr h

/-- A total of nonnegative terms is nonnegative. -/
theorem total_nonneg (h : ∀ a b, s.lookup a = some b → 0 ≤ f b) : 0 ≤ total f s := by
  apply List.sum_nonneg
  intro x hx
  obtain ⟨e, he, rfl⟩ := List.mem_map.mp hx
  exact h e.1 e.2 (lookup_of_mem_entries he)

/-- A total of nonnegative terms bounds each of them. -/
theorem le_total (h : ∀ a b, s.lookup a = some b → 0 ≤ f b) (hb : s.lookup a = some b) :
    f b ≤ total f s := by
  rw [← total_erase f hb]
  have hrest : 0 ≤ total f (s.erase a) := by
    apply total_nonneg
    intro a' b' h'
    by_cases ha : a' = a
    · subst ha
      simp [AList.lookup_erase] at h'
    · rw [AList.lookup_erase_ne ha] at h'
      exact h a' b' h'
  omega

/-- A nonzero total has a nonzero term. -/
theorem exists_of_total_ne_zero (h : total f s ≠ 0) : ∃ a b, s.lookup a = some b ∧ f b ≠ 0 := by
  by_contra hnone
  push Not at hnone
  apply h
  apply List.sum_eq_zero
  intro x hx
  obtain ⟨e, he, rfl⟩ := List.mem_map.mp hx
  exact hnone e.1 e.2 (lookup_of_mem_entries he)

end Ordered

end KeyedSum

end Foundation
