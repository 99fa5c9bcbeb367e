import Mathlib.Data.Set.Function
import Mathlib.Logic.Function.Basic

/-!
# Direct-mapped tables

A direct-mapped table gives every key one home slot, and a slot holds at most one
keyed entry. Writing a key whose home slot holds another key has no effect: the
table neither chains nor evicts. Looking a key up asks its home slot whether it
holds that very key.

The table refines a map keyed by `κ` as long as no write collides. `Admits` is the
condition under which one write does not collide, and `admits_of_injOn` supplies it
for every key of a set on which the slot function is injective.

## Main results

* `lookup_alter_self`, `lookup_alter_of_ne` — a write at `k` changes the entry of `k` alone,
  and changes it exactly as on a map when the table admits `k`
* `lookup_eq_some_iff` — the entries stored in slots are the graph of `lookup`
* `admits_of_injOn` — keys from an injectively slotted set never collide
-/

set_option autoImplicit false

namespace Foundation

/-- A table of slots `ι`, each free or holding one entry keyed by `κ`. -/
abbrev DirectMap (ι κ ν : Type*) := ι → Option (κ × ν)

namespace DirectMap

variable {ι κ ν : Type*} {slot : κ → ι} {t : DirectMap ι κ ν} {k k' : κ} {v : ν}

/-- The home slot of `k` is free or holds `k` itself. -/
def Admits (slot : κ → ι) (t : DirectMap ι κ ν) (k : κ) : Prop :=
  ∀ k' v, t (slot k) = some (k', v) → k' = k

/-- Every stored key sits in its home slot. -/
def Placed (slot : κ → ι) (t : DirectMap ι κ ν) : Prop :=
  ∀ i k v, t i = some (k, v) → slot k = i

theorem admits_of_free (h : t (slot k) = none) : Admits slot t k := by
  intro k' v hv
  simp [h] at hv

variable [DecidableEq κ]

/-- The value stored under `k`: the home slot's, when it holds `k`. -/
def lookup (slot : κ → ι) (t : DirectMap ι κ ν) (k : κ) : Option ν :=
  match t (slot k) with
  | some (k', v) => if k' = k then some v else none
  | none => none

@[simp] theorem lookup_empty (k : κ) : lookup slot (fun _ => none : DirectMap ι κ ν) k = none :=
  rfl

theorem lookup_eq_some : lookup slot t k = some v ↔ t (slot k) = some (k, v) := by
  unfold lookup
  cases h : t (slot k) with
  | none => simp
  | some e =>
    obtain ⟨k', v'⟩ := e
    by_cases hk : k' = k
    · simp [hk]
    · simp [hk]

theorem admits_of_lookup (h : lookup slot t k = some v) : Admits slot t k := by
  intro k' v' hv
  rw [lookup_eq_some.mp h] at hv
  exact (Prod.mk.inj (Option.some.inj hv)).1.symm

theorem lookup_of_not_admits (h : ¬ Admits slot t k) : lookup slot t k = none := by
  cases hl : lookup slot t k with
  | none => rfl
  | some v => exact absurd (admits_of_lookup hl) h

/-- The stored entries are the graph of `lookup`. -/
theorem lookup_eq_some_iff (h : Placed slot t) :
    lookup slot t k = some v ↔ ∃ i, t i = some (k, v) := by
  rw [lookup_eq_some]
  constructor
  · exact fun hk => ⟨slot k, hk⟩
  · rintro ⟨i, hi⟩
    rwa [h i k v hi]

/-- Keys drawn from a set on which slots are distinct never collide. -/
theorem admits_of_injOn {S : Set κ} (hinj : S.InjOn slot) (hplaced : Placed slot t)
    (hkeys : ∀ k v, lookup slot t k = some v → k ∈ S) (hk : k ∈ S) : Admits slot t k := by
  intro k' v hv
  have hslot : slot k' = slot k := hplaced (slot k) k' v hv
  have hlookup : lookup slot t k' = some v := by
    rw [lookup_eq_some, hslot]
    exact hv
  -- two keys of the set in one slot are one key
  exact hinj (hkeys k' v hlookup) hk hslot

variable [DecidableEq ι]

/-- Rewrite the entry of `k` by `f`; a home slot held by another key is left alone. -/
def alter (slot : κ → ι) (t : DirectMap ι κ ν) (k : κ) (f : Option ν → Option ν) :
    DirectMap ι κ ν :=
  match t (slot k) with
  | some (k', v) =>
      if k' = k then Function.update t (slot k) ((f (some v)).map (Prod.mk k)) else t
  | none => Function.update t (slot k) ((f none).map (Prod.mk k))

/-- On an admitted key a write is an update of the home slot. -/
theorem alter_of_admits (h : Admits slot t k) (f : Option ν → Option ν) :
    alter slot t k f =
      Function.update t (slot k) ((f (lookup slot t k)).map (Prod.mk k)) := by
  unfold alter lookup
  cases ht : t (slot k) with
  | none => rfl
  | some e =>
    obtain ⟨k', v'⟩ := e
    have hk : k' = k := h k' v' ht
    simp [hk]

/-- A colliding write is dropped. -/
theorem alter_of_not_admits (h : ¬ Admits slot t k) (f : Option ν → Option ν) :
    alter slot t k f = t := by
  unfold alter
  cases ht : t (slot k) with
  | none => exact absurd (admits_of_free ht) h
  | some e =>
    obtain ⟨k', v'⟩ := e
    have hk : k' ≠ k := by
      rintro rfl
      exact h (admits_of_lookup (lookup_eq_some.mpr ht))
    simp [hk]

/-- Every write keeps entries in their home slots. -/
theorem Placed.alter (h : Placed slot t) (k : κ) (f : Option ν → Option ν) :
    Placed slot (alter slot t k f) := by
  by_cases hadm : Admits slot t k
  · rw [alter_of_admits hadm]
    intro i k₁ v₁ hi
    by_cases hik : i = slot k
    · subst hik
      rw [Function.update_self, Option.map_eq_some_iff] at hi
      obtain ⟨_, _, heq⟩ := hi
      rw [(Prod.mk.inj heq).1]
    · rw [Function.update_of_ne hik] at hi
      exact h i k₁ v₁ hi
  · rwa [alter_of_not_admits hadm]

/-- The entry of the written key, when the write is not dropped. -/
theorem lookup_alter_self (h : Admits slot t k) (f : Option ν → Option ν) :
    lookup slot (alter slot t k f) k = f (lookup slot t k) := by
  rw [alter_of_admits h]
  cases hf : f (lookup slot t k) with
  | none => simp [lookup]
  | some v => simp [lookup]

/-- A write never reaches the entry of another key, colliding or not. -/
theorem lookup_alter_of_ne (hne : k' ≠ k) (f : Option ν → Option ν) :
    lookup slot (alter slot t k f) k' = lookup slot t k' := by
  by_cases hadm : Admits slot t k
  · by_cases hslot : slot k' = slot k
    · -- The shared home slot holds `k` or nothing, before the write and after it.
      have hbefore : lookup slot t k' = none := by
        cases hl : lookup slot t k' with
        | none => rfl
        | some v =>
          rw [lookup_eq_some, hslot] at hl
          exact absurd (hadm k' v hl) hne
      have hafter : lookup slot (alter slot t k f) k' = none := by
        cases hl : lookup slot (alter slot t k f) k' with
        | none => rfl
        | some v =>
          rw [lookup_eq_some, hslot, alter_of_admits hadm, Function.update_self,
            Option.map_eq_some_iff] at hl
          obtain ⟨_, _, heq⟩ := hl
          exact absurd (Prod.mk.inj heq).1.symm hne
      rw [hbefore, hafter]
    · -- another home slot is not written
      unfold lookup
      rw [alter_of_admits hadm, Function.update_of_ne hslot]
  · rw [alter_of_not_admits hadm]

end DirectMap

end Foundation
