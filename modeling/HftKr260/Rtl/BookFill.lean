import HftKr260.Rtl.OrderBookEngine
import Mathlib.Data.List.GetD

/-!
# Filling the engine's book

What the slots of a side hold after prices have been added to it one by one. A new price
goes to the last invalid slot, so the slots fill from 7 down to 0 in order of arrival
(`Holds`), and the ninth price finds no slot. The two halves of the selection tree each
look at a group of four prices that arrived one after the other.

The tree is not a maximum: it compares neighbours only. `Picked` says which arrival of a
group comes out of its half and `Shown` which of the two comes out of the whole, both in
terms of the order of arrival; `Holds.tree_eq_iff` says that this is what the tree yields.
-/

set_option autoImplicit false

namespace HftKr260

open Foundation

namespace LevelArray

/-- The price a slot holds, if it is valid. -/
def held (l : LevelArray) (i : Fin 8) : Option (BitVec 64) :=
  if l.valid i then some (l.price i) else none

/-- A scan that keeps the last index it likes ends with one it likes, if there is one. -/
theorem foldl_last (likes : Fin 8 → Bool) (is : List (Fin 8)) (start : BitVec 4) :
    (∃ i ∈ is, likes i = true ∧
        is.foldl (fun idx i => if likes i then BitVec.ofNat 4 i else idx) start =
          BitVec.ofNat 4 i) ∨
      ((∀ i ∈ is, likes i = false) ∧
        is.foldl (fun idx i => if likes i then BitVec.ofNat 4 i else idx) start = start) := by
  induction is generalizing start with
  | nil => exact .inr ⟨fun i hi => absurd hi List.not_mem_nil, rfl⟩
  | cons i is ih =>
    rw [List.foldl_cons]
    rcases ih (if likes i then BitVec.ofNat 4 i else start) with
      ⟨j, hj, hlikes, hlast⟩ | ⟨hno, hlast⟩
    · exact .inl ⟨j, List.mem_cons_of_mem _ hj, hlikes, hlast⟩
    · rw [hlast]
      cases hi : likes i with
      | false => exact .inr ⟨List.forall_mem_cons.mpr ⟨hi, hno⟩, rfl⟩
      | true => exact .inl ⟨i, List.mem_cons_self, hi, rfl⟩

/-- An index below eight addresses its slot. -/
theorem slotOf_ofNat (i : Fin 8) : BitVec.ofNat 4 i < 8 ∧ slotOf (BitVec.ofNat 4 i) = i := by
  revert i
  decide

/-- The scan finds a slot with the price, if one holds it. -/
theorem matchIdx_spec (l : LevelArray) (p : BitVec 64) :
    (l.matchIdx p < 8 ∧ l.held (slotOf (l.matchIdx p)) = some p) ∨
      (l.matchIdx p = 8 ∧ ∀ i, l.held i ≠ some p) := by
  have hlast := foldl_last (fun i => decide (l.held i = some p)) (List.finRange 8) 8
  have hscan : l.matchIdx p = (List.finRange 8).foldl
      (fun idx i => if decide (l.held i = some p) then BitVec.ofNat 4 i else idx) 8 := by
    rw [matchIdx]
    congr 1
    funext idx i
    cases hv : l.valid i <;> simp [held, hv]
  rw [← hscan] at hlast
  rcases hlast with ⟨i, -, hi, hidx⟩ | ⟨hno, hidx⟩
  · rw [hidx, (slotOf_ofNat i).2]
    exact .inl ⟨(slotOf_ofNat i).1, of_decide_eq_true hi⟩
  · exact .inr ⟨hidx, fun i => of_decide_eq_false (hno i (List.mem_finRange i))⟩

/-- The side holds these prices, in order of arrival from slot 7 down. -/
structure Holds (l : LevelArray) (xs : List (BitVec 64)) : Prop where
  room : xs.length ≤ 8
  slot : ∀ i : Fin 8, l.held i = xs[7 - i.val]?

variable {l : LevelArray} {xs : List (BitVec 64)}

theorem holds_cleared : Holds cleared [] where
  room := Nat.zero_le 8
  slot := fun _ => rfl

theorem Holds.valid (h : l.Holds xs) (i : Fin 8) : l.valid i = decide (7 - i.val < xs.length) := by
  have hslot := h.slot i
  rw [held] at hslot
  cases hv : l.valid i with
  | true =>
    rw [hv, if_pos rfl] at hslot
    obtain ⟨hlt, -⟩ := List.getElem?_eq_some_iff.mp hslot.symm
    exact (decide_eq_true hlt).symm
  | false =>
    rw [hv, if_neg Bool.false_ne_true] at hslot
    exact (decide_eq_false (not_lt.mpr (List.getElem?_eq_none_iff.mp hslot.symm))).symm

theorem Holds.leaf (h : l.Holds xs) (absent : BitVec 64) (i : Fin 8) :
    l.leaf absent i = xs[7 - i.val]?.getD absent := by
  rw [← h.slot i, held, LevelArray.leaf]
  split_ifs <;> rfl

/-- The free slot found is the next one to fill. -/
theorem Holds.emptyIdx (h : l.Holds xs) (hroom : xs.length < 8) :
    l.emptyIdx = BitVec.ofNat 4 (7 - xs.length) := by
  have hvalid := h.valid
  unfold LevelArray.emptyIdx
  simp only [hvalid]
  generalize xs.length = n at hroom ⊢
  interval_cases n <;> rfl

theorem Holds.anyValid (h : l.Holds xs) : l.anyValid = true ↔ xs ≠ [] := by
  have hvalid := h.valid
  have hroom := h.room
  unfold LevelArray.anyValid
  simp only [hvalid]
  rw [← List.length_pos_iff]
  generalize xs.length = n at hroom ⊢
  interval_cases n <;> decide

/-- A price that is not on the side has no match. -/
theorem Holds.matchIdx (h : l.Holds xs) {p : BitVec 64} (hp : p ∉ xs) : l.matchIdx p = 8 := by
  rcases matchIdx_spec l p with ⟨-, hheld⟩ | ⟨hidx, -⟩
  · rw [h.slot] at hheld
    exact absurd (List.mem_of_getElem? hheld) hp
  · exact hidx

/-- A price that is on the side has one. -/
theorem Holds.matchIdx_lt (h : l.Holds xs) {p : BitVec 64} (hp : p ∈ xs) : l.matchIdx p < 8 := by
  rcases matchIdx_spec l p with ⟨hlt, -⟩ | ⟨-, hno⟩
  · exact hlt
  · obtain ⟨n, hn, hget⟩ := List.getElem_of_mem hp
    have hroom := h.room
    have hslot := h.slot ⟨7 - n, by omega⟩
    rw [show 7 - (7 - n) = n by omega, List.getElem?_eq_getElem hn, hget] at hslot
    exact absurd hslot (hno _)

/-- An Add without a match goes to the next free slot. -/
private theorem Holds.add (h : l.Holds xs) (hroom : xs.length < 8) (q : BitVec 32) (p : BitVec 64) :
    (l.write 8 l.emptyIdx 0 q p).Holds (xs ++ [p]) where
  room := by rw [List.length_append]; exact hroom
  slot := by
    intro i
    have hidx := h.emptyIdx hroom
    have hlt : l.emptyIdx < 8 := by
      rw [hidx, BitVec.lt_def]
      show (7 - xs.length) % 16 < 8
      omega
    have hslot : slotOf l.emptyIdx = ⟨7 - xs.length, by omega⟩ := by
      rw [hidx]
      apply Fin.ext
      show (7 - xs.length) % 16 % 8 = 7 - xs.length
      omega
    have hnot : ¬ (8 : BitVec 4) < 8 := by decide
    simp only [write, if_true, hnot, if_false, hlt, hslot, held]
    by_cases hi : i = ⟨7 - xs.length, by omega⟩
    · subst hi
      have hpos : 7 - (7 - xs.length) = xs.length := by omega
      simp [hpos]
    · -- the other slots keep what they hold
      have hne : 7 - i.val ≠ xs.length := by
        intro heq
        exact hi (Fin.ext (by show i.val = 7 - xs.length; omega))
      rw [Function.update_of_ne hi, Function.update_of_ne hi]
      change l.held i = _
      rw [h.slot i]
      rcases lt_or_gt_of_ne hne with hlt' | hgt
      · rw [List.getElem?_append_left hlt']
      · rw [List.getElem?_eq_none (by omega),
          List.getElem?_eq_none (by rw [List.length_append]; exact hgt)]

/-- A full side has no free slot. -/
theorem Holds.emptyIdx_full (h : l.Holds xs) (hfull : xs.length = 8) : l.emptyIdx = 8 := by
  have hvalid := h.valid
  unfold LevelArray.emptyIdx
  simp only [hvalid, hfull]
  rfl

/-- An Add without a match arrives behind the others, if there is room. -/
theorem Holds.arrive (h : l.Holds xs) (q : BitVec 32) (p : BitVec 64) :
    (l.write 8 l.emptyIdx 0 q p).Holds ((xs ++ [p]).take 8) := by
  by_cases hroom : xs.length < 8
  · rw [List.take_of_length_le (by rw [List.length_append]; exact hroom)]
    exact h.add hroom q p
  · have hlen : xs.length = 8 := le_antisymm h.room (not_lt.mp hroom)
    have hkeep : l.write 8 l.emptyIdx 0 q p = l := by rw [h.emptyIdx_full hlen]; rfl
    rw [hkeep, List.take_append_of_le_length hlen.ge, List.take_of_length_le hlen.le]
    exact h

/-- An Add with a match changes a quantity only. -/
theorem Holds.join (h : l.Holds xs) {matchR : BitVec 4} (hmatch : matchR < 8) (emptyR : BitVec 4)
    (q : BitVec 32) (p : BitVec 64) : (l.write matchR emptyR 0 q p).Holds xs where
  room := h.room
  slot := by
    intro i
    rw [← h.slot i, write, if_pos rfl, if_pos hmatch]
    rfl

/-- Without a match, nothing but an Add changes a side. -/
theorem write_of_no_match {msgType : BitVec 4} (h : msgType ≠ 0) (emptyR : BitVec 4)
    (q : BitVec 32) (p : BitVec 64) : l.write 8 emptyR msgType q p = l := by
  have hnot : ¬ (8 : BitVec 4) < 8 := by decide
  simp only [write, h, if_false, hnot, ite_self]

/-- Types but those of the four order messages change nothing. -/
theorem write_of_other {msgType : BitVec 4} (hadd : msgType ≠ 0)
    (htake : ¬ (msgType = 1 ∨ msgType = 2 ∨ msgType = 3)) (matchR emptyR : BitVec 4)
    (q : BitVec 32) (p : BitVec 64) : l.write matchR emptyR msgType q p = l := by
  obtain ⟨hupdate, hdelete, hexec⟩ := not_or.mp htake |>.imp_right not_or.mp
  simp only [write, hadd, hupdate, hdelete, hexec, or_self, if_false]

/-- Types 4 and 15, trades and unknown messages, change nothing. -/
theorem write_ignored {msgType : BitVec 4} (h : msgType = 4 ∨ msgType = 15)
    (matchR emptyR : BitVec 4) (q : BitVec 32) (p : BitVec 64) :
    l.write matchR emptyR msgType q p = l := by
  rcases h with rfl | rfl <;> rfl

/-! ### What the tree yields -/

section Tree

variable {better : BitVec 64 → BitVec 64 → Bool} {absent : BitVec 64}
  {group : List (BitVec 64)} {m : BitVec 64}

/-- Arrival `i + 1` of a group beats arrival `i`. -/
def Overtakes (better : BitVec 64 → BitVec 64 → Bool) (group : List (BitVec 64)) (i : ℕ) : Prop :=
  ∃ x y, group[i + 1]? = some x ∧ group[i]? = some y ∧ better x y = true

/-- The arrival that comes out of a group of up to four: the fourth if it beats the third,
else the second if the third beats it, else the first. -/
def Picked (better : BitVec 64 → BitVec 64 → Bool) (group : List (BitVec 64))
    (m : BitVec 64) : Prop :=
  (Overtakes better group 2 ∧ group[3]? = some m) ∨
    (¬ Overtakes better group 2 ∧ Overtakes better group 1 ∧ group[1]? = some m) ∨
    (¬ Overtakes better group 2 ∧ ¬ Overtakes better group 1 ∧ group[0]? = some m)

/-- The arrival that comes out of a side: the one picked from the first four, unless the one
picked from the next four beats it. -/
def Shown (better : BitVec 64 → BitVec 64 → Bool) (xs : List (BitVec 64)) (m : BitVec 64) : Prop :=
  (Picked better (xs.take 4) m ∧ ∀ m', Picked better (xs.drop 4) m' → better m' m = false) ∨
    (Picked better (xs.drop 4) m ∧ ∃ m', Picked better (xs.take 4) m' ∧ better m m' = true)

/-- The value the tree's half over a group takes. -/
def quadOf (better : BitVec 64 → BitVec 64 → Bool) (absent : BitVec 64)
    (group : List (BitVec 64)) : BitVec 64 :=
  quad better (group[3]?.getD absent) (group[2]?.getD absent) (group[1]?.getD absent)
    (group[0]?.getD absent)

theorem Holds.tree (h : l.Holds xs) :
    l.tree better absent =
      if better (quadOf better absent (xs.drop 4)) (quadOf better absent (xs.take 4)) then
        quadOf better absent (xs.drop 4)
      else quadOf better absent (xs.take 4) := by
  have htake (i : ℕ) (hi : i < 4) : (xs.take 4)[i]? = xs[i]? := List.getElem?_take_of_lt hi
  have hdrop (i : ℕ) : (xs.drop 4)[i]? = xs[4 + i]? := List.getElem?_drop
  simp only [LevelArray.tree, h.leaf, quadOf, htake, hdrop, Nat.reduceLT]
  rfl

@[simp] theorem not_picked_nil : ¬ Picked better [] m := by
  simp [Picked]

/-- Of at most two arrivals the first is shown. -/
theorem shown_head (x : BitVec 64) {rest : List (BitVec 64)} (h : rest.length ≤ 1) :
    Shown better (x :: rest) x := by
  match rest, h with
  | [], _ => exact .inl (by simp [Picked, Overtakes])
  | [y], _ => exact .inl (by simp [Picked, Overtakes])

variable (habsent : ∀ x, better absent x = false)
include habsent

/-- One arrival of a group is picked, and it is the value of the tree's half. -/
theorem picked_iff (hlen : group.length ≤ 4) (hne : group ≠ []) :
    Picked better group m ↔ quadOf better absent group = m := by
  unfold quadOf quad Picked Overtakes
  -- an empty slot behind the last arrival beats nothing
  match group, hlen with
  | [], _ => exact absurd rfl hne
  | [a], _ => simp [habsent]
  | [a, b], _ => simp [habsent]
  | [a, b, c], _ => cases hcb : better c b <;> simp [habsent, hcb]
  | [a, b, c, d], _ => cases hdc : better d c <;> cases hcb : better c b <;> simp [hdc, hcb]

/-- The tree yields the arrival that is shown. -/
theorem Holds.tree_eq_iff (h : l.Holds xs) (hne : xs ≠ []) :
    l.tree better absent = m ↔ Shown better xs m := by
  have hroom := h.room
  have hfirst : xs.take 4 ≠ [] := by simpa using hne
  have hpickFirst (m' : BitVec 64) : Picked better (xs.take 4) m' ↔ _ :=
    picked_iff habsent (List.length_take_le 4 xs) hfirst
  rw [h.tree]
  unfold Shown
  simp only [hpickFirst]
  -- with at most four arrivals the second half is empty and beats nothing
  by_cases hsecond : xs.drop 4 = []
  · have hempty : quadOf better absent [] = absent := by simp [quadOf, quad]
    simp [hsecond, hempty, habsent]
  · have hpickSecond (m' : BitVec 64) : Picked better (xs.drop 4) m' ↔ _ :=
      picked_iff habsent (by rw [List.length_drop]; omega) hsecond
    simp only [hpickSecond, forall_eq', exists_eq_left']
    cases hb : better (quadOf better absent (xs.drop 4)) (quadOf better absent (xs.take 4)) with
    | true =>
      rw [if_pos rfl]
      constructor
      · rintro rfl
        exact .inr ⟨rfl, hb⟩
      · rintro (⟨rfl, hnot⟩ | ⟨rfl, -⟩)
        · rw [hb] at hnot
          exact absurd hnot (by decide)
        · rfl
    | false =>
      rw [if_neg Bool.false_ne_true]
      constructor
      · rintro rfl
        exact .inl ⟨rfl, hb⟩
      · rintro (⟨rfl, -⟩ | ⟨rfl, hbeats⟩)
        · rfl
        · rw [hb] at hbeats
          exact absurd hbeats (by decide)

end Tree

end LevelArray

end HftKr260
