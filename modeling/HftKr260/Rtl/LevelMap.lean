import HftKr260.Rtl.EngineFeed

/-!
# The engine as a price book

What a side of the engine is for: a map from prices to quantities, which an Add adds to, an
Execute takes from and a Delete erases from. The slots of a side are such a map as long as no
price has two of them.

The engine updates the slot registered a cycle before, for the price and the levels of that
cycle. `Settled` says when this comes to the same: the slot registered is the one the message
is for, or what is done there and what ought to be done are both without effect.

## Main results

* `entry_hit` and `entry_fill` — what writing a slot does to the map
* `LevelArray.write_maintains_iff` — when one update is that of the map
* `price_book_iff` — when the engine keeps a price book over a whole run
-/

set_option autoImplicit false

namespace HftKr260

open Foundation

/-! ### Side books -/

/-- The aggregated quantities of one side, by price. -/
abbrev SideBook := BitVec 64 → Option ℕ

namespace SideBook

/-- What a message does to the entry of its price, with or without room for another price. -/
def updated (room : Bool) (msgType : BitVec 4) (q : ℕ) : Option ℕ → Option ℕ
  | none => if msgType = 0 ∧ room = true then some q else none
  | some n =>
      if msgType = 0 then some (n + q)
      else if msgType = 1 ∨ msgType = 3 then (if n ≤ q then none else some (n - q))
      else if msgType = 2 then none
      else some n

/-- A message changes the entry of its price only. -/
def receive (b : SideBook) (room : Bool) (msgType : BitVec 4) (q : ℕ) (p : BitVec 64) :
    SideBook :=
  Function.update b p (updated room msgType q (b p))

variable {b b' : SideBook} {room : Bool} {msgType : BitVec 4} {q : ℕ} {p : BitVec 64}

theorem eq_receive_iff :
    b' = b.receive room msgType q p ↔
      b' p = updated room msgType q (b p) ∧ ∀ p', p' ≠ p → b' p' = b p' := by
  rw [receive, eq_comm, Function.update_eq_iff]
  exact and_congr eq_comm (forall₂_congr fun _ _ => eq_comm)

/-- A book that does not change has received a message without effect. -/
theorem self_eq_receive_iff :
    b = b.receive room msgType q p ↔ updated room msgType q (b p) = b p := by
  rw [eq_receive_iff, eq_comm]
  exact and_iff_left fun _ _ => rfl

end SideBook

/-! ### The slots as a map -/

namespace LevelArray

variable (l : LevelArray)

/-- No price has two slots. -/
def Distinct : Prop := ∀ i j p, l.held i = some p → l.held j = some p → i = j

/-- The quantity in the slot of a price. -/
def entry : SideBook := fun p =>
  ((List.finRange 8).find? fun i => l.held i == some p).map fun i => (l.qty i).toNat

/-- Some slot is free. -/
def hasRoom : Bool := (List.finRange 8).any fun i => !l.valid i

variable {l} {i j : Fin 8} {p p' : BitVec 64}

theorem held_eq_none_iff : l.held i = none ↔ l.valid i = false := by
  rw [held]
  cases l.valid i <;> simp

theorem hasRoom_iff : l.hasRoom = true ↔ ∃ i, l.held i = none := by
  simp [hasRoom, held_eq_none_iff]

theorem entry_eq_none (h : ∀ i, l.held i ≠ some p) : l.entry p = none := by
  have hfind : ((List.finRange 8).find? fun i => l.held i == some p) = none :=
    List.find?_eq_none.mpr fun i _ => by simpa using h i
  rw [entry, hfind]
  rfl

theorem Distinct.entry (h : l.Distinct) (hi : l.held i = some p) :
    l.entry p = some (l.qty i).toNat := by
  cases hfind : (List.finRange 8).find? fun i => l.held i == some p with
  | none =>
    have hno := List.find?_eq_none.mp hfind i (List.mem_finRange i)
    exact absurd (beq_iff_eq.mpr hi) hno
  | some j =>
    have hj : l.held j = some p := by simpa using List.find?_some hfind
    rw [LevelArray.entry, hfind, h i j p hi hj]
    rfl

/-- A price has a slot or no entry. -/
theorem held_or_not (l : LevelArray) (p : BitVec 64) :
    (∃ i, l.held i = some p) ∨ ∀ i, l.held i ≠ some p := by
  by_cases h : ∃ i, l.held i = some p
  · exact .inl h
  · exact .inr (not_exists.mp h)

/-- Two sides that hold a price alike have the same entry for it. -/
theorem entry_congr {l' : LevelArray} (h : l.Distinct) (h' : l'.Distinct)
    (hheld : ∀ i, l'.held i = some p ↔ l.held i = some p)
    (hqty : ∀ i, l.held i = some p → l'.qty i = l.qty i) : l'.entry p = l.entry p := by
  rcases held_or_not l p with ⟨i, hi⟩ | hno
  · rw [h.entry hi, h'.entry ((hheld i).mpr hi), hqty i hi]
  · rw [entry_eq_none hno, entry_eq_none fun i hi => hno i ((hheld i).mp hi)]

/-! ### Writing a slot -/

/-- What a message makes of the quantity of a valid slot. -/
def acted (msgType : BitVec 4) (q n : BitVec 32) : Option (BitVec 32) :=
  if msgType = 0 then some (n + q)
  else if msgType = 1 ∨ msgType = 3 then (if n ≤ q then none else some (n - q))
  else if msgType = 2 then none
  else some n

/-- The update of a slot found. -/
def hit (l : LevelArray) (j : Fin 8) (msgType : BitVec 4) (q : BitVec 32) : LevelArray :=
  match acted msgType q (l.qty j) with
  | none => { l with valid := Function.update l.valid j false }
  | some n => { l with qty := Function.update l.qty j n }

/-- The update of a free slot. -/
def fill (l : LevelArray) (j : Fin 8) (q : BitVec 32) (p : BitVec 64) : LevelArray where
  valid := Function.update l.valid j true
  price := Function.update l.price j p
  qty := Function.update l.qty j q

variable {msgType matchR emptyR : BitVec 4} {q : BitVec 32}

theorem write_of_match (h : matchR < 8) :
    l.write matchR emptyR msgType q p = l.hit (slotOf matchR) msgType q := by
  rw [write, hit, acted, if_pos h, if_pos h, if_pos h]
  split_ifs
  · rfl
  · rfl
  · rfl
  · rfl
  · exact congrArg (LevelArray.mk l.valid l.price)
      (Function.update_eq_self (slotOf matchR) l.qty).symm

theorem write_of_miss (h : ¬matchR < 8) :
    l.write matchR emptyR msgType q p =
      if msgType = 0 ∧ emptyR < 8 then l.fill (slotOf emptyR) q p else l := by
  rw [write, if_neg h, if_neg h, if_neg h]
  by_cases hadd : msgType = 0
  · by_cases hempty : emptyR < 8
    · rw [if_pos hadd, if_pos hempty, if_pos ⟨hadd, hempty⟩]
      rfl
    · rw [if_pos hadd, if_neg hempty, if_neg fun h => hempty h.2]
  · rw [if_neg hadd, ite_self, ite_self, if_neg fun h => hadd h.1]

/-- The other slots hold what they held. -/
theorem hit_of_ne (h : i ≠ j) :
    (l.hit j msgType q).held i = l.held i ∧ (l.hit j msgType q).qty i = l.qty i := by
  rw [hit]
  cases acted msgType q (l.qty j) with
  | none => exact ⟨by simp [held, Function.update_of_ne h], rfl⟩
  | some n => exact ⟨rfl, Function.update_of_ne h _ _⟩

theorem hit_of_none (h : acted msgType q (l.qty j) = none) :
    (l.hit j msgType q).held j = none := by
  simp [hit, h, held]

theorem hit_of_some {n : BitVec 32} (h : acted msgType q (l.qty j) = some n) :
    (l.hit j msgType q).held j = l.held j ∧ (l.hit j msgType q).qty j = n := by
  rw [hit, h]
  exact ⟨rfl, Function.update_self _ _ _⟩

/-- A slot updated holds no price it did not hold. -/
theorem held_of_hit (h : (l.hit j msgType q).held i = some p) : l.held i = some p := by
  by_cases hij : i = j
  · subst hij
    cases hacted : acted msgType q (l.qty i) with
    | none => exact absurd ((hit_of_none hacted).symm.trans h) (by simp)
    | some n => rwa [(hit_of_some hacted).1] at h
  · rwa [(hit_of_ne hij).1] at h

theorem Distinct.hit (h : l.Distinct) : (l.hit j msgType q).Distinct :=
  fun i₁ i₂ p h₁ h₂ => h i₁ i₂ p (held_of_hit h₁) (held_of_hit h₂)

/-- Updating a slot changes the entry of the price it holds. -/
theorem entry_hit (h : l.Distinct) (hj : l.held j = some p) :
    (l.hit j msgType q).entry p = (acted msgType q (l.qty j)).map BitVec.toNat := by
  cases hacted : acted msgType q (l.qty j) with
  | none =>
    refine entry_eq_none fun i hi => ?_
    obtain rfl := h i j p (held_of_hit hi) hj
    exact absurd ((hit_of_none hacted).symm.trans hi) (by simp)
  | some n =>
    obtain ⟨hheld, hqty⟩ := hit_of_some hacted
    rw [h.hit.entry (hheld.trans hj), hqty]
    rfl

theorem entry_hit_of_ne (h : l.Distinct) (hj : l.held j ≠ some p) :
    (l.hit j msgType q).entry p = l.entry p := by
  have hne : ∀ i, l.held i = some p → i ≠ j := fun i hi hij => hj (hij ▸ hi)
  refine entry_congr h h.hit (fun i => ⟨held_of_hit, fun hi => ?_⟩) fun i hi =>
    (hit_of_ne (hne i hi)).2
  rw [(hit_of_ne (hne i hi)).1]
  exact hi

theorem fill_self : (l.fill j q p).held j = some p ∧ (l.fill j q p).qty j = q := by
  simp [fill, held]

theorem fill_of_ne (h : i ≠ j) :
    (l.fill j q p).held i = l.held i ∧ (l.fill j q p).qty i = l.qty i := by
  simp [fill, held, Function.update_of_ne h]

/-- The slots stay distinct if the price filled in has no other. -/
theorem Distinct.fill (h : l.Distinct) (hp : ∀ i, l.held i = some p → i = j) :
    (l.fill j q p).Distinct := by
  intro i₁ i₂ p' h₁ h₂
  by_cases hj₁ : i₁ = j
  · subst hj₁
    by_cases hj₂ : i₂ = i₁
    · exact hj₂.symm
    · rw [fill_self.1] at h₁
      obtain rfl := Option.some.inj h₁
      rw [(fill_of_ne hj₂).1] at h₂
      exact (hp i₂ h₂).symm
  · by_cases hj₂ : i₂ = j
    · subst hj₂
      rw [fill_self.1] at h₂
      obtain rfl := Option.some.inj h₂
      rw [(fill_of_ne hj₁).1] at h₁
      exact hp i₁ h₁
    · rw [(fill_of_ne hj₁).1] at h₁
      rw [(fill_of_ne hj₂).1] at h₂
      exact h i₁ i₂ p' h₁ h₂

/-- Filling a slot makes an entry of its price, -/
theorem entry_fill (h : (l.fill j q p).Distinct) : (l.fill j q p).entry p = some q.toNat := by
  obtain ⟨hheld, hqty⟩ := fill_self (l := l) (j := j) (q := q) (p := p)
  rw [h.entry hheld, hqty]

/-- and leaves those of the prices it did not hold. -/
theorem entry_fill_of_ne (h : l.Distinct) (h' : (l.fill j q p).Distinct) (hp : p' ≠ p)
    (hj : l.held j ≠ some p') : (l.fill j q p).entry p' = l.entry p' := by
  have hne : ∀ i, l.held i = some p' → i ≠ j := fun i hi hij => hj (hij ▸ hi)
  refine entry_congr h h' (fun i => ?_) fun i hi => (fill_of_ne (hne i hi)).2
  by_cases hij : i = j
  · subst hij
    rw [fill_self.1]
    exact iff_of_false (fun heq => hp (Option.some.inj heq).symm) hj
  · rw [(fill_of_ne hij).1]

/-! ### One update -/

/-- What is made of a quantity is what the book makes of it, as long as the sum fits. -/
theorem map_acted (room : Bool) {n : BitVec 32}
    (hfit : msgType = 0 → n.toNat + q.toNat < 2 ^ 32) :
    (acted msgType q n).map BitVec.toNat =
      SideBook.updated room msgType q.toNat (some n.toNat) := by
  rw [acted, SideBook.updated]
  simp only [BitVec.le_def]
  split_ifs with hadd hexec hle hdelete
  · exact congrArg some (BitVec.toNat_add_of_lt (hfit hadd))
  · rfl
  · exact congrArg some (BitVec.toNat_sub_of_le (BitVec.le_def.mpr (Nat.le_of_not_le hle)))
  · rfl
  · rfl

/-- A quantity stays as it is if the book would leave it. -/
theorem acted_eq_self_iff (room : Bool) {n : BitVec 32} :
    acted msgType q n = some n ↔
      SideBook.updated room msgType q.toNat (some n.toNat) = some n.toNat := by
  rw [acted, SideBook.updated]
  simp only [BitVec.le_def]
  split_ifs with hadd hexec hle hdelete
  · rw [Option.some.injEq, Option.some.injEq, BitVec.add_right_eq_self, Nat.add_eq_left,
      BitVec.toNat_eq]
    rfl
  · exact iff_of_false (by simp) (by simp)
  · rw [Option.some.injEq, Option.some.injEq, BitVec.toNat_eq,
      BitVec.toNat_sub_of_le (BitVec.le_def.mpr (Nat.le_of_not_le hle))]
  · exact iff_of_false (by simp) (by simp)
  · exact iff_of_true rfl rfl

variable (l)

/-- The slot registered for a message is the one it is for, or what is done there and what is
due are both without effect. -/
def Settled (matchR emptyR msgType : BitVec 4) (q : BitVec 32) (p : BitVec 64) : Prop :=
  if matchR < 8 then
    l.held (slotOf matchR) = some p ∨
      ((l.held (slotOf matchR) ≠ none →
          SideBook.updated l.hasRoom msgType q.toNat (some (l.qty (slotOf matchR)).toNat) =
            some (l.qty (slotOf matchR)).toNat) ∧
        SideBook.updated l.hasRoom msgType q.toNat (l.entry p) = l.entry p)
  else if msgType = 0 ∧ emptyR < 8 then
    (l.held (slotOf emptyR) = none ∧ l.entry p = none) ∨
      (l.held (slotOf emptyR) = some p ∧ l.qty (slotOf emptyR) = 0)
  else SideBook.updated l.hasRoom msgType q.toNat (l.entry p) = l.entry p

instance (matchR emptyR msgType : BitVec 4) (q : BitVec 32) (p : BitVec 64) :
    Decidable (l.Settled matchR emptyR msgType q p) := by
  unfold Settled
  infer_instance

/-- The side has become what the message makes of the book. -/
structure Maintained (l' : LevelArray) (msgType : BitVec 4) (q : BitVec 32) (p : BitVec 64) :
    Prop where
  distinct : l'.Distinct
  entry : l'.entry = l.entry.receive l.hasRoom msgType q.toNat p

variable {l}

theorem maintained_self_iff (h : l.Distinct) :
    l.Maintained l msgType q p ↔
      SideBook.updated l.hasRoom msgType q.toNat (l.entry p) = l.entry p := by
  rw [← SideBook.self_eq_receive_iff]
  exact ⟨fun hm => hm.entry, fun he => ⟨h, he⟩⟩

/-- The update of a slot that was found. -/
theorem maintained_hit_iff (h : l.Distinct)
    (hfit : msgType = 0 → ∀ n, l.entry p = some n → n + q.toNat < 2 ^ 32) :
    l.Maintained (l.hit j msgType q) msgType q p ↔
      l.held j = some p ∨
        ((l.held j ≠ none →
            SideBook.updated l.hasRoom msgType q.toNat (some (l.qty j).toNat) =
              some (l.qty j).toNat) ∧
          SideBook.updated l.hasRoom msgType q.toNat (l.entry p) = l.entry p) := by
  have hsplit : l.Maintained (l.hit j msgType q) msgType q p ↔
      (l.hit j msgType q).entry p = SideBook.updated l.hasRoom msgType q.toNat (l.entry p) ∧
        ∀ p', p' ≠ p → (l.hit j msgType q).entry p' = l.entry p' := by
    rw [← SideBook.eq_receive_iff]
    exact ⟨fun hm => hm.entry, fun he => ⟨h.hit, he⟩⟩
  rw [hsplit]
  by_cases hp : l.held j = some p
  · -- the slot of the message's own price
    refine iff_of_true ⟨?_, fun p' hp' => entry_hit_of_ne h fun heq => ?_⟩ (.inl hp)
    · rw [entry_hit h hp, h.entry hp]
      exact map_acted _ fun hadd => hfit hadd _ (h.entry hp)
    · exact hp' (Option.some.inj (heq.symm.trans hp))
  · rw [entry_hit_of_ne h hp, eq_comm, and_comm, or_iff_right hp]
    refine and_congr_left fun _ => ?_
    cases hj : l.held j with
    | none =>
      -- a free slot is nobody's
      refine iff_of_true (fun p' _ => entry_hit_of_ne h ?_) fun hne => absurd rfl hne
      rw [hj]
      exact (Option.some_ne_none p').symm
    | some pj =>
      rw [← acted_eq_self_iff]
      constructor
      · intro hothers _
        have hown := hothers pj fun heq => hp (heq ▸ hj)
        rw [entry_hit h hj, h.entry hj] at hown
        exact Option.map_injective (fun _ _ => BitVec.eq_of_toNat_eq) hown
      · intro hacted p' _
        by_cases heq : l.held j = some p'
        · rw [entry_hit h heq, hacted (by simp), h.entry heq]
          rfl
        · exact entry_hit_of_ne h heq

/-- The update of a slot that was free when it was looked for. -/
theorem maintained_fill_iff (h : l.Distinct) :
    l.Maintained (l.fill j q p) 0 q p ↔
      (l.held j = none ∧ l.entry p = none) ∨ (l.held j = some p ∧ l.qty j = 0) := by
  cases hj : l.held j with
  | none =>
    have hroom : l.hasRoom = true := hasRoom_iff.mpr ⟨j, hj⟩
    rcases held_or_not l p with ⟨i, hi⟩ | hno
    · -- the price has a slot already
      have hij : i ≠ j := fun heq => by simp [← heq, hi] at hj
      refine iff_of_false (fun hm => hij ?_) (by simp [h.entry hi])
      exact hm.distinct i j p ((fill_of_ne hij).1.trans hi) fill_self.1
    · have hdistinct : (l.fill j q p).Distinct := h.fill fun i hi => absurd hi (hno i)
      refine iff_of_true ⟨hdistinct, SideBook.eq_receive_iff.mpr ⟨?_, fun p' hp' => ?_⟩⟩
        (.inl ⟨rfl, entry_eq_none hno⟩)
      · rw [entry_fill hdistinct, entry_eq_none hno, SideBook.updated, if_pos ⟨rfl, hroom⟩]
      · refine entry_fill_of_ne h hdistinct hp' ?_
        rw [hj]
        exact (Option.some_ne_none p').symm
  | some pj =>
    by_cases hp : pj = p
    · -- the slot is the price's own
      subst hp
      have hdistinct : (l.fill j q pj).Distinct := h.fill fun i hi => h i j pj hi hj
      have hothers : ∀ p', p' ≠ pj → (l.fill j q pj).entry p' = l.entry p' := fun p' hp' =>
        entry_fill_of_ne h hdistinct hp' fun heq =>
          hp' (Option.some.inj (heq.symm.trans hj))
      have hmaintained : l.Maintained (l.fill j q pj) 0 q pj ↔
          some q.toNat = SideBook.updated l.hasRoom 0 q.toNat (l.entry pj) := by
        rw [← entry_fill hdistinct]
        exact ⟨fun hm => (SideBook.eq_receive_iff.mp hm.entry).1,
          fun he => ⟨hdistinct, SideBook.eq_receive_iff.mpr ⟨he, hothers⟩⟩⟩
      rw [hmaintained, h.entry hj, SideBook.updated, if_pos rfl, Option.some.injEq]
      constructor
      · intro hsum
        have hzero : (l.qty j).toNat = (0 : BitVec 32).toNat := Nat.right_eq_add.mp hsum
        exact .inr ⟨rfl, BitVec.eq_of_toNat_eq hzero⟩
      · rintro (⟨hnone, -⟩ | ⟨-, hzero⟩)
        · exact absurd hnone (Option.some_ne_none pj)
        · rw [hzero]
          exact (Nat.zero_add _).symm
    · -- another price would lose its slot
      refine iff_of_false (fun hm => ?_) (by simp [hp])
      have hkept := (SideBook.eq_receive_iff.mp hm.entry).2 pj hp
      rw [h.entry hj] at hkept
      have hlost : (l.fill j q p).entry pj = none := by
        refine entry_eq_none fun i hi => ?_
        by_cases hij : i = j
        · subst hij
          rw [fill_self.1] at hi
          exact hp (Option.some.inj hi).symm
        · rw [(fill_of_ne hij).1] at hi
          exact hij (h i j pj hi hj)
      exact absurd (hlost.symm.trans hkept) (Option.some_ne_none _).symm

/-- **One update** is that of the book exactly if it is settled. -/
theorem write_maintains_iff (h : l.Distinct)
    (hfit : msgType = 0 → ∀ n, l.entry p = some n → n + q.toNat < 2 ^ 32) :
    l.Maintained (l.write matchR emptyR msgType q p) msgType q p ↔
      l.Settled matchR emptyR msgType q p := by
  rw [Settled]
  split_ifs with hmatch hfill
  · rw [write_of_match hmatch]
    exact maintained_hit_iff h hfit
  · rw [write_of_miss hmatch, if_pos hfill, hfill.1]
    exact maintained_fill_iff h
  · rw [write_of_miss hmatch, if_neg hfill]
    exact maintained_self_iff h

/-! ### Indices that are not stale -/

theorem emptyIdx_spec (l : LevelArray) :
    (l.emptyIdx < 8 ∧ l.held (slotOf l.emptyIdx) = none) ∨
      (l.emptyIdx = 8 ∧ l.hasRoom = false) := by
  have hlast := foldl_last (fun i => !l.valid i) (List.finRange 8) 8
  have hscan : l.emptyIdx = (List.finRange 8).foldl
      (fun idx i => if !l.valid i then BitVec.ofNat 4 i else idx) 8 := by
    rw [emptyIdx]
    congr 1
    funext idx i
    cases l.valid i <;> rfl
  rw [← hscan] at hlast
  rcases hlast with ⟨i, -, hi, hidx⟩ | ⟨hno, hidx⟩
  · rw [hidx, (slotOf_ofNat i).2]
    exact .inl ⟨(slotOf_ofNat i).1, held_eq_none_iff.mpr (by simpa using hi)⟩
  · exact .inr ⟨hidx, List.any_eq_false.mpr fun i hi => by simpa using hno i hi⟩

/-- Indices looked up for the message's price in the levels it updates are settled. -/
theorem settled_fresh (l : LevelArray) (msgType : BitVec 4) (q : BitVec 32) (p : BitVec 64) :
    l.Settled (l.matchIdx p) l.emptyIdx msgType q p := by
  have hnot : ¬(8 : BitVec 4) < 8 := by decide
  rw [Settled]
  rcases matchIdx_spec l p with ⟨hlt, hheld⟩ | ⟨hidx, hno⟩
  · rw [if_pos hlt]
    exact .inl hheld
  · rw [hidx, if_neg hnot]
    rcases emptyIdx_spec l with ⟨hlt, hnone⟩ | ⟨hidx, hroom⟩
    · by_cases hadd : msgType = 0
      · rw [if_pos ⟨hadd, hlt⟩]
        exact .inl ⟨hnone, entry_eq_none hno⟩
      · rw [if_neg fun h => hadd h.1, entry_eq_none hno, SideBook.updated,
          if_neg fun h => hadd h.1]
    · rw [hidx, if_neg fun h => hnot h.2, entry_eq_none hno, hroom, SideBook.updated,
        if_neg fun h => Bool.false_ne_true h.2]

theorem distinct_cleared : cleared.Distinct := fun _ _ _ h => absurd h (Option.some_ne_none _).symm

end LevelArray

/-! ### Whole runs -/

/-- The engine of the datapath is fed by the parser. -/
theorem engine_eq_orderBook (powerUp : OrderBookEngine) (input : ℕ → AxisIn) :
    engine powerUp input = orderBook powerUp (parsedOf input) := rfl

namespace OrderBookEngine

/-- The registered indices are settled for a message. -/
def Settled (s : OrderBookEngine) (i : EngineIn) : Prop :=
  (s.levels (sideIn i.inSide)).Settled (s.matchR (sideIn i.inSide)) (s.emptyR (sideIn i.inSide))
    i.inMsgType i.inQuantity i.inPrice

instance (s : OrderBookEngine) (i : EngineIn) : Decidable (s.Settled i) :=
  inferInstanceAs (Decidable (LevelArray.Settled ..))

/-- An Add does not take the total of its price to `2 ^ 32`. -/
def Fits (s : OrderBookEngine) (i : EngineIn) : Prop :=
  i.inMsgType = 0 → ∀ n, (s.levels (sideIn i.inSide)).entry i.inPrice = some n →
    n + i.inQuantity.toNat < 2 ^ 32

instance (s : OrderBookEngine) (i : EngineIn) : Decidable (s.Fits i) :=
  decidable_of_iff
    (i.inMsgType = 0 → ((s.levels (sideIn i.inSide)).entry i.inPrice).all
      (fun n => decide (n + i.inQuantity.toNat < 2 ^ 32)) = true)
    (by simp only [Option.all_eq_true, decide_eq_true_iff, Fits])

/-- What a side becomes of a message. -/
def booked (s : OrderBookEngine) (i : EngineIn) (side : Side) : SideBook :=
  if sideIn i.inSide = side then
    (s.levels side).entry.receive (s.levels side).hasRoom i.inMsgType i.inQuantity.toNat i.inPrice
  else (s.levels side).entry

variable {s : OrderBookEngine} {i : EngineIn}

/-- One message. -/
theorem next_maintains_iff (h : ∀ side, (s.levels side).Distinct) (hvalid : i.inValid = true)
    (hfit : s.Fits i) :
    (∀ side, ((s.next i).levels side).Distinct ∧
        ((s.next i).levels side).entry = s.booked i side) ↔ s.Settled i := by
  rw [Settled, ← LevelArray.write_maintains_iff (h _) hfit]
  constructor
  · intro hall
    obtain ⟨hdistinct, hentry⟩ := hall (sideIn i.inSide)
    rw [levels_next_of_valid _ _ hvalid, if_pos rfl] at hdistinct hentry
    rw [booked, if_pos rfl] at hentry
    exact ⟨hdistinct, hentry⟩
  · intro hm side
    rw [levels_next_of_valid _ _ hvalid, booked]
    split_ifs with hside
    · subst hside
      exact ⟨hm.distinct, hm.entry⟩
    · exact ⟨h side, rfl⟩

end OrderBookEngine

section Run

variable (powerUp : OrderBookEngine) (input : ℕ → EngineIn)

/-- No total reaches `2 ^ 32`. -/
def TotalsFit : Prop :=
  ∀ t, (input t).inValid = true → (orderBook powerUp input t).Fits (input t)

/-- In every state the prices of a side are distinct, and every message changes the two sides
as price books. -/
structure KeepsBook : Prop where
  distinct : ∀ t side, ((orderBook powerUp input t).levels side).Distinct
  step : ∀ t side, (input t).inValid = true →
    ((orderBook powerUp input (t + 1)).levels side).entry =
      (orderBook powerUp input t).booked (input t) side

variable {powerUp input}

/-- The prices stay distinct while the messages are settled. -/
theorem distinct_of_settled (hfit : TotalsFit powerUp input)
    (h : ∀ t, (input t).inValid = true → (orderBook powerUp input t).Settled (input t)) (t : ℕ) :
    ∀ side, ((orderBook powerUp input t).levels side).Distinct := by
  induction t with
  | zero =>
    intro side
    cases side <;> exact LevelArray.distinct_cleared
  | succ t ih =>
    intro side
    rw [orderBook_succ]
    cases hvalid : (input t).inValid with
    | false =>
      rw [OrderBookEngine.levels_next_of_idle _ side hvalid]
      exact ih side
    | true =>
      have hnext := (OrderBookEngine.next_maintains_iff ih hvalid (hfit t hvalid)).mpr
        (h t hvalid)
      exact (hnext side).1

theorem keepsBook_of_settled (hfit : TotalsFit powerUp input)
    (h : ∀ t, (input t).inValid = true → (orderBook powerUp input t).Settled (input t)) :
    KeepsBook powerUp input where
  distinct := distinct_of_settled hfit h
  step := by
    intro t side hvalid
    have hnext := (OrderBookEngine.next_maintains_iff (distinct_of_settled hfit h t) hvalid
      (hfit t hvalid)).mpr (h t hvalid)
    exact (hnext side).2

/-- A message whose price was on the lines one cycle before it, with no message for its side
in that cycle, is settled. -/
theorem settled_of_steady {t : ℕ} (hprice : (input t).inPrice = (input (t + 1)).inPrice)
    (hquiet : (input t).inValid = true →
      OrderBookEngine.sideIn (input t).inSide ≠ OrderBookEngine.sideIn (input (t + 1)).inSide) :
    (orderBook powerUp input (t + 1)).Settled (input (t + 1)) := by
  have hlevels : (orderBook powerUp input (t + 1)).levels
      (OrderBookEngine.sideIn (input (t + 1)).inSide) =
        (orderBook powerUp input t).levels (OrderBookEngine.sideIn (input (t + 1)).inSide) := by
    rw [orderBook_succ]
    cases hvalid : (input t).inValid with
    | false => exact OrderBookEngine.levels_next_of_idle _ _ hvalid
    | true => rw [OrderBookEngine.levels_next_of_valid _ _ hvalid, if_neg (hquiet hvalid)]
  have hindices (side : Side) :
      (orderBook powerUp input (t + 1)).matchR side =
          ((orderBook powerUp input t).levels side).matchIdx (input (t + 1)).inPrice ∧
        (orderBook powerUp input (t + 1)).emptyR side =
          ((orderBook powerUp input t).levels side).emptyIdx := by
    rw [orderBook_succ, ← hprice]
    cases side <;> exact ⟨rfl, rfl⟩
  rw [OrderBookEngine.Settled, hlevels, (hindices _).1, (hindices _).2]
  exact LevelArray.settled_fresh _ _ _ _

/-- A run that shows each price one cycle ahead, and spaces the messages for a side, keeps a
price book. -/
theorem keepsBook_of_steady (hfit : TotalsFit powerUp input)
    (hstart : (input 0).inValid = false)
    (h : ∀ t, (input (t + 1)).inValid = true → (input t).inPrice = (input (t + 1)).inPrice ∧
      ((input t).inValid = true → OrderBookEngine.sideIn (input t).inSide ≠
        OrderBookEngine.sideIn (input (t + 1)).inSide)) :
    KeepsBook powerUp input := by
  refine keepsBook_of_settled hfit fun t hvalid => ?_
  cases t with
  | zero => exact absurd (hstart.symm.trans hvalid) Bool.false_ne_true
  | succ t => exact settled_of_steady (h t hvalid).1 (h t hvalid).2

/-- **The price book.** Over a run without overflow the engine keeps a price book exactly if
every message is settled when it arrives. -/
theorem price_book_iff (powerUp : OrderBookEngine) (input : ℕ → EngineIn)
    (hfit : TotalsFit powerUp input) :
    KeepsBook powerUp input ↔
      ∀ t, (input t).inValid = true → (orderBook powerUp input t).Settled (input t) := by
  constructor
  · intro h t hvalid
    refine (OrderBookEngine.next_maintains_iff (h.distinct t) hvalid (hfit t hvalid)).mp ?_
    exact fun side => ⟨h.distinct (t + 1) side, h.step t side hvalid⟩
  · exact keepsBook_of_settled hfit

end Run

/-- Some cycles of the engine's input, then nothing. -/
def enginePlayback (l : List EngineIn) (t : ℕ) : EngineIn :=
  l.getD t ⟨false, 0, false, 0, 0, 0, 0⟩

theorem enginePlayback_idle {l : List EngineIn} {t : ℕ} (h : l.length ≤ t) :
    (enginePlayback l t).inValid = false := by
  rw [enginePlayback, List.getD_eq_default _ _ h]

/-- Overflow is excluded by what the first cycles do. -/
theorem totalsFit_of_lt {powerUp : OrderBookEngine} {l : List EngineIn}
    (h : ∀ t < l.length, (orderBook powerUp (enginePlayback l) t).Fits (enginePlayback l t)) :
    TotalsFit powerUp (enginePlayback l) := by
  intro t hvalid
  rcases Nat.lt_or_ge t l.length with hlt | hge
  · exact h t hlt
  · exact absurd ((enginePlayback_idle hge).symm.trans hvalid) Bool.false_ne_true

/-- A bid of 10 at 100, its price on the lines a cycle ahead. -/
def steadyBid : List EngineIn :=
  [⟨false, 0, false, 0, 0, 100, 0⟩, ⟨true, 0, false, 0, 10, 100, 0⟩]

/-- Behind it a bid of 5 at 200, one of 3 at 100, and an Execute of the 5, each with its price
ahead. -/
def steadyBids : List EngineIn :=
  steadyBid ++
    [⟨false, 0, false, 0, 0, 200, 0⟩, ⟨true, 0, false, 0, 5, 200, 0⟩,
      ⟨false, 0, false, 0, 0, 100, 0⟩, ⟨true, 0, false, 0, 3, 100, 0⟩,
      ⟨false, 0, false, 0, 0, 200, 0⟩, ⟨true, 3, false, 0, 5, 200, 0⟩]

theorem steadyBids_keeps : KeepsBook default (enginePlayback steadyBids) := by
  have hsettled : ∀ t < 8, (enginePlayback steadyBids t).inValid = true →
      (orderBook default (enginePlayback steadyBids) t).Settled (enginePlayback steadyBids t) := by
    decide +kernel
  refine (price_book_iff default _ (totalsFit_of_lt (by decide +kernel))).mpr fun t hvalid => ?_
  rcases Nat.lt_or_ge t 8 with hlt | hge
  · exact hsettled t hlt hvalid
  · exact absurd ((enginePlayback_idle hge).symm.trans hvalid) Bool.false_ne_true

/-- A bid of 5 at 200 with the price of the bid before it on the lines a cycle ahead. -/
def staleBid : List EngineIn :=
  steadyBid ++ [⟨false, 0, false, 0, 0, 100, 0⟩, ⟨true, 0, false, 0, 5, 200, 0⟩]

/-- It is added to the level at 100. -/
theorem staleBid_misplaced :
    ¬∀ powerUp input, TotalsFit powerUp input → KeepsBook powerUp input := by
  intro h
  have hbook := h default (enginePlayback staleBid) (totalsFit_of_lt (by decide))
  have hentry := congrFun (hbook.step 3 .bid (by decide)) 100
  exact absurd hentry (by decide)

end HftKr260
