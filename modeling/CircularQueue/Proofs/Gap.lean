import CircularQueue.Cursor
import Mathlib.Algebra.Order.Ring.Int

/-!
# Signed differences of cursors

`gap a b` is the difference of two words read as a signed number. It adds up along a chain of
words as long as the sum stays in the signed range, and that is the only way in which it is used:
a cursor near another one is that cursor moved by a small number of steps, whatever the two words
are and wherever the count of cursors wraps round.
-/

namespace CircularQueue

theorem toInt_toInt64 (x : UInt64) : x.toInt64.toInt = (x.toNat : Int).bmod (2 ^ 64) :=
  BitVec.toInt_eq_toNat_bmod x.toBitVec

theorem gap_eq_bmod (a b : UInt64) : gap a b = ((a.toNat : Int) - b.toNat).bmod (2 ^ 64) := by
  rw [gap, UInt64.toInt64_sub, Int64.toInt_sub, toInt_toInt64, toInt_toInt64]
  simp only [Int.bmod]
  omega

theorem neg_le_gap (a b : UInt64) : -2 ^ 63 ≤ gap a b := by
  simp only [gap_eq_bmod, Int.bmod]
  omega

theorem gap_lt (a b : UInt64) : gap a b < 2 ^ 63 := by
  simp only [gap_eq_bmod, Int.bmod]
  omega

theorem toNat_eq_add_gap (a b : UInt64) : (a.toNat : Int) = (b.toNat + gap a b) % 2 ^ 64 := by
  have hlt := a.toNat_lt
  simp only [gap_eq_bmod, Int.bmod]
  omega

/-- The gap is the only number in the signed range that leads from `b` to `a`. -/
theorem gap_eq_of_toNat {a b : UInt64} {z : Int} (hmod : (a.toNat : Int) = (b.toNat + z) % 2 ^ 64)
    (hlo : -2 ^ 63 ≤ z) (hhi : z < 2 ^ 63) : gap a b = z := by
  simp only [gap_eq_bmod, Int.bmod]
  omega

theorem gap_add_gap {a b c : UInt64} (hlo : -2 ^ 63 ≤ gap a b + gap b c)
    (hhi : gap a b + gap b c < 2 ^ 63) : gap a c = gap a b + gap b c := by
  simp only [gap_eq_bmod, Int.bmod] at *
  omega

/-- Two words are compared through a third one near both. -/
theorem gap_eq_sub {a b : UInt64} (c : UInt64) (hlo : -2 ^ 63 ≤ gap a c - gap b c)
    (hhi : gap a c - gap b c < 2 ^ 63) : gap a b = gap a c - gap b c := by
  simp only [gap_eq_bmod, Int.bmod] at *
  omega

theorem gap_comm {a b : UInt64} (h : -2 ^ 63 < gap a b) : gap b a = -gap a b := by
  simp only [gap_eq_bmod, Int.bmod] at *
  omega

theorem eq_of_gap_eq {a b c : UInt64} (h : gap a c = gap b c) : a = b := by
  have ha := a.toNat_lt
  have hb := b.toNat_lt
  simp only [gap_eq_bmod, Int.bmod] at h
  apply UInt64.toNat_inj.1
  omega

theorem gap_eq_zero_iff {a b : UInt64} : gap a b = 0 ↔ a = b := by
  constructor
  · intro h
    exact eq_of_gap_eq (h.trans (gap_self b).symm)
  · rintro rfl
    exact gap_self a

theorem toNat_add_toUInt64 (c : Cursor) (j : Nat) :
    (c + j.toUInt64).toNat = (c.toNat + j) % 2 ^ 64 := by
  have hj : j.toUInt64.toNat = j % 2 ^ 64 := by simp
  rw [UInt64.toNat_add, hj]
  omega

theorem add_toUInt64_succ (c : Cursor) (j : Nat) :
    c + (j + 1).toUInt64 = c + 1 + j.toUInt64 := by
  apply UInt64.toNat_inj.1
  have hone : (c + 1).toNat = (c.toNat + 1) % 2 ^ 64 := toNat_add_toUInt64 c 1
  rw [toNat_add_toUInt64, toNat_add_toUInt64, hone]
  omega

theorem add_toUInt64_add_one (c : Cursor) (j : Nat) :
    c + j.toUInt64 + 1 = c + (j + 1).toUInt64 := by
  rw [add_toUInt64_succ, UInt64.add_assoc, UInt64.add_comm j.toUInt64, UInt64.add_assoc]

theorem add_toUInt64_add (c : Cursor) (i j : Nat) :
    c + (i + j).toUInt64 = c + i.toUInt64 + j.toUInt64 := by
  have hsum : (i + j).toUInt64 = i.toUInt64 + j.toUInt64 := UInt64.ofNat_add i j
  rw [hsum, UInt64.add_assoc]

theorem toNat_sub_toUInt64 (c : Cursor) (j : Nat) :
    ((c - j.toUInt64).toNat : Int) = (c.toNat - j) % 2 ^ 64 := by
  have hj : j.toUInt64.toNat = j % 2 ^ 64 := by simp
  rw [UInt64.toNat_sub, hj]
  omega

theorem toNat_toUInt64 {j : Nat} (h : j < 2 ^ 64) : j.toUInt64.toNat = j := Nat.mod_eq_of_lt h

theorem gap_toUInt64 {i j : Nat} (hi : i < 2 ^ 63) (hj : j < 2 ^ 63) :
    gap i.toUInt64 j.toUInt64 = i - j := by
  refine gap_eq_of_toNat ?_ (by omega) (by omega)
  rw [toNat_toUInt64 (by omega), toNat_toUInt64 (by omega)]
  omega

theorem gap_add_left {c d : Cursor} {j : Nat} (h : gap c d + j < 2 ^ 63) :
    gap (c + j.toUInt64) d = gap c d + j := by
  have hlo := neg_le_gap c d
  refine gap_eq_of_toNat ?_ (by omega) h
  rw [toNat_add_toUInt64]
  simp only [gap_eq_bmod, Int.bmod]
  omega

theorem gap_sub_left {c d : Cursor} {j : Nat} (h : -2 ^ 63 ≤ gap c d - j) :
    gap (c - j.toUInt64) d = gap c d - j := by
  have hhi := gap_lt c d
  refine gap_eq_of_toNat ?_ h (by omega)
  rw [toNat_sub_toUInt64]
  simp only [gap_eq_bmod, Int.bmod]
  omega

theorem gap_add_self {c : Cursor} {j : Nat} (h : j < 2 ^ 63) : gap (c + j.toUInt64) c = j := by
  rw [gap_add_left (by simp [gap_self]; omega), gap_self, Int.zero_add]

theorem gap_sub_self {c : Cursor} {j : Nat} (h : j ≤ 2 ^ 63) : gap (c - j.toUInt64) c = -j := by
  rw [gap_sub_left (by simp [gap_self]; omega), gap_self, Int.zero_sub]

theorem gap_succ_left {c d : Cursor} (h : gap c d + 1 < 2 ^ 63) : gap (c + 1) d = gap c d + 1 :=
  gap_add_left h

theorem gap_succ_right {c d : Cursor} (h : -2 ^ 63 < gap c d) : gap c (d + 1) = gap c d - 1 := by
  have hd : (d + 1).toNat = (d.toNat + 1) % 2 ^ 64 := toNat_add_toUInt64 d 1
  simp only [gap_eq_bmod, Int.bmod, hd] at *
  omega

theorem gap_add_right {c d : Cursor} {j : Nat} (h : -2 ^ 63 ≤ gap c d - j) :
    gap c (d + j.toUInt64) = gap c d - j := by
  have hhi := gap_lt c d
  have hc := toNat_eq_add_gap c d
  refine gap_eq_of_toNat ?_ h (by omega)
  rw [toNat_add_toUInt64]
  omega

theorem gap_offsets {c : Cursor} {i j : Nat} (hi : i < 2 ^ 63) (hj : j < 2 ^ 63) :
    gap (c + i.toUInt64) (c + j.toUInt64) = i - j := by
  have hself := gap_add_self (c := c) hi
  rw [gap_add_right (by omega), hself]

theorem gap_eq_succ_right {c d : Cursor} (h : gap c (d + 1) < 2 ^ 63 - 1) :
    gap c d = gap c (d + 1) + 1 := by
  have hd : (d + 1).toNat = (d.toNat + 1) % 2 ^ 64 := toNat_add_toUInt64 d 1
  simp only [gap_eq_bmod, Int.bmod, hd] at *
  omega

/-- A cursor at or past `b` is reached from `b` by counting up. -/
theorem eq_add_gap {a b : Cursor} (h : 0 ≤ gap a b) : a = b + (gap a b).toNat.toUInt64 := by
  have hlt := gap_lt a b
  refine eq_of_gap_eq (c := b) ?_
  rw [gap_add_self (by omega)]
  omega

end CircularQueue
