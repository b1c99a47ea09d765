import Mathlib

namespace ScriptMinifier

theorem eq_of_testBit_eq {i j : ℤ} (h : ∀ k, i.testBit k = j.testBit k) : i = j := by
  have hhigh (m n : ℕ) : m.testBit (m + n) = false :=
    Nat.testBit_lt_two_pow ((Nat.le_add_right m n).trans_lt Nat.lt_two_pow_self)
  cases i with
  | ofNat m =>
    cases j with
    | ofNat n => exact congrArg Int.ofNat (Nat.eq_of_testBit_eq h)
    | negSucc n =>
      have hbit : m.testBit (m + n) = !n.testBit (m + n) := h (m + n)
      rw [hhigh m n, Nat.add_comm, hhigh n m] at hbit
      cases hbit
  | negSucc m =>
    cases j with
    | ofNat n =>
      have hbit : (!m.testBit (m + n)) = n.testBit (m + n) := h (m + n)
      rw [hhigh m n, Nat.add_comm, hhigh n m] at hbit
      cases hbit
    | negSucc n =>
      have hbits (k : ℕ) : m.testBit k = n.testBit k := Bool.not_inj (h k)
      exact congrArg Int.negSucc (Nat.eq_of_testBit_eq hbits)

variable {width : ℕ}

/-- Above its own bits a signed integer repeats its sign. -/
theorem testBit_toInt (x : BitVec width) (k : ℕ) :
    x.toInt.testBit k = if k < width then x.getLsbD k else x.msb := by
  have hlt := x.isLt
  cases hsign : x.msb with
  | false =>
    have hvalue : x.toInt = (x.toNat : ℤ) := BitVec.toInt_eq_toNat_of_msb hsign
    rw [hvalue]
    change x.toNat.testBit k = _
    split
    · rfl
    · exact Nat.testBit_lt_two_pow (hlt.trans_le (Nat.pow_le_pow_right (by decide) (by omega)))
  | true =>
    have hvalue : x.toInt = Int.negSucc (2 ^ width - (x.toNat + 1)) := by
      rw [BitVec.toInt_eq_msb_cond, hsign, if_pos rfl, Int.negSucc_eq, Int.natCast_sub hlt]
      push_cast
      ring
    rw [hvalue]
    change (!(2 ^ width - (x.toNat + 1)).testBit k) = _
    rw [Nat.testBit_two_pow_sub_succ hlt]
    split
    · rw [decide_eq_true ‹k < width›, Bool.true_and, Bool.not_not]
      rfl
    · rw [decide_eq_false ‹¬ k < width›]
      rfl

/-- An operator that works on each bit does so on the signed integers. -/
theorem toInt_bitwise (f : Bool → Bool → Bool) {x y z : BitVec (width + 1)}
    (h : ∀ k < width + 1, z.getLsbD k = f (x.getLsbD k) (y.getLsbD k)) :
    z.toInt = Int.bitwise f x.toInt y.toInt := by
  have hsign : z.msb = f x.msb y.msb := h width (Nat.lt_succ_self width)
  apply eq_of_testBit_eq
  intro k
  rw [Int.testBit_bitwise, testBit_toInt, testBit_toInt, testBit_toInt]
  split
  · exact h k ‹_›
  · exact hsign

variable (m n : Int32) {c : UInt32}

theorem toInt_not : (~~~m).toInt = -m.toInt - 1 := by
  have hlower := m.le_toInt
  have hupper := m.toInt_lt
  rw [Int32.toInt_not, Int.bmod_eq_of_le (by omega) (by omega)]

theorem toInt_or : (m ||| n).toInt = Int.lor m.toInt n.toInt := by
  rw [← Int.bitwise_or]
  apply toInt_bitwise
  intro k _
  exact BitVec.getLsbD_or

theorem toInt_and : (m &&& n).toInt = Int.land m.toInt n.toInt := by
  rw [← Int.bitwise_and]
  apply toInt_bitwise
  intro k _
  exact BitVec.getLsbD_and

theorem toInt_xor : (m ^^^ n).toInt = Int.xor m.toInt n.toInt := by
  rw [← Int.bitwise_xor]
  apply toInt_bitwise
  intro k _
  exact BitVec.getLsbD_xor

theorem toNat_smod (h : c.toNat < 32) : (c.toInt32.toBitVec.smod 32).toNat = c.toNat := by
  have hsign : c.toBitVec.msb = false := by
    rw [BitVec.msb_eq_false_iff_two_mul_lt]
    change 2 * c.toNat < 2 ^ 32
    omega
  change (c.toBitVec.smod 32).toNat = _
  rw [BitVec.smod_eq, hsign]
  change (c.toBitVec % 32#32).toNat = _
  rw [BitVec.toNat_umod]
  exact Nat.mod_eq_of_lt h

theorem toInt_shiftLeft (h : c.toNat < 32) :
    (m <<< c.toInt32).toInt = (m.toInt * 2 ^ c.toNat).bmod (2 ^ 32) := by
  change (m.toBitVec <<< (c.toInt32.toBitVec.smod 32).toNat).toInt = _
  rw [toNat_smod h, BitVec.toInt_shiftLeft]
  have hm : m.toInt = (m.toBitVec.toNat : ℤ).bmod (2 ^ 32) := BitVec.toInt_eq_toNat_bmod _
  rw [hm, Int.bmod_mul_bmod, Nat.shiftLeft_eq, Nat.cast_mul, Nat.cast_pow, Nat.cast_ofNat]

theorem toInt_shiftRight (h : c.toNat < 32) :
    (m >>> c.toInt32).toInt = m.toInt / 2 ^ c.toNat := by
  change (m.toBitVec.sshiftRight (c.toInt32.toBitVec.smod 32).toNat).toInt = _
  rw [toNat_smod h, BitVec.toInt_sshiftRight, Int.shiftRight_eq_div_pow]
  rfl

theorem toNat_shiftRight (u : UInt32) (h : c.toNat < 32) :
    (u >>> c).toNat = u.toNat / 2 ^ c.toNat := by
  rw [UInt32.toNat_shiftRight, Nat.mod_eq_of_lt h, Nat.shiftRight_eq_div_pow]

end ScriptMinifier
