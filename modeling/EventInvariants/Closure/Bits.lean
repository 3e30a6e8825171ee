namespace EventInvariants.Closure

def hasBit (w : UInt64) (b : Nat) : Bool :=
  w &&& (1 <<< b.toUInt64) != 0

def setBit (w : UInt64) (b : Nat) : UInt64 :=
  w ||| (1 <<< b.toUInt64)

def countOnes (w : UInt64) : Nat :=
  (List.range 64).countP (hasBit w)

section
variable {w : UInt64} {b c : Nat}

theorem toNat_mask (hb : b < 64) : ((1 : UInt64) <<< b.toUInt64).toNat = 1 <<< b := by
  have hlt : 1 <<< b < 2 ^ 64 := by
    rw [Nat.shiftLeft_eq, Nat.one_mul]
    exact Nat.pow_lt_pow_right (by decide) hb
  have hshift : b.toUInt64.toNat % 64 = b := by
    rw [Nat.toUInt64_eq, UInt64.toNat_ofNat']
    omega
  rw [UInt64.toNat_shiftLeft, hshift]
  exact Nat.mod_eq_of_lt hlt

theorem testBit_mask (b c : Nat) : (1 <<< b).testBit c = decide (b = c) := by
  rw [Nat.shiftLeft_eq, Nat.one_mul, Nat.testBit_two_pow]

/-- A word is tested like the number that it stands for. -/
theorem hasBit_eq (hb : b < 64) : hasBit w b = w.toNat.testBit b := by
  have hzero : (w &&& (1 <<< b.toUInt64) = 0) ↔ w.toNat &&& 1 <<< b = 0 := by
    rw [← UInt64.toNat_inj, UInt64.toNat_and, toNat_mask hb]
    exact Iff.rfl
  rw [hasBit, Bool.eq_iff_iff, bne_iff_ne, ne_eq, hzero]
  constructor
  · intro hne
    obtain ⟨c, hc⟩ := Nat.exists_testBit_of_ne_zero hne
    rw [Nat.testBit_and, testBit_mask, Bool.and_eq_true, decide_eq_true_eq] at hc
    obtain ⟨hw, rfl⟩ := hc
    exact hw
  · intro hw heq
    have hc := congrArg (Nat.testBit · b) heq
    simp [Nat.testBit_and, hw] at hc

theorem hasBit_setBit (hb : b < 64) (hc : c < 64) :
    hasBit (setBit w b) c = (decide (b = c) || hasBit w c) := by
  rw [hasBit_eq hc, hasBit_eq hc, setBit, UInt64.toNat_or, toNat_mask hb, Nat.testBit_or,
    testBit_mask, Bool.or_comm]

theorem hasBit_zero (b : Nat) : hasBit 0 b = false := by
  simp [hasBit]

end

/-- Bit `k` of a row of words. -/
def bitAt (words : Array UInt64) (k : Nat) : Bool :=
  hasBit (words.getD (k / 64) 0) (k % 64)

/-- The number of bits that are not set. -/
def zeros (words : Array UInt64) : Nat :=
  (List.range (words.size * 64)).countP fun k => !bitAt words k

section
variable {words : Array UInt64} {i b k : Nat}

theorem bitAt_set (hi : i < words.size) (hb : b < 64) :
    bitAt (words.set i (setBit words[i] b)) k = (decide (i * 64 + b = k) || bitAt words k) := by
  have hk : k % 64 < 64 := Nat.mod_lt k (by decide)
  unfold bitAt
  by_cases hword : i = k / 64
  · subst hword
    have hplace : (k / 64 * 64 + b = k) ↔ b = k % 64 := by omega
    simp [Array.getD_eq_getD_getElem?, hi, hasBit_setBit hb hk, hplace]
  · have hplace : ¬ i * 64 + b = k := by omega
    simp [Array.getD_eq_getD_getElem?, hword, hplace]

/-- Two counts that differ at one number. -/
theorem countP_flip {p q : Nat → Bool} {n : Nat} (hk : k < n) (hp : p k = true)
    (hq : q k = false) (hsame : ∀ j, j ≠ k → p j = q j) :
    (List.range n).countP q + 1 = (List.range n).countP p := by
  induction n with
  | zero => omega
  | succ n ih =>
    rw [List.range_succ, List.countP_append, List.countP_append]
    by_cases hn : k = n
    · subst hn
      have hrest : (List.range k).countP q = (List.range k).countP p := by
        apply List.countP_congr
        intro j hj
        rw [hsame j (Nat.ne_of_lt (List.mem_range.mp hj))]
      simp [hrest, hp, hq]
    · have hlast : [n].countP q = [n].countP p := by
        simp [List.countP_cons, hsame n (Ne.symm hn)]
      rw [hlast]
      have := ih (by omega)
      omega

theorem zeros_set (hi : i < words.size) (hb : b < 64) (h : hasBit words[i] b = false) :
    zeros (words.set i (setBit words[i] b)) + 1 = zeros words := by
  have hplace : (i * 64 + b) / 64 = i ∧ (i * 64 + b) % 64 = b := by omega
  unfold zeros
  rw [Array.size_set]
  apply countP_flip (k := i * 64 + b)
  · omega
  · simp [bitAt, hplace, Array.getD_eq_getD_getElem?, hi, h]
  · simp [bitAt_set hi hb]
  · intro j hj
    simp [bitAt_set hi hb, Ne.symm hj]

end
end EventInvariants.Closure
