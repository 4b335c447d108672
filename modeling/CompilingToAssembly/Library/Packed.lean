import Mathlib.Data.Nat.Bitwise

/-! Numbers and bits in an array of bytes.

A number takes `k` bytes from byte `a` on, the lowest first; bit `n` is in byte `n / 8`. Writing
one of them changes what is read there and nothing else. -/
namespace CompilingToAssembly.Library

variable {data data' : Nat → UInt8} {a b k m n v : Nat}

/-! ### Numbers -/

def readLe (data : Nat → UInt8) (a : Nat) : Nat → Nat
  | 0 => 0
  | k + 1 => (data a).toNat + 256 * readLe data (a + 1) k

/-- The numbers `f 0`, `f 1` and so on, `n` of them. -/
def writeLes (data : Nat → UInt8) (a k n : Nat) (f : Nat → Nat) : Nat → UInt8 := fun i =>
  if a ≤ i ∧ i < a + k * n then UInt8.ofNat (f ((i - a) / k) / 256 ^ ((i - a) % k)) else data i

def writeLe (data : Nat → UInt8) (a k v : Nat) : Nat → UInt8 := fun i =>
  if a ≤ i ∧ i < a + k then UInt8.ofNat (v / 256 ^ (i - a)) else data i

theorem readLe_congr (h : ∀ i, a ≤ i → i < a + k → data' i = data i) : readLe data' a k = readLe data a k := by
  induction k generalizing a with
  | zero => rfl
  | succ k ih =>
    rw [readLe, readLe, h a le_rfl (by omega), ih fun i hi hik => h i (by omega) (by omega)]

theorem readLe_zero (a k : Nat) : readLe (fun _ => 0) a k = 0 := by
  induction k generalizing a with
  | zero => rfl
  | succ k ih => rw [readLe, ih]; rfl

theorem readLe_writeLe (hv : v < 256 ^ k) : readLe (writeLe data a k v) a k = v := by
  induction k generalizing a v data with
  | zero =>
    simp only [Nat.pow_zero, Nat.lt_one_iff] at hv
    rw [hv, readLe]
  | succ k ih =>
    have hrest : readLe (writeLe data a (k + 1) v) (a + 1) k = readLe (writeLe data (a + 1) k (v / 256)) (a + 1) k := by
      refine readLe_congr fun i hi hik => ?_
      obtain ⟨j, rfl⟩ := Nat.exists_eq_add_of_le hi
      have hdiv : v / 256 ^ (a + 1 + j - a) = v / 256 / 256 ^ (a + 1 + j - (a + 1)) := by
        rw [Nat.div_div_eq_div_mul, ← Nat.pow_succ']
        congr 2
        omega
      rw [writeLe, writeLe, if_pos (by omega), if_pos (by omega), hdiv]
    have hfirst : (writeLe data a (k + 1) v a).toNat = v % 256 := by
      rw [writeLe, if_pos (by omega), Nat.sub_self, Nat.pow_zero, Nat.div_one, UInt8.toNat_ofNat']
    rw [readLe, hrest, hfirst, ih (Nat.div_lt_of_lt_mul (by rwa [Nat.pow_succ'] at hv))]
    omega

theorem readLe_writeLe_of_apart (h : a + k ≤ b ∨ b + m ≤ a) : readLe (writeLe data a k v) b m = readLe data b m :=
  readLe_congr fun i hi him => if_neg (by omega)

theorem readLe_writeLes {f : Nat → Nat} (hm : m < n) (hf : f m < 256 ^ k) :
    readLe (writeLes data a k n f) (a + k * m) k = f m := by
  have hone : readLe (writeLe data (a + k * m) k (f m)) (a + k * m) k = f m := readLe_writeLe hf
  rw [← hone]
  refine readLe_congr fun i hi hik => ?_
  obtain ⟨j, rfl⟩ := Nat.exists_eq_add_of_le hi
  have hj : j < k := by omega
  have hin : k * m + k ≤ k * n := by
    rw [← Nat.mul_succ]
    exact Nat.mul_le_mul_left k hm
  have hsub : a + k * m + j - a = k * m + j := by omega
  have hdiv : (k * m + j) / k = m := by
    rw [Nat.mul_add_div (by omega), Nat.div_eq_of_lt hj, Nat.add_zero]
  have hmod : (k * m + j) % k = j := by
    rw [Nat.mul_add_mod, Nat.mod_eq_of_lt hj]
  rw [writeLes, writeLe, if_pos (by omega), if_pos (by omega), hsub, hdiv, hmod, Nat.add_sub_cancel_left]

theorem readLe_writeLes_of_apart {f : Nat → Nat} (h : a + k * n ≤ b ∨ b + m ≤ a) :
    readLe (writeLes data a k n f) b m = readLe data b m :=
  readLe_congr fun i hi him => if_neg (by omega)

/-! ### Bits -/

def mask (n : Nat) : UInt8 := 1 <<< UInt8.ofNat (n % 8)

def readBit (data : Nat → UInt8) (n : Nat) : Bool := data (n / 8) &&& mask n != 0

def setBit (data : Nat → UInt8) (n : Nat) : Nat → UInt8 := Function.update data (n / 8) (data (n / 8) ||| mask n)

def clearBit (data : Nat → UInt8) (n : Nat) : Nat → UInt8 := Function.update data (n / 8) (data (n / 8) &&& ~~~ mask n)

theorem mask_toNat : ∀ i < 8, (mask i).toNat = 2 ^ i := by decide

theorem not_mask_testBit : ∀ i < 8, ∀ j < 8, (~~~ mask i).toNat.testBit j = !decide (i = j) := by decide

theorem and_mask (c : UInt8) {i : Nat} (hi : i < 8) : (c &&& mask i != 0) = c.toNat.testBit i := by
  have hand : (c &&& mask i).toNat = (c.toNat.testBit i).toNat * 2 ^ i := by
    rw [UInt8.toNat_and, mask_toNat i hi, Nat.and_two_pow]
  rw [Bool.eq_iff_iff, bne_iff_ne, ne_eq, ← UInt8.toNat_inj, hand]
  cases c.toNat.testBit i <;> simp

theorem and_mask_or (c : UInt8) {i j : Nat} (hi : i < 8) (hj : j < 8) :
    ((c ||| mask i) &&& mask j != 0) = (decide (i = j) || (c &&& mask j != 0)) := by
  rw [and_mask _ hj, and_mask _ hj, UInt8.toNat_or, Nat.testBit_or, mask_toNat i hi, Nat.testBit_two_pow, Bool.or_comm]

theorem and_mask_and_not (c : UInt8) {i j : Nat} (hi : i < 8) (hj : j < 8) :
    ((c &&& ~~~ mask i) &&& mask j != 0) = (!decide (i = j) && (c &&& mask j != 0)) := by
  rw [and_mask _ hj, and_mask _ hj, UInt8.toNat_and, Nat.testBit_and, not_mask_testBit i hi j hj, Bool.and_comm]

theorem mask_mod (n : Nat) : mask (n % 8) = mask n := by
  rw [mask, mask, Nat.mod_mod]

theorem readBit_setBit (data : Nat → UInt8) (n m : Nat) : readBit (setBit data n) m = (decide (n = m) || readBit data m) := by
  have hbits := and_mask_or (data (n / 8)) (Nat.mod_lt n (by decide : 8 > 0)) (Nat.mod_lt m (by decide : 8 > 0))
  rw [mask_mod, mask_mod] at hbits
  by_cases hbyte : n / 8 = m / 8
  · have hsame : decide (n % 8 = m % 8) = decide (n = m) := by
      rw [decide_eq_decide]
      omega
    rw [readBit, readBit, setBit, ← hbyte, Function.update_self, hbits, hsame]
  · have hne : n ≠ m := fun heq => hbyte (heq ▸ rfl)
    rw [readBit, readBit, setBit, Function.update_of_ne (Ne.symm hbyte), decide_eq_false hne, Bool.false_or]

theorem readBit_clearBit (data : Nat → UInt8) (n m : Nat) :
    readBit (clearBit data n) m = (!decide (n = m) && readBit data m) := by
  have hbits := and_mask_and_not (data (n / 8)) (Nat.mod_lt n (by decide : 8 > 0)) (Nat.mod_lt m (by decide : 8 > 0))
  rw [mask_mod, mask_mod] at hbits
  by_cases hbyte : n / 8 = m / 8
  · have hsame : decide (n % 8 = m % 8) = decide (n = m) := by
      rw [decide_eq_decide]
      omega
    rw [readBit, readBit, clearBit, ← hbyte, Function.update_self, hbits, hsame]
  · have hne : n ≠ m := fun heq => hbyte (heq ▸ rfl)
    rw [readBit, readBit, clearBit, Function.update_of_ne (Ne.symm hbyte), decide_eq_false hne, Bool.not_false,
      Bool.true_and]

end CompilingToAssembly.Library
