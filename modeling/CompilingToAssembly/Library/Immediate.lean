import CompilingToAssembly.Library.Arm64

/-! The immediates of `mov`.

An AArch64 instruction has 32 bits, and a `mov` of an immediate into a 64-bit register
is one of three: a 16-bit value moved into place (`movz`), the complement of one
(`movn`), or a bitmask (`orr` with the zero register), in which every element of
2, 4, 8, 16, 32 or 64 bits holds the same run of ones, rotated. -/
namespace CompilingToAssembly.Library.Arm64

/-- A 16-bit value shifted left by 0, 16, 32 or 48. -/
def isWide (v : Nat) : Bool := [0, 16, 32, 48].any fun shift => v == v / 2 ^ shift % 65536 * 2 ^ shift

/-- Every element of `size` bits holds `ones` set bits, rotated left by `rotation`. -/
def bitmask (size ones rotation : Nat) : Nat :=
  let run := (2 ^ ones - 1) * 2 ^ rotation
  (run % 2 ^ size + run / 2 ^ size) * ((2 ^ 64 - 1) / (2 ^ size - 1))

/-- Some set bits and some clear ones in each element. -/
def isBitmask (v : Nat) : Bool :=
  [2, 4, 8, 16, 32, 64].any fun size => (List.range size).any fun ones =>
    ones != 0 && (List.range size).any fun rotation => v == bitmask size ones rotation

/-- One `mov` can load the value into a 64-bit register. -/
def isMovable (v : Nat) : Bool :=
  decide (v < 2 ^ 64) && (isWide v || isWide (2 ^ 64 - 1 - v) || isBitmask v)

theorem isMovable_of_lt {v : Nat} (h : v < 65536) : isMovable v = true := by
  have hwide : isWide v = true := by
    simp [isWide, Nat.mod_eq_of_lt h]
  have hlt : v < 2 ^ 64 := Nat.lt_trans h (by decide)
  simp only [isMovable, decide_eq_true hlt, hwide, Bool.true_or, Bool.and_self]

/-- The alternating bits are a bitmask, and the complement of a byte is one of a wide value. -/
example : isMovable 0xaaaaaaaaaaaaaaaa = true ∧ isMovable 0xffffffffffffff00 = true := by decide +kernel

end CompilingToAssembly.Library.Arm64
