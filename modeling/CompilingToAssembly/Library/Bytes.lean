import Mathlib.Data.Nat.Digits.Defs
import Mathlib.Data.List.Induction

/-! Byte strings: the bytes of ASCII texts, ranges of them, the pieces between
separators, and decimal numerals. -/
namespace CompilingToAssembly.Library

def byte (c : Char) : UInt8 := c.toUInt8

/-- The bytes of an ASCII text. -/
def ascii (text : String) : List UInt8 := text.toList.map byte

/-- `lo...hi` as a range of bytes. -/
def between (lo hi : Char) (c : UInt8) : Bool := byte lo ≤ c && c ≤ byte hi

/-- A statement about bytes holds when it holds of each of the 256. -/
theorem forall_byte {P : UInt8 → Prop} (h : ∀ n, n < 256 → P (UInt8.ofNat n)) (c : UInt8) : P c := by
  have := h c.toNat c.toNat_lt
  simpa using this

/-! ### Pieces between separators -/

/-- The maximal runs of bytes that are not separators, `run` having been read of the
first. -/
def piecesFrom (sep : UInt8 → Bool) : List UInt8 → List UInt8 → List (List UInt8)
  | run, [] => if run.isEmpty then [] else [run]
  | run, c :: cs =>
    if sep c then (if run.isEmpty then piecesFrom sep [] cs else run :: piecesFrom sep [] cs)
    else piecesFrom sep (run ++ [c]) cs

def pieces (sep : UInt8 → Bool) (text : List UInt8) : List (List UInt8) := piecesFrom sep [] text

section
variable {sep : UInt8 → Bool} {w : List UInt8}

theorem piecesFrom_run (h : ∀ b ∈ w, sep b = false) (run rest : List UInt8) :
    piecesFrom sep run (w ++ rest) = piecesFrom sep (run ++ w) rest := by
  induction w generalizing run with
  | nil => simp
  | cons c w ih =>
    rw [List.cons_append, piecesFrom, h c (List.mem_cons_self ..)]
    simp only [Bool.false_eq_true, if_false]
    rw [ih (fun b hb => h b (List.mem_cons_of_mem _ hb)), List.append_assoc]
    rfl

/-- A piece and the separator that ends it. -/
theorem pieces_cons (h : ∀ b ∈ w, sep b = false) (hne : w ≠ []) {c : UInt8} (hc : sep c = true)
    (rest : List UInt8) : pieces sep (w ++ c :: rest) = w :: pieces sep rest := by
  unfold pieces
  rw [piecesFrom_run h, List.nil_append, piecesFrom, if_pos hc, if_neg (by simpa using hne)]

/-- The last piece. -/
theorem piecesFrom_last (h : ∀ b ∈ w, sep b = false) (run : List UInt8) (hne : run ++ w ≠ []) :
    piecesFrom sep run w = [run ++ w] := by
  have := piecesFrom_run h run []
  rw [List.append_nil] at this
  rw [this, piecesFrom, if_neg (by simpa using hne)]

end

/-! ### Decimal numerals -/

def isDigit (c : UInt8) : Bool := between '0' '9' c

def digitValue (c : UInt8) : Nat := c.toNat - (byte '0').toNat

/-- The value of a string of decimal digits, the most significant first. -/
def decimal (digits : List UInt8) : Nat := digits.foldl (fun n d => 10 * n + digitValue d) 0

theorem decimal_eq_ofDigits (digits : List UInt8) :
    decimal digits = Nat.ofDigits 10 (digits.map digitValue).reverse := by
  unfold decimal
  induction digits using List.reverseRecOn with
  | nil => rfl
  | append_singleton ds d ih =>
    rw [List.foldl_append, List.map_append, List.reverse_append]
    simp only [List.foldl_cons, List.foldl_nil, List.map_cons, List.map_nil, List.reverse_cons,
      List.reverse_nil, List.nil_append, List.cons_append, Nat.ofDigits_cons]
    rw [ih]
    omega

theorem digitValue_lt (c : UInt8) (h : isDigit c = true) : digitValue c < 10 :=
  forall_byte (P := fun c => isDigit c = true → digitValue c < 10) (by decide +kernel) c h

theorem digitValue_inj (c d : UInt8) (hc : isDigit c = true) (hd : isDigit d = true)
    (h : digitValue c = digitValue d) : c = d := by
  simp only [isDigit, between, Bool.and_eq_true, decide_eq_true_eq, UInt8.le_iff_toNat_le] at hc hd
  unfold digitValue at h
  exact UInt8.toNat_inj.mp (by omega)

/-- A digit string with no leading zero is determined by its value. -/
theorem decimal_inj {a b : List UInt8} (ha : ∀ c ∈ a, isDigit c = true)
    (hb : ∀ c ∈ b, isDigit c = true) (ha0 : ∀ c ∈ a.head?, digitValue c ≠ 0)
    (hb0 : ∀ c ∈ b.head?, digitValue c ≠ 0) (h : decimal a = decimal b) : a = b := by
  have hdigits : ∀ l : List UInt8, (∀ c ∈ l, isDigit c = true) → (∀ c ∈ l.head?, digitValue c ≠ 0) →
      Nat.digits 10 (decimal l) = (l.map digitValue).reverse := by
    intro l hl hl0
    rw [decimal_eq_ofDigits]
    apply Nat.digits_ofDigits 10 (by decide)
    · intro v hv
      obtain ⟨c, hc, rfl⟩ := List.mem_map.mp (List.mem_reverse.mp hv)
      exact digitValue_lt c (hl c hc)
    · intro hne
      cases l with
      | nil => exact absurd rfl hne
      | cons c cs =>
        rw [List.getLast_reverse]
        exact hl0 c rfl
  have hmap : a.map digitValue = b.map digitValue := by
    apply List.reverse_inj.mp
    rw [← hdigits a ha ha0, ← hdigits b hb hb0, h]
  clear h ha0 hb0 hdigits
  induction a generalizing b with
  | nil => simpa using hmap.symm
  | cons c cs ih =>
    cases b with
    | nil => simp at hmap
    | cons d ds =>
      simp only [List.map_cons, List.cons.injEq] at hmap
      have hcd := digitValue_inj c d (ha c (List.mem_cons_self ..)) (hb d (List.mem_cons_self ..)) hmap.1
      rw [hcd, ih (fun x hx => ha x (List.mem_cons_of_mem _ hx))
        (fun x hx => hb x (List.mem_cons_of_mem _ hx)) hmap.2]

/-- The digits of a number in decimal notation, without leading zeros. -/
def canonical (n : Nat) : List UInt8 := (Nat.toDigits 10 n).map byte

theorem canonical_of_lt {n : Nat} (h : n < 10) : canonical n = [byte n.digitChar] := by
  rw [canonical, Nat.toDigits_of_lt_base h]
  rfl

theorem canonical_of_ge {n : Nat} (h : 10 ≤ n) :
    canonical n = canonical (n / 10) ++ [byte (n % 10).digitChar] := by
  have hmod : n % 10 < 10 := Nat.mod_lt n (by decide)
  have hdigits : Nat.toDigits 10 (n / 10) ++ Nat.toDigits 10 (n % 10) = Nat.toDigits 10 (10 * (n / 10) + n % 10) :=
    Nat.toDigits_append_toDigits (by decide) (by omega) hmod
  rw [← canonical_of_lt hmod, canonical, canonical, canonical, ← List.map_append, hdigits, Nat.div_add_mod]

end CompilingToAssembly.Library
