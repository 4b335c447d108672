import CompilingToAssembly.Library.Bytes

/-! A fragment of ARM64: moves, arithmetic, the stack pair instructions and `ret`.

Registers are 64 bits wide and memory is made of bytes, with no alignment or access
faults. `exec` runs straight-line code up to its `ret`. The second half is the
notation an assembler reads: `decode` takes a text apart into instructions, a line
at a time. -/
namespace CompilingToAssembly.Library.Arm64

/-- `x0` to `x30`. -/
abbrev Reg := Fin 31

instance neZeroReg : NeZero 31 := ⟨by decide⟩

abbrev Word := BitVec 64

abbrev Memory := Word → BitVec 8

structure State where
  x : Reg → Word
  sp : Word
  mem : Memory

inductive Arith where
  | add | sub | mul | sdiv
deriving DecidableEq, Repr

inductive Instr where
  | movImm (d : Reg) (imm : Int)
  | mov (d n : Reg)
  | arith (op : Arith) (d n m : Reg)
  | stpPre (t₁ t₂ : Reg) (offset : Int)
  | ldpPost (t₁ t₂ : Reg) (offset : Int)
  | ret
deriving DecidableEq, Repr

/-! ### Memory -/

/-- Byte `i` of a word, the least significant first. -/
def byteOf (v : Word) (i : Nat) : BitVec 8 := BitVec.ofNat 8 (v.toNat / 256 ^ i)

def store (m : Memory) (a : Word) (v : Word) : Memory :=
  fun b => if (b - a).toNat < 8 then byteOf v (b - a).toNat else m b

def load (m : Memory) (a : Word) : Word :=
  BitVec.ofNat 64 (Nat.ofDigits 256 ((List.range 8).map fun i => (m (a + BitVec.ofNat 64 i)).toNat))

theorem load_store (m : Memory) (a v : Word) : load (store m a v) a = v := by
  have hbyte (i : Nat) (hi : i < 8) :
      (store m a v (a + BitVec.ofNat 64 i)).toNat = v.toNat / 256 ^ i % 256 := by
    have hsub : (a + BitVec.ofNat 64 i - a).toNat = i := by
      rw [BitVec.add_comm, BitVec.add_sub_cancel, BitVec.toNat_ofNat]
      omega
    simp only [store, hsub, hi, if_true, byteOf, BitVec.toNat_ofNat]
  have hdigits : (List.range 8).map (fun i => (store m a v (a + BitVec.ofNat 64 i)).toNat) =
      (List.range 8).map fun i => v.toNat / 256 ^ i % 256 := by
    apply List.map_congr_left
    intro i hi
    exact hbyte i (List.mem_range.mp hi)
  have hv := v.isLt
  unfold load
  rw [hdigits]
  apply BitVec.eq_of_toNat_eq
  rw [BitVec.toNat_ofNat]
  simp only [List.range, List.range.loop, List.map_cons, List.map_nil, Nat.ofDigits_cons, Nat.ofDigits_nil]
  omega

/-- A store leaves a load from elsewhere alone. -/
theorem load_store_of_apart {m : Memory} {a b : Word} (v : Word)
    (h : ∀ i, i < 8 → 8 ≤ (b + BitVec.ofNat 64 i - a).toNat) : load (store m a v) b = load m b := by
  have hdigits : (List.range 8).map (fun i => (store m a v (b + BitVec.ofNat 64 i)).toNat) =
      (List.range 8).map fun i => (m (b + BitVec.ofNat 64 i)).toNat := by
    apply List.map_congr_left
    intro i hi
    have := h i (List.mem_range.mp hi)
    rw [store, if_neg (by omega)]
  unfold load
  rw [hdigits]

/-! ### Instructions -/

def State.set (s : State) (d : Reg) (v : Word) : State :=
  { s with x := fun r => if r = d then v else s.x r }

@[simp] theorem set_x (s : State) (d : Reg) (v : Word) (r : Reg) :
    (s.set d v).x r = if r = d then v else s.x r := rfl
@[simp] theorem set_sp (s : State) (d : Reg) (v : Word) : (s.set d v).sp = s.sp := rfl
@[simp] theorem set_mem (s : State) (d : Reg) (v : Word) : (s.set d v).mem = s.mem := rfl

/-- Division by zero gives zero. -/
def Arith.eval : Arith → Word → Word → Word
  | .add, a, b => a + b
  | .sub, a, b => a - b
  | .mul, a, b => a * b
  | .sdiv, a, b => a.sdiv b

/-- What an instruction other than `ret` does. -/
def Instr.step : Instr → State → State
  | .movImm d imm, s => s.set d (BitVec.ofInt 64 imm)
  | .mov d n, s => s.set d (s.x n)
  | .arith op d n m, s => s.set d (op.eval (s.x n) (s.x m))
  | .stpPre t₁ t₂ offset, s =>
    let a := s.sp + BitVec.ofInt 64 offset
    { s with sp := a, mem := store (store s.mem a (s.x t₁)) (a + 8) (s.x t₂) }
  | .ldpPost t₁ t₂ offset, s =>
    { (s.set t₁ (load s.mem s.sp)).set t₂ (load s.mem (s.sp + 8)) with
      sp := s.sp + BitVec.ofInt 64 offset }
  | .ret, s => s

/-- Straight-line code. -/
def run (code : List Instr) (s : State) : State := code.foldl (fun s i => i.step s) s

@[simp] theorem run_nil (s : State) : run [] s = s := rfl
@[simp] theorem run_cons (i : Instr) (code : List Instr) (s : State) :
    run (i :: code) s = run code (i.step s) := rfl

theorem run_append (code code' : List Instr) (s : State) :
    run (code ++ code') s = run code' (run code s) := List.foldl_append ..

/-- Code up to its first `ret`: the state then and the address it returns to. Code
that runs on past its end has no result. -/
def exec : List Instr → State → Option (State × Word)
  | [], _ => none
  | .ret :: _, s => some (s, s.x 30)
  | i :: code, s => exec code (i.step s)

theorem exec_cons {i : Instr} (h : i ≠ .ret) (code : List Instr) (s : State) :
    exec (i :: code) s = exec code (i.step s) := by
  cases i with
  | ret => exact absurd rfl h
  | _ => rfl

theorem exec_append {code : List Instr} (h : .ret ∉ code) (code' : List Instr) (s : State) :
    exec (code ++ code') s = exec code' (run code s) := by
  induction code generalizing s with
  | nil => rfl
  | cons i code ih =>
    have hi : i ≠ .ret := fun he => h (he ▸ List.mem_cons_self ..)
    rw [List.cons_append, exec_cons hi, ih (fun hmem => h (List.mem_cons_of_mem _ hmem))]
    rfl

/-! ### Frames -/

/-- Code that writes only `x0` to `x28`, and neither the stack pointer nor memory. -/
def Instr.isLocal : Instr → Bool
  | .movImm d _ => d < 29
  | .mov d _ => d < 29
  | .arith _ d _ _ => d < 29
  | _ => false

/-- The stack pointer and memory are as they were. -/
theorem run_local {code : List Instr} (h : ∀ i ∈ code, i.isLocal = true) (s : State) :
    (run code s).sp = s.sp ∧ (run code s).mem = s.mem := by
  induction code generalizing s with
  | nil => exact ⟨rfl, rfl⟩
  | cons i code ih =>
    obtain ⟨hsp, hmem⟩ := ih (fun j hj => h j (List.mem_cons_of_mem _ hj)) (i.step s)
    rw [run_cons, hsp, hmem]
    have hi := h i (List.mem_cons_self ..)
    cases i with
    | stpPre => cases hi
    | ldpPost => cases hi
    | _ => exact ⟨rfl, rfl⟩

/-- The register that local code writes. -/
def Instr.writes : Instr → Reg → Bool
  | .movImm d _, r => d == r
  | .mov d _, r => d == r
  | .arith _ d _ _, r => d == r
  | _, _ => false

/-- A register that no instruction writes is as it was. -/
theorem run_unwritten {code : List Instr} {r : Reg} (h : ∀ i ∈ code, i.isLocal = true ∧ i.writes r = false)
    (s : State) : (run code s).x r = s.x r := by
  induction code generalizing s with
  | nil => rfl
  | cons i code ih =>
    rw [run_cons, ih (fun j hj => h j (List.mem_cons_of_mem _ hj))]
    obtain ⟨hlocal, hwrites⟩ := h i (List.mem_cons_self ..)
    cases i with
    | movImm d imm => exact if_neg (Ne.symm (by simpa [Instr.writes] using hwrites))
    | mov d n => exact if_neg (Ne.symm (by simpa [Instr.writes] using hwrites))
    | arith op d n m => exact if_neg (Ne.symm (by simpa [Instr.writes] using hwrites))
    | _ => cases hlocal

theorem not_ret_of_local {code : List Instr} (h : ∀ i ∈ code, i.isLocal = true) : .ret ∉ code :=
  fun hmem => (nomatch h _ hmem)

/-- The two words of a frame record do not overlap. -/
theorem load_record (m : Memory) (a v w : Word) :
    load (store (store m a v) (a + 8) w) a = v ∧ load (store (store m a v) (a + 8) w) (a + 8) = w := by
  refine ⟨?_, load_store ..⟩
  rw [load_store_of_apart, load_store]
  intro i hi
  have hsub : a + BitVec.ofNat 64 i - (a + 8) = BitVec.ofNat 64 i - 8 := by bv_omega
  rw [hsub, BitVec.toNat_sub, BitVec.toNat_ofNat]
  have : (8 : Word).toNat = 8 := rfl
  omega

/-- Saving the frame record writes the 16 bytes below the stack pointer. -/
theorem stp_mem (s : State) {b : Word} (h : 16 ≤ (b - (s.sp - 16)).toNat) :
    ((Instr.stpPre 29 30 (-16)).step s).mem b = s.mem b := by
  have hoffset : s.sp + BitVec.ofInt 64 (-16) = s.sp - 16 := by
    rw [BitVec.sub_eq_add_neg]
    rfl
  show store (store s.mem (s.sp + BitVec.ofInt 64 (-16)) (s.x 29)) (s.sp + BitVec.ofInt 64 (-16) + 8) (s.x 30) b = _
  rw [hoffset]
  generalize s.sp - 16 = a at h
  rw [store, if_neg (by bv_omega), store, if_neg (by bv_omega)]

/-- A function that saves its frame record, runs `code` and returns: it comes back to
its caller with the frame as it was, what `code` left in the other registers, and
memory as it was but for the record. -/
theorem exec_frame {code : List Instr} (h : ∀ i ∈ code, i.isLocal = true) (s : State) :
    ∃ s', exec (.stpPre 29 30 (-16) :: (code ++ [.ldpPost 29 30 16, .ret])) s = some (s', s.x 30) ∧
      s'.sp = s.sp ∧ s'.x 29 = s.x 29 ∧ s'.x 30 = s.x 30 ∧
      (∀ r, r ≠ 29 → r ≠ 30 → s'.x r = (run code ((Instr.stpPre 29 30 (-16)).step s)).x r) ∧
      ∀ b, 16 ≤ (b - (s.sp - 16)).toNat → s'.mem b = s.mem b := by
  obtain ⟨hsp, hmem⟩ := run_local h ((Instr.stpPre 29 30 (-16)).step s)
  rw [exec_cons (by decide), exec_append (not_ret_of_local h), exec_cons (by decide)]
  generalize run code ((Instr.stpPre 29 30 (-16)).step s) = body at hsp hmem
  obtain ⟨hfp, hlr⟩ := load_record s.mem (s.sp + BitVec.ofInt 64 (-16)) (s.x 29) (s.x 30)
  have hfp' : load body.mem body.sp = s.x 29 := by
    rw [hsp, hmem]
    exact hfp
  have hlr' : load body.mem (body.sp + 8) = s.x 30 := by
    rw [hsp, hmem]
    exact hlr
  have hregs (r : Reg) : ((Instr.ldpPost 29 30 16).step body).x r =
      if r = 30 then load body.mem (body.sp + 8)
      else if r = 29 then load body.mem body.sp else body.x r := rfl
  have hx30 : ((Instr.ldpPost 29 30 16).step body).x 30 = s.x 30 := by
    rw [hregs, if_pos rfl, hlr']
  refine ⟨(Instr.ldpPost 29 30 16).step body, ?_, ?_, ?_, hx30, ?_, ?_⟩
  · show some (_, ((Instr.ldpPost 29 30 16).step body).x 30) = _
    rw [hx30]
  · show body.sp + BitVec.ofInt 64 16 = s.sp
    rw [hsp]
    show s.sp + BitVec.ofInt 64 (-16) + BitVec.ofInt 64 16 = s.sp
    rw [BitVec.add_assoc]
    exact BitVec.add_zero _
  · rw [hregs, if_neg (by decide), if_pos rfl, hfp']
  · intro r h29 h30
    rw [hregs, if_neg h30, if_neg h29]
  · intro b hb
    rw [← stp_mem s hb, ← hmem]
    rfl

/-! ### Notation -/

/-- What stands between the words of a line. -/
def isSpacing (c : UInt8) : Bool := c == byte ' ' || c == byte '\t' || c == byte ','

def isNewline (c : UInt8) : Bool := c == byte '\n'

def numeral (digits : List UInt8) : Option Nat :=
  if digits.isEmpty || !digits.all isDigit then none else some (decimal digits)

def register : List UInt8 → Option Reg
  | c :: digits =>
    match numeral digits with
    | some n => if h : c == byte 'x' ∧ n < 31 then some ⟨n, h.2⟩ else none
    | none => none
  | [] => none

def immediate : List UInt8 → Option Int
  | c :: digits =>
    if c == byte '#' then
      match digits with
      | d :: digits' =>
        if d == byte '-' then (numeral digits').map fun n => -(n : Int)
        else (numeral digits).map fun n => (n : Int)
      | [] => none
    else none
  | [] => none

def Arith.ofName (name : List UInt8) : Option Arith :=
  if name == ascii "add" then some .add
  else if name == ascii "sub" then some .sub
  else if name == ascii "mul" then some .mul
  else if name == ascii "sdiv" then some .sdiv
  else none

/-- The instruction that the words of a line make up. -/
def decodeWords : List (List UInt8) → Option Instr
  | [name] => if name == ascii "ret" then some .ret else none
  | [name, d, n] =>
    if name == ascii "mov" then
      match register d, register n, immediate n with
      | some d, some n, _ => some (.mov d n)
      | some d, none, some imm => some (.movImm d imm)
      | _, _, _ => none
    else none
  | [name, d, n, m] =>
    match Arith.ofName name, register d, register n, register m with
    | some op, some d, some n, some m => some (.arith op d n m)
    | _, _, _, _ => none
  | [name, t₁, t₂, base, offset] =>
    match register t₁, register t₂ with
    | some t₁, some t₂ =>
      if name == ascii "stp" && base == ascii "[sp" && offset.drop (offset.length - 2) == ascii "]!" then
        (immediate (offset.take (offset.length - 2))).map (.stpPre t₁ t₂)
      else if name == ascii "ldp" && base == ascii "[sp]" then
        (immediate offset).map (.ldpPost t₁ t₂)
      else none
    | _, _ => none
  | _ => none

def decodeLine (line : List UInt8) : Option Instr := decodeWords (pieces isSpacing line)

def decodeLines : List (List UInt8) → Option (List Instr)
  | [] => some []
  | line :: lines =>
    match decodeLine line, decodeLines lines with
    | some i, some code => some (i :: code)
    | _, _ => none

/-- A text that is nothing but instructions. -/
def decode (text : List UInt8) : Option (List Instr) := decodeLines (pieces isNewline text)

/-- The code behind a label, up to the end of the text. -/
def codeAt (label text : List UInt8) : Option (List Instr) :=
  match (pieces isNewline text).dropWhile (· != label ++ ascii ":") with
  | [] => none
  | _ :: lines => decodeLines lines

theorem decodeLines_append {lines lines' : List (List UInt8)} {code code' : List Instr}
    (h : decodeLines lines = some code) (h' : decodeLines lines' = some code') :
    decodeLines (lines ++ lines') = some (code ++ code') := by
  induction lines generalizing code with
  | nil => cases h; exact h'
  | cons line lines ih =>
    simp only [decodeLines] at h
    split at h
    · rename_i i code₁ hline hlines
      cases h
      rw [List.cons_append, decodeLines, hline, ih hlines]
      rfl
    · cases h

end CompilingToAssembly.Library.Arm64
