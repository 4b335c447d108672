import CompilingToAssembly.Xv6.Fs
import Mathlib.Data.List.Perm.Subperm
import Mathlib.Logic.Relation

/-! What the operations of `fs.c` do to the log.

They change the disk by `log_write` only, which stops the kernel when the log is full. How full
it can get is a matter of how many different blocks an operation writes. -/
namespace CompilingToAssembly.Xv6.Fs
open Library

/-- The disk after a `log_write` that returns. -/
def Disk.note (d : Disk) (b : Nat) (data : Block) : Disk :=
  { d with block := Function.update d.block b data, logged := Log.absorb d.logged b }

/-- From one disk to the other by calls of `log_write`, for blocks of `bs` and none of the log's own. -/
def Logs (sb : Superblock) (bs : List Nat) : Disk → Disk → Prop :=
  Relation.ReflTransGen fun d d' => ∃ b ∈ bs, Log.Home sb.toSuperblock b ∧ ∃ data, d.logWrite sb b data = .ok d'

/-- After such calls another one stops the kernel. -/
def Refuses (sb : Superblock) (bs : List Nat) (d : Disk) (m : String) : Prop :=
  ∃ d' b data, Logs sb bs d d' ∧ b ∈ bs ∧ Log.Home sb.toSuperblock b ∧ d'.logWrite sb b data = .error m

variable {sb : Superblock} {d d' d'' : Disk} {bs cs : List Nat} {b : Nat} {m : String}

theorem logWrite_eq_ok {data : Block} (h : d.logWrite sb b data = .ok d') :
    d' = d.note b data ∧ d.logged.length < sb.full ∧ 0 < d.outstanding := by
  obtain ⟨lh, hlh, rfl⟩ := map_ok h
  obtain ⟨rfl, hroom⟩ := (Log.logWrite_ends sb.toSuperblock d.outstanding d.logged b).of_ok hlh
  exact ⟨rfl, hroom⟩

theorem Logs.refl (sb : Superblock) (bs : List Nat) (d : Disk) : Logs sb bs d d := Relation.ReflTransGen.refl

theorem Logs.trans (h : Logs sb bs d d') (h' : Logs sb bs d' d'') : Logs sb bs d d'' := Relation.ReflTransGen.trans h h'

theorem Logs.mono (h : Logs sb bs d d') (hsub : bs ⊆ cs) : Logs sb cs d d' :=
  Relation.ReflTransGen.mono (fun _ _ ⟨b, hb, hrest⟩ => ⟨b, hsub hb, hrest⟩) _ _ h

theorem Refuses.mono (h : Refuses sb bs d m) (hsub : bs ⊆ cs) : Refuses sb cs d m := by
  obtain ⟨d', b, data, hlogs, hb, hrest⟩ := h
  exact ⟨d', b, data, hlogs.mono hsub, hsub hb, hrest⟩

theorem Refuses.after (h : Refuses sb bs d' m) (hlogs : Logs sb bs d d') : Refuses sb bs d m := by
  obtain ⟨d'', b, data, hlogs', hrest⟩ := h
  exact ⟨d'', b, data, hlogs.trans hlogs', hrest⟩

theorem logWrite_logs (d : Disk) (hb : b ∈ bs) (hhome : Log.Home sb.toSuperblock b) (data : Block) :
    Ends (fun d' => d' = d.note b data ∧ Logs sb bs d d') (Refuses sb bs d) (d.logWrite sb b data) := by
  cases hwrite : d.logWrite sb b data with
  | error m => exact .error ⟨d, b, data, .refl sb bs d, hb, hhome, hwrite⟩
  | ok d' => exact .ok ⟨(logWrite_eq_ok hwrite).1, .single ⟨b, hb, hhome, data, hwrite⟩⟩

/-- What has come to the log. -/
theorem Logs.logged (h : Logs sb bs d d') :
    d'.outstanding = d.outstanding ∧ ∃ new, d'.logged = d.logged ++ new ∧ new.Nodup ∧ new ⊆ bs := by
  induction h with
  | refl => exact ⟨rfl, [], (List.append_nil _).symm, List.nodup_nil, List.nil_subset _⟩
  | tail _ hlast ih =>
    obtain ⟨hout, new, hnew, hnodup, hsub⟩ := ih
    obtain ⟨b, hb, _, data, hwrite⟩ := hlast
    obtain ⟨rfl, _⟩ := logWrite_eq_ok hwrite
    refine ⟨hout, ?_⟩
    rw [Disk.note, hnew]
    by_cases hin : b ∈ d.logged ++ new
    · exact ⟨new, Log.absorb_of_mem hin, hnodup, hsub⟩
    · have hfresh : b ∉ new := fun h => hin (List.mem_append_right _ h)
      refine ⟨new ++ [b], ?_, hnodup.append (List.nodup_singleton b) (by simpa using hfresh), ?_⟩
      · rw [Log.absorb_of_notMem hin, List.append_assoc]
      · exact List.append_subset.mpr ⟨hsub, by simpa using hb⟩

theorem Logs.length_le (h : Logs sb bs d d') (hsub : bs ⊆ cs) : d'.logged.length ≤ d.logged.length + cs.length := by
  obtain ⟨_, new, hnew, hnodup, hin⟩ := h.logged
  have hle := (List.subperm_of_subset hnodup (List.Subset.trans hin hsub)).length_le
  rw [hnew, List.length_append]
  omega

/-- Outside of a system call nothing comes to the log. -/
theorem Logs.idle (h : Logs sb bs d d') (hidle : d.outstanding = 0 → d.logged = []) (hout : d'.outstanding = 0) :
    d'.logged = [] := by
  induction h with
  | refl => exact hidle hout
  | tail _ hlast ih =>
    obtain ⟨b, _, _, data, hwrite⟩ := hlast
    obtain ⟨rfl, _, hpos⟩ := logWrite_eq_ok hwrite
    exact absurd hout hpos.ne'

/-- Why `log_write` stops the kernel. -/
theorem Refuses.cause (h : Refuses sb bs d m) (hsub : bs ⊆ cs) :
    (m = "too big a transaction" ∧ sb.full ≤ d.logged.length + cs.length) ∨
      (m = "log_write outside of trans" ∧ d.outstanding = 0) := by
  obtain ⟨d', b, data, hlogs, _, _, hwrite⟩ := h
  have hlength := hlogs.length_le hsub
  have hout := hlogs.logged.1
  have hends := (Log.logWrite_ends sb.toSuperblock d'.outstanding d'.logged b).map (Q := fun _ : Disk => True)
    (f := fun lh => { d' with block := Function.update d'.block b data, logged := lh }) (fun _ he => he) fun _ _ => trivial
  rcases hends.of_error hwrite with ⟨rfl, hfull⟩ | ⟨rfl, hzero⟩
  · exact .inl ⟨rfl, by omega⟩
  · exact .inr ⟨rfl, hout ▸ hzero⟩

/-! ### Which blocks -/

/-- The blocks of the bit map. -/
def bitmap (sb : Superblock) : List Nat := (List.range (sb.size / 4096 + 1)).map (· + sb.bmapstart)

theorem mem_bitmap (h : b < sb.size) : bblock sb b ∈ bitmap sb := by
  refine List.mem_map.mpr ⟨b / 4096, List.mem_range.mpr ?_, rfl⟩
  omega

theorem length_bitmap (sb : Superblock) : (bitmap sb).length = sb.size / 4096 + 1 := by
  rw [bitmap, List.length_map, List.length_range]

/-- The blocks from the inodes on are none of the log's. -/
theorem home_of_ge (hge : sb.inodestart ≤ b) (hlt : b < sb.size) : Log.Home sb.toSuperblock b :=
  ⟨hlt, .inr (sb.log_below.trans hge)⟩

/-- At most `n` blocks, all of the bit map. -/
structure Bits (sb : Superblock) (n : Nat) (bits : List Nat) : Prop where
  le : bits.length ≤ n
  mem : bits ⊆ bitmap sb

theorem Bits.nil (sb : Superblock) (n : Nat) : Bits sb n [] := ⟨Nat.zero_le n, List.nil_subset _⟩

theorem Bits.one (h : b < sb.size) : Bits sb 1 [bblock sb b] := ⟨le_rfl, by simpa using mem_bitmap h⟩

theorem Bits.append {m n : Nat} (h : Bits sb m bs) (h' : Bits sb n cs) : Bits sb (m + n) (bs ++ cs) := by
  refine ⟨?_, List.append_subset.mpr ⟨h.mem, h'.mem⟩⟩
  rw [List.length_append]
  exact Nat.add_le_add h.le h'.le

theorem Bits.mono {m n : Nat} (h : Bits sb m bs) (hle : m ≤ n) : Bits sb n bs := ⟨h.le.trans hle, h.mem⟩

/-- At most `need` blocks of the bit map, at most `n` others, and those of `as`. -/
def Span (sb : Superblock) (need n : Nat) (as bs : List Nat) : Prop :=
  ∃ bits data, Bits sb need bits ∧ data.length ≤ n ∧ bs ⊆ bits ++ data ++ as

variable {need need' n n' : Nat} {as as' bits : List Nat}

theorem Span.nil (sb : Superblock) (as : List Nat) : Span sb 0 0 as [] :=
  ⟨[], [], .nil sb 0, le_rfl, List.nil_subset _⟩

theorem Span.turn (h : Bits sb need bits) (b : Nat) (as : List Nat) : Span sb need 1 as (bits ++ [b] ++ as) :=
  ⟨bits, [b], h, le_rfl, List.Subset.refl _⟩

theorem Span.mono (h : Span sb need n as bs) (hneed : need ≤ need') (hn : n ≤ n') (hsub : as ⊆ as') :
    Span sb need' n' as' bs := by
  obtain ⟨bits, data, hbits, hdata, hbs⟩ := h
  refine ⟨bits, data, hbits.mono hneed, hdata.trans hn, fun c hc => ?_⟩
  have hin := hbs hc
  simp only [List.mem_append] at hin ⊢
  exact hin.imp_right fun h => hsub h

theorem Span.append (h : Span sb need n as bs) (h' : Span sb need' n' as cs) :
    Span sb (need + need') (n + n') as (bs ++ cs) := by
  obtain ⟨bits, data, hbits, hdata, hbs⟩ := h
  obtain ⟨bits', data', hbits', hdata', hcs⟩ := h'
  refine ⟨bits ++ bits', data ++ data', hbits.append hbits', ?_, ?_⟩
  · rw [List.length_append]
    exact Nat.add_le_add hdata hdata'
  · refine List.append_subset.mpr ⟨fun c hc => ?_, fun c hc => ?_⟩
    · have := hbs hc
      simp only [List.mem_append] at this ⊢
      tauto
    · have := hcs hc
      simp only [List.mem_append] at this ⊢
      tauto

/-- How many blocks there can be in all. -/
theorem Span.exists_length_le (h : Span sb need n as bs) : ∃ cs, bs ⊆ cs ∧ cs.length ≤ need + n + as.length := by
  obtain ⟨bits, data, hbits, hdata, hbs⟩ := h
  refine ⟨_, hbs, ?_⟩
  have hle := hbits.le
  simp only [List.length_append]
  omega

/-- Where the bit map is small the blocks are counted with the whole of it. -/
theorem Span.exists_length_le_bitmap (h : Span sb need n as bs) :
    ∃ cs, bs ⊆ cs ∧ cs.length ≤ (bitmap sb).length + n + as.length := by
  obtain ⟨bits, data, hbits, hdata, hbs⟩ := h
  refine ⟨bitmap sb ++ data ++ as, fun c hc => ?_, ?_⟩
  · have hin := hbs hc
    have hbit : c ∈ bits → c ∈ bitmap sb := fun h => hbits.mem h
    simp only [List.mem_append] at hin ⊢
    tauto
  · simp only [List.length_append]
    omega

/-- What `bmap` writes for the block of numbers, and then for an entry of it. -/
theorem subset_turns (bits bits' : List Nat) (b a : Nat) :
    bits ++ [a] ⊆ bits' ++ bits ++ [b] ++ [a] ∧ bits' ++ [b, a] ⊆ bits' ++ bits ++ [b] ++ [a] := by
  constructor <;> intro c <;> simp only [List.mem_append, List.mem_cons] <;> tauto

end CompilingToAssembly.Xv6.Fs
