import CompilingToAssembly.Xv6.FreeList

/-! Programs that allocate: what `malloc` finds, and which memory is whose. -/
namespace CompilingToAssembly.Xv6.Umalloc
open Library

variable {s s' : State} {t t' : Heap} {ns ns' xs : List Nat} {a f n bp fuel : Nat} {core : Bool}

/-! ### The search -/

/-- One time round, from `a` to `f`: the first block that is large enough is taken, and if
there is none `malloc` needs more memory. -/
theorem mallocLoop_walk (h : Walk t.ptr a xs f) (hfreep : t.freep = some f) (hf : f ∉ xs) (hfuel : xs.length < fuel) :
    (∃ c ∈ a :: xs, n ≤ t.size (t.ptr c) ∧ Heap.mallocLoop core n fuel t a (t.ptr a) = some (t.take n c (t.ptr c))) ∨
    ((∀ b ∈ xs ++ [f], t.size b < n) ∧
      Heap.mallocLoop core n fuel t a (t.ptr a) =
        (t.morecore (fuel - (xs.length + 1)) n core).bind fun r => r.elim (some (t, none)) fun t =>
          t.freep.bind fun p => Heap.mallocLoop core n (fuel - (xs.length + 1)) t p (t.ptr p)) := by
  obtain ⟨fuel, rfl⟩ : ∃ k, fuel = k + 1 := ⟨fuel - 1, by omega⟩
  induction xs generalizing a fuel with
  | nil =>
    have hnext : t.ptr a = f := h
    by_cases hsize : n ≤ t.size f
    · refine .inl ⟨a, List.mem_cons_self, hnext ▸ hsize, ?_⟩
      rw [Heap.mallocLoop, hnext, if_pos hsize]
    · refine .inr ⟨by simpa using hsize, ?_⟩
      rw [Heap.mallocLoop, hnext, if_neg hsize, if_pos hfreep]
      rfl
  | cons x xs ih =>
    have hnext : t.ptr a = x := h.1
    by_cases hsize : n ≤ t.size x
    · refine .inl ⟨a, List.mem_cons_self, hnext ▸ hsize, ?_⟩
      rw [Heap.mallocLoop, hnext, if_pos hsize]
    · have hx : t.freep ≠ some x := by
        rw [hfreep]
        intro heq
        exact hf (Option.some.inj heq ▸ List.mem_cons_self)
      have hloop : Heap.mallocLoop core n (fuel + 1) t a (t.ptr a) = Heap.mallocLoop core n fuel t x (t.ptr x) := by
        rw [Heap.mallocLoop, hnext, if_neg hsize, if_neg hx]
      obtain ⟨fuel, rfl⟩ : ∃ k, fuel = k + 1 := ⟨fuel - 1, by simp at hfuel; omega⟩
      have hrest : fuel + 1 + 1 - ((x :: xs).length + 1) = fuel + 1 - (xs.length + 1) := by simp
      rw [hloop, hrest]
      rcases ih h.2 (fun hmem => hf (List.mem_cons_of_mem _ hmem)) fuel (by simpa using hfuel) with
        ⟨c, hc, hfound⟩ | ⟨hnone, hcore⟩
      · exact .inl ⟨c, List.mem_cons_of_mem _ hc, hfound⟩
      · refine .inr ⟨fun b hb => ?_, hcore⟩
        rcases List.mem_cons.mp hb with rfl | hb
        · omega
        · exact hnone b hb

theorem Listed.search (h : Listed t ns) (core : Bool) (n : Nat) (hfreep : t.freep = some f) (hfuel : ns.length ≤ fuel) :
    (∃ c ∈ ns, n ≤ t.size (t.ptr c) ∧ Heap.mallocLoop core n fuel t f (t.ptr f) = some (t.take n c (t.ptr c))) ∨
    ((∀ b ∈ ns, t.size b < n) ∧
      Heap.mallocLoop core n fuel t f (t.ptr f) =
        (t.morecore (fuel - ns.length) n core).bind fun r => r.elim (some (t, none)) fun t =>
          t.freep.bind fun p => Heap.mallocLoop core n (fuel - ns.length) t p (t.ptr p)) := by
  obtain ⟨f', hf, hfreep'⟩ := h.freep
  obtain rfl : f' = f := by
    rw [hfreep] at hfreep'
    exact (Option.some.inj hfreep').symm
  obtain ⟨l, r, rfl⟩ := List.append_of_mem hf
  have hcircle : Loops t.ptr (f' :: (r ++ l)) := h.circle.rotate
  have hnot : f' ∉ r ++ l := (List.nodup_cons.mp (List.nodup_append_comm.mp h.nodup)).1
  have hlength : (l ++ f' :: r).length = (r ++ l).length + 1 := by
    simp only [List.length_append, List.length_cons]
    omega
  rw [hlength] at hfuel ⊢
  rcases mallocLoop_walk (n := n) (loops_iff_walk.mp hcircle) hfreep hnot hfuel with
    ⟨c, hc, hfound⟩ | ⟨hnone, hcore⟩
  · exact .inl ⟨c, (Gap.mem_iff c).mp hc, hfound⟩
  · refine .inr ⟨fun b hb => hnone b ?_, hcore⟩
    have hmem := (Gap.mem_iff b).mpr hb
    rw [List.mem_append, List.mem_singleton]
    exact (List.mem_cons.mp hmem).symm

/-! ### More memory -/

theorem le_coreUnits (n : Nat) : n ≤ Heap.coreUnits n := by
  unfold Heap.coreUnits
  split <;> omega

theorem coreUnits_pos (n : Nat) : 0 < Heap.coreUnits n := by
  unfold Heap.coreUnits
  split <;> omega

/-- The heap when `sbrk` has given `nu` units, and a header stands in the first of them. -/
def Heap.grow (s : Heap) (nu : Nat) : Heap := { s with brk := s.brk + nu, size := Function.update s.size s.brk nu }

theorem coreUnits_lt {nbytes : UInt32} (h : Moderate nbytes) : 8 * Heap.coreUnits (nunits nbytes) < 2 ^ 31 := by
  have hlt := nbytes.toNat_lt
  have hsum : (nbytes + 7).toNat = (nbytes.toNat + 7) % 2 ^ 32 := UInt32.toNat_add ..
  unfold Moderate at h
  unfold Heap.coreUnits nunits
  rw [hsum]
  split <;> omega

theorem sbrk_pos (t : Heap) {m : Nat} (hpos : 0 < m) (hm : 8 * m < 2 ^ 31) (core : Bool) :
    t.sbrk (8 * m) core =
      if kernbase ≤ 8 * (t.brk + m) ∨ core = false then none else some { t with brk := t.brk + m } := by
  rw [Heap.sbrk, if_neg (by omega), if_pos hm, ← Nat.mul_add, Nat.mul_div_cancel_left _ (by decide)]

/-- A request in order moves the break by what is asked for, if anything. -/
theorem sbrk_core (t : Heap) (hn : 8 * Heap.coreUnits n < 2 ^ 31) (core : Bool) :
    t.sbrk (Heap.coreBytes n) core = none ∨
      (8 * (t.brk + Heap.coreUnits n) < kernbase ∧
        t.sbrk (Heap.coreBytes n) core = some { t with brk := t.brk + Heap.coreUnits n }) := by
  have hbytes : Heap.coreBytes n = 8 * Heap.coreUnits n := by
    unfold Heap.coreBytes
    omega
  rw [hbytes, sbrk_pos t (coreUnits_pos n) hn]
  split
  · exact .inl rfl
  · next hroom => exact .inr ⟨by omega, rfl⟩

/-- All headers are below the break. -/
def Below (t : Heap) (ns : List Nat) : Prop := ∀ b ∈ ns, b < t.brk ∧ b + t.size b ≤ t.brk

theorem grow_size (hbelow : Below t ns) (m : Nat) : ∀ b ∈ ns, (t.grow m).size b = t.size b := fun b hb =>
  Function.update_of_ne (hbelow b hb).1.ne ..

theorem Listed.grow (h : Listed t ns) (hbelow : Below t ns) (m : Nat) : Listed (t.grow m) ns := by
  have hsize := grow_size hbelow m
  refine ⟨h.base, h.circle, h.sorted.imp_of_mem fun {a b} ha _ hab => ?_, ?_, fun b hb hbase => ?_, h.freep⟩
  · rwa [hsize a ha]
  · exact (hsize _ h.base_mem).trans h.empty
  · rw [hsize b hb]
    exact h.pos b hb hbase

theorem Listed.morecore (h : Listed t ns) (hbelow : Below t ns) (hfuel : ns.length ≤ fuel)
    (hcore : t.sbrk (Heap.coreBytes n) core = some { t with brk := t.brk + Heap.coreUnits n }) :
    ∃ t' ns', t.morecore fuel n core = some (some t') ∧ Freed (t.grow (Heap.coreUnits n)) ns t.brk t' ns' := by
  have hself : (t.grow (Heap.coreUnits n)).size t.brk = Heap.coreUnits n := Function.update_self ..
  have hpos := coreUnits_pos n
  have hmapped : ({ t with brk := t.brk + Heap.coreUnits n } : Heap).mapped t.brk = true := by
    simp only [Heap.mapped, decide_eq_true_eq]
    omega
  obtain ⟨t', ns', hfree, hfreed⟩ : ∃ t' ns', (t.grow (Heap.coreUnits n)).free fuel (t.brk + 1) = some t' ∧
      Freed (t.grow (Heap.coreUnits n)) ns t.brk t' ns' := by
    refine (h.grow hbelow _).free ?_ ?_ ?_ hfuel
    · exact (hbelow _ h.base_mem).1
    · rw [hself]
      exact hpos
    · intro b hb _
      rw [grow_size hbelow _ b hb]
      exact .inl (hbelow b hb).2
  refine ⟨t', ns', ?_, hfreed⟩
  simp only [Heap.morecore, hcore, hmapped, if_true]
  exact congrArg (Option.map some) hfree

/-- What a call of `malloc` can come to. -/
inductive Outcome (core : Bool) (n : Nat) (t : Heap) (ns : List Nat) : Heap → Option Nat → Prop where
  | found {t' : Heap} {ns' : List Nat} {bp : Nat} (hlarge : ∃ b ∈ ns, n ≤ t.size b) (htaken : Taken t ns n t' ns' bp) :
    Outcome core n t ns t' (some (bp + 1))
  | more {t₁ t' : Heap} {ns₁ ns' : List Nat} {bp : Nat} (hnone : ∀ b ∈ ns, t.size b < n)
    (hcore : t.sbrk (Heap.coreBytes n) core ≠ none) (hroom : 8 * (t.brk + Heap.coreUnits n) < kernbase)
    (hfreed : Freed (t.grow (Heap.coreUnits n)) ns t.brk t₁ ns₁) (htaken : Taken t₁ ns₁ n t' ns' bp) :
    Outcome core n t ns t' (some (bp + 1))
  | fails (hnone : ∀ b ∈ ns, t.size b < n) (hcore : t.sbrk (Heap.coreBytes n) core = none) : Outcome core n t ns t none

theorem Listed.malloc (h : Listed t ns) (core : Bool) (hfreep : t.freep = some f) (hbelow : Below t ns) (hn : 0 < n)
    (hsmall : 8 * Heap.coreUnits n < 2 ^ 31) (hfuel : 2 * ns.length + 1 ≤ fuel) :
    ∃ t' r, Heap.mallocLoop core n fuel t f (t.ptr f) = some (t', r) ∧ Outcome core n t ns t' r := by
  have hfirst : ns.length ≤ fuel := by omega
  have hsecond : ns.length + 1 ≤ fuel - ns.length := by omega
  rcases h.search core n hfreep hfirst with ⟨c, hc, hsize, hloop⟩ | ⟨hnone, hloop⟩
  · obtain ⟨t', ns', bp, htake, htaken⟩ := h.take hn hc hsize
    rw [hloop, htake]
    exact ⟨_, _, rfl, .found ⟨t.ptr c, h.circle.next_mem hc, hsize⟩ htaken⟩
  · rw [hloop]
    rcases sbrk_core t hsmall core with hcore | ⟨hroom, hcore⟩
    · refine ⟨t, none, ?_, .fails hnone hcore⟩
      simp [Heap.morecore, hcore]
    · obtain ⟨t₁, ns₁, hmore, hfreed⟩ := h.morecore hbelow (Nat.le_of_succ_le hsecond) hcore
      obtain ⟨g, hg, hgfreep⟩ := hfreed.listed.freep
      rw [hmore, Option.bind_some, Option.elim_some, hgfreep, Option.bind_some]
      rcases hfreed.listed.search core n hgfreep (hfreed.length.trans hsecond) with
        ⟨c, hc, hsize, hloop⟩ | ⟨hnone₁, _⟩
      · obtain ⟨t', ns', bp, htake, htaken⟩ := hfreed.listed.take hn hc hsize
        rw [hloop, htake]
        exact ⟨_, _, rfl, .more hnone (by simp [hcore]) hroom hfreed htaken⟩
      · -- the new block is large enough
        obtain ⟨b, hb, hlarge⟩ := hfreed.large
        rw [show (t.grow (Heap.coreUnits n)).size t.brk = Heap.coreUnits n from Function.update_self ..] at hlarge
        have := hnone₁ b hb
        have := le_coreUnits n
        omega

/-! ### Whose memory it is -/

/-- Every unit that `sbrk` gave is in one free block or in one block of the program. -/
structure Valid (s : State) (ns : List Nat) : Prop where
  listed : Listed s.heap ns
  header : ∀ b ∈ s.live, s.heap.size b.1 = b.2 ∧ 0 < b.2 ∧ s.heap.base < b.1
  accounted : ∀ u, tally (extents s.heap.size ns) u + tally s.live u = tally s.regions u
  once : ∀ u, tally s.regions u ≤ 1
  below : ∀ b ∈ s.regions, b.1 + b.2 ≤ s.heap.brk
  conserved : units (extents s.heap.size ns) + units s.live = units s.regions
  base_lt : s.heap.base < s.heap.brk
  room : 8 * s.heap.brk < kernbase

theorem Valid.regions_below (h : Valid s ns) {u : Nat} (hu : 0 < tally s.regions u) : u < s.heap.brk := by
  obtain ⟨b, hb, hbu⟩ := exists_mem_of_tally_pos hu
  have := h.below b hb
  omega

theorem Valid.heap_below (h : Valid s ns) : Below s.heap ns := by
  intro b hb
  by_cases hbase : b = s.heap.base
  · have := h.base_lt
    rw [hbase, h.listed.empty]
    omega
  · have hpos := h.listed.pos b hb hbase
    have hmem : (b, s.heap.size b) ∈ extents s.heap.size ns := List.mem_map.mpr ⟨b, hb, rfl⟩
    have hlast := tally_pos_of_mem (u := b + s.heap.size b - 1) hmem (by omega)
    have htally := h.accounted (b + s.heap.size b - 1)
    have := h.regions_below (u := b + s.heap.size b - 1) (by omega)
    omega

theorem Valid.live_le (h : Valid s ns) (u : Nat) : tally s.live u ≤ 1 := by
  have := h.accounted u
  have := h.once u
  omega

/-- No free block has a header of the program in it. -/
theorem Valid.not_free (h : Valid s ns) {b : Nat × Nat} (hb : b ∈ s.live) :
    tally (extents s.heap.size ns) b.1 = 0 := by
  have hlive := tally_pos_of_mem (u := b.1) hb (by have := h.header b hb; omega)
  have := h.accounted b.1
  have := h.once b.1
  omega

theorem Valid.live_below (h : Valid s ns) {b : Nat × Nat} (hb : b ∈ s.live) : b.1 + b.2 ≤ s.heap.brk := by
  have hpos := (h.header b hb).2.1
  have hlive := tally_pos_of_mem (u := b.1 + b.2 - 1) hb (by omega)
  have := h.accounted (b.1 + b.2 - 1)
  have := h.regions_below (u := b.1 + b.2 - 1) (by omega)
  omega

theorem Valid.header_lt (h : Valid s ns) {b : Nat × Nat} (hb : b ∈ s.live) : b.1 < s.heap.brk := by
  have := (h.header b hb).2.1
  have := h.live_below hb
  omega

theorem Valid.header_not_mem (h : Valid s ns) {b : Nat × Nat} (hb : b ∈ s.live) : b.1 ∉ ns := by
  intro hin
  have hpos := h.listed.pos b.1 hin (h.header b hb).2.2.ne'
  have hmem : (b.1, s.heap.size b.1) ∈ extents s.heap.size ns := List.mem_map.mpr ⟨b.1, hin, rfl⟩
  exact (tally_pos_of_mem (u := b.1) hmem (by omega)).ne' (h.not_free hb)

theorem Valid.taken (h : Valid s ns) (hn : 0 < n) (ht : Taken s.heap ns n t' ns' bp) :
    Valid ⟨t', (bp, n) :: s.live, s.regions⟩ ns' := by
  refine ⟨ht.listed, fun b hb => ?_, fun u => ?_, h.once, fun b hb => ?_, ?_, ?_, ?_⟩
  · rw [ht.same.1]
    rcases List.mem_cons.mp hb with rfl | hb
    · exact ⟨ht.header, hn, ht.above⟩
    · rw [ht.size b.1 (h.not_free hb)]
      exact h.header b hb
  · have := h.accounted u
    have := ht.tally u
    rw [tally_cons]
    dsimp only
    omega
  · exact ht.same.2.symm ▸ h.below b hb
  · have := h.conserved
    have := ht.units
    rw [units_cons]
    dsimp only
    omega
  · simpa only [ht.same] using h.base_lt
  · simpa only [ht.same] using h.room

theorem Valid.freed (h : Valid s ns) (hb : (bp, n) ∈ s.live) (hf : Freed s.heap ns bp t' ns') :
    Valid ⟨t', s.live.filter fun b => b.1 ≠ bp, s.regions⟩ ns' := by
  have hperm := perm_filter_of_tally h.live_le (fun b hb => (h.header b hb).2.1) hb
  have hsize : s.heap.size bp = n := (h.header _ hb).1
  refine ⟨hf.listed, fun b hmem => ?_, fun u => ?_, h.once, fun b hb => ?_, ?_, ?_, ?_⟩
  · obtain ⟨hlive, hne⟩ := List.mem_filter.mp hmem
    rw [hf.same.1, hf.size b.1 (h.header_not_mem hlive) (by simpa using hne)]
    exact h.header b hlive
  · have htally := h.accounted u
    have hfreed := hf.tally u
    have hlive := tally_perm hperm u
    rw [tally_cons] at hlive
    rw [hsize] at hfreed
    dsimp only at hlive ⊢
    omega
  · exact hf.same.2.symm ▸ h.below b hb
  · have hunits := h.conserved
    have hfreed := hf.units
    have hlive := units_perm hperm
    rw [units_cons] at hlive
    rw [hsize] at hfreed
    dsimp only at hlive ⊢
    omega
  · simpa only [hf.same] using h.base_lt
  · simpa only [hf.same] using h.room

theorem Valid.grown (h : Valid s ns) (hroom : 8 * (s.heap.brk + n) < kernbase)
    (hf : Freed (s.heap.grow n) ns s.heap.brk t' ns') :
    Valid ⟨t', s.live, (s.heap.brk, n) :: s.regions⟩ ns' := by
  have hbelow := h.heap_below
  have hself : (s.heap.grow n).size s.heap.brk = n := Function.update_self ..
  have hextents : extents (s.heap.grow n).size ns = extents s.heap.size ns := extents_congr (grow_size hbelow n)
  have hbrk : t'.brk = s.heap.brk + n := hf.same.2
  have hbase : t'.base = s.heap.base := hf.same.1
  refine ⟨hf.listed, fun b hb => ?_, fun u => ?_, fun u => ?_, fun b hb => ?_, ?_, ?_, hbrk ▸ hroom⟩
  · have hhead := h.header b hb
    have hlt := h.header_lt hb
    have hgrow : (s.heap.grow n).size b.1 = s.heap.size b.1 := Function.update_of_ne hlt.ne ..
    rw [hf.size b.1 (h.header_not_mem hb) hlt.ne, hgrow, hbase]
    exact hhead
  · have htally := h.accounted u
    have hfreed := hf.tally u
    rw [hself, hextents] at hfreed
    rw [tally_cons]
    dsimp only
    omega
  · rw [tally_cons, tally_singleton]
    have hbelow := h.regions_below (u := u)
    have := h.once u
    split <;> omega
  · rw [hbrk]
    rcases List.mem_cons.mp hb with rfl | hb
    · exact le_rfl
    · exact (h.below b hb).trans (Nat.le_add_right ..)
  · have hunits := h.conserved
    have hfreed := hf.units
    rw [hself, hextents] at hfreed
    rw [units_cons]
    dsimp only
    omega
  · rw [hbrk, hbase]
    exact h.base_lt.trans_le (Nat.le_add_right ..)

/-! ### Whole programs -/

/-- At its first call `malloc` sets the circle up. -/
def State.ready (s : State) : State := { s with heap := if s.heap.freep = none then s.heap.start else s.heap }

structure Sound (s : State) : Prop where
  fresh : s.heap.freep = none → s.live = [] ∧ s.regions = []
  valid : ∃ ns, Valid s.ready ns

theorem State.ready_of_freep {s : State} (h : s.heap.freep = some f) : s.ready = s := by
  simp [State.ready, h]

theorem start_listed (t : Heap) : Listed t.start [t.base] := by
  refine ⟨rfl, ?_, List.pairwise_singleton .., Function.update_self .., fun b hb hbase => ?_, t.base, by simp, rfl⟩
  · simp [Loops, Heap.start]
  · exact absurd (List.mem_singleton.mp hb) hbase

theorem initial_sound {base brk : Nat} {ptr size : Nat → Nat} (h : base < brk) (hroom : 8 * brk < kernbase) :
    Sound (initial base brk ptr size) := by
  refine ⟨fun _ => ⟨rfl, rfl⟩, [base], start_listed ⟨base, ptr, size, none, brk⟩, ?_, fun u => ?_, ?_, ?_, ?_, h, hroom⟩
  · simp [State.ready, initial]
  · simp [State.ready, initial, Heap.start, extents, tally_singleton, tally_nil]
  · simp [State.ready, initial, tally_nil]
  · simp [State.ready, initial]
  · simp [State.ready, initial, Heap.start, extents, units]

theorem nunits_pos (nbytes : UInt32) : 0 < nunits nbytes := Nat.succ_pos _

/-- A call of `malloc` in a sound state returns. -/
theorem Valid.malloc (h : Valid s.ready ns) {nbytes : UInt32} (hsmall : Moderate nbytes) (core : Bool) :
    ∃ t' r, s.heap.malloc s.fuel nbytes core = some (t', r) ∧ Outcome core (nunits nbytes) s.ready.heap ns t' r := by
  obtain ⟨f, _, hfreep⟩ := h.listed.freep
  have hlength := h.listed.length_le
  have hunits := h.conserved
  have hfuel : 2 * ns.length + 1 ≤ s.fuel := by
    rw [show s.fuel = 2 * units s.ready.regions + 8 from rfl]
    omega
  obtain ⟨t', r, hloop, houtcome⟩ :=
    h.listed.malloc core hfreep h.heap_below (nunits_pos nbytes) (coreUnits_lt hsmall) hfuel
  refine ⟨t', r, ?_, houtcome⟩
  have hmalloc : s.heap.malloc s.fuel nbytes core = s.ready.heap.freep.bind fun prevp =>
    Heap.mallocLoop core (nunits nbytes) s.fuel s.ready.heap prevp (s.ready.heap.ptr prevp) := rfl
  rw [hmalloc, hfreep]
  exact hloop

theorem State.ready_brk (s : State) : s.ready.heap.brk = s.heap.brk := by
  unfold State.ready
  split <;> rfl

theorem State.sbrk_ready_eq_none (s : State) (m : Nat) (core : Bool) :
    s.ready.heap.sbrk m core = none ↔ s.heap.sbrk m core = none := by
  simp only [Heap.sbrk, s.ready_brk]
  split_ifs <;> simp

theorem Outcome.pos {r : Option Nat} (h : Outcome core n t ns t' r) {ap : Nat} (hr : r = some ap) : 0 < ap := by
  cases h <;> cases hr <;> exact Nat.succ_pos _

/-- What a call of `malloc` leaves, when it gives the program a block. -/
theorem Valid.outcome (h : Valid s.ready ns) {ap : Nat} (ho : Outcome core n s.ready.heap ns t' (some ap)) (hn : 0 < n) :
    ∃ ns', Valid ⟨t', (ap - 1, n) :: s.live, s.grown t'⟩ ns' := by
  have hbrk := s.ready_brk
  cases ho with
  | found _ htaken =>
    have hgrown : s.grown t' = s.regions := by
      rw [State.grown, htaken.same.2, hbrk, if_neg (Nat.lt_irrefl _)]
    rw [hgrown]
    exact ⟨_, h.taken hn htaken⟩
  | more _ _ hroom hfreed htaken =>
    have hgrown : s.grown t' = (s.ready.heap.brk, Heap.coreUnits n) :: s.regions := by
      have hsame : t'.brk = s.heap.brk + Heap.coreUnits n := by
        rw [htaken.same.2, hfreed.same.2, ← hbrk]
        rfl
      have := coreUnits_pos n
      rw [State.grown, hsame, if_pos (by omega), Nat.add_sub_cancel_left, hbrk]
    rw [hgrown]
    exact ⟨_, (h.grown hroom hfreed).taken hn htaken⟩

theorem Valid.sound (h : Valid s ns) : Sound s := by
  obtain ⟨f, _, hf⟩ := h.listed.freep
  refine ⟨fun hnone => ?_, ns, ?_⟩
  · rw [hf] at hnone
    cases hnone
  · rw [State.ready_of_freep hf]
    exact h

/-- `free` of a block of the program returns. -/
theorem Valid.free (h : Valid s ns) {ap : Nat} (hb : (ap - 1, n) ∈ s.live) :
    ∃ t' ns', s.heap.free s.fuel ap = some t' ∧ Freed s.heap ns (ap - 1) t' ns' := by
  obtain ⟨hsize, hpos, hbase⟩ := h.header _ hb
  have hlength := h.listed.length_le
  have hunits := h.conserved
  have hap : ap = ap - 1 + 1 := by
    have : 0 < ap - 1 := (Nat.zero_le _).trans_lt hbase
    omega
  rw [hap]
  refine h.listed.free hbase ?_ (fun b hmem hne => ?_) ?_
  · rw [hsize]
    exact hpos
  · rw [hsize]
    have hmem : (b, s.heap.size b) ∈ extents s.heap.size ns := List.mem_map.mpr ⟨b, hmem, rfl⟩
    refine apart_of_tally (fun u => ?_) hmem hb (h.listed.pos b ‹b ∈ ns› hne) hpos
    rw [h.accounted u]
    exact h.once u
  · rw [State.fuel]
    omega

theorem Valid.brk (h : Valid s ns) {b : Nat} (hb : s.heap.brk ≤ b) (hroom : 8 * b < kernbase) :
    Valid { s with heap := { s.heap with brk := b } } ns :=
  { listed := ⟨h.listed.base, h.listed.circle, h.listed.sorted, h.listed.empty, h.listed.pos, h.listed.freep⟩
    header := h.header
    accounted := h.accounted
    once := h.once
    below := fun c hc => (h.below c hc).trans hb
    conserved := h.conserved
    base_lt := h.base_lt.trans_le hb
    room := hroom }

theorem State.ready_sbrk (s : State) (b : Nat) : ({ s with heap := { s.heap with brk := b } } : State).ready =
    { s.ready with heap := { s.ready.heap with brk := b } } := by
  unfold State.ready
  dsimp only
  split <;> rfl

/-- The program takes memory that is not `malloc`'s. -/
theorem Sound.sbrk (h : Sound s) {m : Nat} (hm : 8 * m < 2 ^ 31) :
    Sound { s with heap := (s.heap.sbrk (8 * m) true).getD s.heap } := by
  obtain ⟨ns, hvalid⟩ := h.valid
  rcases Nat.eq_zero_or_pos m with rfl | hpos
  · exact h
  · rw [sbrk_pos s.heap hpos hm]
    split
    · exact h
    · next hroom =>
      refine ⟨h.fresh, ns, ?_⟩
      rw [Option.getD_some, State.ready_sbrk]
      exact hvalid.brk (s.ready_brk ▸ Nat.le_add_right ..) (by omega)

theorem Sound.step (h : Sound s) {e : Event} (ha : Orderly s e) (hstep : step s e = .next s') : Sound s' := by
  obtain ⟨ns, hvalid⟩ := h.valid
  cases e with
  | malloc nbytes core =>
    obtain ⟨t', r, hmalloc, houtcome⟩ := hvalid.malloc ha core
    simp only [Umalloc.step, hmalloc] at hstep
    cases r with
    | none =>
      cases hstep
      cases houtcome
      exact hvalid.sound
    | some ap =>
      cases hstep
      obtain ⟨ns', hvalid'⟩ := hvalid.outcome houtcome (nunits_pos nbytes)
      exact hvalid'.sound
  | free ap =>
    obtain ⟨n, hlive⟩ := ha
    cases hfreep : s.heap.freep with
    | none =>
      rw [(h.fresh hfreep).1] at hlive
      cases hlive
    | some f =>
      rw [State.ready_of_freep hfreep] at hvalid
      obtain ⟨t', ns', hfree, hfreed⟩ := hvalid.free hlive
      simp only [Umalloc.step, hfree] at hstep
      cases hstep
      exact (hvalid.freed hlive hfreed).sound
  | sbrk n =>
    cases hstep
    exact h.sbrk ha

theorem sound_run {base brk : Nat} {ptr size : Nat → Nat} {es : List Event} (h : base < brk)
    (hroom : 8 * brk < kernbase) (hrun : Runs step Orderly (initial base brk ptr size) es s) : Sound s :=
  hrun.invariant (fun _ _ _ _ hs ha hstep => hs.step ha hstep) (initial_sound h hroom)

section Program
variable {base brk : Nat} {ptr size : Nat → Nat} {es : List Event}

/-- **No memory has two owners, and none is lost**: the blocks of the program are apart, with
their headers as `malloc` left them, and each unit that `sbrk` gave is in one of them or in one
block of the free list, where no two blocks touch. -/
theorem memory_accounted (h : base < brk) (hroom : 8 * brk < kernbase)
    (hrun : Runs step Orderly (initial base brk ptr size) es s) :
    (s.live.Pairwise fun b c => b.1 + b.2 ≤ c.1 ∨ c.1 + c.2 ≤ b.1) ∧
      (∀ b ∈ s.live, s.heap.size b.1 = b.2) ∧
      (s.heap.freep = none → s.live = [] ∧ s.regions = []) ∧
      ∀ f, s.heap.freep = some f → ∃ ns, Listed s.heap ns ∧
        ∀ u, tally (extents s.heap.size ns) u + tally s.live u = tally s.regions u ∧ tally s.regions u ≤ 1 := by
  have hsound := sound_run h hroom hrun
  obtain ⟨ns, hvalid⟩ := hsound.valid
  refine ⟨pairwise_of_tally hvalid.live_le fun b hb => (hvalid.header b hb).2.1, fun b hb => ?_, hsound.fresh,
    fun f hf => ?_⟩
  · cases hf : s.heap.freep with
    | none =>
      rw [(hsound.fresh hf).1] at hb
      cases hb
    | some f =>
      rw [State.ready_of_freep hf] at hvalid
      exact (hvalid.header b hb).1
  · rw [State.ready_of_freep hf] at hvalid
    exact ⟨ns, hvalid.listed, fun u => ⟨hvalid.accounted u, hvalid.once u⟩⟩

/-- Two blocks, the first of which is given back. -/
def allocating : List Event := [.malloc 20 true, .malloc 100 true, .free 4193]

def blank : State := initial 10 100 (fun _ => 0) fun _ => 0

def after (s : State) (es : List Event) : State := (Runs.go step Orderly s es).getD s

theorem after_runs {s : State} {es : List Event} (h : (Runs.go step Orderly s es).isSome) :
    Runs step Orderly s es (after s es) :=
  Runs.of_go h

def allocated : State := after blank allocating

theorem allocated_runs : Runs step Orderly blank allocating allocated := after_runs (by decide +kernel)

theorem memory_accounted_allocated :
    allocated.live = [(4178, 14)] ∧ allocated.heap.freep = some 100 ∧ ∃ ns, Listed allocated.heap ns ∧
      ∀ u, tally (extents allocated.heap.size ns) u + tally allocated.live u = tally allocated.regions u ∧
        tally allocated.regions u ≤ 1 :=
  ⟨by decide +kernel, by decide +kernel,
    (memory_accounted (by decide) (by decide) allocated_runs).2.2.2 100 (by decide +kernel)⟩

/-! ### When `malloc` fails -/

/-- Memory that is free in one piece is in one block of the list. -/
theorem Listed.in_block (h : Listed t ns) (lo : Nat) (hn : 0 < n)
    (hfree : ∀ u, lo ≤ u → u < lo + n → 0 < tally (extents t.size ns) u) : ∃ b ∈ ns, n ≤ t.size b := by
  have hblock : ∀ u, 0 < tally (extents t.size ns) u → ∃ b ∈ ns, b ≤ u ∧ u < b + t.size b := by
    intro u hu
    obtain ⟨_, hmem, hin⟩ := exists_mem_of_tally_pos hu
    obtain ⟨b, hb, rfl⟩ := List.mem_map.mp hmem
    exact ⟨b, hb, hin⟩
  obtain ⟨b, hb, hle, hlt⟩ := hblock lo (hfree lo le_rfl (by omega))
  refine ⟨b, hb, ?_⟩
  by_contra hshort
  -- the unit after this block is free as well, so that the next block would touch it
  obtain ⟨c, hc, hcle, hclt⟩ := hblock (b + t.size b) (hfree _ (by omega) (by omega))
  rcases h.apart hb hc with hbc | rfl | hcb <;> omega

theorem Valid.large_iff (h : Valid s ns) (hn : 0 < n) :
    (∃ b ∈ ns, n ≤ s.heap.size b) ↔
      ∃ lo, ∀ u, lo ≤ u → u < lo + n → tally s.regions u = 1 ∧ tally s.live u = 0 := by
  constructor
  · intro hlarge
    obtain ⟨b, hb, hsize⟩ := hlarge
    refine ⟨b, fun u hle hlt => ?_⟩
    have hmem : (b, s.heap.size b) ∈ extents s.heap.size ns := List.mem_map.mpr ⟨b, hb, rfl⟩
    have hpos := tally_pos_of_mem (u := u) hmem (by omega)
    have := h.accounted u
    have := h.once u
    omega
  · intro hrun
    obtain ⟨lo, hlo⟩ := hrun
    refine h.listed.in_block lo hn fun u hle hlt => ?_
    have := h.accounted u
    have := hlo u hle hlt
    omega

/-- **`malloc` returns, and only fails if it has to**: if the kernel gives it no memory and
nowhere in the memory of the program are enough units free in one piece. -/
theorem malloc_fails_iff (h : base < brk) (hroom : 8 * brk < kernbase)
    (hrun : Runs step Orderly (initial base brk ptr size) es s) (nbytes : UInt32) (core : Bool)
    (hsmall : Moderate nbytes) :
    ∃ t r, s.heap.malloc s.fuel nbytes core = some (t, r) ∧
      (r = none ↔ s.heap.sbrk (Heap.coreBytes (nunits nbytes)) core = none ∧
        ¬ ∃ lo, ∀ u, lo ≤ u → u < lo + nunits nbytes → tally s.regions u = 1 ∧ tally s.live u = 0) := by
  obtain ⟨ns, hvalid⟩ := (sound_run h hroom hrun).valid
  obtain ⟨t, r, hmalloc, houtcome⟩ := hvalid.malloc hsmall core
  have hlarge := hvalid.large_iff (nunits_pos nbytes)
  have hcore := s.sbrk_ready_eq_none (Heap.coreBytes (nunits nbytes)) core
  refine ⟨t, r, hmalloc, ?_⟩
  rw [show s.regions = s.ready.regions from rfl, show s.live = s.ready.live from rfl, ← hlarge, ← hcore]
  cases houtcome with
  | found hfound _ => simp [hfound]
  | more _ hcore _ _ _ => simp [hcore]
  | fails hnone hcore => simpa [hcore] using hnone

/-- With 4082 units free, of which 4078 in one piece, there is room for 4077 units and a header. -/
theorem malloc_fails_iff_allocated :
    ((allocated.heap.malloc allocated.fuel 32616 false).map (·.2) = some (some 101) ∧
      (allocated.heap.malloc allocated.fuel 32617 false).map (·.2) = some none) ∧
    ∃ t r, allocated.heap.malloc allocated.fuel 32617 false = some (t, r) ∧
      (r = none ↔ allocated.heap.sbrk (Heap.coreBytes (nunits 32617)) false = none ∧
        ¬ ∃ lo, ∀ u, lo ≤ u → u < lo + nunits 32617 →
          tally allocated.regions u = 1 ∧ tally allocated.live u = 0) :=
  ⟨by decide +kernel,
    malloc_fails_iff (by decide) (by decide) allocated_runs 32617 false (by decide +kernel)⟩

/-! ### What a block has room for -/

theorem nunits_of_overflow {nbytes : UInt32} (h : 2 ^ 32 - 8 < nbytes.toNat) : nunits nbytes = 1 := by
  have hlt := nbytes.toNat_lt
  have hsum : (nbytes + 7).toNat = (nbytes.toNat + 7) % 2 ^ 32 := UInt32.toNat_add ..
  rw [nunits, hsum]
  omega

theorem le_nunits {nbytes : UInt32} (h : nbytes.toNat ≤ 2 ^ 31 - 16) : nbytes.toNat ≤ 8 * (nunits nbytes - 1) := by
  have hsum : (nbytes + 7).toNat = (nbytes.toNat + 7) % 2 ^ 32 := UInt32.toNat_add ..
  rw [nunits, hsum, Nat.add_sub_cancel]
  omega

/-- Whatever `sbrk` is asked for, the memory of the process stays below the kernel's. -/
theorem sbrk_room (hroom : 8 * t.brk < kernbase) {m : Nat} (hsbrk : t.sbrk m core = some t') :
    8 * t'.brk < kernbase := by
  unfold Heap.sbrk at hsbrk
  dsimp only at hsbrk
  split at hsbrk
  · cases hsbrk
    exact hroom
  · split at hsbrk
    · split at hsbrk <;> cases hsbrk
      dsimp only
      omega
    · split at hsbrk
      · split at hsbrk <;> cases hsbrk
        dsimp only
        omega
      · split at hsbrk <;> cases hsbrk
        dsimp only
        omega

theorem free_brk {ap : Nat} (hfree : t.free fuel ap = some t') : t'.brk = t.brk := by
  simp only [Heap.free, Option.bind_eq_some_iff, Option.map_eq_some_iff] at hfree
  obtain ⟨f, _, p, _, rfl⟩ := hfree
  simp only [Heap.joinPrev, Heap.joinNext]
  split <;> split <;> rfl

theorem morecore_room (hroom : 8 * t.brk < kernbase) (hmore : t.morecore fuel n core = some (some t')) :
    8 * t'.brk < kernbase := by
  unfold Heap.morecore at hmore
  split at hmore
  · cases hmore
  · next t₁ hsbrk =>
    dsimp only at hmore
    split at hmore
    · obtain ⟨t₂, hfree, heq⟩ := Option.map_eq_some_iff.mp hmore
      cases heq
      rw [free_brk hfree]
      have hkept := sbrk_room hroom hsbrk
      exact hkept
    · cases hmore

/-- So it does in a call of `malloc`, which returns the address after a header. -/
theorem mallocLoop_room {prevp p ap : Nat} (hroom : 8 * t.brk < kernbase)
    (hloop : Heap.mallocLoop core n fuel t prevp p = some (t', some ap)) : 8 * t'.brk < kernbase ∧ 0 < ap := by
  induction fuel generalizing t prevp p with
  | zero => cases hloop
  | succ fuel ih =>
    rw [Heap.mallocLoop] at hloop
    split at hloop
    · unfold Heap.take at hloop
      split at hloop <;> cases hloop <;> exact ⟨hroom, Nat.succ_pos _⟩
    · split at hloop
      · obtain ⟨r, hmore, hrest⟩ := Option.bind_eq_some_iff.mp hloop
        cases r with
        | none => cases hrest
        | some t₁ =>
          obtain ⟨g, _, hrest⟩ := Option.bind_eq_some_iff.mp hrest
          exact ih (morecore_room hroom hmore) hrest
      · exact ih hroom hloop

/-- **A block has the memory that was asked for** exactly if that was at most `2 ^ 31 - 16`
bytes. For more, `morecore` passes a negative `int` to `sbrk`, or 0, and the block that
`malloc` returns goes beyond the memory of the process; from `2 ^ 32 - 7` on the sum in
`malloc` overflows, and the block is a header without any room. -/
theorem malloc_room_iff (h : base < brk) (hroom : 8 * brk < kernbase)
    (hrun : Runs step Orderly (initial base brk ptr size) es s) (nbytes : UInt32) (core : Bool) (t : Heap) (ap : Nat)
    (hmalloc : s.heap.malloc s.fuel nbytes core = some (t, some ap)) :
    (nbytes.toNat ≤ 8 * (t.size (ap - 1) - 1) ∧ 8 * ap + nbytes.toNat ≤ 8 * t.brk ↔ nbytes.toNat ≤ 2 ^ 31 - 16) ∧
      (2 ^ 32 - 8 < nbytes.toNat → t.size (ap - 1) = 1) := by
  obtain ⟨ns, hvalid⟩ := (sound_run h hroom hrun).valid
  by_cases hsmall : Moderate nbytes
  · obtain ⟨t', r, hmalloc', houtcome⟩ := hvalid.malloc hsmall core
    rw [hmalloc, Option.some.injEq, Prod.mk.injEq] at hmalloc'
    obtain ⟨rfl, rfl⟩ := hmalloc'
    obtain ⟨ns', hvalid'⟩ := hvalid.outcome houtcome (nunits_pos nbytes)
    have hmem : (ap - 1, nunits nbytes) ∈ (ap - 1, nunits nbytes) :: s.live := List.mem_cons_self
    have hsize : t.size (ap - 1) = nunits nbytes := (hvalid'.header _ hmem).1
    have hend := hvalid'.live_below hmem
    refine ⟨⟨fun hfits => ?_, fun hle => ⟨hsize ▸ le_nunits hle, ?_⟩⟩, fun hlt => hsize.trans (nunits_of_overflow hlt)⟩
    · rcases hsmall with hle | hlt
      · exact hle
      · rw [hsize, nunits_of_overflow hlt] at hfits
        omega
    · have := le_nunits hle
      have := houtcome.pos rfl
      have := nunits_pos nbytes
      dsimp only at hend
      omega
  · -- beyond the break: the process has less memory than that
    unfold Moderate at hsmall
    have hready : 8 * s.ready.heap.brk < kernbase := hvalid.room
    obtain ⟨prevp, _, hloop⟩ := Option.bind_eq_some_iff.mp hmalloc
    obtain ⟨hbrk, hap⟩ := mallocLoop_room hready hloop
    unfold kernbase at hbrk
    refine ⟨⟨fun hfits => ?_, fun hle => ?_⟩, fun hlt => ?_⟩ <;> omega

/-- After `sbrk` of two headers a request for half the address space gets a block beyond the
memory of the process. -/
theorem malloc_room_iff_beyond :
    ∃ t, (after blank [.sbrk 2]).heap.malloc (after blank [.sbrk 2]).fuel 2147483648 true = some (t, some 103) ∧
      ¬ ((2147483648 : UInt32).toNat ≤ 8 * (t.size 102 - 1) ∧ 8 * 103 + (2147483648 : UInt32).toNat ≤ 8 * t.brk) := by
  have hrun : Runs step Orderly blank [.sbrk 2] (after blank [.sbrk 2]) := after_runs (by decide +kernel)
  have hreturns : ((after blank [.sbrk 2]).heap.malloc (after blank [.sbrk 2]).fuel 2147483648 true).map (·.2) =
      some (some 103) := by decide +kernel
  obtain ⟨⟨t, r⟩, hmalloc, rfl⟩ := Option.map_eq_some_iff.mp hreturns
  have hexact := malloc_room_iff (by decide) (by decide) hrun 2147483648 true t 103 hmalloc
  exact ⟨t, hmalloc, fun hfits => absurd (hexact.1.mp hfits) (by decide)⟩

end Program

end CompilingToAssembly.Xv6.Umalloc
