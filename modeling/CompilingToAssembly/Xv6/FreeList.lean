import CompilingToAssembly.Xv6.Umalloc

/-! The list of free blocks, through `free` and `malloc`.

The blocks are in the order of their addresses, and between one and the next there is
something that is not free: whatever can be joined is joined. -/
namespace CompilingToAssembly.Xv6.Umalloc
open Library

def extents (size : Nat → Nat) (ns : List Nat) : List (Nat × Nat) := ns.map fun b => (b, size b)

/-- The headers in the circle are `ns`, the first of them `base`. -/
structure Listed (s : Heap) (ns : List Nat) : Prop where
  base : ns.head? = some s.base
  circle : Loops s.ptr ns
  sorted : ns.Pairwise fun a b => a + s.size a < b
  empty : s.size s.base = 0
  pos : ∀ b ∈ ns, b ≠ s.base → 0 < s.size b
  freep : ∃ f ∈ ns, s.freep = some f

variable {s t : Heap} {ns l r : List Nat} {bp p q n fuel : Nat}

/-! ### Lists in order -/

theorem extents_append (size : Nat → Nat) (l r : List Nat) : extents size (l ++ r) = extents size l ++ extents size r :=
  List.map_append

theorem extents_cons (size : Nat → Nat) (b : Nat) (r : List Nat) : extents size (b :: r) = (b, size b) :: extents size r :=
  rfl

theorem extents_congr {size size' : Nat → Nat} (h : ∀ b ∈ ns, size' b = size b) : extents size' ns = extents size ns :=
  List.map_congr_left fun b hb => by rw [h b hb]

theorem Listed.lt (h : Listed s ns) : ns.Pairwise (· < ·) := h.sorted.imp fun hab => by omega

theorem Listed.nodup (h : Listed s ns) : ns.Nodup := h.lt.imp Nat.ne_of_lt

theorem Listed.base_mem (h : Listed s ns) : s.base ∈ ns := List.mem_of_mem_head? h.base

theorem Listed.base_le (h : Listed s ns) {b : Nat} (hb : b ∈ ns) : s.base ≤ b := by
  obtain ⟨fs, rfl⟩ := List.head?_eq_some_iff.mp h.base
  rcases List.mem_cons.mp hb with rfl | hb
  · exact le_rfl
  · exact ((List.pairwise_cons.mp h.lt).1 b hb).le

/-- Of two headers one is below the other, with something between. -/
theorem Listed.apart (h : Listed s ns) (hp : p ∈ ns) (hq : q ∈ ns) : p + s.size p < q ∨ p = q ∨ q + s.size q < p := by
  refine List.Pairwise.forall_of_forall_of_flip (R := fun a b => a + s.size a < b ∨ a = b ∨ b + s.size b < a)
    (fun _ _ => .inr (.inl rfl)) (h.sorted.imp .inl) (h.sorted.imp fun hab => ?_) hp hq
  exact .inr (.inr hab)

/-- The header after `p`: the next higher, or `base` again. -/
theorem Listed.next_cases (h : Listed s ns) (hp : p ∈ ns) :
    (p < s.ptr p ∧ s.ptr p ∈ ns ∧ ∀ b ∈ ns, b ≤ p ∨ s.ptr p ≤ b) ∨ (s.ptr p = s.base ∧ ∀ b ∈ ns, b ≤ p) := by
  obtain ⟨l, r, rfl⟩ := List.append_of_mem hp
  have hrotated : Loops s.ptr (p :: (r ++ l)) := h.circle.rotate
  have hcircle := loops_cons.mp hrotated
  have hlt := List.pairwise_append.mp h.lt
  have hbelow : ∀ b ∈ l, b ≤ p := fun b hb => (hlt.2.2 b hb p List.mem_cons_self).le
  cases r with
  | nil =>
    refine .inr ⟨?_, fun b hb => ?_⟩
    · have hhead := h.base
      cases l with
      | nil =>
        simp only [List.nil_append, List.map_nil, List.cons.injEq, and_true] at hcircle
        simpa [hcircle] using hhead
      | cons a l =>
        simp only [List.nil_append, List.map_cons, List.cons_append, List.cons.injEq] at hcircle
        rw [hcircle.1]
        simpa using hhead
    · rcases List.mem_append.mp hb with hb | hb
      · exact hbelow b hb
      · exact (List.mem_singleton.mp hb).le
  | cons q r =>
    simp only [List.cons_append, List.map_cons, List.cons.injEq] at hcircle
    have hright := List.pairwise_cons.mp hlt.2.1
    rw [hcircle.1]
    refine .inl ⟨hright.1 q List.mem_cons_self, by simp, fun b hb => ?_⟩
    rcases List.mem_append.mp hb with hb | hb
    · exact .inl (hbelow b hb)
    · rcases List.mem_cons.mp hb with rfl | hb
      · exact .inl le_rfl
      · rcases List.mem_cons.mp hb with rfl | hb
        · exact .inr le_rfl
        · exact .inr ((List.pairwise_cons.mp hright.2).1 b hb).le

/-! ### Where `free` puts a block -/

/-- `p` is the last header before `bp`. -/
structure Before (ns : List Nat) (bp p : Nat) : Prop where
  mem : p ∈ ns
  lt : p < bp
  others : ∀ b ∈ ns, b ≤ p ∨ bp < b

theorem exists_before (hns : ns.Pairwise (· < ·)) (hhead : ns.head? = some n) (hn : n < bp) (hbp : bp ∉ ns) :
    ∃ p, Before ns bp p := by
  obtain ⟨ns, rfl⟩ := List.head?_eq_some_iff.mp hhead
  clear hhead
  induction ns generalizing n with
  | nil => exact ⟨n, by simp, hn, by simp⟩
  | cons m ns ih =>
    rw [List.pairwise_cons] at hns
    obtain ⟨hnm, hnb⟩ := List.ne_and_not_mem_of_not_mem_cons hbp
    have hm : m ≠ bp := fun heq => hnb (heq ▸ List.mem_cons_self)
    by_cases hlt : m < bp
    · obtain ⟨p, hp⟩ := ih hlt hns.2 hnb
      refine ⟨p, List.mem_cons_of_mem _ hp.mem, hp.lt, fun b hb => ?_⟩
      rcases List.mem_cons.mp hb with rfl | hb
      · exact .inl (hns.1 p hp.mem).le
      · exact hp.others b hb
    · refine ⟨n, List.mem_cons_self, hn, fun b hb => ?_⟩
      rcases List.mem_cons.mp hb with rfl | hb
      · exact .inl le_rfl
      · rcases List.mem_cons.mp hb with rfl | hb
        · exact .inr (by omega)
        · have := (List.pairwise_cons.mp hns.2).1 b hb
          exact .inr (by omega)

/-- The loop of `free` ends there and nowhere else. -/
theorem Listed.stops_iff (h : Listed s ns) (hp : Before ns bp p) (hq : q ∈ ns) : s.stops bp q = true ↔ q = p := by
  have hbase := h.base_le hp.mem
  have hp' := hp.lt
  have hother := hp.others q hq
  simp only [Heap.stops, Bool.or_eq_true, Bool.and_eq_true, decide_eq_true_eq]
  rcases h.next_cases hq with ⟨hlt, hmem, hnext⟩ | ⟨hptr, hlast⟩
  · have hy := hp.others _ hmem
    have hpq := hnext p hp.mem
    omega
  · have hpq := hlast p hp.mem
    rw [hptr]
    omega

theorem find?_of_unique {α : Type} {xs : List α} {a : α} {f : α → Bool} (ha : a ∈ xs)
    (h : ∀ x ∈ xs, f x = true ↔ x = a) : xs.find? f = some a := by
  obtain ⟨b, hb⟩ := List.find?_isSome.mpr ⟨a, ha, (h a ha).mpr rfl⟩ |> Option.isSome_iff_exists.mp
  rw [hb, (h b (List.mem_of_find?_eq_some hb)).mp (List.find?_some hb)]

theorem Listed.seek_eq (h : Listed s ns) (hp : Before ns bp p) {f : Nat} (hf : f ∈ ns) (hfuel : ns.length ≤ fuel) :
    seek s.ptr (s.stops bp) fuel f = some p := by
  obtain ⟨l, r, rfl⟩ := List.append_of_mem hf
  have hcircle : Loops s.ptr (f :: (r ++ l)) := h.circle.rotate
  have hmem : ∀ x, x ∈ f :: (r ++ l) ↔ x ∈ l ++ f :: r := by
    intro x
    simp only [List.mem_cons, List.mem_append]
    tauto
  refine (loops_iff_walk.mp hcircle).seek_eq (find?_of_unique ((hmem p).mpr hp.mem) fun x hx => ?_) ?_
  · exact h.stops_iff hp ((hmem x).mp hx)
  · simp only [List.length_append, List.length_cons] at hfuel ⊢
    omega

/-! ### Joining blocks -/

/-- What `free` has to do with: the headers around the block `bp`, which is in none of the
free blocks. -/
structure Gap (s : Heap) (l r : List Nat) (bp p : Nat) : Prop where
  listed : Listed s (l ++ p :: r)
  lt : p < bp
  after : ∀ b ∈ r, bp < b
  pos : 0 < s.size bp
  apart : ∀ b ∈ l ++ p :: r, b ≠ s.base → b + s.size b ≤ bp ∨ bp + s.size bp ≤ b

theorem Gap.not_mem (h : Gap s l r bp p) : bp ∉ l ++ p :: r := by
  intro hmem
  have hlt := List.pairwise_append.mp h.listed.lt
  rcases List.mem_append.mp hmem with hmem | hmem
  · have := hlt.2.2 bp hmem p List.mem_cons_self
    have := h.lt
    omega
  · rcases List.mem_cons.mp hmem with heq | hmem
    · have := h.lt
      omega
    · exact Nat.lt_irrefl _ (h.after bp hmem)

/-- After `joinNext`: the circle without `bp`, and without the block that is joined to it. -/
structure Joined (s : Heap) (l r : List Nat) (bp p : Nat) (t : Heap) (r' : List Nat) : Prop where
  circle : Loops (Function.update t.ptr p (t.ptr bp)) (p :: (r' ++ l))
  sub : r'.Sublist r
  size : ∀ b, b ≠ bp → t.size b = s.size b
  larger : s.size bp ≤ t.size bp
  apart : ∀ b ∈ r', bp + t.size bp < b
  tally : ∀ u, tally [(bp, t.size bp)] u + tally (extents t.size r') u =
    tally [(bp, s.size bp)] u + tally (extents s.size r) u
  units : t.size bp + units (extents t.size r') = s.size bp + units (extents s.size r)
  same : t.base = s.base ∧ t.brk = s.brk

section Gap
variable {r' : List Nat}

theorem Gap.circle (h : Gap s l r bp p) : Loops s.ptr (p :: (r ++ l)) := h.listed.circle.rotate

theorem Gap.mem_iff (b : Nat) : b ∈ p :: (r ++ l) ↔ b ∈ l ++ p :: r := by
  simp only [List.mem_cons, List.mem_append]
  tauto

theorem Gap.ne (h : Gap s l r bp p) {b : Nat} (hb : b ∈ l ++ p :: r) : b ≠ bp := fun heq => h.not_mem (heq ▸ hb)

theorem Gap.base_lt (h : Gap s l r bp p) : s.base < bp :=
  (h.listed.base_le (by simp)).trans_lt h.lt

/-- The block after the gap, if there is one. -/
theorem Gap.next_eq (h : Gap s l r bp p) : (r = [] ∧ s.ptr p = s.base) ∨ ∃ r₂, r = s.ptr p :: r₂ := by
  cases r with
  | nil =>
    refine .inl ⟨rfl, ?_⟩
    rcases h.listed.next_cases (p := p) (by simp) with ⟨hlt, hmem, _⟩ | ⟨hptr, _⟩
    · have hle := (List.pairwise_append.mp h.listed.lt).2.2
      rcases List.mem_append.mp hmem with hmem | hmem
      · have := hle _ hmem p (by simp)
        omega
      · simp at hmem
        omega
    · exact hptr
  | cons q r₂ =>
    have hcircle := loops_cons.mp h.circle
    simp only [List.cons_append, List.map_cons, List.cons.injEq] at hcircle
    exact .inr ⟨r₂, by rw [hcircle.1]⟩

theorem Gap.joinNext (h : Gap s l r bp p) : ∃ r', Joined s l r bp p (s.joinNext bp p) r' := by
  have hne : ∀ b ∈ p :: (r ++ l), b ≠ bp := fun b hb => h.ne ((Gap.mem_iff b).mp hb)
  have hsorted := (List.pairwise_append.mp h.listed.sorted).2.1
  unfold Heap.joinNext
  by_cases hjoin : bp + s.size bp = s.ptr p
  · -- the next block starts where this one ends
    rw [if_pos hjoin]
    obtain ⟨_, hbase⟩ | ⟨r₂, rfl⟩ := h.next_eq
    · have := h.base_lt
      omega
    · have hr₂ : ∀ b ∈ r₂, b ≠ bp := fun b hb => hne b (by simp [hb])
      have hsize : ∀ b ∈ r₂, Function.update s.size bp (s.size bp + s.size (s.ptr p)) b = s.size b := fun b hb =>
        Function.update_of_ne (hr₂ b hb) ..
      refine ⟨r₂, ?_, List.sublist_cons_self .., fun b hb => Function.update_of_ne hb .., by simp, fun b hb => ?_,
        fun u => ?_, ?_, rfl, rfl⟩
      · have hp : p ∉ s.ptr p :: (r₂ ++ l) := (List.nodup_cons.mp (List.nodup_append_comm.mp h.listed.nodup)).1
        have hcircle : Loops s.ptr (p :: s.ptr p :: (r₂ ++ l)) := h.circle
        refine (hcircle.remove hp).congr fun x hx => ?_
        have hxbp : x ≠ bp := by
          apply hne x
          rcases List.mem_cons.mp hx with rfl | hx
          · exact List.mem_cons_self
          · exact List.mem_cons_of_mem _ (List.mem_cons_of_mem _ hx)
        by_cases hxp : x = p
        · simp [hxp]
        · simp [hxp, hxbp]
      · have := (List.pairwise_cons.mp (List.pairwise_cons.mp hsorted).2).1 b hb
        simp only [Function.update_self]
        omega
      · dsimp only
        rw [Function.update_self, extents_congr hsize, tally_join, hjoin, extents_cons,
          tally_cons (s.ptr p, _) (extents s.size r₂)]
        omega
      · dsimp only
        rw [Function.update_self, extents_congr hsize, extents_cons, units_cons]
        omega
  · rw [if_neg hjoin]
    refine ⟨r, ?_, List.Sublist.refl r, fun _ _ => rfl, le_rfl, fun b hb => ?_, fun u => rfl, rfl, rfl, rfl⟩
    · refine h.circle.congr fun x hx => ?_
      by_cases hxp : x = p
      · simp [hxp]
      · simp [hxp, hne x hx]
    · have hmem : b ∈ l ++ p :: r := by simp [hb]
      have hafter := h.after b hb
      have hbase := h.base_lt
      have hle : ∀ c ∈ r, bp + s.size bp ≤ c := by
        intro c hc
        have := h.after c hc
        have := h.apart c (by simp [hc]) (by omega)
        omega
      obtain ⟨rfl, _⟩ | ⟨r₂, hr⟩ := h.next_eq
      · simp at hb
      · have hfirst := hle (s.ptr p) (by rw [hr]; simp)
        rw [hr] at hb
        rcases List.mem_cons.mp hb with rfl | hb
        · simp only
          omega
        · rw [hr, List.pairwise_cons] at hsorted
          have := (List.pairwise_cons.mp hsorted.2).1 b hb
          simp only
          omega

/-- What `free` leaves, when it has put the block `bp` among the free ones. -/
structure Freed (s : Heap) (ns : List Nat) (bp : Nat) (s' : Heap) (ns' : List Nat) : Prop where
  listed : Listed s' ns'
  tally : ∀ u, tally (extents s'.size ns') u = tally (extents s.size ns) u + tally [(bp, s.size bp)] u
  units : units (extents s'.size ns') = units (extents s.size ns) + s.size bp
  large : ∃ b ∈ ns', s.size bp ≤ s'.size b
  length : ns'.length ≤ ns.length + 1
  size : ∀ b, b ∉ ns → b ≠ bp → s'.size b = s.size b
  same : s'.base = s.base ∧ s'.brk = s.brk

/-- The memory of `p` and of `bp` belongs to the headers `m`, which stand in the place of `p`. -/
structure Settled (t : Heap) (r' : List Nat) (bp p : Nat) (size' : Nat → Nat) (m : List Nat) : Prop where
  head : ∃ m', m = p :: m'
  length : m.length ≤ 2
  sub : ∀ b ∈ m, b = p ∨ b = bp
  size : ∀ b, b ∉ m → size' b = t.size b
  sorted : m.Pairwise fun a b => a + size' a < b
  below : ∀ a ∈ m, ∀ b ∈ r', a + size' a < b
  empty : t.size t.base = 0 → size' t.base = 0
  pos : ∀ b ∈ m, b ≠ t.base → 0 < size' b
  tally : ∀ u, tally (extents size' m) u = tally [(p, t.size p)] u + tally [(bp, t.size bp)] u
  units : units (extents size' m) = t.size p + t.size bp
  large : ∃ b ∈ m, t.size bp ≤ size' b

theorem Gap.size_eq (h : Gap s l r bp p) (hj : Joined s l r bp p t r') {b : Nat} (hb : b ∈ l ++ p :: r) :
    t.size b = s.size b :=
  hj.size b (h.ne hb)

theorem Gap.not_mem_others (h : Gap s l r bp p) (hj : Joined s l r bp p t r') : p ∉ r' ++ l ∧ bp ∉ r' ++ l := by
  have hp := (List.nodup_cons.mp (List.nodup_append_comm.mp h.listed.nodup)).1
  have hsub : r' ++ l ⊆ r ++ l := List.append_subset.mpr
    ⟨List.subset_append_of_subset_left _ hj.sub.subset, List.subset_append_right ..⟩
  exact ⟨fun hmem => hp (hsub hmem), fun hmem => h.not_mem ((Gap.mem_iff bp).mp (List.mem_cons_of_mem _ (hsub hmem)))⟩

theorem Gap.freed (h : Gap s l r bp p) (hj : Joined s l r bp p t r') {size' ptr' : Nat → Nat} {m : List Nat}
    (hm : Settled t r' bp p size' m) (hcircle : Loops ptr' (l ++ (m ++ r'))) :
    Freed s (l ++ p :: r) bp { t with ptr := ptr', size := size', freep := some p } (l ++ (m ++ r')) := by
  have hothers := h.not_mem_others hj
  have hm_not : ∀ b ∈ r' ++ l, b ∉ m := by
    intro b hb hmem
    rcases hm.sub b hmem with rfl | rfl
    · exact hothers.1 hb
    · exact hothers.2 hb
  have hl : ∀ a ∈ l, size' a = s.size a := fun a ha =>
    (hm.size a (hm_not a (by simp [ha]))).trans (h.size_eq hj (by simp [ha]))
  have hrt : ∀ b ∈ r', size' b = t.size b := fun b hb => hm.size b (hm_not b (by simp [hb]))
  have hr : ∀ b ∈ r', size' b = s.size b := fun b hb =>
    (hrt b hb).trans (h.size_eq hj (by simp [hj.sub.subset hb]))
  have hp : t.size p = s.size p := h.size_eq hj (by simp)
  obtain ⟨m', rfl⟩ := hm.head
  have hsorted := List.pairwise_append.mp h.listed.sorted
  refine ⟨⟨?_, hcircle, ?_, ?_, ?_, ⟨p, by simp, rfl⟩⟩, fun u => ?_, ?_, ?_, ?_, fun b hb hbp => ?_, hj.same⟩
  · rw [hj.same.1, ← h.listed.base]
    cases l <;> rfl
  · refine List.pairwise_append.mpr ⟨?_, List.pairwise_append.mpr ⟨hm.sorted, ?_, hm.below⟩, fun a ha b hb => ?_⟩
    · refine hsorted.1.imp_of_mem fun ha _ hab => ?_
      dsimp only
      rwa [hl _ ha]
    · refine ((List.pairwise_cons.mp hsorted.2.1).2.sublist hj.sub).imp_of_mem fun ha _ hab => ?_
      dsimp only
      rwa [hr _ ha]
    · dsimp only
      rw [hl a ha]
      have hap := hsorted.2.2 a ha p List.mem_cons_self
      rcases List.mem_append.mp hb with hb | hb
      · have hlt := h.lt
        rcases hm.sub b hb with rfl | rfl
        · exact hap
        · omega
      · exact hsorted.2.2 a ha b (List.mem_cons_of_mem _ (hj.sub.subset hb))
  · apply hm.empty
    rw [hj.same.1, h.size_eq hj h.listed.base_mem, h.listed.empty]
  · intro b hb hbase
    dsimp only at hbase ⊢
    rcases List.mem_append.mp hb with hb | hb
    · rw [hl b hb]
      exact h.listed.pos b (by simp [hb]) (hj.same.1 ▸ hbase)
    · rcases List.mem_append.mp hb with hb | hb
      · exact hm.pos b hb hbase
      · rw [hr b hb]
        exact h.listed.pos b (by simp [hj.sub.subset hb]) (hj.same.1 ▸ hbase)
  · have hjoined := hj.tally u
    have hmiddle := hm.tally u
    dsimp only
    rw [extents_append, extents_append, extents_append, extents_cons s.size p r, extents_congr hl, extents_congr hrt,
      tally_append, tally_append, tally_append, tally_cons _ (extents s.size r), hmiddle, hp]
    omega
  · have hjoined := hj.units
    have hmiddle := hm.units
    dsimp only
    rw [extents_append, extents_append, extents_append, extents_cons s.size p r, extents_congr hl, extents_congr hrt,
      units_append, units_append, units_append, units_cons, hmiddle, hp]
    omega
  · obtain ⟨b, hb, hlarge⟩ := hm.large
    exact ⟨b, by simp only [List.mem_append]; exact .inr (.inl hb), hj.larger.trans hlarge⟩
  · have hlength := hm.length
    have hsub := hj.sub.length_le
    simp only [List.length_append, List.length_cons] at hlength ⊢
    omega
  · have hb_not : b ∉ p :: m' := by
      intro hmem
      rcases hm.sub b hmem with rfl | rfl
      · exact hb (by simp)
      · exact hbp rfl
    exact (hm.size b hb_not).trans (hj.size b hbp)

theorem Gap.joinPrev (h : Gap s l r bp p) (hj : Joined s l r bp p t r') :
    ∃ ns', Freed s (l ++ p :: r) bp { t.joinPrev bp p with freep := some p } ns' := by
  have hp : t.size p = s.size p := h.size_eq hj (by simp)
  have hlt := h.lt
  have hpos : 0 < t.size bp := h.pos.trans_le hj.larger
  have hothers := h.not_mem_others hj
  unfold Heap.joinPrev
  by_cases hjoin : p + t.size p = bp
  · rw [if_pos hjoin]
    have hpbase : p ≠ t.base := by
      intro heq
      rw [hj.same.1] at heq
      rw [hp, heq, h.listed.empty] at hjoin
      omega
    have hm : Settled t r' bp p (Function.update t.size p (t.size p + t.size bp)) [p] := by
      refine ⟨⟨[], rfl⟩, by simp, by simp, fun b hb => Function.update_of_ne (by simpa using hb) .., by simp, ?_, fun hempty => ?_,
        ?_, fun u => ?_, ?_, ⟨p, by simp, by simp⟩⟩
      · intro a ha b hb
        have := hj.apart b hb
        rw [List.mem_singleton.mp ha, Function.update_self]
        omega
      · rwa [Function.update_of_ne hpbase.symm]
      · intro b hb _
        rw [List.mem_singleton.mp hb, Function.update_self]
        omega
      · rw [extents_cons, Function.update_self, ← hjoin]
        exact tally_join ..
      · simp [extents, units]
    have hcircle : Loops (Function.update t.ptr p (t.ptr bp)) ((p :: r') ++ l) := hj.circle
    exact ⟨_, h.freed hj hm hcircle.rotate⟩
  · rw [if_neg hjoin]
    have hgap : p + t.size p < bp := by
      by_cases hpbase : p = s.base
      · rw [hp, hpbase, h.listed.empty]
        omega
      · have := h.apart p (by simp) hpbase
        omega
    have hm : Settled t r' bp p t.size [p, bp] := by
      refine ⟨⟨[bp], rfl⟩, le_rfl, by simp, fun _ _ => rfl, by simpa using hgap, ?_, id, ?_, fun u => ?_, ?_, ⟨bp, by simp, le_rfl⟩⟩
      · intro a ha b hb
        have := hj.apart b hb
        simp only [List.mem_cons, List.not_mem_nil, or_false] at ha
        rcases ha with rfl | rfl
        · omega
        · exact this
      · intro b hb hbase
        simp only [List.mem_cons, List.not_mem_nil, or_false] at hb
        rcases hb with rfl | rfl
        · rw [hp]
          exact h.listed.pos b (by simp) (hj.same.1 ▸ hbase)
        · exact hpos
      · exact tally_cons ..
      · simp [extents, units]
    have hbp : bp ∉ p :: (r' ++ l) := List.not_mem_cons_of_ne_of_not_mem hlt.ne' hothers.2
    have hcircle : Loops _ ((p :: bp :: r') ++ l) := hj.circle.insert hbp hothers.1
    refine ⟨_, h.freed hj hm (hcircle.rotate.congr fun x _ => ?_)⟩
    rw [Function.update_self]
    by_cases hxp : x = p
    · simp [hxp]
    · by_cases hxbp : x = bp
      · simp [hxbp, hlt.ne']
      · simp [hxp, hxbp]

end Gap

theorem Listed.length_le (h : Listed s ns) : ns.length ≤ units (extents s.size ns) + 1 := by
  obtain ⟨fs, rfl⟩ := List.head?_eq_some_iff.mp h.base
  have hlength : (extents s.size fs).length ≤ units (extents s.size fs) := by
    refine length_le_units fun b hb => ?_
    obtain ⟨a, ha, rfl⟩ := List.mem_map.mp hb
    exact h.pos a (List.mem_cons_of_mem _ ha) ((List.pairwise_cons.mp h.lt).1 a ha).ne'
  rw [extents, List.length_map] at hlength
  rw [extents_cons, units_cons, List.length_cons]
  exact Nat.succ_le_succ (hlength.trans (Nat.le_add_left ..))

/-- `free` of a block that is above `base` and in none of the free blocks. -/
theorem Listed.free (h : Listed s ns) (hbase : s.base < bp) (hpos : 0 < s.size bp)
    (hapart : ∀ b ∈ ns, b ≠ s.base → b + s.size b ≤ bp ∨ bp + s.size bp ≤ b) (hfuel : ns.length ≤ fuel) :
    ∃ s' ns', s.free fuel (bp + 1) = some s' ∧ Freed s ns bp s' ns' := by
  have hnot : bp ∉ ns := fun hmem => by
    have := hapart bp hmem hbase.ne'
    omega
  obtain ⟨f, hf, hfreep⟩ := h.freep
  obtain ⟨p, hp⟩ := exists_before h.lt h.base hbase hnot
  have hseek := h.seek_eq hp hf hfuel
  obtain ⟨l, r, rfl⟩ := List.append_of_mem hp.mem
  have hgap : Gap s l r bp p := by
    refine ⟨h, hp.lt, fun b hb => ?_, hpos, hapart⟩
    have hpb := (List.pairwise_cons.mp (List.pairwise_append.mp h.lt).2.1).1 b hb
    rcases hp.others b (by simp [hb]) with hle | hlt
    · omega
    · exact hlt
  obtain ⟨r', hjoined⟩ := hgap.joinNext
  obtain ⟨ns', hfreed⟩ := hgap.joinPrev hjoined
  refine ⟨_, ns', ?_, hfreed⟩
  simp only [Heap.free, Nat.add_sub_cancel, hfreep, Option.bind_some, hseek, Option.map_some]

/-! ### Taking a block -/

/-- What `malloc` leaves, when it has taken the `n` units at `bp`. -/
structure Taken (s : Heap) (ns : List Nat) (n : Nat) (s' : Heap) (ns' : List Nat) (bp : Nat) : Prop where
  listed : Listed s' ns'
  tally : ∀ u, tally (extents s'.size ns') u + tally [(bp, n)] u = tally (extents s.size ns) u
  units : units (extents s'.size ns') + n = units (extents s.size ns)
  header : s'.size bp = n
  above : s.base < bp
  size : ∀ b, Library.tally (extents s.size ns) b = 0 → s'.size b = s.size b
  same : s'.base = s.base ∧ s'.brk = s.brk

/-- The header before one that is not `base`. -/
theorem Listed.split (h : Listed s ns) (hq : q ∈ ns) (hbase : s.ptr q ≠ s.base) :
    ∃ l r, ns = l ++ q :: s.ptr q :: r := by
  obtain ⟨l, r, rfl⟩ := List.append_of_mem hq
  have hcircle : Loops s.ptr (q :: (r ++ l)) := h.circle.rotate
  have hnext := loops_cons.mp hcircle
  cases r with
  | nil =>
    have hhead := h.base
    cases l with
    | nil => simp_all
    | cons a l => simp_all
  | cons p r =>
    simp only [List.cons_append, List.map_cons, List.cons.injEq] at hnext
    exact ⟨l, r, by rw [hnext.1]⟩

/-- All of the block after `q` is taken. -/
theorem Listed.unlink (h : Listed s (l ++ q :: p :: r)) (hbase : p ≠ s.base) :
    Taken s (l ++ q :: p :: r) (s.size p) { s with ptr := Function.update s.ptr q (s.ptr p), freep := some q }
      (l ++ q :: r) p := by
  have hbase_le := h.base_le (b := p) (by simp)
  refine ⟨⟨?_, ?_, ?_, h.empty, ?_, ⟨q, by simp, rfl⟩⟩, fun u => ?_, ?_, rfl, by omega, fun _ _ => rfl, rfl, rfl⟩
  · rw [← h.base]
    cases l <;> rfl
  · have hcircle : Loops s.ptr (q :: p :: (r ++ l)) := h.circle.rotate
    have hnot : q ∉ p :: (r ++ l) := (List.nodup_cons.mp (List.nodup_append_comm.mp h.nodup)).1
    have hremoved : Loops _ ((q :: r) ++ l) := hcircle.remove hnot
    exact hremoved.rotate
  · refine h.sorted.sublist ?_
    exact (List.Sublist.cons_cons q (List.sublist_cons_self p r)).append_left l
  · intro b hb
    refine h.pos b ?_
    simp only [List.mem_append, List.mem_cons] at hb ⊢
    tauto
  · simp only [extents_append, extents_cons, tally_append, tally_cons _ (_ :: extents s.size r),
      tally_cons _ (extents s.size r)]
    omega
  · simp only [extents_append, extents_cons, units_append, units_cons]
    omega

/-- The end of the block `p` is taken. -/
theorem Listed.shrink (h : Listed s (l ++ p :: r)) (hbase : p ≠ s.base) (hn : 0 < n) (hsize : n < s.size p)
    (hq : q ∈ l ++ p :: r) :
    Taken s (l ++ p :: r) n
      { s with
        size := Function.update (Function.update s.size p (s.size p - n)) (p + (s.size p - n)) n
        freep := some q }
      (l ++ p :: r) (p + (s.size p - n)) := by
  have hcut : s.size p - n + n = s.size p := Nat.sub_add_cancel hsize.le
  have hp : p ∈ l ++ p :: r := by simp
  have hbase_le := h.base_le hp
  have hnot : p + (s.size p - n) ∉ l ++ p :: r := by
    intro hmem
    rcases h.apart hmem hp with hlt | heq | hlt <;> omega
  generalize hsize' : Function.update (Function.update s.size p (s.size p - n)) (p + (s.size p - n)) n = size'
  have hself : size' p = s.size p - n := by
    rw [← hsize', Function.update_of_ne (by omega), Function.update_self]
  have hnew : size' (p + (s.size p - n)) = n := by
    rw [← hsize', Function.update_self]
  have hother : ∀ b, b ≠ p + (s.size p - n) → b ≠ p → size' b = s.size b := by
    intro b hnew hbp
    rw [← hsize', Function.update_of_ne hnew, Function.update_of_ne hbp]
  have hlisted : ∀ b ∈ l ++ p :: r, b ≠ p → size' b = s.size b := fun b hb hbp =>
    hother b (fun heq => hnot (heq ▸ hb)) hbp
  have hpnot : p ∉ r ++ l := (List.nodup_cons.mp (List.nodup_append_comm.mp h.nodup)).1
  have hel : extents size' l = extents s.size l := extents_congr fun b hb =>
    hlisted b (by simp [hb]) fun heq => hpnot (by simp [← heq, hb])
  have her : extents size' r = extents s.size r := extents_congr fun b hb =>
    hlisted b (by simp [hb]) fun heq => hpnot (by simp [← heq, hb])
  refine ⟨⟨h.base, h.circle, ?_, ?_, ?_, ⟨q, hq, rfl⟩⟩, fun u => ?_, ?_, hnew, by omega, fun b hb => ?_, rfl, rfl⟩
  · refine h.sorted.imp_of_mem fun {a b} ha _ hab => ?_
    dsimp only
    by_cases hap : a = p
    · rw [hap] at hab ⊢
      omega
    · rwa [hlisted a ha hap]
  · exact (hlisted _ h.base_mem hbase.symm).trans h.empty
  · intro b hb hbbase
    dsimp only
    by_cases hbp : b = p
    · rw [hbp, hself]
      exact Nat.sub_pos_of_lt hsize
    · rw [hlisted b hb hbp]
      exact h.pos b hb hbbase
  · have hjoin := tally_join p (s.size p - n) n u
    rw [hcut] at hjoin
    dsimp only
    rw [extents_append, extents_append, extents_cons, extents_cons, hel, her, hself, tally_append, tally_append,
      tally_cons _ (extents s.size r), tally_cons (p, s.size p)]
    omega
  · dsimp only
    rw [extents_append, extents_append, extents_cons, extents_cons, hel, her, hself, units_append, units_append,
      units_cons, units_cons]
    omega
  · -- the new header is inside the block
    have hmem : (p, s.size p) ∈ extents s.size (l ++ p :: r) := List.mem_map.mpr ⟨p, hp, rfl⟩
    have hout : ¬ (p ≤ b ∧ b < p + s.size p) := fun hin => (tally_pos_of_mem hmem hin).ne' hb
    exact hother b (by omega) (by omega)

theorem Listed.take (h : Listed s ns) (hn : 0 < n) (hq : q ∈ ns) (hsize : n ≤ s.size (s.ptr q)) :
    ∃ s' ns' bp, s.take n q (s.ptr q) = (s', some (bp + 1)) ∧ Taken s ns n s' ns' bp := by
  have hbase : s.ptr q ≠ s.base := by
    intro heq
    rw [heq, h.empty] at hsize
    omega
  obtain ⟨l, r, rfl⟩ := h.split hq hbase
  generalize s.ptr q = p at *
  unfold Heap.take
  by_cases heq : s.size p = n
  · subst heq
    rw [if_pos rfl]
    exact ⟨_, _, _, rfl, h.unlink hbase⟩
  · have hsplit : l ++ q :: p :: r = (l ++ [q]) ++ p :: r := by simp
    rw [hsplit] at h hq ⊢
    rw [if_neg heq]
    simp only [Function.update_self]
    exact ⟨_, _, _, rfl, h.shrink hbase hn (by omega) hq⟩

end CompilingToAssembly.Xv6.Umalloc
