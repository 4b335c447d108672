import CompilingToAssembly.Library.CircularList
import CompilingToAssembly.Library.Machine
import Mathlib.Data.List.FinRange

/-! `bio.c`: the buffer cache.

The cache's lock makes the search in `bget` one step; the process then waits for the lock
of the buffer it found. `brelse` gives that lock up first and takes the buffer out of use
in a later step, so that others may come in between. A node of the list is a buffer, or
the head of the list (`none`). -/
namespace CompilingToAssembly.Xv6.Bio
open Library

structure Buf where
  dev : Nat
  blockno : Nat
  valid : Bool
  dirty : Bool
  refcnt : Nat
  deriving DecidableEq

/-- What a process asked `bget` for. -/
structure Claim (P : Type) where
  proc : P
  dev : Nat
  blockno : Nat
  deriving DecidableEq

/-- The process of a claim in `lock b` holds the buffer, one in `waiting` waits for its
lock, and one that gave it up and has not left `brelse` yet counts in `leaving`. `stamp b`
is when buffer `b` was last taken out of use. -/
structure State (P : Type) (n : Nat) where
  buf : Fin n → Buf
  links : Links (Option (Fin n))
  lock : Fin n → Option (Claim P)
  waiting : List (Claim P × Fin n)
  leaving : List (Fin n)
  clock : Nat
  stamp : Fin n → Nat

inductive Event (P : Type) (n : Nat) where
  | bget (c : Claim P)
  | acquiresleep (c : Claim P) (b : Fin n)
  /-- `iderw` in `bread`. -/
  | fill (p : P) (b : Fin n)
  /-- `log_write` marks the buffer. -/
  | mark (p : P) (b : Fin n)
  | bwrite (p : P) (b : Fin n)
  | brelse (p : P) (b : Fin n)
  /-- The rest of `brelse`. -/
  | leave (b : Fin n)

variable {P : Type} {n : Nat}

/-- Memory as the kernel starts: no buffer holds a block. -/
def zeroBuf : Buf := ⟨0, 0, false, false, 0⟩

/-- `binit`: buffer after buffer is put in front. -/
def binit : State P n where
  buf := fun _ => zeroBuf
  links := (List.finRange n).foldl (fun l b => l.insertFront none (some b)) ⟨fun _ => none, fun _ => none⟩
  lock := fun _ => none
  waiting := []
  leaving := []
  clock := 0
  stamp := fun _ => 0

namespace State
variable (s : State P n)

def cached (dev blockno : Nat) (b : Fin n) : Bool := (s.buf b).dev == dev && (s.buf b).blockno == blockno

def unused (b : Fin n) : Bool := (s.buf b).refcnt == 0 && !(s.buf b).dirty

/-- The first loop of `bget`. -/
def lookup (dev blockno : Nat) : Option (Fin n) :=
  (s.links.find none (·.any (s.cached dev blockno)) (n + 1) (s.links.next none)).join

/-- The second loop of `bget`. -/
def victim : Option (Fin n) :=
  (s.links.flip.find none (·.any s.unused) (n + 1) (s.links.prev none)).join

def setBuf (b : Fin n) (v : Buf) : State P n := { s with buf := Function.update s.buf b v }

/-- Process `c.proc` refers to buffer `b` and waits for its lock. -/
def enter (c : Claim P) (b : Fin n) : State P n := { s with waiting := (c, b) :: s.waiting }

end State

variable [DecidableEq P]

def holds (s : State P n) (p : P) (b : Fin n) : Bool := (s.lock b).any (·.proc = p)

def step (s : State P n) : Event P n → Turn (State P n)
  | .bget c =>
    match s.lookup c.dev c.blockno with
    | some b => .next ((s.setBuf b { s.buf b with refcnt := (s.buf b).refcnt + 1 }).enter c b)
    | none =>
      match s.victim with
      | some b => .next ((s.setBuf b ⟨c.dev, c.blockno, false, false, 1⟩).enter c b)
      | none => .panics "bget: no buffers"
  | .acquiresleep c b =>
    if (c, b) ∈ s.waiting ∧ s.lock b = none then
      .next { s with waiting := s.waiting.erase (c, b), lock := Function.update s.lock b (some c) }
    else .waits
  | .fill p b =>
    if holds s p b ∧ (s.buf b).valid = false then
      .next (s.setBuf b { s.buf b with valid := true, dirty := false })
    else .waits
  | .mark p b => if holds s p b then .next (s.setBuf b { s.buf b with dirty := true }) else .waits
  | .bwrite p b =>
    if holds s p b then .next (s.setBuf b { s.buf b with valid := true, dirty := false })
    else .panics "bwrite"
  | .brelse p b =>
    if holds s p b then .next { s with lock := Function.update s.lock b none, leaving := b :: s.leaving }
    else .panics "brelse"
  | .leave b =>
    if b ∈ s.leaving then
      let s := { s.setBuf b { s.buf b with refcnt := (s.buf b).refcnt - 1 } with leaving := s.leaving.erase b }
      if (s.buf b).refcnt = 0 then
        .next { s with
          links := (s.links.unlink (some b)).insertFront none (some b)
          clock := s.clock + 1
          stamp := Function.update s.stamp b (s.clock + 1) }
      else .next s
    else .waits

omit [DecidableEq P] in
/-- The file system is not on device 0, which buffers name that never held a block. -/
def Orderly (_ : State P n) : Event P n → Prop
  | .bget c => c.dev ≠ 0
  | _ => True

/-! ### The list -/

section List
omit [DecidableEq P]
variable {s s' : State P n} {bs : List (Fin n)}

/-- The list is that of the buffers `bs`: all of them, the one last taken out of use in
front. -/
structure Listed (s : State P n) (bs : List (Fin n)) : Prop where
  all : bs.Perm (List.finRange n)
  linked : s.links.Circular none (bs.map some)
  recent : bs.Pairwise fun a b => s.stamp b ≤ s.stamp a
  past : ∀ b, s.stamp b ≤ s.clock

theorem Listed.length (h : Listed s bs) : bs.length = n := by simpa using h.all.length_eq

theorem Listed.mem (h : Listed s bs) (b : Fin n) : b ∈ bs := h.all.mem_iff.mpr (List.mem_finRange b)

theorem Listed.nodup (h : Listed s bs) : bs.Nodup := h.all.nodup_iff.mpr (List.nodup_finRange n)

theorem join_find?_map (bs : List (Fin n)) (p : Fin n → Bool) : ((bs.map some).find? (·.any p)).join = bs.find? p := by
  rw [List.find?_map]
  cases h : bs.find? ((·.any p) ∘ some) <;> exact h.symm

theorem Listed.lookup_eq (h : Listed s bs) (dev blockno : Nat) :
    s.lookup dev blockno = bs.find? (s.cached dev blockno) := by
  rw [State.lookup, h.linked.find_eq _ (by simp [h.length]), join_find?_map]

theorem Listed.victim_eq (h : Listed s bs) : s.victim = bs.reverse.find? s.unused := by
  have hflip := h.linked.flip
  rw [← List.map_reverse] at hflip
  have hfind := hflip.find_eq (·.any s.unused) (show _ < n + 1 by simp [h.length])
  rw [State.victim, ← join_find?_map]
  exact congrArg Option.join hfind

/-- A buffer taken out of use goes to the front. -/
theorem Listed.toFront (h : Listed s bs) (b : Fin n) : Listed { s with
    links := (s.links.unlink (some b)).insertFront none (some b)
    clock := s.clock + 1
    stamp := Function.update s.stamp b (s.clock + 1) } (b :: bs.erase b) := by
  obtain ⟨xs, ys, _, hbs, herase⟩ := List.exists_erase_eq (h.mem b)
  have hnodup := h.nodup
  have hnot : b ∉ xs ++ ys := by
    rw [← herase]
    exact hnodup.not_mem_erase
  have hle (a : Fin n) : Function.update s.stamp b (s.clock + 1) a ≤ s.clock + 1 := by
    by_cases hab : a = b
    · rw [hab, Function.update_self]
    · rw [Function.update_of_ne hab]
      exact Nat.le_succ_of_le (h.past a)
  refine ⟨?_, ?_, ?_, hle⟩
  · exact (List.perm_cons_erase (h.mem b)).symm.trans h.all
  · have hlinked := h.linked
    rw [hbs, List.map_append, List.map_cons] at hlinked
    have hout := hlinked.unlink
    rw [← List.map_append] at hout
    rw [herase, List.map_cons]
    exact hout.insertFront (by simpa using hnot)
  · rw [List.pairwise_cons]
    refine ⟨fun a _ => ?_, ?_⟩
    · simp only [Function.update_self]
      exact hle a
    · refine (h.recent.sublist List.erase_sublist).imp_of_mem fun {a c} ha hc hac => ?_
      have hne {x : Fin n} (hx : x ∈ bs.erase b) : x ≠ b := fun heq => hnodup.not_mem_erase (heq ▸ hx)
      simp only [Function.update_of_ne (hne ha), Function.update_of_ne (hne hc)]
      exact hac

theorem listed_binit : Listed (binit : State P n) (List.finRange n).reverse := by
  refine ⟨(List.reverse_perm _), ?_, ?_, fun _ => le_rfl⟩
  · suffices ∀ (done todo : List (Fin n)) (l : Links (Option (Fin n))), (done ++ todo).Nodup →
        l.Circular none (done.reverse.map some) →
        (todo.foldl (fun l b => l.insertFront none (some b)) l).Circular none ((done ++ todo).reverse.map some) by
      have hstart : Links.Circular (ν := Option (Fin n)) ⟨fun _ => none, fun _ => none⟩ none (([] : List (Fin n)).map some) :=
        ⟨⟨rfl, rfl⟩, by simp⟩
      exact this [] (List.finRange n) _ (List.nodup_finRange n) hstart
    intro done todo
    induction todo generalizing done with
    | nil => intro l _ h; simpa using h
    | cons b todo ih =>
      intro l hnodup h
      rw [List.append_cons] at hnodup ⊢
      apply ih (done ++ [b]) _ hnodup
      rw [List.reverse_append, List.reverse_singleton, List.singleton_append, List.map_cons]
      apply h.insertFront
      have hb := (List.nodup_append.mp (List.nodup_append.mp hnodup).1).2.2
      simpa using fun hin => hb b hin b (by simp) rfl
  · exact List.pairwise_of_forall fun _ _ => le_rfl

end List

/-! ### Who refers to a buffer -/

section Claims
variable {s s' : State P n} {c : Claim P} {b : Fin n}

omit [DecidableEq P] in
/-- How many processes refer to a buffer. -/
def references (s : State P n) (b : Fin n) : Nat :=
  s.waiting.countP (·.2 = b) + (s.lock b).toList.length + s.leaving.count b

omit [DecidableEq P] in
/-- The buffer holds what the process asked for. -/
def Names (s : State P n) (b : Fin n) (c : Claim P) : Prop :=
  (s.buf b).dev = c.dev ∧ (s.buf b).blockno = c.blockno ∧ c.dev ≠ 0

omit [DecidableEq P] in
structure Claimed (s : State P n) : Prop where
  counted : ∀ b, (s.buf b).refcnt = references s b
  waiting : ∀ c b, (c, b) ∈ s.waiting → Names s b c
  locked : ∀ b c, s.lock b = some c → Names s b c
  unique : ∀ b b', (s.buf b).dev ≠ 0 → (s.buf b).dev = (s.buf b').dev →
    (s.buf b).blockno = (s.buf b').blockno → b = b'

omit [DecidableEq P] in
/-- Changes that leave each buffer with its block. -/
theorem Claimed.of_same (h : Claimed s) (hdev : ∀ b, (s'.buf b).dev = (s.buf b).dev)
    (hblockno : ∀ b, (s'.buf b).blockno = (s.buf b).blockno)
    (hcounted : ∀ b, (s'.buf b).refcnt = references s' b)
    (hwaiting : ∀ c b, (c, b) ∈ s'.waiting → Names s b c)
    (hlocked : ∀ b c, s'.lock b = some c → Names s b c) : Claimed s' := by
  have hnames (b : Fin n) (c : Claim P) : Names s b c → Names s' b c := fun hn =>
    ⟨(hdev b).trans hn.1, (hblockno b).trans hn.2.1, hn.2.2⟩
  refine ⟨hcounted, fun c b hc => hnames b c (hwaiting c b hc), fun b c hc => hnames b c (hlocked b c hc), ?_⟩
  intro b b'
  rw [hdev, hdev, hblockno, hblockno]
  exact h.unique b b'

omit [DecidableEq P] in
/-- A buffer gets other marks. -/
theorem Claimed.setBuf (h : Claimed s) {v : Buf} (hdev : v.dev = (s.buf b).dev)
    (hblockno : v.blockno = (s.buf b).blockno) (hrefcnt : v.refcnt = (s.buf b).refcnt) :
    Claimed (s.setBuf b v) := by
  have hbuf (x : Fin n) : ((s.setBuf b v).buf x).dev = (s.buf x).dev ∧
      ((s.setBuf b v).buf x).blockno = (s.buf x).blockno ∧ ((s.setBuf b v).buf x).refcnt = (s.buf x).refcnt := by
    by_cases hx : x = b
    · subst hx
      simp [State.setBuf, hdev, hblockno, hrefcnt]
    · simp [State.setBuf, hx]
  exact h.of_same (fun x => (hbuf x).1) (fun x => (hbuf x).2.1)
    (fun x => (hbuf x).2.2.trans (h.counted x)) h.waiting h.locked

omit [DecidableEq P] in
theorem Claimed.hit (h : Claimed s) (hc : c.dev ≠ 0) (hb : s.cached c.dev c.blockno b = true) :
    Claimed ((s.setBuf b { s.buf b with refcnt := (s.buf b).refcnt + 1 }).enter c b) := by
  simp only [State.cached, Bool.and_eq_true, beq_iff_eq] at hb
  refine h.of_same (fun x => ?_) (fun x => ?_) (fun x => ?_) (fun c' x hx => ?_) h.locked
  · by_cases hx : x = b <;> simp [State.enter, State.setBuf, hx]
  · by_cases hx : x = b <;> simp [State.enter, State.setBuf, hx]
  · have hold := h.counted x
    simp only [references] at hold
    by_cases hx : x = b
    · subst hx
      simp only [State.enter, State.setBuf, references, Function.update_self, List.countP_cons, decide_true, if_true]
      omega
    · simp [State.enter, State.setBuf, references, hx, Ne.symm hx, hold]
  · rcases List.mem_cons.mp hx with heq | hx
    · cases heq
      exact ⟨hb.1, hb.2, hc⟩
    · exact h.waiting c' x hx

omit [DecidableEq P] in
/-- Nobody refers to a buffer that `bget` takes for another block. -/
theorem Claimed.unused (h : Claimed s) (hb : s.unused b = true) : (s.buf b).refcnt = 0 ∧ references s b = 0 := by
  simp only [State.unused, Bool.and_eq_true, beq_iff_eq] at hb
  exact ⟨hb.1, (h.counted b).symm.trans hb.1⟩

omit [DecidableEq P] in
theorem Claimed.miss (h : Claimed s) (hc : c.dev ≠ 0) (hb : s.unused b = true)
    (hnone : ∀ x, s.cached c.dev c.blockno x = false) :
    Claimed ((s.setBuf b ⟨c.dev, c.blockno, false, false, 1⟩).enter c b) := by
  obtain ⟨_, hzero⟩ := h.unused hb
  simp only [references, Nat.add_eq_zero_iff] at hzero
  obtain ⟨⟨hwait, hlock⟩, hleave⟩ := hzero
  have hnowait (c' : Claim P) : (c', b) ∉ s.waiting := fun hin =>
    (List.countP_eq_zero.mp hwait) (c', b) hin (by simp)
  have hnolock (c' : Claim P) : s.lock b ≠ some c' := fun heq => by simp [heq] at hlock
  have hnew (x : Fin n) : ¬ ((s.buf x).dev = c.dev ∧ (s.buf x).blockno = c.blockno) := fun heq => by
    simpa [State.cached, heq] using hnone x
  have hself : ((s.setBuf b ⟨c.dev, c.blockno, false, false, 1⟩).enter c b).buf b = ⟨c.dev, c.blockno, false, false, 1⟩ :=
    Function.update_self ..
  have hother (x : Fin n) (hx : x ≠ b) :
      ((s.setBuf b ⟨c.dev, c.blockno, false, false, 1⟩).enter c b).buf x = s.buf x :=
    Function.update_of_ne hx ..
  refine ⟨fun x => ?_, fun c' x hx => ?_, fun x c' hx => ?_, fun x y hd hdev hno => ?_⟩
  · by_cases hx : x = b
    · subst hx
      rw [hself]
      simp only [references, State.enter, State.setBuf, List.countP_cons, decide_true, if_true, hwait, hlock, hleave]
    · have hold := h.counted x
      rw [hother x hx]
      simpa [references, State.enter, State.setBuf, Ne.symm hx] using hold
  · rcases List.mem_cons.mp hx with heq | hx
    · cases heq
      rw [Names, hself]
      exact ⟨rfl, rfl, hc⟩
    · have hxb : x ≠ b := fun heq => hnowait c' (heq ▸ hx)
      rw [Names, hother x hxb]
      exact h.waiting c' x hx
  · have hxb : x ≠ b := fun heq => hnolock c' (heq ▸ hx)
    rw [Names, hother x hxb]
    exact h.locked x c' hx
  · by_cases hxb : x = b <;> by_cases hyb : y = b
    · rw [hxb, hyb]
    · subst hxb
      rw [hself, hother y hyb] at hdev hno
      exact absurd ⟨hdev.symm, hno.symm⟩ (hnew y)
    · subst hyb
      rw [hself, hother x hxb] at hdev hno
      exact absurd ⟨hdev, hno⟩ (hnew x)
    · rw [hother x hxb, hother y hyb] at *
      exact h.unique x y hd hdev hno

theorem Claimed.acquire (h : Claimed s) (hc : (c, b) ∈ s.waiting) (hfree : s.lock b = none) :
    Claimed { s with waiting := s.waiting.erase (c, b), lock := Function.update s.lock b (some c) } := by
  refine h.of_same (fun _ => rfl) (fun _ => rfl) (fun x => ?_) (fun c' x hx => ?_) (fun x c' hx => ?_)
  · have hold := h.counted x
    have hperm := (List.perm_cons_erase hc).countP_eq (·.2 = x)
    simp only [references] at hold ⊢
    rw [List.countP_cons] at hperm
    by_cases hx : x = b
    · subst hx
      simp only [decide_true, if_true] at hperm
      simp only [hfree, Option.toList_none, List.length_nil] at hold
      simp only [Function.update_self, Option.toList_some, List.length_singleton]
      omega
    · simp only [decide_eq_true_eq, if_neg (Ne.symm hx)] at hperm
      simp only [Function.update_of_ne hx]
      omega
  · exact h.waiting c' x (List.mem_of_mem_erase hx)
  · by_cases hxb : x = b
    · subst hxb
      simp only [Function.update_self, Option.some.injEq] at hx
      exact hx ▸ h.waiting c x hc
    · simp only [Function.update_of_ne hxb] at hx
      exact h.locked x c' hx

omit [DecidableEq P] in
theorem Claimed.brelse (h : Claimed s) (hc : (s.lock b).isSome) :
    Claimed { s with lock := Function.update s.lock b none, leaving := b :: s.leaving } := by
  obtain ⟨c, hc⟩ := Option.isSome_iff_exists.mp hc
  refine h.of_same (fun _ => rfl) (fun _ => rfl) (fun x => ?_) h.waiting (fun x c' hx => ?_)
  · have hold := h.counted x
    simp only [references] at hold ⊢
    by_cases hx : x = b
    · subst hx
      simp only [hc, Option.toList_some, List.length_singleton] at hold
      simp only [Function.update_self, Option.toList_none, List.length_nil, List.count_cons_self]
      omega
    · simp only [Function.update_of_ne hx, List.count_cons_of_ne (Ne.symm hx)]
      exact hold
  · by_cases hxb : x = b
    · subst hxb
      simp at hx
    · simp only [Function.update_of_ne hxb] at hx
      exact h.locked x c' hx

omit [DecidableEq P] in
theorem Claimed.leave (h : Claimed s) (hb : b ∈ s.leaving) : Claimed { s.setBuf b
    { s.buf b with refcnt := (s.buf b).refcnt - 1 } with leaving := s.leaving.erase b } := by
  refine h.of_same (fun x => ?_) (fun x => ?_) (fun x => ?_) h.waiting h.locked
  · by_cases hx : x = b <;> simp [State.setBuf, hx]
  · by_cases hx : x = b <;> simp [State.setBuf, hx]
  · have hold := h.counted x
    simp only [references] at hold ⊢
    by_cases hx : x = b
    · subst hx
      have hpos := List.count_pos_iff.mpr hb
      simp only [State.setBuf, Function.update_self, List.count_erase_self]
      omega
    · simp only [State.setBuf, Function.update_of_ne hx, List.count_erase_of_ne hx]
      exact hold

end Claims

/-! ### Every event -/

section Run
variable {s s' : State P n} {c : Claim P} {es : List (Event P n)} {e : Event P n}

omit [DecidableEq P] in
def Valid (s : State P n) : Prop := Claimed s ∧ ∃ bs, Listed s bs

omit [DecidableEq P] in
theorem valid_binit : Valid (binit : State P n) := by
  refine ⟨⟨fun b => rfl, nofun, nofun, fun b b' hd => absurd rfl hd⟩, _, listed_binit⟩

omit [DecidableEq P] in
/-- What `bget` finds: a buffer that holds the block, or else the one that was taken out of
use longest ago of those nobody uses. -/
theorem Valid.lookup (h : Valid s) (dev blockno : Nat) :
    (∀ b, s.lookup dev blockno = some b → s.cached dev blockno b = true) ∧
      (s.lookup dev blockno = none → ∀ b, s.cached dev blockno b = false) := by
  obtain ⟨_, bs, hbs⟩ := h
  rw [hbs.lookup_eq]
  refine ⟨fun b hb => List.find?_some hb, fun hnone b => ?_⟩
  exact Bool.eq_false_iff.mpr (List.find?_eq_none.mp hnone b (hbs.mem b))

omit [DecidableEq P] in
theorem Valid.victim (h : Valid s) :
    (∀ b, s.victim = some b → s.unused b = true ∧ ∀ x, s.unused x = true → s.stamp b ≤ s.stamp x) ∧
      (s.victim = none → ∀ b, s.unused b = false) := by
  obtain ⟨_, bs, hbs⟩ := h
  rw [hbs.victim_eq]
  refine ⟨fun b hb => ⟨List.find?_some hb, fun x hx => ?_⟩, fun hnone b => ?_⟩
  · obtain ⟨_, older, newer, hsplit, holder⟩ := List.find?_eq_some_iff_append.mp hb
    -- in the list, newer buffers stand in front of the one found, and older ones are in use
    have hbs' : bs = newer.reverse ++ b :: older.reverse := by
      rw [← List.reverse_reverse bs, hsplit]
      simp
    have hrecent := hbs.recent
    rw [hbs', List.pairwise_append] at hrecent
    have hmem := hbs.mem x
    rw [hbs', List.mem_append, List.mem_cons] at hmem
    rcases hmem with hnew | rfl | hold
    · exact hrecent.2.2 x hnew b List.mem_cons_self
    · exact le_rfl
    · have hused := holder x (List.mem_reverse.mp hold)
      simp [hx] at hused
  · exact Bool.eq_false_iff.mpr (List.find?_eq_none.mp hnone b (List.mem_reverse.mpr (hbs.mem b)))

theorem valid_step (h : Valid s) (he : Orderly s e) (hstep : step s e = .next s') : Valid s' := by
  have hfound := fun d k => h.lookup d k
  have hvictim := h.victim
  obtain ⟨hclaimed, bs, hlisted⟩ := h
  cases e with
  | bget c =>
    simp only [step] at hstep
    split at hstep
    · next b hb =>
      cases hstep
      exact ⟨hclaimed.hit he ((hfound _ _).1 b hb), bs, { hlisted with }⟩
    · next hnone =>
      split at hstep
      · next b hb =>
        cases hstep
        exact ⟨hclaimed.miss he (hvictim.1 b hb).1 ((hfound _ _).2 hnone), bs, { hlisted with }⟩
      · cases hstep
  | acquiresleep c b =>
    simp only [step] at hstep
    split at hstep
    · next hc => cases hstep; exact ⟨hclaimed.acquire hc.1 hc.2, bs, { hlisted with }⟩
    · cases hstep
  | fill p b =>
    simp only [step] at hstep
    split at hstep
    · cases hstep; exact ⟨hclaimed.setBuf rfl rfl rfl, bs, { hlisted with }⟩
    · cases hstep
  | mark p b =>
    simp only [step] at hstep
    split at hstep
    · cases hstep; exact ⟨hclaimed.setBuf rfl rfl rfl, bs, { hlisted with }⟩
    · cases hstep
  | bwrite p b =>
    simp only [step] at hstep
    split at hstep
    · cases hstep; exact ⟨hclaimed.setBuf rfl rfl rfl, bs, { hlisted with }⟩
    · cases hstep
  | brelse p b =>
    simp only [step] at hstep
    split at hstep
    · next hheld =>
      have hsome : (s.lock b).isSome := by
        cases hl : s.lock b with
        | none => simp [holds, hl] at hheld
        | some c => rfl
      cases hstep
      exact ⟨hclaimed.brelse hsome, bs, { hlisted with }⟩
    · cases hstep
  | leave b =>
    simp only [step] at hstep
    split at hstep
    · next hb =>
      have hleft := hclaimed.leave hb
      split at hstep
      · cases hstep
        exact ⟨{ hleft with }, _, { hlisted.toFront b with }⟩
      · cases hstep
        exact ⟨hleft, bs, { hlisted with }⟩
    · cases hstep

theorem valid_run (hrun : Runs step Orderly (binit : State P n) es s) : Valid s :=
  hrun.invariant (fun _ _ _ _ h he hstep => valid_step h he hstep) valid_binit

/-- **A block is in one buffer, and one process has it.** In every run, a process that
holds a buffer or waits for one got it for the block it asked for, and two processes that
hold a buffer of the same block are one, with one buffer. -/
theorem bcache_exclusive (hrun : Runs step Orderly (binit : State P n) es s) :
    (∀ b c, s.lock b = some c ∨ (c, b) ∈ s.waiting →
      (s.buf b).dev = c.dev ∧ (s.buf b).blockno = c.blockno) ∧
    ∀ b b' c c', s.lock b = some c → s.lock b' = some c' → c.dev = c'.dev → c.blockno = c'.blockno →
      b = b' ∧ c = c' := by
  obtain ⟨hclaimed, _⟩ := valid_run hrun
  refine ⟨fun b c hc => ?_, fun b b' c c' hc hc' hdev hno => ?_⟩
  · have hnames : Names s b c := by
      rcases hc with hc | hc
      · exact hclaimed.locked b c hc
      · exact hclaimed.waiting c b hc
    exact ⟨hnames.1, hnames.2.1⟩
  · obtain ⟨hd, hk, hne⟩ := hclaimed.locked b c hc
    obtain ⟨hd', hk', _⟩ := hclaimed.locked b' c' hc'
    have hb : b = b' := hclaimed.unique b b' (by rw [hd]; exact hne) (by rw [hd, hd', hdev]) (by rw [hk, hk', hno])
    subst hb
    exact ⟨rfl, Option.some.inj (hc.symm.trans hc')⟩

/-- **`bget` takes the buffer that was last used longest ago.** If a buffer holds the block,
that one is taken; else it is one that no process refers to and that is not dirty, and of
those the one taken out of use first. Every other buffer stays as it is. -/
theorem bget_takes (hrun : Runs step Orderly (binit : State P n) es s) (hstep : step s (.bget c) = .next s') :
    ∃ b, s'.waiting = (c, b) :: s.waiting ∧ (∀ x, x ≠ b → s'.buf x = s.buf x) ∧
      (s.cached c.dev c.blockno b = true ∨
        ((∀ x, s.cached c.dev c.blockno x = false) ∧ references s b = 0 ∧ (s.buf b).dirty = false ∧
          ∀ x, references s x = 0 → (s.buf x).dirty = false → s.stamp b ≤ s.stamp x)) := by
  have hvalid := valid_run hrun
  simp only [step] at hstep
  split at hstep
  · next b hb =>
    cases hstep
    exact ⟨b, rfl, fun x hx => Function.update_of_ne hx .., .inl ((hvalid.lookup _ _).1 b hb)⟩
  · next hnone =>
    split at hstep
    · next b hb =>
      cases hstep
      obtain ⟨hunused, holdest⟩ := hvalid.victim.1 b hb
      obtain ⟨_, hzero⟩ := hvalid.1.unused hunused
      refine ⟨b, rfl, fun x hx => Function.update_of_ne hx .., .inr ⟨(hvalid.lookup _ _).2 hnone, hzero, ?_, ?_⟩⟩
      · simp only [State.unused, Bool.and_eq_true, Bool.not_eq_true'] at hunused
        exact hunused.2
      · intro x hx hclean
        apply holdest
        simp [State.unused, hvalid.1.counted x, hx, hclean]
    · cases hstep

/-- **`bget` gives up only where no buffer is left**: the block is in none, and each is
dirty or some process refers to it. -/
theorem bget_panics_iff (hrun : Runs step Orderly (binit : State P n) es s) :
    step s (.bget c) = .panics "bget: no buffers" ↔
      (∀ b, s.cached c.dev c.blockno b = false) ∧ ∀ b, 0 < references s b ∨ (s.buf b).dirty = true := by
  have hvalid := valid_run hrun
  have hused (b : Fin n) : s.unused b = false ↔ 0 < references s b ∨ (s.buf b).dirty = true := by
    rw [← hvalid.1.counted b]
    simp only [State.unused, Bool.and_eq_false_iff, beq_eq_false_iff_ne, Bool.not_eq_false', Nat.pos_iff_ne_zero]
  simp only [step, ← hused]
  cases hfound : s.lookup c.dev c.blockno with
  | some b =>
    exact ⟨nofun, fun h => absurd (h.1 b) (by simp [(hvalid.lookup _ _).1 b hfound])⟩
  | none =>
    cases hv : s.victim with
    | some b => exact ⟨nofun, fun h => absurd (h.2 b) (by simp [(hvalid.victim.1 b hv).1])⟩
    | none => exact ⟨fun _ => ⟨(hvalid.lookup _ _).2 hfound, hvalid.victim.2 hv⟩, fun _ => rfl⟩

end Run

/-! ### Two buffers

One process uses block 7 and leaves it, and then both use block 8. -/

instance (s : State P n) (e : Event P n) : Decidable (Orderly s e) :=
  match e with
  | .bget c => inferInstanceAs (Decidable (c.dev ≠ 0))
  | .acquiresleep _ _ => .isTrue trivial
  | .fill _ _ => .isTrue trivial
  | .mark _ _ => .isTrue trivial
  | .bwrite _ _ => .isTrue trivial
  | .brelse _ _ => .isTrue trivial
  | .leave _ => .isTrue trivial

def contended : List (Event Bool 2) :=
  [.bget ⟨true, 1, 7⟩, .acquiresleep ⟨true, 1, 7⟩ ⟨0, Nat.zero_lt_two⟩, .brelse true ⟨0, Nat.zero_lt_two⟩,
    .leave ⟨0, Nat.zero_lt_two⟩, .bget ⟨true, 1, 8⟩, .acquiresleep ⟨true, 1, 8⟩ ⟨1, Nat.one_lt_two⟩,
    .bget ⟨false, 1, 8⟩]

def contendedState : State Bool 2 := (Runs.go step Orderly binit contended).getD binit

theorem contended_runs : Runs step Orderly (binit : State Bool 2) contended contendedState :=
  Runs.of_go (by decide +kernel)

theorem bcache_exclusive_contended :
    (∀ b c, contendedState.lock b = some c ∨ (c, b) ∈ contendedState.waiting →
      (contendedState.buf b).dev = c.dev ∧ (contendedState.buf b).blockno = c.blockno) ∧
    ∀ b b' c c', contendedState.lock b = some c → contendedState.lock b' = some c' → c.dev = c'.dev →
      c.blockno = c'.blockno → b = b' ∧ c = c' :=
  bcache_exclusive contended_runs

/-- The buffer of block 7 is the one left for block 9. -/
def taken : State Bool 2 :=
  (contendedState.setBuf ⟨0, Nat.zero_lt_two⟩ ⟨1, 9, false, false, 1⟩).enter ⟨false, 1, 9⟩ ⟨0, Nat.zero_lt_two⟩

theorem contended_bget : step contendedState (.bget ⟨false, 1, 9⟩) = .next taken := by
  have hlookup : contendedState.lookup 1 9 = none := by decide +kernel
  have hvictim : contendedState.victim = some ⟨0, Nat.zero_lt_two⟩ := by decide +kernel
  simp only [step, hlookup, hvictim, taken]

theorem bget_takes_contended : ∃ b, taken.waiting = (⟨false, 1, 9⟩, b) :: contendedState.waiting ∧
    (∀ x, x ≠ b → taken.buf x = contendedState.buf x) ∧
      (contendedState.cached 1 9 b = true ∨
        ((∀ x, contendedState.cached 1 9 x = false) ∧ references contendedState b = 0 ∧
          (contendedState.buf b).dirty = false ∧ ∀ x, references contendedState x = 0 →
            (contendedState.buf x).dirty = false → contendedState.stamp b ≤ contendedState.stamp x)) :=
  bget_takes contended_runs contended_bget

theorem bget_panics_iff_contended :
    step contendedState (.bget ⟨false, 1, 9⟩) = .panics "bget: no buffers" ↔
      (∀ b, contendedState.cached 1 9 b = false) ∧
        ∀ b, 0 < references contendedState b ∨ (contendedState.buf b).dirty = true :=
  bget_panics_iff contended_runs

end CompilingToAssembly.Xv6.Bio
