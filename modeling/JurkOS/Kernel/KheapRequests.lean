import JurkOS.Kernel.KheapRuns

/-!
Requests of any length. The rounding of `kmalloc` wraps for the last fifteen lengths,
and what such a request gets has nothing to do with its length.
-/

namespace JurkOS.Kernel.Kheap

open Lib Lib.Memory Lib.FreeList Lib.Run

variable {a : Arch} {A : HeapArea a} {fuel : ℕ}

def assured (a : Arch) (n : ℕ) : ℕ := if n + 15 ≤ a.SIZE_MAX then n else 0

variable (A fuel) in
def Serves (s : Heap) (n : ℕ) : Prop :=
  ∃ p m, kmalloc a A.heapHead fuel s.mem n = some (p, m) ∧
    (p = 0 ∨ n ≤ Kheap.size a m (p - BLOCK_HEADER_SIZE a) ∧
      ∃ m', kzalloc a A.heapHead fuel s.mem n = some (p, m') ∧ ChangedIn (payload a m p) m m')

variable (A fuel) in
/-- A fill that leaves its block ends the run; nothing else is asked of a request. -/
def RequestStep (s : Heap) : Event → Heap → Prop
  | .call (.kmalloc n), t => n ≤ a.SIZE_MAX ∧
      ∃ r, kmalloc a A.heapHead fuel s.mem n = some r ∧ t = s.grant (assured a n) r
  | .call (.kzalloc n), t => n ≤ a.SIZE_MAX ∧ Serves A fuel s n ∧
      ∃ r, kzalloc a A.heapHead fuel s.mem n = some r ∧ t = s.grant (assured a n) r
  | .call (.kfree ptr), t => (ptr = 0 ∨ ∃ n, (ptr, n) ∈ s.live) ∧ call A fuel s (.kfree ptr) = some t
  | .store x v, t => (∃ y ∈ s.live, x ∈ Span y.1 y.2) ∧ t = ⟨Function.update s.mem x v, s.live⟩

theorem alignSize_wraps {n : ℕ} (hn : n ≤ a.SIZE_MAX) (hwrap : ¬ n + 15 ≤ a.SIZE_MAX) : alignSize a n = 0 := by
  have hpos : 2 ^ 4 ≤ 2 ^ a.wordBits := Nat.pow_le_pow_right (by decide) (by cases a <;> decide)
  have hw : 4 ≤ a.wordBits := by cases a <;> decide
  unfold Arch.SIZE_MAX at *
  have hrest : a.wrap (n + 15) = n + 15 - 2 ^ a.wordBits := by
    rw [Arch.wrap, Nat.mod_eq_sub_mod (by omega), Nat.mod_eq_of_lt (by omega)]
  rw [alignSize, hrest, Bits.and_highMask hw (by omega)]
  omega

theorem request_split {s : Heap} {l : List Block} {n : ℕ} (h : Holds A s l) (hn : n ≤ a.SIZE_MAX) {b : Block}
    (hb : b ∈ l) (hfit : alignSize a n ≤ b.size) : alignSize a n + BLOCK_HEADER_SIZE a + 16 < 2 ^ a.wordBits := by
  by_cases hwrap : n + 15 ≤ a.SIZE_MAX
  · exact no_split_wrap hwrap (h.block_le hb) hfit
  · rw [alignSize_wraps hn hwrap]
    cases a <;> decide

theorem assured_le {n : ℕ} : assured a n ≤ alignSize a n := by
  unfold assured
  split_ifs with hwrap
  · rw [alignSize_eq hwrap]
    omega
  · exact Nat.zero_le _

theorem Holds.payload_lt {s : Heap} {l : List Block} {q k : ℕ} {free : Bool} (h : Holds A s l)
    (hm : (q, ⟨k, free⟩) ∈ placed (BLOCK_HEADER_SIZE a) A.start l) : k + 15 ≤ a.SIZE_MAX := by
  have hle := h.block_le (placed_mem hm)
  have hlt := A.size_lt
  cases a <;> simp only [BLOCK_HEADER_SIZE, Arch.wordBytes, Arch.wordBits, Arch.SIZE_MAX] at * <;> omega

theorem kmalloc_request {s : Heap} {l : List Block} {n : ℕ} (h : Holds A s l) (hfuel : A.size ≤ fuel)
    (hn : n ≤ a.SIZE_MAX) :
    ∃ p m, kmalloc a A.heapHead fuel s.mem n = some (p, m) ∧
      (p = 0 ∧ m = s.mem ∧ (n = 0 ∨ ∀ b ∈ l, b.free = true → b.size < alignSize a n) ∨
        ∃ q k l', p = q + BLOCK_HEADER_SIZE a ∧ Kheap.size a m q = k ∧ assured a n ≤ k ∧
          (q, ⟨k, false⟩) ∈ placed (BLOCK_HEADER_SIZE a) A.start l' ∧
          (∃ b ∈ l, b.free = true) ∧ Holds A ⟨m, (p, assured a n) :: s.live⟩ l') := by
  by_cases hzero : n = 0
  · exact ⟨0, s.mem, by rw [kmalloc, if_pos hzero], Or.inl ⟨rfl, rfl, Or.inl hzero⟩⟩
  have hrun := kmalloc_serves h hfuel (Nat.pos_of_ne_zero hzero) (fun b hb => request_split h hn hb) assured_le
  cases halloc : alloc (BLOCK_HEADER_SIZE a) 16 (alignSize a n) A.start l with
  | none =>
    rw [halloc] at hrun
    exact ⟨0, s.mem, hrun, Or.inl ⟨rfl, rfl, Or.inr (alloc_none.mp halloc)⟩⟩
  | some r =>
    obtain ⟨q, l'⟩ := r
    rw [halloc] at hrun
    obtain ⟨m, b, hk, hl', hb, hfree, -⟩ := hrun
    obtain ⟨p, k, hp, hle, hm, hsize, -⟩ := hl'.payload_eq List.mem_cons_self
    have hpq : p = q := by
      dsimp only at hp
      omega
    subst hpq
    refine ⟨p + BLOCK_HEADER_SIZE a, m, hk, Or.inr ⟨p, k, l', rfl, ?_, hle, hm, ⟨b, placed_mem hb, hfree⟩, hl'⟩⟩
    rwa [Nat.add_sub_cancel] at hsize

theorem kzalloc_eq {s : Heap} {n p : ℕ} {m : Mem} (h : kmalloc a A.heapHead fuel s.mem n = some (p, m)) :
    kzalloc a A.heapHead fuel s.mem n = some (p, if p = 0 then m else memset 0 n m p) := by
  unfold kzalloc
  rw [h, Option.map_some]
  by_cases hp : p = 0
  · rw [if_neg (not_not.mpr hp), if_pos hp]
  · rw [if_pos hp, if_neg hp]

theorem requestStep_holds (hfuel : A.size ≤ fuel) {s t : Heap} {e : Event} (h : ∃ l, Holds A s l)
    (hst : RequestStep A fuel s e t) : ∃ l, Holds A t l := by
  obtain ⟨l, h⟩ := h
  have hpos := header_pos a
  cases e with
  | call c =>
    cases c with
    | kmalloc n =>
      obtain ⟨hn, r, hr, rfl⟩ := hst
      obtain ⟨p, m, hk, hcase⟩ := kmalloc_request h hfuel hn
      rw [hk, Option.some.injEq] at hr
      subst hr
      rcases hcase with ⟨rfl, rfl, -⟩ | ⟨q, k, l', rfl, -, -, -, -, hl'⟩
      · exact ⟨l, h⟩
      · refine ⟨l', ?_⟩
        rwa [Heap.grant, if_neg (by dsimp only; omega)]
    | kzalloc n =>
      obtain ⟨hn, hserves, r, hr, rfl⟩ := hst
      obtain ⟨p, m, hk, hcase⟩ := kmalloc_request h hfuel hn
      obtain ⟨p', m', hk', hroom⟩ := hserves
      rw [hk, Option.some.injEq, Prod.mk.injEq] at hk'
      obtain ⟨rfl, rfl⟩ := hk'
      rw [kzalloc_eq hk, Option.some.injEq] at hr
      subst hr
      rcases hcase with ⟨rfl, rfl, -⟩ | ⟨q, k, l', rfl, hsize, -, hm, -, hl'⟩
      · exact ⟨l, h⟩
      · have hp : q + BLOCK_HEADER_SIZE a ≠ 0 := by omega
        have hle := (hroom.resolve_left hp).1
        rw [Nat.add_sub_cancel, hsize] at hle
        refine ⟨l', ?_⟩
        rw [Heap.grant, if_neg hp, if_neg hp]
        apply hl'.payload_store hm
        apply (memset_changedIn 0 n m _).mono
        rintro x ⟨hlo, hhi⟩
        exact ⟨hlo, by omega⟩
    | kfree ptr =>
      obtain ⟨hallowed, hrun⟩ := hst
      obtain ⟨t', hrun', hl', -⟩ := call_holds (c := .kfree ptr) h hfuel hallowed
      rw [hrun, Option.some.injEq] at hrun'
      exact hrun' ▸ hl'
  | store x v => exact step_holds hfuel ⟨l, h⟩ (e := .store x v) hst

theorem requests_hold (hfuel : A.size ≤ fuel) {s : Heap} (hs : Reachable (Init A) (RequestStep A fuel) s) :
    ∃ l, Holds A s l := by
  refine hs.invariant ?_ fun _ _ _ h hst => requestStep_holds hfuel h hst
  rintro _ ⟨m, rfl⟩
  exact ⟨_, init_holds A m⟩

theorem serves_iff (hfuel : A.size ≤ fuel) {s : Heap} {n : ℕ} (hs : Reachable (Init A) (RequestStep A fuel) s)
    (hn : n ≤ a.SIZE_MAX) : ∃ bs, Tiled A s bs ∧
      (Serves A fuel s n ↔ n + 15 ≤ a.SIZE_MAX ∨ ∀ q ∈ bs, isFree a s.mem q = false) := by
  obtain ⟨l, h⟩ := requests_hold hfuel hs
  have hpos := header_pos a
  refine ⟨_, h.tiled, ?_⟩
  have hused : (∀ q ∈ (placed (BLOCK_HEADER_SIZE a) A.start l).map Prod.fst, isFree a s.mem q = false) ↔
      ∀ b ∈ l, ¬ b.free = true := by
    simp only [List.mem_map, Prod.exists, exists_and_right, exists_eq_right, forall_exists_index, Bool.not_eq_true]
    constructor
    · intro hall b hb
      obtain ⟨q, hq⟩ := mem_placed hb A.start (h := BLOCK_HEADER_SIZE a)
      rw [← (h.layout.at hq).2]
      exact hall q b hq
    · intro hall q b hq
      rw [(h.layout.at hq).2]
      exact hall b (placed_mem hq)
  rw [hused]
  obtain ⟨p, m, hk, hcase⟩ := kmalloc_request h hfuel hn
  rcases hcase with ⟨rfl, rfl, hnone⟩ | ⟨q, k, l', rfl, hsize, hle, hm, ⟨b, hb, hfree⟩, hl'⟩
  · apply iff_of_true ⟨0, s.mem, hk, Or.inl rfl⟩
    by_cases hwrap : n + 15 ≤ a.SIZE_MAX
    · exact Or.inl hwrap
    · right
      intro b hb hfree
      rcases hnone with rfl | hnone
      · exact hwrap (by cases a <;> decide)
      · have := hnone b hb hfree
        rw [alignSize_wraps hn hwrap] at this
        omega
  · have hp : q + BLOCK_HEADER_SIZE a ≠ 0 := by omega
    constructor
    · rintro ⟨p', m', hk', hroom⟩
      rw [hk, Option.some.injEq, Prod.mk.injEq] at hk'
      obtain ⟨rfl, rfl⟩ := hk'
      have hroom := (hroom.resolve_left hp).1
      have hlt := hl'.payload_lt hm
      rw [Nat.add_sub_cancel, hsize] at hroom
      omega
    · intro hcond
      have hwrap : n + 15 ≤ a.SIZE_MAX := hcond.resolve_right fun hall => hall b hb hfree
      have hroom : n ≤ k := by rwa [assured, if_pos hwrap] at hle
      refine ⟨_, m, hk, Or.inr ⟨by rwa [Nat.add_sub_cancel, hsize], memset 0 n m (q + BLOCK_HEADER_SIZE a), ?_, ?_⟩⟩
      · rw [kzalloc_eq hk, if_neg hp]
      · apply (memset_changedIn 0 n m _).mono
        rintro x ⟨hlo, hhi⟩
        refine ⟨hlo, ?_⟩
        rw [Nat.add_sub_cancel, hsize]
        omega

theorem smallHeap_requested : Reachable (Init smallArea) (RequestStep smallArea 256) smallHeap :=
  .start ⟨fun _ => 0, rfl⟩

theorem serves_iff_small : ∃ bs, Tiled smallArea smallHeap bs ∧ (Serves smallArea 256 smallHeap 24 ↔
    24 + 15 ≤ Arch.x86_64.SIZE_MAX ∨ ∀ q ∈ bs, isFree .x86_64 smallHeap.mem q = false) :=
  serves_iff (A := smallArea) (le_refl 256) smallHeap_requested (by decide)

theorem serves_wraps : Reachable (Init smallArea) (RequestStep smallArea 256) smallHeap ∧
    ¬ Serves smallArea 256 smallHeap (2 ^ 64 - 1) := by
  refine ⟨smallHeap_requested, ?_⟩
  rintro ⟨p, m, hk, hroom⟩
  have hblock : (kmalloc .x86_64 smallArea.heapHead 256 smallHeap.mem (2 ^ 64 - 1)).map
      (fun r => (r.1, Kheap.size .x86_64 r.2 (r.1 - 24))) = some (4120, 0) := by decide
  rw [hk, Option.map_some, Option.some.injEq, Prod.mk.injEq] at hblock
  obtain ⟨rfl, hsize⟩ := hblock
  rcases hroom with hnull | ⟨hlong, -⟩
  · cases hnull
  · change 2 ^ 64 - 1 ≤ Kheap.size .x86_64 m (4120 - 24) at hlong
    rw [hsize] at hlong
    omega

end JurkOS.Kernel.Kheap
