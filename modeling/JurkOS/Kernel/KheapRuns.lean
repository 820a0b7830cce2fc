import JurkOS.Kernel.Kheap
import JurkOS.Lib.Run

/-!
Runs of the kernel heap: the block list tiles the heap area, live payloads keep
apart, and no two neighbouring blocks stay free.
-/

namespace JurkOS.Kernel.Kheap

open Lib Lib.Memory Lib.FreeList Lib.Run

/-- Memory fit to be handed to `kheap_init`: a non-null object that does not contain the
variable `heap_head` and has room for more than a block header. -/
structure HeapArea (a : Arch) where
  start : ℕ
  size : ℕ
  heapHead : ℕ
  start_pos : 0 < start
  header_lt : BLOCK_HEADER_SIZE a < size
  no_wrap : start + size < 2 ^ a.wordBits
  head_no_wrap : heapHead + a.wordBytes ≤ 2 ^ a.wordBits
  head_apart : heapHead + a.wordBytes ≤ start ∨ start + size ≤ heapHead

/-- `live` records the pointers handed out and not freed since, with the requested lengths. -/
structure Heap where
  mem : Mem
  live : List (ℕ × ℕ)

inductive Call
  | kmalloc (size : ℕ)
  | kzalloc (size : ℕ)
  | kfree (ptr : ℕ)

inductive Event
  | call (c : Call)
  | store (x : ℕ) (v : UInt8)

variable {a : Arch} (A : HeapArea a) (fuel : ℕ)

def Heap.grant (s : Heap) (size : ℕ) (r : ℕ × Mem) : Heap :=
  ⟨r.2, if r.1 = 0 then s.live else (r.1, size) :: s.live⟩

def call (s : Heap) : Call → Option Heap
  | .kmalloc size => (kmalloc a A.heapHead fuel s.mem size).map (s.grant size)
  | .kzalloc size => (kzalloc a A.heapHead fuel s.mem size).map (s.grant size)
  | .kfree ptr => (kfree a A.heapHead fuel s.mem ptr).map fun m =>
      ⟨m, s.live.filter fun x => x.1 ≠ ptr⟩

variable (a) in
def Call.Allowed (s : Heap) : Call → Prop
  | .kmalloc size => size + 15 ≤ a.SIZE_MAX
  | .kzalloc size => size + 15 ≤ a.SIZE_MAX
  | .kfree ptr => ptr = 0 ∨ ∃ size, (ptr, size) ∈ s.live

def Step (s : Heap) : Event → Heap → Prop
  | .call c, t => c.Allowed a s ∧ call A fuel s c = some t
  | .store x v, t => (∃ y ∈ s.live, x ∈ Span y.1 y.2) ∧ t = ⟨Function.update s.mem x v, s.live⟩

def Init (s : Heap) : Prop := ∃ m, s = ⟨kheapInit a A.heapHead A.start A.size m, []⟩

/-! ### What the runs keep -/

variable (a) in
def Tiles (m : Mem) (stop : ℕ) : ℕ → List ℕ → Prop
  | _, [] => False
  | p, [q] => p = q ∧ p + (BLOCK_HEADER_SIZE a + Kheap.size a m p) = stop ∧ next a m p = 0
  | p, q :: r :: t => p = q ∧ next a m p = p + (BLOCK_HEADER_SIZE a + Kheap.size a m p) ∧
      Tiles m stop (next a m p) (r :: t)

variable (a) in
def payload (m : Mem) (x : ℕ) : Set ℕ := Span x (Kheap.size a m (x - BLOCK_HEADER_SIZE a))

structure Tiled (s : Heap) (bs : List ℕ) : Prop where
  head : load s.mem A.heapHead a.wordBytes = A.start
  tiles : Tiles a s.mem (A.start + A.size) A.start bs
  inside : ∀ x ∈ s.live, payload a s.mem x.1 ⊆ Span A.start A.size
  apart : s.live.Pairwise fun x y => Disjoint (payload a s.mem x.1) (payload a s.mem y.1)
  headers : ∀ x ∈ s.live, ∀ q ∈ bs, Disjoint (Span q (BLOCK_HEADER_SIZE a)) (payload a s.mem x.1)
  room : ∀ x ∈ s.live, x.2 ≤ Kheap.size a s.mem (x.1 - BLOCK_HEADER_SIZE a)

structure Holds (s : Heap) (l : List Block) : Prop where
  head : load s.mem A.heapHead a.wordBytes = A.start
  layout : Layout a s.mem A.start l
  extent_eq : extent (BLOCK_HEADER_SIZE a) l = A.size
  separated : Separated l
  live_used : ∀ x ∈ s.live, ∃ q k, x.1 = q + BLOCK_HEADER_SIZE a ∧ x.2 ≤ k ∧
    (q, ⟨k, false⟩) ∈ placed (BLOCK_HEADER_SIZE a) A.start l
  used_live : ∀ q k, (q, ⟨k, false⟩) ∈ placed (BLOCK_HEADER_SIZE a) A.start l →
    ∃ n, (q + BLOCK_HEADER_SIZE a, n) ∈ s.live
  nodup : (s.live.map Prod.fst).Nodup

variable {A fuel}

/-! ### Arithmetic of a request -/

theorem HeapArea.size_lt (A : HeapArea a) : A.size + a.wordBytes < 2 ^ a.wordBits := by
  have := A.start_pos
  have := A.no_wrap
  have := A.head_no_wrap
  rcases A.head_apart with h | h <;> omega

theorem alignSize_eq {n : ℕ} (hn : n + 15 ≤ a.SIZE_MAX) : alignSize a n = (n + 15) / 16 * 16 := by
  have hpos : 0 < 2 ^ a.wordBits := Nat.pow_pos (by decide)
  have hlt : n + 15 < 2 ^ a.wordBits := by rw [Arch.SIZE_MAX] at hn; omega
  have hw : 4 ≤ a.wordBits := by cases a <;> decide
  rw [alignSize, Arch.wrap_of_lt hlt, Bits.and_highMask hw hlt]
  rfl

theorem no_split_wrap {n k : ℕ} (hn : n + 15 ≤ a.SIZE_MAX) (hk : BLOCK_HEADER_SIZE a + k ≤ A.size)
    (hfit : alignSize a n ≤ k) : alignSize a n + BLOCK_HEADER_SIZE a + 16 < 2 ^ a.wordBits := by
  have hA := A.size_lt
  rw [alignSize_eq hn] at hfit ⊢
  cases a <;> simp only [BLOCK_HEADER_SIZE, Arch.wordBits, Arch.wordBytes] at * <;> omega

theorem length_lt_of_extent {l : List Block} (h : extent (BLOCK_HEADER_SIZE a) l = A.size)
    (hfuel : A.size ≤ fuel) : l.length < fuel := by
  have hle := placed_length_le (h := BLOCK_HEADER_SIZE a) (l := l)
  have hH : 12 ≤ BLOCK_HEADER_SIZE a := by cases a <;> decide
  have hmul : l.length * 12 ≤ l.length * BLOCK_HEADER_SIZE a := Nat.mul_le_mul_left _ hH
  have := A.header_lt
  rw [h] at hle
  omega

theorem Holds.block_le {s : Heap} {l : List Block} {b : Block} (h : Holds A s l) (hb : b ∈ l) :
    BLOCK_HEADER_SIZE a + b.size ≤ A.size := by
  obtain ⟨q, hq⟩ := mem_placed hb (h := BLOCK_HEADER_SIZE a) A.start
  have := placed_inside hq
  rw [h.extent_eq] at this
  omega

theorem Holds.ne_nil {s : Heap} {l : List Block} (h : Holds A s l) : l ≠ [] := by
  rintro rfl
  have := h.extent_eq
  have := A.header_lt
  rw [extent_nil] at *
  omega

/-! ### Steps -/

theorem Layout.at {m : Mem} {p q : ℕ} {b : Block} {l : List Block} (hl : Layout a m p l)
    (hm : (q, b) ∈ placed (BLOCK_HEADER_SIZE a) p l) :
    Kheap.size a m q = b.size ∧ isFree a m q = b.free := by
  induction l generalizing p with
  | nil => simp at hm
  | cons c l ih =>
    obtain ⟨hs, hf, -, ht⟩ := hl
    rcases List.mem_cons.mp hm with heq | hm
    · obtain ⟨rfl, rfl⟩ := Prod.mk.inj heq
      exact ⟨hs, hf⟩
    · exact ih ht hm

theorem Layout.payload {m m' : Mem} {p q : ℕ} {b : Block} {l : List Block} (hl : Layout a m p l)
    (hm : (q, b) ∈ placed (BLOCK_HEADER_SIZE a) p l)
    (hch : ChangedIn (Span (q + BLOCK_HEADER_SIZE a) b.size) m m') : Layout a m' p l := by
  refine hl.congr fun r c hc x hx => hch x fun hx' => ?_
  obtain ⟨h₁, h₂⟩ := hx
  obtain ⟨h₃, h₄⟩ := hx'
  rcases placed_apart hm hc with ⟨rfl, rfl⟩ | hlt | hlt <;> omega

theorem Holds.head_frame {s : Heap} {l : List Block} {m' : Mem} (h : Holds A s l)
    (hch : ChangedIn (Span A.start A.size) s.mem m') : load m' A.heapHead a.wordBytes = A.start := by
  rw [load_of_changedIn hch, h.head]
  rw [Set.disjoint_left]
  rintro x ⟨h₁, h₂⟩ ⟨h₃, h₄⟩
  rcases A.head_apart with hlt | hlt <;> omega

theorem Holds.span_subset {s : Heap} {l : List Block} {q : ℕ} {b : Block} (h : Holds A s l)
    (hm : (q, b) ∈ placed (BLOCK_HEADER_SIZE a) A.start l) :
    Span q (BLOCK_HEADER_SIZE a + b.size) ⊆ Span A.start A.size := by
  have hin := placed_inside hm
  rw [h.extent_eq] at hin
  rintro x ⟨h₁, h₂⟩
  exact ⟨by omega, by omega⟩

theorem Holds.payload_eq {s : Heap} {l : List Block} {x : ℕ × ℕ} (h : Holds A s l) (hx : x ∈ s.live) :
    ∃ q k, x.1 = q + BLOCK_HEADER_SIZE a ∧ x.2 ≤ k ∧
      (q, ⟨k, false⟩) ∈ placed (BLOCK_HEADER_SIZE a) A.start l ∧
      Kheap.size a s.mem (x.1 - BLOCK_HEADER_SIZE a) = k ∧
      payload a s.mem x.1 = Span (q + BLOCK_HEADER_SIZE a) k := by
  obtain ⟨q, k, hq, hk, hm⟩ := h.live_used x hx
  have hsize : Kheap.size a s.mem (x.1 - BLOCK_HEADER_SIZE a) = k := by
    rw [hq, Nat.add_sub_cancel]
    exact (h.layout.at hm).1
  exact ⟨q, k, hq, hk, hm, hsize, by rw [Kheap.payload, hsize, hq]⟩

theorem init_holds (A : HeapArea a) (m : Mem) :
    Holds A ⟨kheapInit a A.heapHead A.start A.size m, []⟩ [⟨A.size - BLOCK_HEADER_SIZE a, true⟩] := by
  have hlt := A.header_lt
  have hnw := A.no_wrap
  have hsub : a.sub A.size (BLOCK_HEADER_SIZE a) = A.size - BLOCK_HEADER_SIZE a :=
    Arch.sub_of_le (by omega) (by omega)
  set m₀ := store m A.heapHead a.wordBytes A.start with hm₀
  have hhead : load m₀ A.heapHead a.wordBytes = A.start :=
    load_store_of_lt (by rw [a.pow_wordBytes]; omega)
  set m₁ := setSize a m₀ A.start (A.size - BLOCK_HEADER_SIZE a) with hm₁
  set m₂ := setIsFree a m₁ A.start true with hm₂
  have hinit : kheapInit a A.heapHead A.start A.size m = setNext a m₂ A.start 0 := by
    simp only [kheapInit, hsub, ← hm₀, ← hm₁, ← hm₂]
  have hch : ChangedIn (Span A.start A.size) m₀ (setNext a m₂ A.start 0) := by
    refine ChangedIn.mono (((setSize_changedIn m₀ _ _).trans (setIsFree_changedIn m₁ _ _)).trans
      (setNext_changedIn m₂ _ _)) fun x hx => ?_
    exact ⟨hx.1, by have := hx.2; omega⟩
  constructor
  · dsimp only
    rw [hinit, load_of_changedIn hch, hhead]
    rw [Set.disjoint_left]
    rintro x ⟨h₁, h₂⟩ ⟨h₃, h₄⟩
    rcases A.head_apart with h | h <;> omega
  · dsimp only
    rw [hinit]
    refine ⟨?_, ?_, ?_, trivial⟩
    · rw [size_setNext, hm₂, size_setIsFree, hm₁, size_setSize, Arch.wrap_of_lt (by omega)]
    · rw [isFree_setNext, hm₂, isFree_setIsFree]
    · rw [next_setNext, if_pos rfl, Arch.wrap_of_lt (Nat.pow_pos (by decide))]
  · simp only [extent_cons, extent_nil]
    omega
  · simp [Separated]
  · simp
  · simp
  · simp

theorem kmalloc_serves {s : Heap} {l : List Block} {n u : ℕ} (h : Holds A s l) (hfuel : A.size ≤ fuel)
    (hpos : 0 < n)
    (hsplit : ∀ b ∈ l, alignSize a n ≤ b.size → alignSize a n + BLOCK_HEADER_SIZE a + 16 < 2 ^ a.wordBits)
    (hle : u ≤ alignSize a n) :
    match alloc (BLOCK_HEADER_SIZE a) 16 (alignSize a n) A.start l with
    | none => kmalloc a A.heapHead fuel s.mem n = some (0, s.mem)
    | some (q, l') => ∃ m' b,
        kmalloc a A.heapHead fuel s.mem n = some (q + BLOCK_HEADER_SIZE a, m') ∧
        Holds A ⟨m', (q + BLOCK_HEADER_SIZE a, u) :: s.live⟩ l' ∧
        (q, b) ∈ placed (BLOCK_HEADER_SIZE a) A.start l ∧ b.free = true ∧
        ChangedIn (Span q (BLOCK_HEADER_SIZE a + b.size)) s.mem m' := by
  have hrun := kmallocLoop_spec h.layout A.start_pos (by rw [h.extent_eq]; exact A.no_wrap)
    (length_lt_of_extent h.extent_eq hfuel) hsplit
  have hstart : kmalloc a A.heapHead fuel s.mem n = kmallocLoop a (alignSize a n) fuel s.mem A.start := by
    rw [kmalloc, if_neg (by omega), h.head]
  rw [if_neg h.ne_nil, ← hstart] at hrun
  cases ha : alloc (BLOCK_HEADER_SIZE a) 16 (alignSize a n) A.start l with
  | none =>
    rw [ha] at hrun
    exact hrun
  | some r =>
    obtain ⟨q, l'⟩ := r
    rw [ha] at hrun
    obtain ⟨m', b, hk, hl', hb, hbf, hch⟩ := hrun
    obtain ⟨c, k, hc, hcf, hsk, hkc, hmem, hall⟩ := alloc_spec ha
    refine ⟨m', b, hk, ?_, hb, hbf, hch⟩
    constructor
    · exact h.head_frame (hch.mono (h.span_subset hb))
    · exact hl'
    · rw [alloc_extent ha, h.extent_eq]
    · exact alloc_separated h.separated ha
    · intro x hx
      rcases List.mem_cons.mp hx with rfl | hx
      · exact ⟨q, k, rfl, hle.trans hsk, hmem⟩
      · obtain ⟨r, j, hr, hj, hm⟩ := h.live_used x hx
        exact ⟨r, j, hr, hj, (hall r j).mpr (.inl hm)⟩
    · intro r j hm
      rcases (hall r j).mp hm with hm | ⟨rfl, rfl⟩
      · obtain ⟨i, hi⟩ := h.used_live r j hm
        exact ⟨i, List.mem_cons_of_mem _ hi⟩
      · exact ⟨u, List.mem_cons_self⟩
    · rw [List.map_cons, List.nodup_cons]
      refine ⟨fun hm => ?_, h.nodup⟩
      obtain ⟨x, hx, hxq⟩ := List.mem_map.mp hm
      obtain ⟨r, j, hr, -, hused⟩ := h.live_used x hx
      have hlen := header_pos a
      rcases placed_apart hb hused with ⟨-, he⟩ | hlt | hlt
      · simp [he] at hbf
      all_goals omega

theorem kmalloc_holds {s : Heap} {l : List Block} {n : ℕ} (h : Holds A s l) (hfuel : A.size ≤ fuel)
    (hn : n + 15 ≤ a.SIZE_MAX) (hpos : 0 < n) :
    match alloc (BLOCK_HEADER_SIZE a) 16 (alignSize a n) A.start l with
    | none => kmalloc a A.heapHead fuel s.mem n = some (0, s.mem)
    | some (q, l') => ∃ m' b,
        kmalloc a A.heapHead fuel s.mem n = some (q + BLOCK_HEADER_SIZE a, m') ∧
        Holds A ⟨m', (q + BLOCK_HEADER_SIZE a, n) :: s.live⟩ l' ∧
        (q, b) ∈ placed (BLOCK_HEADER_SIZE a) A.start l ∧ b.free = true ∧
        ChangedIn (Span q (BLOCK_HEADER_SIZE a + b.size)) s.mem m' := by
  apply kmalloc_serves h hfuel hpos
  · exact fun b hb => no_split_wrap hn (h.block_le hb)
  · rw [alignSize_eq hn]
    omega

theorem Holds.payload_store {s : Heap} {l : List Block} {m' : Mem} {q k : ℕ} (h : Holds A s l)
    (hm : (q, ⟨k, false⟩) ∈ placed (BLOCK_HEADER_SIZE a) A.start l)
    (hch : ChangedIn (Span (q + BLOCK_HEADER_SIZE a) k) s.mem m') : Holds A ⟨m', s.live⟩ l where
  head := by
    refine h.head_frame (hch.mono fun x hx => h.span_subset hm ?_)
    obtain ⟨h₁, h₂⟩ := hx
    exact ⟨by omega, by dsimp only; omega⟩
  layout := h.layout.payload hm hch
  extent_eq := h.extent_eq
  separated := h.separated
  live_used := h.live_used
  used_live := h.used_live
  nodup := h.nodup

theorem kfree_release {s : Heap} {l : List Block} {q k : ℕ} (h : Holds A s l) (hfuel : A.size ≤ fuel)
    (hm : (q, ⟨k, false⟩) ∈ placed (BLOCK_HEADER_SIZE a) A.start l) :
    ∃ m', kfree a A.heapHead fuel s.mem (q + BLOCK_HEADER_SIZE a) = some m' ∧
      Holds A ⟨m', s.live.filter fun x => x.1 ≠ q + BLOCK_HEADER_SIZE a⟩
        (coalesce (BLOCK_HEADER_SIZE a) (FreeList.release (BLOCK_HEADER_SIZE a) q A.start l)) ∧
      ChangedIn (headers a A.start l) s.mem m' := by
  have hpos := header_pos a
  have hin := placed_inside hm
  rw [h.extent_eq] at hin
  dsimp only at hin
  have hnw := A.no_wrap
  have hblock : a.sub (q + BLOCK_HEADER_SIZE a) (BLOCK_HEADER_SIZE a) = q := by
    rw [Arch.sub_of_le (by omega) (by omega)]
    omega
  set m₁ := setIsFree a s.mem q true with hm₁
  have hch₁ : ChangedIn (headers a A.start l) s.mem m₁ :=
    (setIsFree_changedIn s.mem q true).mono fun x hx => ⟨q, _, hm, hx⟩
  have hhead : load m₁ A.heapHead a.wordBytes = A.start := by
    refine h.head_frame ((setIsFree_changedIn s.mem q true).mono fun x hx => h.span_subset hm ?_)
    exact ⟨hx.1, by have := hx.2; omega⟩
  set r := FreeList.release (BLOCK_HEADER_SIZE a) q A.start l with hr
  have hrext : extent (BLOCK_HEADER_SIZE a) r = A.size := by rw [hr, release_extent, h.extent_eq]
  have hlay : Layout a m₁ A.start r := h.layout.release hm
  obtain ⟨b, t, hbt⟩ : ∃ b t, r = b :: t := by
    apply List.exists_cons_of_ne_nil
    intro hnil
    have := A.header_lt
    rw [hnil, extent_nil] at hrext
    omega
  have hlen : r.length < fuel := length_lt_of_extent hrext hfuel
  rw [hbt] at hlay hrext hlen
  obtain ⟨m₂, hrun, hlay₂, hch₂⟩ := kfreeLoop_spec hlay A.start_pos (by rw [hrext]; exact hnw)
    (Nat.lt_of_succ_lt hlen)
  have hheaders : headers a A.start r ⊆ headers a A.start l := by
    rintro x ⟨p, c, hc, hx⟩
    obtain ⟨d, hd⟩ := release_positions hc
    exact ⟨p, d, hd, hx⟩
  rw [← hbt] at hlay₂ hch₂ hrext
  have hch : ChangedIn (headers a A.start l) s.mem m₂ := hch₁.trans (hch₂.mono hheaders)
  have hused (p j : ℕ) : (p, ⟨j, false⟩) ∈ placed (BLOCK_HEADER_SIZE a) A.start (coalesce (BLOCK_HEADER_SIZE a) r) ↔
      (p, ⟨j, false⟩) ∈ placed (BLOCK_HEADER_SIZE a) A.start l ∧ p ≠ q :=
    (coalesce_used r).trans (release_used hpos)
  refine ⟨m₂, ?_, ?_, hch⟩
  · rw [kfree, if_neg (by omega), hblock]
    simp only [← hm₁, hhead, hrun]
  constructor
  · refine h.head_frame (hch.mono ?_)
    rintro x ⟨p, c, hc, hx⟩
    exact h.span_subset hc ⟨hx.1, by have := hx.2; omega⟩
  · exact hlay₂
  · rw [coalesce_extent, hrext]
  · exact coalesce_separated r
  · intro x hx
    obtain ⟨hx, hne⟩ := List.mem_filter.mp hx
    obtain ⟨p, j, hp, hj, hm'⟩ := h.live_used x hx
    refine ⟨p, j, hp, hj, (hused p j).mpr ⟨hm', fun hpq => ?_⟩⟩
    simp [hp, hpq] at hne
  · intro p j hm'
    obtain ⟨hm', hne⟩ := (hused p j).mp hm'
    obtain ⟨i, hi⟩ := h.used_live p j hm'
    refine ⟨i, List.mem_filter.mpr ⟨hi, ?_⟩⟩
    simp only [decide_not, Bool.not_eq_eq_eq_not, Bool.not_true, decide_eq_false_iff_not]
    omega
  · exact h.nodup.sublist (List.filter_sublist.map Prod.fst)

theorem kfree_holds {s : Heap} {l : List Block} {ptr n : ℕ} (h : Holds A s l) (hfuel : A.size ≤ fuel)
    (hptr : (ptr, n) ∈ s.live) : ∃ m' l', kfree a A.heapHead fuel s.mem ptr = some m' ∧
      Holds A ⟨m', s.live.filter fun x => x.1 ≠ ptr⟩ l' ∧ ChangedIn (headers a A.start l) s.mem m' := by
  obtain ⟨q, k, hq, -, hm⟩ := h.live_used _ hptr
  dsimp only at hq
  subst hq
  obtain ⟨m', hrun, hl', hch⟩ := kfree_release h hfuel hm
  exact ⟨m', _, hrun, hl', hch⟩

theorem Holds.payload_apart {s : Heap} {l : List Block} {q : ℕ} {b : Block} {x : ℕ × ℕ}
    (h : Holds A s l) (hm : (q, b) ∈ placed (BLOCK_HEADER_SIZE a) A.start l) (hb : b.free = true)
    (hx : x ∈ s.live) : Disjoint (payload a s.mem x.1) (Span q (BLOCK_HEADER_SIZE a + b.size)) := by
  obtain ⟨r, k, -, -, hr, -, hpay⟩ := h.payload_eq hx
  rw [hpay, Set.disjoint_left]
  rintro y ⟨h₁, h₂⟩ ⟨h₃, h₄⟩
  rcases placed_apart hm hr with ⟨-, he⟩ | hlt | hlt
  · simp [he] at hb
  · omega
  · dsimp only at hlt
    omega

theorem Holds.payload_headers {s : Heap} {l : List Block} {x : ℕ × ℕ} (h : Holds A s l)
    (hx : x ∈ s.live) : Disjoint (payload a s.mem x.1) (headers a A.start l) := by
  obtain ⟨r, k, -, -, hr, -, hpay⟩ := h.payload_eq hx
  rw [hpay, Set.disjoint_left]
  rintro y ⟨h₁, h₂⟩ ⟨q, b, hm, h₃, h₄⟩
  rcases placed_apart hm hr with ⟨rfl, he⟩ | hlt | hlt
  · omega
  · omega
  · dsimp only at hlt
    omega

def Kept (s t : Heap) : Prop := ∀ x ∈ s.live, ∀ b ∈ payload a s.mem x.1, t.mem b = s.mem b

theorem grant_kmalloc {s : Heap} {l : List Block} {n : ℕ} (h : Holds A s l) (hfuel : A.size ≤ fuel)
    (hn : n + 15 ≤ a.SIZE_MAX) : ∃ r, kmalloc a A.heapHead fuel s.mem n = some r ∧
      (∃ l', Holds A (s.grant n r) l') ∧ Kept (a := a) s (s.grant n r) ∧
      (r.1 ≠ 0 → ∃ q k l', r.1 = q + BLOCK_HEADER_SIZE a ∧ n ≤ k ∧ Holds A (s.grant n r) l' ∧
        (q, ⟨k, false⟩) ∈ placed (BLOCK_HEADER_SIZE a) A.start l' ∧
        ∀ x ∈ s.live, Disjoint (payload a s.mem x.1) (Span (q + BLOCK_HEADER_SIZE a) k)) := by
  by_cases hzero : n = 0
  · exact ⟨(0, s.mem), by rw [kmalloc, if_pos hzero], ⟨l, h⟩, fun _ _ _ _ => rfl, fun hne => absurd rfl hne⟩
  have hrun := kmalloc_holds h hfuel hn (Nat.pos_of_ne_zero hzero)
  cases ha : alloc (BLOCK_HEADER_SIZE a) 16 (alignSize a n) A.start l with
  | none =>
    rw [ha] at hrun
    exact ⟨(0, s.mem), hrun, ⟨l, h⟩, fun _ _ _ _ => rfl, fun hne => absurd rfl hne⟩
  | some r =>
    obtain ⟨q, l'⟩ := r
    rw [ha] at hrun
    obtain ⟨m', b, hk, hl', hb, hbf, hch⟩ := hrun
    have hpos := header_pos a
    have hgrant : s.grant n (q + BLOCK_HEADER_SIZE a, m') = ⟨m', (q + BLOCK_HEADER_SIZE a, n) :: s.live⟩ := by
      rw [Heap.grant, if_neg (by dsimp only; omega)]
    refine ⟨_, hk, ⟨l', hgrant ▸ hl'⟩, ?_, fun _ => ?_⟩
    · intro x hx y hy
      rw [hgrant]
      exact hch y fun hy' => Set.disjoint_left.mp (h.payload_apart hb hbf hx) hy hy'
    · obtain ⟨p, k, hp, hnk, hm⟩ := hl'.live_used (q + BLOCK_HEADER_SIZE a, n) List.mem_cons_self
      have hpq : p = q := by dsimp only at hp; omega
      subst hpq
      obtain ⟨c, j, hc, hcf, -, hjc, hm', -⟩ := alloc_spec ha
      have hjk : j = k := by
        rcases placed_apart hm hm' with ⟨-, he⟩ | hlt | hlt
        · exact (Block.mk.inj he).1.symm
        all_goals omega
      refine ⟨p, k, l', rfl, hnk, hgrant ▸ hl', hm, fun x hx => ?_⟩
      apply (h.payload_apart hc hcf hx).mono_right
      intro y hy
      exact ⟨by have := hy.1; omega, by have := hy.2; omega⟩

theorem call_holds {s : Heap} {l : List Block} {c : Call} (h : Holds A s l) (hfuel : A.size ≤ fuel)
    (hc : c.Allowed a s) : ∃ t, call A fuel s c = some t ∧ (∃ l', Holds A t l') ∧ Kept (a := a) s t := by
  cases c with
  | kmalloc n =>
    obtain ⟨r, hrun, hl', hkept, -⟩ := grant_kmalloc h hfuel hc
    exact ⟨_, by rw [call, hrun, Option.map_some], hl', hkept⟩
  | kzalloc n =>
    obtain ⟨r, hrun, hl', hkept, hroom⟩ := grant_kmalloc h hfuel hc
    by_cases hr : r.1 = 0
    · refine ⟨s.grant n r, ?_, hl', hkept⟩
      rw [call, kzalloc, hrun, Option.map_some, Option.map_some, if_neg (by simpa using hr)]
    obtain ⟨q, k, l₁, hq, hnk, hl₁, hm, hapart⟩ := hroom hr
    have hlive : (s.grant n r).live = (r.1, n) :: s.live := by rw [Heap.grant, if_neg hr]
    -- the zero fill stays inside the payload that was just handed out
    have hfill : ChangedIn (Span (q + BLOCK_HEADER_SIZE a) k) r.2 (memset 0 n r.2 r.1) := by
      apply (memset_changedIn 0 n r.2 r.1).mono
      intro y hy
      rw [hq] at hy
      exact ⟨hy.1, by have := hy.2; omega⟩
    refine ⟨s.grant n (r.1, memset 0 n r.2 r.1), ?_, ⟨l₁, ?_⟩, ?_⟩
    · rw [call, kzalloc, hrun, Option.map_some, Option.map_some, if_pos hr]
    · exact hl₁.payload_store hm hfill
    · intro x hx y hy
      exact (hfill y (Set.disjoint_left.mp (hapart x hx) hy)).trans (hkept x hx y hy)
  | kfree ptr =>
    by_cases hzero : ptr = 0
    · refine ⟨⟨s.mem, s.live.filter fun x => x.1 ≠ ptr⟩, ?_, ⟨l, ?_⟩, fun _ _ _ _ => rfl⟩
      · rw [call, kfree, if_pos hzero, Option.map_some]
      · have hall : (s.live.filter fun x => x.1 ≠ ptr) = s.live := by
          apply List.filter_eq_self.mpr
          intro x hx
          obtain ⟨q, k, hq, -⟩ := h.live_used x hx
          have := header_pos a
          simp only [decide_eq_true_eq]
          omega
        rw [hall]
        exact h
    · obtain ⟨n, hn⟩ := hc.resolve_left hzero
      obtain ⟨m', l', hrun, hl', hch⟩ := kfree_holds h hfuel hn
      refine ⟨_, by rw [call, hrun, Option.map_some], ⟨l', hl'⟩, fun x hx y hy => ?_⟩
      exact hch y (Set.disjoint_left.mp (h.payload_headers hx) hy)

theorem step_holds (hfuel : A.size ≤ fuel) {s t : Heap} {e : Event} (h : ∃ l, Holds A s l)
    (hst : Step A fuel s e t) : ∃ l, Holds A t l := by
  obtain ⟨l, h⟩ := h
  cases e with
  | call c =>
    obtain ⟨hc, hrun⟩ := hst
    obtain ⟨t', hrun', hl', -⟩ := call_holds h hfuel hc
    have ht : t' = t := Option.some.inj (hrun'.symm.trans hrun)
    exact ht ▸ hl'
  | store x v =>
    obtain ⟨⟨y, hy, hx⟩, rfl⟩ := hst
    obtain ⟨q, k, hq, hk, hm⟩ := h.live_used y hy
    refine ⟨l, h.payload_store hm fun b hb => Function.update_of_ne (fun he => hb ?_) _ _⟩
    obtain ⟨h₁, h₂⟩ := hx
    exact ⟨by omega, by omega⟩

theorem reachable_holds (hfuel : A.size ≤ fuel) {s : Heap}
    (hs : Reachable (Init A) (Step A fuel) s) : ∃ l, Holds A s l := by
  refine hs.invariant ?_ fun _ _ _ h hst => step_holds hfuel h hst
  rintro _ ⟨m, rfl⟩
  exact ⟨_, init_holds A m⟩

/-! ### The properties of a run -/

theorem Layout.tiles {m : Mem} {p : ℕ} {l : List Block} (hl : Layout a m p l) (hne : l ≠ []) :
    Tiles a m (p + extent (BLOCK_HEADER_SIZE a) l) p
      ((placed (BLOCK_HEADER_SIZE a) p l).map Prod.fst) := by
  induction l generalizing p with
  | nil => exact absurd rfl hne
  | cons b l ih =>
    obtain ⟨hs, -, hn, ht⟩ := hl
    cases l with
    | nil =>
      refine ⟨rfl, ?_, by simpa using hn⟩
      rw [hs, extent_cons, extent_nil]
      rfl
    | cons c l =>
      have hlink : next a m p = p + (BLOCK_HEADER_SIZE a + b.size) := by simpa using hn
      refine ⟨rfl, by rw [hlink, hs], ?_⟩
      rw [hlink, extent_cons, ← Nat.add_assoc p]
      exact ih ht (by simp)

theorem Holds.tiled {s : Heap} {l : List Block} (h : Holds A s l) :
    Tiled A s ((placed (BLOCK_HEADER_SIZE a) A.start l).map Prod.fst) where
  head := h.head
  tiles := by
    have ht := h.layout.tiles h.ne_nil
    rwa [h.extent_eq] at ht
  inside := by
    intro x hx
    obtain ⟨q, k, -, -, hm, -, hpay⟩ := h.payload_eq hx
    rw [hpay]
    refine Set.Subset.trans (fun y hy => ?_) (h.span_subset hm)
    exact ⟨by have := hy.1; omega, by have := hy.2; dsimp only; omega⟩
  apart := by
    have hd := (List.pairwise_map.mp h.nodup)
    refine hd.imp_of_mem fun {x y} hx hy hne => ?_
    obtain ⟨q, k, hq, -, hm, -, hpay⟩ := h.payload_eq hx
    obtain ⟨r, j, hr, -, hm', -, hpay'⟩ := h.payload_eq hy
    rw [hpay, hpay', Set.disjoint_left]
    rintro z ⟨h₁, h₂⟩ ⟨h₃, h₄⟩
    rcases placed_apart hm hm' with ⟨hqr, -⟩ | hlt | hlt
    · exact hne (by rw [hq, hr, hqr])
    all_goals
      dsimp only at hlt
      omega
  headers := by
    intro x hx q hq
    obtain ⟨⟨q', b⟩, hm, rfl⟩ := List.mem_map.mp hq
    exact ((h.payload_headers hx).mono_right fun y hy => ⟨_, b, hm, hy⟩).symm
  room := by
    intro x hx
    obtain ⟨q, k, -, hk, -, hsize, -⟩ := h.payload_eq hx
    rw [hsize]
    exact hk

theorem reachable_tiled (hfuel : A.size ≤ fuel) {s : Heap}
    (hs : Reachable (Init A) (Step A fuel) s) :
    (∃ bs, Tiled A s bs) ∧ ∀ c : Call, c.Allowed a s → ∃ t, call A fuel s c = some t ∧
      ∀ x ∈ s.live, ∀ b ∈ payload a s.mem x.1, t.mem b = s.mem b := by
  obtain ⟨l, h⟩ := reachable_holds hfuel hs
  refine ⟨⟨_, h.tiled⟩, fun c hc => ?_⟩
  obtain ⟨t, hrun, -, hkept⟩ := call_holds h hfuel hc
  exact ⟨t, hrun, hkept⟩

def smallArea : HeapArea .x86_64 where
  start := 4096
  size := 256
  heapHead := 64
  start_pos := by decide
  header_lt := by decide
  no_wrap := by decide
  head_no_wrap := by decide
  head_apart := by decide

def smallHeap : Heap := ⟨kheapInit .x86_64 64 4096 256 fun _ => 0, []⟩

theorem reachable_tiled_kmalloc : ∃ s, call smallArea 256 smallHeap (.kmalloc 24) = some s ∧
    s.live = [(4120, 24)] ∧ (∃ bs, Tiled smallArea s bs) ∧
    ∀ c : Call, c.Allowed .x86_64 s → ∃ t, call smallArea 256 s c = some t ∧
      ∀ x ∈ s.live, ∀ b ∈ payload .x86_64 s.mem x.1, t.mem b = s.mem b := by
  have hinit : Reachable (Init smallArea) (Step smallArea 256) smallHeap := .start ⟨fun _ => 0, rfl⟩
  have hallowed : (Call.kmalloc 24).Allowed .x86_64 smallHeap := by
    change 24 + 15 ≤ Arch.x86_64.SIZE_MAX
    decide
  obtain ⟨s, hrun, -⟩ := (reachable_tiled (A := smallArea) (le_refl 256) hinit).2 _ hallowed
  have hlive : (call smallArea 256 smallHeap (.kmalloc 24)).map Heap.live = some [(4120, 24)] := by
    decide
  rw [hrun] at hlive
  have hnext : Reachable (Init smallArea) (Step smallArea 256) s :=
    hinit.next (show Step smallArea 256 smallHeap (.call (.kmalloc 24)) s from ⟨hallowed, hrun⟩)
  exact ⟨s, hrun, Option.some.inj hlive, reachable_tiled (A := smallArea) (le_refl 256) hnext⟩

/-! ### Coalescing -/

def Isolated (m : Mem) (bs : List ℕ) : Prop :=
  bs.IsChain fun p q => ¬(isFree a m p = true ∧ isFree a m q = true)

variable (a) in
def liveSpans (s : Heap) : Set (ℕ × ℕ) :=
  {u | ∃ x ∈ s.live, u = (x.1 - BLOCK_HEADER_SIZE a,
    BLOCK_HEADER_SIZE a + Kheap.size a s.mem (x.1 - BLOCK_HEADER_SIZE a))}

def roundUp16 (n : ℕ) : ℕ := (n + 15) / 16 * 16

theorem Layout.isolated {m : Mem} {p : ℕ} {l : List Block} (hl : Layout a m p l) (hsep : Separated l) :
    Isolated (a := a) m ((placed (BLOCK_HEADER_SIZE a) p l).map Prod.fst) := by
  induction l generalizing p with
  | nil => simp [Isolated]
  | cons b l ih =>
    cases l with
    | nil => simp [Isolated]
    | cons c l =>
      obtain ⟨-, hf, -, ht⟩ := hl
      have hbc := List.isChain_cons_cons.mp hsep
      refine List.isChain_cons_cons.mpr ⟨?_, ih ht hbc.2⟩
      dsimp only
      rw [hf, ht.2.1]
      exact hbc.1

theorem Holds.liveSpans_eq {s : Heap} {l : List Block} (h : Holds A s l) :
    liveSpans a s = usedSpans (BLOCK_HEADER_SIZE a) A.start l := by
  ext u
  constructor
  · rintro ⟨x, hx, rfl⟩
    obtain ⟨q, k, hq, -, hm, hsize, -⟩ := h.payload_eq hx
    refine ⟨k, ?_, by rw [hsize]⟩
    rwa [hq, Nat.add_sub_cancel]
  · rintro ⟨k, hm, hk⟩
    obtain ⟨n, hn⟩ := h.used_live _ _ hm
    refine ⟨_, hn, Prod.ext ?_ ?_⟩
    · simp
    · simp [hk, (h.layout.at hm).1]

theorem Holds.all_free {s : Heap} {l : List Block} (h : Holds A s l) (hlive : s.live = []) :
    l = [⟨A.size - BLOCK_HEADER_SIZE a, true⟩] := by
  have hfree : ∀ b ∈ l, b.free = true := by
    intro b hb
    obtain ⟨q, hq⟩ := mem_placed hb (h := BLOCK_HEADER_SIZE a) A.start
    by_contra hbf
    have hbe : b = ⟨b.size, false⟩ := by simp [← Bool.eq_false_iff.mpr hbf]
    rw [hbe] at hq
    obtain ⟨n, hn⟩ := h.used_live _ _ hq
    simp [hlive] at hn
  obtain ⟨n, hl, hext⟩ := separated_all_free (h := BLOCK_HEADER_SIZE a) h.separated h.ne_nil hfree
  rw [h.extent_eq] at hext
  rw [hl, hext, Nat.add_sub_cancel_left]

theorem kmalloc_null_iff {s : Heap} {l : List Block} {n : ℕ} (h : Holds A s l) (hfuel : A.size ≤ fuel)
    (hpos : 0 < n) (hn : n + 15 ≤ a.SIZE_MAX) :
    ∃ r, kmalloc a A.heapHead fuel s.mem n = some r ∧
      (r.1 = 0 ↔ ∀ x y, MaximalClear A.start (A.start + A.size) (liveSpans a s) x y →
        y - x < BLOCK_HEADER_SIZE a + roundUp16 n) := by
  have hclear := alloc_none_iff_clear (g := 16) (s := alignSize a n) (p := A.start) (header_pos a) h.separated
  have hrun := kmalloc_holds h hfuel hn hpos
  rw [h.extent_eq, ← h.liveSpans_eq, alignSize_eq hn] at hclear
  rw [alignSize_eq hn] at hrun
  unfold roundUp16
  cases ha : alloc (BLOCK_HEADER_SIZE a) 16 ((n + 15) / 16 * 16) A.start l with
  | none =>
    rw [ha] at hrun hclear
    exact ⟨_, hrun, by simpa using hclear⟩
  | some r =>
    obtain ⟨q, l'⟩ := r
    rw [ha] at hrun hclear
    obtain ⟨m', b, hk, -⟩ := hrun
    have hposH := header_pos a
    refine ⟨_, hk, iff_of_false (by dsimp only; omega) ?_⟩
    simpa using hclear

theorem reachable_coalesced (hfuel : A.size ≤ fuel) {s : Heap}
    (hs : Reachable (Init A) (Step A fuel) s) :
    (∃ bs, Tiled A s bs ∧ Isolated (a := a) s.mem bs) ∧
      (s.live = [] → Tiled A s [A.start] ∧ isFree a s.mem A.start = true ∧
        Kheap.size a s.mem A.start = A.size - BLOCK_HEADER_SIZE a) ∧
      ∀ n, 0 < n → n + 15 ≤ a.SIZE_MAX → ∃ r, kmalloc a A.heapHead fuel s.mem n = some r ∧
        (r.1 = 0 ↔ ∀ x y, MaximalClear A.start (A.start + A.size) (liveSpans a s) x y →
          y - x < BLOCK_HEADER_SIZE a + roundUp16 n) := by
  obtain ⟨l, h⟩ := reachable_holds hfuel hs
  refine ⟨⟨_, h.tiled, h.layout.isolated h.separated⟩, fun hlive => ?_,
    fun n hpos hn => kmalloc_null_iff h hfuel hpos hn⟩
  have hl := h.all_free hlive
  subst hl
  exact ⟨h.tiled, h.layout.2.1, h.layout.1⟩

theorem reachable_coalesced_back : ∃ s t, Step smallArea 256 smallHeap (.call (.kmalloc 24)) s ∧
    Step smallArea 256 s (.call (.kfree 4120)) t ∧ s.live = [(4120, 24)] ∧ t.live = [] ∧
    Tiled smallArea t [4096] ∧ isFree .x86_64 t.mem 4096 = true ∧ Kheap.size .x86_64 t.mem 4096 = 232 := by
  have hruns : ((call smallArea 256 smallHeap (.kmalloc 24)).bind fun s =>
      (call smallArea 256 s (.kfree 4120)).map fun t => (s.live, t.live)) = some ([(4120, 24)], []) := by
    decide
  obtain ⟨s, hs, hruns⟩ := Option.bind_eq_some_iff.mp hruns
  obtain ⟨t, ht, hlive⟩ := Option.map_eq_some_iff.mp hruns
  obtain ⟨hsLive, htLive⟩ := Prod.mk.inj hlive
  have hmalloc : Step smallArea 256 smallHeap (.call (.kmalloc 24)) s := by
    refine ⟨?_, hs⟩
    change 24 + 15 ≤ Arch.x86_64.SIZE_MAX
    decide
  have hfree : Step smallArea 256 s (.call (.kfree 4120)) t := ⟨.inr ⟨24, by simp [hsLive]⟩, ht⟩
  have hinit : Reachable (Init smallArea) (Step smallArea 256) smallHeap := .start ⟨fun _ => 0, rfl⟩
  have hreach := (hinit.next hmalloc).next hfree
  obtain ⟨-, hall, -⟩ := reachable_coalesced (A := smallArea) (le_refl 256) hreach
  exact ⟨s, t, hmalloc, hfree, hsLive, htLive, hall htLive⟩

/-! ### Free space -/

variable (a) in
def heapFreeLoop (m : Mem) : ℕ → ℕ → ℕ
  | 0, _ => 0
  | fuel + 1, curr =>
    if curr = 0 then 0
    else (if isFree a m curr then Kheap.size a m curr else 0) + heapFreeLoop m fuel (next a m curr)

variable (A fuel) in
def heapFree (m : Mem) : ℕ :=
  heapFreeLoop a m fuel (load m A.heapHead a.wordBytes)

def freeBytes (l : List Block) : ℕ := (l.map fun b => if b.free then b.size else 0).sum

theorem heapFreeLoop_eq {m : Mem} {p : ℕ} {l : List Block} (hl : Layout a m p l) (hp : 0 < p)
    (hfuel : l.length < fuel) : heapFreeLoop a m fuel (if l = [] then 0 else p) = freeBytes l := by
  induction l generalizing p fuel with
  | nil =>
    cases fuel with
    | zero => rfl
    | succ fuel => rfl
  | cons b l ih =>
    cases fuel with
    | zero => cases hfuel
    | succ fuel =>
      obtain ⟨hs, hf, hn, ht⟩ := hl
      have hrest := ih ht (Nat.add_pos_left hp _) (Nat.lt_of_succ_lt_succ hfuel)
      rw [if_neg (List.cons_ne_nil _ _), heapFreeLoop, if_neg hp.ne', hs, hf, hn, hrest]
      rfl

theorem Holds.heapFree_eq {h : Heap} {l : List Block} (hl : Holds A h l) (hfuel : A.size ≤ fuel) :
    heapFree A fuel h.mem = freeBytes l := by
  have hwalk := heapFreeLoop_eq hl.layout A.start_pos (length_lt_of_extent hl.extent_eq hfuel)
  rw [if_neg hl.ne_nil] at hwalk
  unfold heapFree
  rw [hl.head, hwalk]

theorem kmalloc_serves_kfree {m : Mem} {live : List (ℕ × ℕ)} {l l' : List Block} {n q u : ℕ}
    (h : Holds A ⟨m, live⟩ l) (hfuel : A.size ≤ fuel) (hpos : 0 < n)
    (hsplit : ∀ b ∈ l, alignSize a n ≤ b.size → alignSize a n + BLOCK_HEADER_SIZE a + 16 < 2 ^ a.wordBits)
    (hle : u ≤ alignSize a n)
    (halloc : alloc (BLOCK_HEADER_SIZE a) 16 (alignSize a n) A.start l = some (q, l')) :
    ∃ m₁, kmalloc a A.heapHead fuel m n = some (q + BLOCK_HEADER_SIZE a, m₁) ∧
      A.start ≤ q ∧ q + BLOCK_HEADER_SIZE a + u ≤ A.start + A.size ∧
      ∀ m₂, ChangedIn (Span (q + BLOCK_HEADER_SIZE a) u) m₁ m₂ →
        ∃ m₃, kfree a A.heapHead fuel m₂ (q + BLOCK_HEADER_SIZE a) = some m₃ ∧ Holds A ⟨m₃, live⟩ l := by
  have hrun := kmalloc_serves h hfuel hpos hsplit hle
  rw [halloc] at hrun
  obtain ⟨m₁, b, hk, hl', hb, hbf, -⟩ := hrun
  obtain ⟨r, k, hr, huk, hm⟩ := hl'.live_used (q + BLOCK_HEADER_SIZE a, u) List.mem_cons_self
  have hrq : r = q := by dsimp only at hr; omega
  subst hrq
  have hin := placed_inside hm
  rw [hl'.extent_eq] at hin
  dsimp only at hin huk
  refine ⟨m₁, hk, hin.1, by omega, fun m₂ hch => ?_⟩
  have hstored : Holds A ⟨m₂, (r + BLOCK_HEADER_SIZE a, u) :: live⟩ l' :=
    hl'.payload_store hm (hch.mono fun x hx => ⟨hx.1, by have := hx.2; omega⟩)
  obtain ⟨m₃, hfree, hl, -⟩ := kfree_release hstored hfuel hm
  rw [coalesce_release_alloc (header_pos a) h.separated halloc] at hl
  have hlive : ((r + BLOCK_HEADER_SIZE a, u) :: live).filter (fun x => x.1 ≠ r + BLOCK_HEADER_SIZE a) = live := by
    have hnodup := hl'.nodup
    rw [List.map_cons, List.nodup_cons] at hnodup
    rw [List.filter_cons_of_neg (by simp)]
    apply List.filter_eq_self.mpr
    intro x hx
    have hne : x.1 ≠ r + BLOCK_HEADER_SIZE a := fun he => hnodup.1 (List.mem_map.mpr ⟨x, hx, he⟩)
    simpa using hne
  rw [hlive] at hl
  exact ⟨m₃, hfree, hl⟩

theorem kmalloc_kfree {m : Mem} {live : List (ℕ × ℕ)} {l l' : List Block} {n q : ℕ}
    (h : Holds A ⟨m, live⟩ l) (hfuel : A.size ≤ fuel) (hn : n + 15 ≤ a.SIZE_MAX) (hpos : 0 < n)
    (halloc : alloc (BLOCK_HEADER_SIZE a) 16 (alignSize a n) A.start l = some (q, l')) :
    ∃ m₁, kmalloc a A.heapHead fuel m n = some (q + BLOCK_HEADER_SIZE a, m₁) ∧
      A.start ≤ q ∧ q + BLOCK_HEADER_SIZE a + n ≤ A.start + A.size ∧
      ∀ m₂, ChangedIn (Span (q + BLOCK_HEADER_SIZE a) n) m₁ m₂ →
        ∃ m₃, kfree a A.heapHead fuel m₂ (q + BLOCK_HEADER_SIZE a) = some m₃ ∧ Holds A ⟨m₃, live⟩ l := by
  apply kmalloc_serves_kfree h hfuel hpos (fun b hb => no_split_wrap hn (h.block_le hb)) _ halloc
  rw [alignSize_eq hn]
  omega

end JurkOS.Kernel.Kheap
