import JurkOS.Kernel.Types
import JurkOS.Kernel.CString
import JurkOS.Lib.FreeList

/-!
The kernel heap of `mem/kheap.c`. Block headers and the variable `heap_head` live
in byte memory; a list walk takes fuel and returns `none` when it runs out.
-/

namespace JurkOS.Kernel.Kheap

open Lib Lib.Memory Lib.FreeList

variable (a : Arch)

/-- `struct heap_block`: `size`, then `is_free` (an `int`) padded to a word, then `next`. -/
def BLOCK_HEADER_SIZE : ℕ := 3 * a.wordBytes

def size (m : Mem) (p : ℕ) : ℕ := load m p a.wordBytes

def isFree (m : Mem) (p : ℕ) : Bool := load m (p + a.wordBytes) 4 != 0

def next (m : Mem) (p : ℕ) : ℕ := load m (p + 2 * a.wordBytes) a.wordBytes

def setSize (m : Mem) (p v : ℕ) : Mem := store m p a.wordBytes v

def setIsFree (m : Mem) (p : ℕ) (v : Bool) : Mem := store m (p + a.wordBytes) 4 v.toNat

def setNext (m : Mem) (p v : ℕ) : Mem := store m (p + 2 * a.wordBytes) a.wordBytes v

def kheapInit (heapHead start initialSize : ℕ) (m : Mem) : Mem :=
  let m := store m heapHead a.wordBytes start
  let m := setSize a m start (a.sub initialSize (BLOCK_HEADER_SIZE a))
  let m := setIsFree a m start true
  setNext a m start 0

def alignSize (size : ℕ) : ℕ := a.wrap (size + 15) &&& (2 ^ a.wordBits - 2 ^ 4)

def split (m : Mem) (curr sz : ℕ) : Mem :=
  let newBlock := a.wrap (curr + BLOCK_HEADER_SIZE a + sz)
  let m := setSize a m newBlock (a.sub (a.sub (size a m curr) sz) (BLOCK_HEADER_SIZE a))
  let m := setIsFree a m newBlock true
  let m := setNext a m newBlock (next a m curr)
  let m := setSize a m curr sz
  setNext a m curr newBlock

def kmallocLoop (sz : ℕ) : ℕ → Mem → ℕ → Option (ℕ × Mem)
  | 0, _, _ => none
  | fuel + 1, m, curr =>
    if curr = 0 then some (0, m)
    else if isFree a m curr = true ∧ sz ≤ size a m curr then
      let m := if a.wrap (sz + BLOCK_HEADER_SIZE a + 16) ≤ size a m curr then split a m curr sz else m
      let m := setIsFree a m curr false
      some (a.wrap (curr + BLOCK_HEADER_SIZE a), m)
    else kmallocLoop sz fuel m (next a m curr)

def kmalloc (heapHead fuel : ℕ) (m : Mem) (size : ℕ) : Option (ℕ × Mem) :=
  if size = 0 then some (0, m)
  else kmallocLoop a (alignSize a size) fuel m (load m heapHead a.wordBytes)

def kzalloc (heapHead fuel : ℕ) (m : Mem) (size : ℕ) : Option (ℕ × Mem) :=
  (kmalloc a heapHead fuel m size).map fun r =>
    if r.1 ≠ 0 then (r.1, memset 0 size r.2 r.1) else r

def kfreeLoop : ℕ → Mem → ℕ → Option Mem
  | 0, _, _ => none
  | fuel + 1, m, curr =>
    if curr = 0 ∨ next a m curr = 0 then some m
    else if isFree a m curr = true ∧ isFree a m (next a m curr) = true then
      let m := setSize a m curr (a.wrap (size a m curr + (BLOCK_HEADER_SIZE a + size a m (next a m curr))))
      let m := setNext a m curr (next a m (next a m curr))
      kfreeLoop fuel m curr
    else kfreeLoop fuel m (next a m curr)

def kfree (heapHead fuel : ℕ) (m : Mem) (ptr : ℕ) : Option Mem :=
  if ptr = 0 then some m
  else
    let block := a.sub ptr (BLOCK_HEADER_SIZE a)
    let m := setIsFree a m block true
    kfreeLoop a fuel m (load m heapHead a.wordBytes)

variable {a}

theorem header_pos (a : Arch) : 0 < BLOCK_HEADER_SIZE a := by cases a <;> decide

theorem setSize_changedIn (m : Mem) (p v : ℕ) :
    ChangedIn (Span p (BLOCK_HEADER_SIZE a)) m (setSize a m p v) := by
  apply (store_changedIn m p a.wordBytes v).mono
  intro b hb
  simp only [mem_span, BLOCK_HEADER_SIZE] at hb ⊢
  omega

theorem setIsFree_changedIn (m : Mem) (p : ℕ) (v : Bool) :
    ChangedIn (Span p (BLOCK_HEADER_SIZE a)) m (setIsFree a m p v) := by
  apply (store_changedIn m _ 4 v.toNat).mono
  intro b hb
  have := a.four_le_wordBytes
  simp only [mem_span, BLOCK_HEADER_SIZE] at hb ⊢
  omega

theorem setNext_changedIn (m : Mem) (p v : ℕ) :
    ChangedIn (Span p (BLOCK_HEADER_SIZE a)) m (setNext a m p v) := by
  apply (store_changedIn m _ a.wordBytes v).mono
  intro b hb
  simp only [mem_span, BLOCK_HEADER_SIZE] at hb ⊢
  omega

@[simp] theorem size_setSize (m : Mem) (p v : ℕ) : size a (setSize a m p v) p = a.wrap v := by
  rw [size, setSize, load_store, a.pow_wordBytes, Arch.wrap]

@[simp] theorem isFree_setSize (m : Mem) (p v : ℕ) : isFree a (setSize a m p v) p = isFree a m p := by
  rw [isFree, isFree, setSize, load_store_of_disjoint (.inr (le_refl _))]

@[simp] theorem next_setSize (m : Mem) (p v : ℕ) : next a (setSize a m p v) p = next a m p := by
  rw [next, next, setSize, load_store_of_disjoint (.inr (by omega))]

@[simp] theorem size_setIsFree (m : Mem) (p : ℕ) (v : Bool) :
    size a (setIsFree a m p v) p = size a m p := by
  rw [size, size, setIsFree, load_store_of_disjoint (.inl (le_refl _))]

@[simp] theorem isFree_setIsFree (m : Mem) (p : ℕ) (v : Bool) :
    isFree a (setIsFree a m p v) p = v := by
  rw [isFree, setIsFree, load_store]
  cases v <;> rfl

@[simp] theorem next_setIsFree (m : Mem) (p : ℕ) (v : Bool) :
    next a (setIsFree a m p v) p = next a m p := by
  have := a.four_le_wordBytes
  rw [next, next, setIsFree, load_store_of_disjoint (.inr (by omega))]

@[simp] theorem size_setNext (m : Mem) (p v : ℕ) : size a (setNext a m p v) p = size a m p := by
  rw [size, size, setNext, load_store_of_disjoint (.inl (by omega))]

@[simp] theorem isFree_setNext (m : Mem) (p v : ℕ) : isFree a (setNext a m p v) p = isFree a m p := by
  have := a.four_le_wordBytes
  rw [isFree, isFree, setNext, load_store_of_disjoint (.inl (by omega))]

@[simp] theorem next_setNext (m : Mem) (p v : ℕ) : next a (setNext a m p v) p = a.wrap v := by
  rw [next, setNext, load_store, a.pow_wordBytes, Arch.wrap]

theorem header_congr {m m' : Mem} {p : ℕ}
    (h : ∀ b ∈ Span p (BLOCK_HEADER_SIZE a), m' b = m b) :
    size a m' p = size a m p ∧ isFree a m' p = isFree a m p ∧ next a m' p = next a m p := by
  have hw := a.four_le_wordBytes
  have part (o k : ℕ) (ho : o + k ≤ 3 * a.wordBytes) : load m' (p + o) k = load m (p + o) k :=
    load_congr fun b hb => h b ⟨by have := hb.1; omega, by
      have := hb.2
      rw [BLOCK_HEADER_SIZE]
      omega⟩
  refine ⟨part 0 a.wordBytes (by omega), ?_, part (2 * a.wordBytes) a.wordBytes (by omega)⟩
  rw [isFree, isFree, part a.wordBytes 4 (by omega)]

variable (a) in
def Layout (m : Mem) : ℕ → List Block → Prop
  | _, [] => True
  | p, b :: l => size a m p = b.size ∧ isFree a m p = b.free ∧
      next a m p = (if l = [] then 0 else p + (BLOCK_HEADER_SIZE a + b.size)) ∧
      Layout m (p + (BLOCK_HEADER_SIZE a + b.size)) l

theorem Layout.congr {m m' : Mem} {p : ℕ} {l : List Block} (hl : Layout a m p l)
    (h : ∀ q b, (q, b) ∈ placed (BLOCK_HEADER_SIZE a) p l →
      ∀ x ∈ Span q (BLOCK_HEADER_SIZE a), m' x = m x) : Layout a m' p l := by
  induction l generalizing p with
  | nil => trivial
  | cons b l ih =>
    obtain ⟨hs, hf, hn, ht⟩ := hl
    obtain ⟨es, ef, en⟩ := header_congr (h p b (by simp))
    refine ⟨es.trans hs, ef.trans hf, en.trans hn, ih ht fun q c hc => ?_⟩
    exact h q c (List.mem_cons_of_mem _ hc)

theorem Layout.frame {S : Set ℕ} {m m' : Mem} {p : ℕ} {l : List Block} (hl : Layout a m p l)
    (h : ChangedIn S m m')
    (hS : ∀ x ∈ S, x < p ∨ p + extent (BLOCK_HEADER_SIZE a) l ≤ x) : Layout a m' p l := by
  refine hl.congr fun q b hb x hx => h x fun hxS => ?_
  have hin := placed_inside hb
  have hx' := hS x hxS
  obtain ⟨h₁, h₂⟩ := hx
  omega

theorem header_frame {m m' : Mem} {p q : ℕ} (h : ChangedIn (Span p (BLOCK_HEADER_SIZE a)) m m')
    (hpq : p + BLOCK_HEADER_SIZE a ≤ q ∨ q + BLOCK_HEADER_SIZE a ≤ p) :
    size a m' q = size a m q ∧ isFree a m' q = isFree a m q ∧ next a m' q = next a m q := by
  refine header_congr fun b hb => h b fun hb' => ?_
  obtain ⟨h₁, h₂⟩ := hb
  obtain ⟨h₃, h₄⟩ := hb'
  omega

theorem split_spec {m : Mem} {p sz n : ℕ} (hsize : size a m p = n)
    (hfit : sz + BLOCK_HEADER_SIZE a + 16 ≤ n) (hnw : p + (BLOCK_HEADER_SIZE a + n) < 2 ^ a.wordBits)
    (hnext : next a m p < 2 ^ a.wordBits) :
    size a (split a m p sz) p = sz ∧ next a (split a m p sz) p = p + (BLOCK_HEADER_SIZE a + sz) ∧
      size a (split a m p sz) (p + (BLOCK_HEADER_SIZE a + sz)) = n - sz - BLOCK_HEADER_SIZE a ∧
      isFree a (split a m p sz) (p + (BLOCK_HEADER_SIZE a + sz)) = true ∧
      next a (split a m p sz) (p + (BLOCK_HEADER_SIZE a + sz)) = next a m p ∧
      ChangedIn (Span p (BLOCK_HEADER_SIZE a + n)) m (split a m p sz) := by
  have hnew : a.wrap (p + BLOCK_HEADER_SIZE a + sz) = p + (BLOCK_HEADER_SIZE a + sz) := by
    rw [Arch.wrap_of_lt (by omega)]
    omega
  have hrest : a.sub (a.sub (size a m p) sz) (BLOCK_HEADER_SIZE a) = n - sz - BLOCK_HEADER_SIZE a := by
    have hcut : a.sub n sz = n - sz := Arch.sub_of_le (by omega) (by omega)
    rw [hsize, hcut, Arch.sub_of_le (by omega) (by omega)]
  set q := p + (BLOCK_HEADER_SIZE a + sz) with hq
  -- the stores to the new header, then those to the old one
  set m₁ := setSize a m q (n - sz - BLOCK_HEADER_SIZE a) with hm₁
  set m₂ := setIsFree a m₁ q true with hm₂
  set m₃ := setNext a m₂ q (next a m₂ p) with hm₃
  set m₄ := setSize a m₃ p sz with hm₄
  set m₅ := setNext a m₄ p q with hm₅
  have hsplit : split a m p sz = m₅ := by
    simp only [split, hnew, hrest, ← hm₁, ← hm₂, ← hm₃, ← hm₄, ← hm₅]
  have hpre : ChangedIn (Span q (BLOCK_HEADER_SIZE a)) m m₂ :=
    (setSize_changedIn m q _).trans (setIsFree_changedIn m₁ q true)
  have hcut : ChangedIn (Span q (BLOCK_HEADER_SIZE a)) m m₃ := hpre.trans (setNext_changedIn m₂ q _)
  have hold : ChangedIn (Span p (BLOCK_HEADER_SIZE a)) m₃ m₅ :=
    (setSize_changedIn m₃ p sz).trans (setNext_changedIn m₄ p q)
  obtain ⟨-, -, hn₂⟩ := header_frame hpre (q := p) (.inr (by omega))
  obtain ⟨hs₅, hf₅, hn₅⟩ := header_frame hold (q := q) (.inl (by omega))
  have hall : ChangedIn (Span p (BLOCK_HEADER_SIZE a + n)) m m₅ := by
    refine (hcut.mono fun b hb => ?_).trans (hold.mono fun b hb => ?_)
    all_goals
      simp only [mem_span] at hb ⊢
      omega
  rw [hsplit]
  refine ⟨?_, ?_, ?_, ?_, ?_, hall⟩
  · rw [hm₅, size_setNext, hm₄, size_setSize, Arch.wrap_of_lt (by omega)]
  · rw [hm₅, next_setNext, Arch.wrap_of_lt (by omega)]
  · rw [hs₅, hm₃, size_setNext, hm₂, size_setIsFree, hm₁, size_setSize, Arch.wrap_of_lt (by omega)]
  · rw [hf₅, hm₃, isFree_setNext, hm₂, isFree_setIsFree]
  · rw [hn₅, hm₃, next_setNext, hn₂, Arch.wrap_of_lt hnext]

-- Induction on the list: the walk reaches the block that first fit picks.
theorem kmallocLoop_spec {sz p : ℕ} {l : List Block} {m : Mem} {fuel : ℕ} (hl : Layout a m p l)
    (hp : 0 < p) (hnw : p + extent (BLOCK_HEADER_SIZE a) l < 2 ^ a.wordBits) (hfuel : l.length < fuel)
    (hsz : ∀ b ∈ l, sz ≤ b.size → sz + BLOCK_HEADER_SIZE a + 16 < 2 ^ a.wordBits) :
    match alloc (BLOCK_HEADER_SIZE a) 16 sz p l with
    | none => kmallocLoop a sz fuel m (if l = [] then 0 else p) = some (0, m)
    | some (q, l') => ∃ m' b,
        kmallocLoop a sz fuel m (if l = [] then 0 else p) = some (q + BLOCK_HEADER_SIZE a, m') ∧
        Layout a m' p l' ∧ (q, b) ∈ placed (BLOCK_HEADER_SIZE a) p l ∧ b.free = true ∧
        ChangedIn (Span q (BLOCK_HEADER_SIZE a + b.size)) m m' := by
  induction l generalizing p fuel with
  | nil =>
    obtain ⟨f, rfl⟩ : ∃ f, fuel = f + 1 := ⟨fuel - 1, by simp at hfuel; omega⟩
    simp [alloc, kmallocLoop]
  | cons b l ih =>
    obtain ⟨f, rfl⟩ : ∃ f, fuel = f + 1 := ⟨fuel - 1, by omega⟩
    obtain ⟨hs, hf, hn, ht⟩ := hl
    have hpos := header_pos a
    rw [extent_cons] at hnw
    have hnext : next a m p < 2 ^ a.wordBits := by rw [hn]; split_ifs <;> omega
    simp only [List.cons_ne_nil, ↓reduceIte]
    rw [kmallocLoop, if_neg (by omega : ¬p = 0), hs, hf]
    by_cases hfit : b.free = true ∧ sz ≤ b.size
    · have hno : a.wrap (sz + BLOCK_HEADER_SIZE a + 16) = sz + BLOCK_HEADER_SIZE a + 16 :=
        Arch.wrap_of_lt (hsz b (by simp) hfit.2)
      have hret : a.wrap (p + BLOCK_HEADER_SIZE a) = p + BLOCK_HEADER_SIZE a :=
        Arch.wrap_of_lt (by omega)
      simp only [alloc, if_pos hfit, hno, hret]
      by_cases hroom : sz + BLOCK_HEADER_SIZE a + 16 ≤ b.size
      · simp only [if_pos hroom]
        obtain ⟨h₁, h₂, h₃, h₄, h₅, hch⟩ := split_spec hs hroom (by omega) hnext
        set m₁ := split a m p sz
        have hdone : ChangedIn (Span p (BLOCK_HEADER_SIZE a)) m₁ (setIsFree a m₁ p false) :=
          setIsFree_changedIn m₁ p false
        obtain ⟨g₃, g₄, g₅⟩ := header_frame hdone (q := p + (BLOCK_HEADER_SIZE a + sz)) (.inl (by omega))
        have hall : ChangedIn (Span p (BLOCK_HEADER_SIZE a + b.size)) m (setIsFree a m₁ p false) :=
          hch.trans (hdone.mono fun x hx => by simp only [mem_span] at hx ⊢; omega)
        have hend : p + (BLOCK_HEADER_SIZE a + sz) + (BLOCK_HEADER_SIZE a + (b.size - sz - BLOCK_HEADER_SIZE a)) =
            p + (BLOCK_HEADER_SIZE a + b.size) := by omega
        refine ⟨_, b, rfl, ⟨?_, ?_, ?_, ?_, ?_, ?_, ?_⟩, by simp, hfit.1, hall⟩
        · rw [size_setIsFree, h₁]
        · rw [isFree_setIsFree]
        · rw [next_setIsFree, h₂, if_neg (by simp)]
        · rw [g₃, h₃]
        · rw [g₄, h₄]
        · rw [g₅, h₅, hn]
          simp only [hend]
        · simp only [hend]
          exact ht.frame hall fun x hx => .inl hx.2
      · simp only [if_neg hroom]
        have hall : ChangedIn (Span p (BLOCK_HEADER_SIZE a + b.size)) m (setIsFree a m p false) :=
          (setIsFree_changedIn m p false).mono fun x hx => by simp only [mem_span] at hx ⊢; omega
        refine ⟨_, b, rfl, ⟨?_, ?_, ?_, ht.frame hall fun x hx => .inl hx.2⟩, by simp, hfit.1, hall⟩
        · rw [size_setIsFree, hs]
        · rw [isFree_setIsFree]
        · rw [next_setIsFree, hn]
    · have hih := ih ht (by omega) (by omega) (by simpa using hfuel) fun c hc => hsz c (List.mem_cons_of_mem _ hc)
      rw [if_neg hfit, hn]
      simp only [alloc, if_neg hfit]
      cases ha : alloc (BLOCK_HEADER_SIZE a) 16 sz (p + (BLOCK_HEADER_SIZE a + b.size)) l with
      | none =>
        rw [ha] at hih
        exact hih
      | some r =>
        obtain ⟨q, l'⟩ := r
        rw [ha] at hih
        obtain ⟨m', c, hrun, hl', hc, hcf, hch⟩ := hih
        have hq := (placed_inside hc).1
        have hne : l ≠ [] := List.ne_nil_of_mem (placed_mem hc)
        have hne' : l' ≠ [] := by
          obtain ⟨d, t, rfl⟩ := List.exists_cons_of_ne_nil hne
          obtain ⟨e, r, rfl, -⟩ := alloc_head ha
          simp
        have hout : ∀ x ∈ Span p (BLOCK_HEADER_SIZE a), m' x = m x := fun x hx => hch x fun hx' => by
          obtain ⟨k₁, k₂⟩ := hx
          obtain ⟨k₃, k₄⟩ := hx'
          omega
        obtain ⟨es, ef, en⟩ := header_congr hout
        refine ⟨m', c, hrun, ⟨es.trans hs, ef.trans hf, ?_, hl'⟩, List.mem_cons_of_mem _ hc, hcf, hch⟩
        rw [en, hn, if_neg hne, if_neg hne']

variable (a) in
def headers (p : ℕ) (l : List Block) : Set ℕ :=
  {x | ∃ q b, (q, b) ∈ placed (BLOCK_HEADER_SIZE a) p l ∧ x ∈ Span q (BLOCK_HEADER_SIZE a)}

theorem headers_cons {p : ℕ} {b : Block} {l : List Block} : headers a p (b :: l) =
    Span p (BLOCK_HEADER_SIZE a) ∪ headers a (p + (BLOCK_HEADER_SIZE a + b.size)) l := by
  ext x
  constructor
  · rintro ⟨q, c, hm, hx⟩
    rcases List.mem_cons.mp hm with heq | hm
    · obtain ⟨rfl, -⟩ := Prod.mk.inj heq
      exact .inl hx
    · exact .inr ⟨q, c, hm, hx⟩
  · rintro (hx | ⟨q, c, hm, hx⟩)
    · exact ⟨p, b, by simp, hx⟩
    · exact ⟨q, c, List.mem_cons_of_mem _ hm, hx⟩

theorem Layout.release {m : Mem} {p q : ℕ} {b : Block} {l : List Block} (hl : Layout a m p l)
    (hm : (q, b) ∈ placed (BLOCK_HEADER_SIZE a) p l) :
    Layout a (setIsFree a m q true) p (release (BLOCK_HEADER_SIZE a) q p l) := by
  have hpos := header_pos a
  have hch := setIsFree_changedIn (a := a) m q true
  induction l generalizing p with
  | nil => simp at hm
  | cons c l ih =>
    obtain ⟨hs, hf, hn, ht⟩ := hl
    rw [FreeList.release]
    by_cases hpq : p = q
    · subst hpq
      rw [if_pos rfl]
      refine ⟨by rw [size_setIsFree, hs], by rw [isFree_setIsFree], by rw [next_setIsFree, hn], ?_⟩
      exact ht.frame hch fun x hx => .inl (by have := hx.2; omega)
    · have htail : (q, b) ∈ placed (BLOCK_HEADER_SIZE a) (p + (BLOCK_HEADER_SIZE a + c.size)) l := by
        rcases List.mem_cons.mp hm with heq | htail
        · exact absurd (Prod.mk.inj heq).1.symm hpq
        · exact htail
      have hin := placed_inside htail
      obtain ⟨es, ef, en⟩ := header_frame hch (q := p) (.inr (by omega))
      have hne : l ≠ [] := List.ne_nil_of_mem (placed_mem htail)
      have hne' : FreeList.release (BLOCK_HEADER_SIZE a) q (p + (BLOCK_HEADER_SIZE a + c.size)) l ≠ [] := by
        obtain ⟨d, t, rfl⟩ := List.exists_cons_of_ne_nil hne
        rw [FreeList.release]
        split_ifs <;> simp
      rw [if_neg hpq]
      refine ⟨es.trans hs, ef.trans hf, ?_, ih ht htail⟩
      rw [en, hn, if_neg hne, if_neg hne']

-- Induction on the list behind `curr`: a merge takes one block off it, a step moves past one.
theorem kfreeLoop_spec {p : ℕ} {b : Block} {l : List Block} {m : Mem} {fuel : ℕ}
    (hl : Layout a m p (b :: l)) (hp : 0 < p)
    (hnw : p + extent (BLOCK_HEADER_SIZE a) (b :: l) < 2 ^ a.wordBits) (hfuel : l.length < fuel) :
    ∃ m', kfreeLoop a fuel m p = some m' ∧ Layout a m' p (coalesce (BLOCK_HEADER_SIZE a) (b :: l)) ∧
      ChangedIn (headers a p (b :: l)) m m' := by
  induction l generalizing p b m fuel with
  | nil =>
    obtain ⟨f, rfl⟩ : ∃ f, fuel = f + 1 := ⟨fuel - 1, by simp at hfuel; omega⟩
    obtain ⟨hs, hf, hn, -⟩ := hl
    have hlast : next a m p = 0 := by simpa using hn
    refine ⟨m, by rw [kfreeLoop, if_pos (.inr hlast)], ?_, ChangedIn.refl _ _⟩
    rw [coalesce_single]
    exact ⟨hs, hf, hn, trivial⟩
  | cons c l ih =>
    obtain ⟨f, rfl⟩ : ∃ f, fuel = f + 1 := ⟨fuel - 1, by omega⟩
    obtain ⟨hs, hf, hn, ht⟩ := hl
    obtain ⟨hcs, hcf, hcn, hct⟩ := ht
    have hpos := header_pos a
    simp only [extent_cons] at hnw
    rw [if_neg (by simp)] at hn
    rw [kfreeLoop, if_neg (by rw [hn]; omega), hn, hf, hcf]
    by_cases hbc : b.free = true ∧ c.free = true
    · have hsum : a.wrap (size a m p + (BLOCK_HEADER_SIZE a +
          size a m (p + (BLOCK_HEADER_SIZE a + b.size)))) = b.size + (BLOCK_HEADER_SIZE a + c.size) := by
        rw [hs, hcs, Arch.wrap_of_lt (by omega)]
      rw [if_pos hbc, hsum]
      set m₁ := setSize a m p (b.size + (BLOCK_HEADER_SIZE a + c.size)) with hm₁
      have hch₁ : ChangedIn (Span p (BLOCK_HEADER_SIZE a)) m m₁ := setSize_changedIn m p _
      obtain ⟨-, -, hcn₁⟩ := header_frame hch₁ (q := p + (BLOCK_HEADER_SIZE a + b.size)) (.inl (by omega))
      have hn₁ : next a m₁ p = p + (BLOCK_HEADER_SIZE a + b.size) := by rw [hm₁, next_setSize, hn]
      have hlink : next a m₁ (p + (BLOCK_HEADER_SIZE a + b.size)) < 2 ^ a.wordBits := by
        rw [hcn₁, hcn]
        split_ifs <;> omega
      simp only [hn₁]
      set m₂ := setNext a m₁ p (next a m₁ (p + (BLOCK_HEADER_SIZE a + b.size))) with hm₂
      have hch₂ : ChangedIn (Span p (BLOCK_HEADER_SIZE a)) m m₂ := hch₁.trans (setNext_changedIn m₁ p _)
      have hend : p + (BLOCK_HEADER_SIZE a + b.size) + (BLOCK_HEADER_SIZE a + c.size) =
          p + (BLOCK_HEADER_SIZE a + (b.size + (BLOCK_HEADER_SIZE a + c.size))) := by omega
      have hmerged : Layout a m₂ p (⟨b.size + (BLOCK_HEADER_SIZE a + c.size), true⟩ :: l) := by
        refine ⟨?_, ?_, ?_, ?_⟩
        · rw [hm₂, size_setNext, hm₁, size_setSize, Arch.wrap_of_lt (by omega)]
        · rw [hm₂, isFree_setNext, hm₁, isFree_setSize, hf, hbc.1]
        · rw [hm₂, next_setNext, Arch.wrap_of_lt hlink, hcn₁, hcn]
          simp only [hend]
        · rw [← hend]
          exact hct.frame hch₂ fun x hx => .inl (by have := hx.2; omega)
      obtain ⟨m', hrun, hl', hch'⟩ := ih hmerged hp (by simp only [extent_cons]; omega) (by simpa using hfuel)
      refine ⟨m', hrun, ?_, ?_⟩
      · rwa [coalesce_merge l hbc.1 hbc.2]
      · have hsub : headers a p (⟨b.size + (BLOCK_HEADER_SIZE a + c.size), true⟩ :: l) ⊆
            headers a p (b :: c :: l) := by
          rw [headers_cons, headers_cons, headers_cons, hend]
          exact Set.union_subset_union_right _ Set.subset_union_right
        refine (hch₂.mono ?_).trans (hch'.mono hsub)
        rw [headers_cons]
        exact Set.subset_union_left
    · rw [if_neg hbc]
      obtain ⟨m', hrun, hl', hch'⟩ := ih ⟨hcs, hcf, hcn, hct⟩ (by omega)
        (by simp only [extent_cons]; omega) (by simpa using hfuel)
      have hkeep : ∀ x ∈ Span p (BLOCK_HEADER_SIZE a), m' x = m x := by
        refine fun x hx => hch' x ?_
        rintro ⟨q, d, hm, hq⟩
        have hin := placed_inside hm
        have := hx.2
        have := hq.1
        omega
      obtain ⟨es, ef, en⟩ := header_congr hkeep
      refine ⟨m', hrun, ?_, ?_⟩
      · rw [coalesce_skip l hbc]
        obtain ⟨d, r, hdr, -⟩ := coalesce_head c l (h := BLOCK_HEADER_SIZE a)
        refine ⟨es.trans hs, ef.trans hf, ?_, hl'⟩
        rw [en, hn, if_neg (by simp [hdr])]
      · rw [headers_cons]
        exact hch'.mono Set.subset_union_right

end JurkOS.Kernel.Kheap
