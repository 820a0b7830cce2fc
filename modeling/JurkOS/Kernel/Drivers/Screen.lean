import JurkOS.Kernel.CString
import JurkOS.Kernel.Drivers.Framebuffer
import Mathlib.Tactic.Linarith

/-!
The screen as a grid of characters. A cell keeps what was printed into it since
it was last blank; drawing leaves the background as it is, so older characters
show through the last one.
-/

namespace JurkOS.Kernel.Framebuffer

open Lib.Memory

/-! ### Writes of one color -/

section Pixels

variable {pix : ℕ → ℕ}

theorem applyAll_append (l l' : List Access) : applyAll pix (l ++ l') = applyAll (applyAll pix l) l' :=
  List.foldl_append

theorem applyAll_writes (color : ℕ) (l : List ℕ) (i : ℕ) :
    applyAll pix (l.map fun j => .write j color) i = if i ∈ l then color else pix i := by
  induction l generalizing pix with
  | nil => rfl
  | cons j l ih =>
    rw [List.map_cons, applyAll, List.foldl_cons, ← applyAll, ih]
    by_cases hmem : i ∈ l
    · rw [if_pos hmem, if_pos (List.mem_cons_of_mem j hmem)]
    · rw [if_neg hmem]
      by_cases heq : i = j
      · subst heq
        simp [Access.apply]
      · simp [Access.apply, heq, hmem]

-- A copy towards lower indices reads what no earlier turn has written.
theorem applyAll_copies (n src : ℕ) (i : ℕ) :
    applyAll pix ((List.range n).map fun j => .copy j (src + j)) i = if i < n then pix (src + i) else pix i := by
  induction n generalizing i with
  | zero => rfl
  | succ n ih =>
    rw [List.range_succ, List.map_append, applyAll_append, List.map_singleton]
    simp only [applyAll, List.foldl_cons, List.foldl_nil, Access.apply]
    rw [← applyAll]
    by_cases heq : i = n
    · subst heq
      rw [Function.update_self, ih, if_neg (by omega), if_pos (Nat.lt_succ_self i)]
    · rw [Function.update_of_ne heq, ih]
      by_cases hlt : i < n
      · rw [if_pos hlt, if_pos (Nat.lt_succ_of_lt hlt)]
      · rw [if_neg hlt, if_neg (by omega)]

/-- The bytes from `addr` on as an array of `uint32_t`. -/
def pixels (m : Mem) (addr : ℕ) : ℕ → ℕ := fun i => load m (addr + 4 * i) 4

theorem pixels_memcpy (m : Mem) (addr n src : ℕ) : pixels (memcpy m addr (addr + 4 * src) (4 * n)) addr =
    applyAll (pixels m addr) ((List.range n).map fun j => .copy j (src + j)) := by
  have hmoves := copyUp_moves (n := 4 * n) m (.inl (Nat.le_add_right addr (4 * src)))
  funext i
  rw [applyAll_copies]
  by_cases hi : i < n
  · have hload := hmoves.load (i := 4 * i) (k := 4) (by omega)
    rw [Nat.add_assoc, ← Nat.mul_add] at hload
    rw [if_pos hi]
    exact hload
  · rw [if_neg hi]
    apply load_of_changedIn hmoves.frame
    rw [Set.disjoint_left]
    rintro b ⟨hb, -⟩ ⟨-, hb'⟩
    omega

theorem pixels_scroll {fb : Fb} {arch : Arch} (h : fb.addr ≠ 0) (m : Mem) :
    applyAll (pixels m fb.addr) (fbScroll fb arch) =
      applyAll (pixels (memcpy m fb.addr (fb.addr + 4 * wrap32 (16 * (fb.pitch / 4)))
        (arch.wrap (wrap32 (sub32 fb.h 16 * (fb.pitch / 4)) * 4))) fb.addr)
        (fbFillRect fb 0 (sub32 fb.h 16) fb.w 16 COLOR_BLACK) := by
  have hcount (x : ℕ) : 4 * (arch.wrap (x * 4) / 4) = arch.wrap (x * 4) := by
    apply Nat.mul_div_cancel'
    cases arch with
    | x86 => exact (Nat.dvd_mod_iff (by decide)).mpr (Nat.dvd_mul_left 4 x)
    | x86_64 => exact (Nat.dvd_mod_iff (by decide)).mpr (Nat.dvd_mul_left 4 x)
  rw [fbScroll, if_neg h, applyAll_append, ← pixels_memcpy, hcount]

theorem pixel_index_lt {w h x y : ℕ} (hx : x < w) (hy : y < h) : y * w + x < w * h := by
  have hrow : (y + 1) * w ≤ h * w := Nat.mul_le_mul_right _ hy
  rw [Nat.mul_comm w]
  rw [Nat.succ_mul] at hrow
  omega

theorem index_inj {w x y x' y' : ℕ} (hx : x < w) (hx' : x' < w) (h : y * w + x = y' * w + x') : x = x' ∧ y = y' := by
  have hmod := congrArg (· % w) h
  simp only [Nat.mul_add_mod', Nat.mod_eq_of_lt hx, Nat.mod_eq_of_lt hx'] at hmod
  have hw : 0 < w := by omega
  refine ⟨hmod, ?_⟩
  subst hmod
  exact Nat.eq_of_mul_eq_mul_right hw (Nat.add_right_cancel h)

end Pixels

/-! ### The geometry of a text screen -/

structure TextScreen (arch : Arch) (fb : Fb) (cols rows : ℕ) : Prop where
  addr : fb.addr ≠ 0
  width : fb.w = 8 * cols
  height : fb.h = 16 * rows
  pitch : fb.pitch / 4 = fb.w
  cols_pos : 0 < cols
  rows_pos : 0 < rows
  small : fb.w * fb.h ≤ 2 ^ 32
  bytes : 4 * (fb.w * fb.h) ≤ 2 ^ arch.wordBits

namespace TextScreen

variable {arch : Arch} {fb : Fb} {cols rows : ℕ} {pix : ℕ → ℕ}

theorem width_lt (h : TextScreen arch fb cols rows) : fb.w ≤ 2 ^ 28 := by
  have h₁ := h.small
  have h₂ : fb.w * 16 ≤ fb.w * fb.h := Nat.mul_le_mul_left _ (by have := h.height; have := h.rows_pos; omega)
  omega

theorem height_lt (h : TextScreen arch fb cols rows) : fb.h ≤ 2 ^ 29 := by
  have h₁ := h.small
  have h₂ : 8 * fb.h ≤ fb.w * fb.h := Nat.mul_le_mul_right _ (by have := h.width; have := h.cols_pos; omega)
  omega

theorem index_eq (h : TextScreen arch fb cols rows) {x y : ℕ} (hx : x < fb.w) (hy : y < fb.h) :
    wrap32 (y * (fb.pitch / 4) + x) = y * fb.w + x := by
  rw [h.pitch]
  exact Nat.mod_eq_of_lt (lt_of_lt_of_le (pixel_index_lt hx hy) h.small)

theorem fillRow_eq (h : TextScreen arch fb cols rows) {y : ℕ} (hy : y < fb.h) (color n cx : ℕ) (hn : cx + n ≤ fb.w) :
    fillRow fb y 0 color n cx = (List.range' cx n).map fun x => .write (y * fb.w + x) color := by
  induction n generalizing cx with
  | zero => rfl
  | succ n ih =>
    have hwrap : wrap32 (0 + cx) = cx := by
      rw [Nat.zero_add]
      exact Nat.mod_eq_of_lt (by have := h.width_lt; omega)
    rw [fillRow, hwrap, if_pos (by omega), h.index_eq (by omega) hy, ih _ (by omega), List.range'_succ, List.map_cons]

def rowIndices (w : ℕ) (l : List ℕ) : List ℕ := l.flatMap fun y => (List.range' 0 w).map fun x => y * w + x

theorem rowIndices_cons (w y : ℕ) (l : List ℕ) :
    rowIndices w (y :: l) = (List.range' 0 w).map (fun x => y * w + x) ++ rowIndices w l := List.flatMap_cons

theorem mem_rowIndices {w x y : ℕ} {l : List ℕ} (hx : x < w) : y * w + x ∈ rowIndices w l ↔ y ∈ l := by
  simp only [rowIndices, List.mem_flatMap, List.mem_map, List.mem_range'_1]
  constructor
  · rintro ⟨y', hy', x', hx', heq⟩
    exact (index_inj (by omega) hx heq).2 ▸ hy'
  · exact fun hy => ⟨y, hy, x, by omega, rfl⟩

theorem fillRows_eq (h : TextScreen arch fb cols rows) (y color n cy : ℕ) (hn : y + cy + n ≤ fb.h) :
    fillRows fb 0 y fb.w color n cy =
      (rowIndices fb.w (List.range' (y + cy) n)).map fun i => .write i color := by
  induction n generalizing cy with
  | zero => rfl
  | succ n ih =>
    have hwrap : wrap32 (y + cy) = y + cy := Nat.mod_eq_of_lt (by have := h.height_lt; omega)
    rw [fillRows, hwrap, if_pos (by omega), h.fillRow_eq (by omega) color fb.w 0 (by omega), ih _ (by omega),
      List.range'_succ, rowIndices_cons, List.map_append, List.map_map, Nat.add_assoc]
    rfl

variable (pix) in
theorem fill_pixel (h : TextScreen arch fb cols rows) {y n i j : ℕ} (color : ℕ) (hn : y + n ≤ fb.h) (hi : i < fb.w) :
    applyAll pix (fbFillRect fb 0 y fb.w n color) (j * fb.w + i) =
      if y ≤ j ∧ j < y + n then color else pix (j * fb.w + i) := by
  rw [fbFillRect, if_neg h.addr, h.fillRows_eq y color n 0 hn, applyAll_writes, Nat.add_zero]
  simp only [mem_rowIndices hi, List.mem_range'_1]

def charIndices (w : ℕ) (c : UInt8) (x y : ℕ) : List ℕ :=
  (List.range 16).flatMap fun cy => (List.range 8).flatMap fun cx =>
    if glyphBit c cx cy then [(y + cy) * w + (x + cx)] else []

theorem drawChar_eq (h : TextScreen arch fb cols rows) (c : UInt8) (fg : ℕ) {x y : ℕ} (hx : x + 8 ≤ fb.w)
    (hy : y + 16 ≤ fb.h) :
    fbDrawChar fb c x y fg COLOR_BLACK = (charIndices fb.w c x y).map fun i => .write i fg := by
  rw [fbDrawChar, if_neg h.addr, charIndices, List.map_flatMap]
  apply List.flatMap_congr
  intro cy hcy
  rw [List.map_flatMap]
  apply List.flatMap_congr
  intro cx hcx
  rw [List.mem_range] at hcy hcx
  have hwx : wrap32 (x + cx) = x + cx := Nat.mod_eq_of_lt (by have := h.width_lt; omega)
  have hwy : wrap32 (y + cy) = y + cy := Nat.mod_eq_of_lt (by have := h.height_lt; omega)
  have hin : ¬ (fb.addr = 0 ∨ fb.w ≤ x + cx ∨ fb.h ≤ y + cy) := by
    have := h.addr
    omega
  split_ifs with hbit hbg
  · rw [hwx, hwy, fbPutPixel, if_neg hin, h.index_eq (by omega) (by omega)]
    rfl
  · exact absurd rfl hbg
  · rfl

theorem mem_charIndices {w : ℕ} {c : UInt8} {x y x' y' : ℕ} (hx : x + 8 ≤ w) (hx' : x' < w) :
    y' * w + x' ∈ charIndices w c x y ↔
      ∃ cx < 8, ∃ cy < 16, x' = x + cx ∧ y' = y + cy ∧ glyphBit c cx cy := by
  simp only [charIndices, List.mem_flatMap, List.mem_range]
  constructor
  · rintro ⟨cy, hcy, cx, hcx, hmem⟩
    split_ifs at hmem with hbit
    · obtain ⟨hxx, hyy⟩ := index_inj hx' (by omega) (List.mem_singleton.mp hmem)
      exact ⟨cx, hcx, cy, hcy, hxx, hyy, hbit⟩
    · cases hmem
  · rintro ⟨cx, hcx, cy, hcy, rfl, rfl, hbit⟩
    exact ⟨cy, hcy, cx, hcx, by rw [if_pos hbit]; exact List.mem_singleton.mpr rfl⟩

theorem copyCount_eq (h : TextScreen arch fb cols rows) : copyCount arch fb = (fb.h - 16) * fb.w := by
  have hh : 16 ≤ fb.h := by
    have := h.height
    have := h.rows_pos
    omega
  have hw : 0 < fb.w := by
    have := h.width
    have := h.cols_pos
    omega
  have hlt : (fb.h - 16) * fb.w < fb.w * fb.h := by
    rw [Nat.mul_comm]
    exact Nat.mul_lt_mul_of_pos_left (by omega) hw
  have hsmall := h.small
  have hbytes := h.bytes
  have hwrap : wrap32 ((fb.h - 16) * fb.w) = (fb.h - 16) * fb.w := Nat.mod_eq_of_lt (by omega)
  rw [copyCount, sub32_of_le hh (by have := h.height_lt; omega), h.pitch, hwrap, Arch.wrap_of_lt (by omega),
    Nat.mul_div_cancel _ (by decide)]

variable (pix) in
theorem scroll_pixel (h : TextScreen arch fb cols rows) {x y : ℕ} (hx : x < fb.w) (hy : y < fb.h) :
    applyAll pix (fbScroll fb arch) (y * fb.w + x) =
      if y + 16 < fb.h then pix ((y + 16) * fb.w + x) else COLOR_BLACK := by
  have hh : 16 ≤ fb.h := by
    have := h.height
    have := h.rows_pos
    omega
  have hscroll : fbScroll fb arch = (List.range ((fb.h - 16) * fb.w)).map
      (fun i => Access.copy i (wrap32 (16 * fb.w) + i)) ++ fbFillRect fb 0 (fb.h - 16) fb.w 16 COLOR_BLACK := by
    rw [fbScroll, if_neg h.addr, ← h.copyCount_eq, copyCount, sub32_of_le hh (by have := h.height_lt; omega), h.pitch]
  rw [hscroll, applyAll_append, h.fill_pixel _ COLOR_BLACK (by omega) hx, applyAll_copies]
  by_cases hlast : fb.h - 16 ≤ y
  · rw [if_pos ⟨hlast, by omega⟩, if_neg (by omega)]
  · have hcopied : y * fb.w + x < (fb.h - 16) * fb.w := by
      rw [Nat.mul_comm (fb.h - 16)]
      exact pixel_index_lt hx (by omega)
    have hsrc : wrap32 (16 * fb.w) = 16 * fb.w := by
      apply Nat.mod_eq_of_lt
      have hless : fb.w * 16 < fb.w * fb.h := Nat.mul_lt_mul_of_pos_left (by omega) (by omega)
      have := h.small
      omega
    rw [if_neg (by omega), if_pos hcopied, if_pos (by omega), hsrc, ← Nat.add_assoc, Nat.add_comm (16 * fb.w),
      ← Nat.add_mul]

end TextScreen

/-! ### The console -/

abbrev Cell := List (UInt8 × ℕ)

def Cell.shown (px py : ℕ) : Cell → ℕ
  | [] => COLOR_BLACK
  | (c, fg) :: older => if glyphBit c px py then fg else Cell.shown px py older

def Cell.last (px py : ℕ) : Cell → ℕ
  | [] => COLOR_BLACK
  | (c, fg) :: _ => if glyphBit c px py then fg else COLOR_BLACK

structure Console where
  cols : ℕ
  rows : ℕ
  col : ℕ
  row : ℕ
  cells : ℕ → ℕ → Cell

namespace Console

def blank (cols rows : ℕ) : Console := ⟨cols, rows, 0, 0, fun _ _ => []⟩

def newline (s : Console) : Console :=
  if s.row + 1 < s.rows then { s with col := 0, row := s.row + 1 }
  else { s with col := 0, cells := fun x y => if y + 1 < s.rows then s.cells x (y + 1) else [] }

def put (s : Console) (c : UInt8) (fg : ℕ) : Console :=
  { s with cells := fun x y => if x = s.col ∧ y = s.row then (c, fg) :: s.cells x y else s.cells x y }

def printChar (s : Console) (c : UInt8) (fg : ℕ) : Console :=
  if c = 10 then s.newline
  else if c = 13 then { s with col := 0 }
  else if s.col + 1 < s.cols then { s.put c fg with col := s.col + 1 }
  else (s.put c fg).newline

def printColor (s : Console) (str : List UInt8) (fg : ℕ) : Console := str.foldl (fun s c => s.printChar c fg) s

def printAll (s : Console) (prints : List (List UInt8 × ℕ)) : Console :=
  prints.foldl (fun s p => s.printColor p.1 p.2) s

end Console

def Pictured (fb : Fb) (pix : ℕ → ℕ) (s : Console) : Prop :=
  ∀ x < s.cols, ∀ y < s.rows, ∀ px < 8, ∀ py < 16,
    pix ((16 * y + py) * fb.w + (8 * x + px)) = (s.cells x y).shown px py

structure Refines (arch : Arch) (fb : Fb) (pix : ℕ → ℕ) (s : Console) : Prop where
  screen : TextScreen arch fb s.cols s.rows
  cursorX : fb.cursorX = 8 * s.col
  cursorY : fb.cursorY = 16 * s.row
  col : s.col < s.cols
  row : s.row < s.rows
  pixels : Pictured fb pix s

section Steps

variable {arch : Arch} {fb : Fb} {pix : ℕ → ℕ} {s : Console}

theorem TextScreen.cursor {cols rows : ℕ} (h : TextScreen arch fb cols rows) (cx cy : ℕ) :
    TextScreen arch { fb with cursorX := cx, cursorY := cy } cols rows :=
  ⟨h.1, h.2, h.3, h.4, h.5, h.6, h.7, h.8⟩

theorem newline_refines (h : TextScreen arch fb s.cols s.rows) (hy : fb.cursorY = 16 * s.row) (hrow : s.row < s.rows)
    (hpix : Pictured fb pix s) :
    Refines arch (fbNewline fb arch).1 (applyAll pix (fbNewline fb arch).2) s.newline := by
  have hheight := h.height
  have hlimit := h.height_lt
  have hwrap : wrap32 (fb.cursorY + 16) = 16 * s.row + 16 := by
    rw [hy]
    exact Nat.mod_eq_of_lt (by omega)
  have hwrap' : wrap32 (16 * s.row + 16 + 16) = 16 * s.row + 32 := Nat.mod_eq_of_lt (by omega)
  unfold fbNewline Console.newline
  dsimp only
  rw [hwrap, hwrap']
  by_cases hlast : s.row + 1 < s.rows
  · rw [if_neg (by omega), if_pos hlast]
    exact ⟨h.cursor _ _, rfl, by simp only; omega, h.cols_pos, hlast, hpix⟩
  · rw [if_pos (by omega), if_neg hlast]
    have hsub : sub32 fb.h 16 = 16 * s.row := by
      rw [sub32_of_le (by omega) (by omega)]
      omega
    refine ⟨h.cursor _ _, rfl, hsub, h.cols_pos, hrow, ?_⟩
    intro x hx y hy px hpx py hpy
    change x < s.cols at hx
    change y < s.rows at hy
    have hwidth := h.width
    have hscroll := h.scroll_pixel pix (x := 8 * x + px) (y := 16 * y + py) (by omega) (by omega)
    apply hscroll.trans
    by_cases hmore : y + 1 < s.rows
    · simp only [if_pos hmore]
      have hbelow : 16 * y + py + 16 = 16 * (y + 1) + py := by omega
      rw [if_pos (by omega), hbelow, hpix x hx (y + 1) hmore px hpx py hpy]
    · simp only [if_neg hmore]
      rw [if_neg (by omega)]
      rfl

theorem put_pictured (h : TextScreen arch fb s.cols s.rows) (hcol : s.col < s.cols) (hrow : s.row < s.rows)
    (hpix : Pictured fb pix s) (c : UInt8) (fg : ℕ) :
    Pictured fb (applyAll pix (fbDrawChar fb c (8 * s.col) (16 * s.row) fg COLOR_BLACK)) (s.put c fg) := by
  have hwidth := h.width
  have hheight := h.height
  intro x hx y hy px hpx py hpy
  change x < s.cols at hx
  change y < s.rows at hy
  have hmem : (16 * y + py) * fb.w + (8 * x + px) ∈ TextScreen.charIndices fb.w c (8 * s.col) (16 * s.row) ↔
      (x = s.col ∧ y = s.row) ∧ glyphBit c px py := by
    rw [TextScreen.mem_charIndices (by omega) (by omega)]
    constructor
    · rintro ⟨cx, hcx, cy, hcy, hxx, hyy, hbit⟩
      obtain ⟨rfl, rfl⟩ : px = cx ∧ py = cy := by omega
      exact ⟨by omega, hbit⟩
    · rintro ⟨⟨rfl, rfl⟩, hbit⟩
      exact ⟨px, hpx, py, hpy, rfl, rfl, hbit⟩
  rw [h.drawChar_eq c fg (by omega) (by omega), applyAll_writes]
  by_cases hcell : x = s.col ∧ y = s.row
  · have hput : (s.put c fg).cells x y = (c, fg) :: s.cells x y := if_pos hcell
    rw [hput, Cell.shown]
    by_cases hbit : glyphBit c px py
    · rw [if_pos (hmem.mpr ⟨hcell, hbit⟩), if_pos hbit]
    · rw [if_neg (fun h => hbit (hmem.mp h).2), if_neg hbit, hpix x hx y hy px hpx py hpy]
  · have hput : (s.put c fg).cells x y = s.cells x y := if_neg hcell
    rw [hput, if_neg (fun h => hcell (hmem.mp h).1), hpix x hx y hy px hpx py hpy]

theorem printChar_refines (h : Refines arch fb pix s) (c : UInt8) (fg : ℕ) (htab : c ≠ 9) :
    Refines arch (fbPrintChar fb arch c fg COLOR_BLACK).1 (applyAll pix (fbPrintChar fb arch c fg COLOR_BLACK).2)
      (s.printChar c fg) := by
  have hlimit := h.screen.width_lt
  have hwidth := h.screen.width
  have hcol := h.col
  unfold fbPrintChar Console.printChar
  by_cases hlf : c = 10
  · rw [if_pos hlf, if_pos hlf]
    exact newline_refines h.screen h.cursorY h.row h.pixels
  rw [if_neg hlf, if_neg hlf]
  by_cases hcr : c = 13
  · rw [if_pos hcr, if_pos hcr]
    exact ⟨h.screen.cursor _ _, rfl, h.cursorY, h.screen.cols_pos, h.row, h.pixels⟩
  have hright : wrap32 (fb.cursorX + 8) = 8 * s.col + 8 := by
    rw [h.cursorX]
    exact Nat.mod_eq_of_lt (by omega)
  have hnext : wrap32 (8 * s.col + 8 + 8) = 8 * s.col + 16 := Nat.mod_eq_of_lt (by omega)
  have hput := put_pictured h.screen h.col h.row h.pixels c fg
  rw [if_neg hcr, if_neg hcr, if_neg htab]
  dsimp only
  rw [hright, hnext, h.cursorX, h.cursorY]
  by_cases hmore : s.col + 1 < s.cols
  · rw [if_neg (by omega), if_pos hmore]
    exact ⟨h.screen.cursor _ _, by simp only; omega, rfl, hmore, h.row, hput⟩
  · rw [if_pos (by omega), if_neg hmore]
    simp only [applyAll_append]
    exact newline_refines (s := s.put c fg) (h.screen.cursor _ _) rfl h.row hput

theorem printLoop_refines (h : Refines arch fb pix s) (fg : ℕ) {str : List UInt8} (htab : 9 ∉ str) :
    Refines arch (printLoop arch fg COLOR_BLACK fb str).1 (applyAll pix (printLoop arch fg COLOR_BLACK fb str).2)
      (s.printColor str fg) := by
  induction str generalizing fb pix s with
  | nil => exact h
  | cons c str ih =>
    rw [List.mem_cons, not_or] at htab
    have hstep := printChar_refines h c fg (Ne.symm htab.1)
    unfold printLoop
    simp only [applyAll_append]
    exact ih hstep htab.2

def printCalls (prints : List (List UInt8 × ℕ)) : List Call := prints.map fun p => .printColor p.1 p.2 COLOR_BLACK

theorem execAll_refines (h : Refines arch fb pix s) {prints : List (List UInt8 × ℕ)} (htab : ∀ p ∈ prints, 9 ∉ p.1) :
    Refines arch (execAll arch fb (printCalls prints)).1 (applyAll pix (execAll arch fb (printCalls prints)).2)
      (s.printAll prints) := by
  induction prints generalizing fb pix s with
  | nil => exact h
  | cons p prints ih =>
    have hstep : Refines arch (fbPrintColor fb arch p.1 p.2 COLOR_BLACK).1
        (applyAll pix (fbPrintColor fb arch p.1 p.2 COLOR_BLACK).2) (s.printColor p.1 p.2) := by
      rw [fbPrintColor, if_neg h.screen.addr]
      exact printLoop_refines h p.2 (htab p List.mem_cons_self)
    have hrest := ih hstep (fun q hq => htab q (List.mem_cons_of_mem p hq))
    rw [← applyAll_append] at hrest
    exact hrest

theorem init_refines {addr w h pitch cols rows : ℕ} (hs : TextScreen arch ⟨addr, w, h, pitch, 0, 0⟩ cols rows)
    (pix : ℕ → ℕ) :
    Refines arch (fbInit addr w h pitch).1 (applyAll pix (fbInit addr w h pitch).2) (Console.blank cols rows) := by
  refine ⟨hs.cursor 0 0, rfl, rfl, hs.cols_pos, hs.rows_pos, ?_⟩
  intro x hx y hy px hpx py hpy
  change x < cols at hx
  change y < rows at hy
  have hwidth : w = 8 * cols := hs.width
  have hheight : h = 16 * rows := hs.height
  have hfill := hs.fill_pixel pix (y := 0) (n := h) (j := 16 * y + py) COLOR_BLACK (Nat.zero_add h).le
    (show 8 * x + px < w by omega)
  exact hfill.trans (if_pos (by omega))

end Steps

namespace Console

theorem newline_size (s : Console) : s.newline.cols = s.cols ∧ s.newline.rows = s.rows := by
  unfold newline
  split_ifs <;> exact ⟨rfl, rfl⟩

theorem printChar_size (s : Console) (c : UInt8) (fg : ℕ) :
    (s.printChar c fg).cols = s.cols ∧ (s.printChar c fg).rows = s.rows := by
  unfold printChar
  split_ifs
  · exact s.newline_size
  · exact ⟨rfl, rfl⟩
  · exact ⟨rfl, rfl⟩
  · exact (s.put c fg).newline_size

theorem printColor_size (s : Console) (str : List UInt8) (fg : ℕ) :
    (s.printColor str fg).cols = s.cols ∧ (s.printColor str fg).rows = s.rows := by
  induction str generalizing s with
  | nil => exact ⟨rfl, rfl⟩
  | cons c str ih =>
    obtain ⟨hcols, hrows⟩ := s.printChar_size c fg
    exact ⟨(ih _).1.trans hcols, (ih _).2.trans hrows⟩

theorem printAll_size (s : Console) (prints : List (List UInt8 × ℕ)) :
    (s.printAll prints).cols = s.cols ∧ (s.printAll prints).rows = s.rows := by
  induction prints generalizing s with
  | nil => exact ⟨rfl, rfl⟩
  | cons p prints ih =>
    obtain ⟨hcols, hrows⟩ := s.printColor_size p.1 p.2
    exact ⟨(ih _).1.trans hcols, (ih _).2.trans hrows⟩

end Console

/-! ### Pixels out of reach -/

def Access.target : Access → ℕ
  | .write index _ => index
  | .copy dst _ => dst

theorem applyAll_beyond {n i : ℕ} {l : List Access} (h : AllOf (fun a => a.target < n) l) (hi : n ≤ i)
    (pix : ℕ → ℕ) : applyAll pix l i = pix i := by
  induction l generalizing pix with
  | nil => rfl
  | cons a l ih =>
    obtain ⟨ha, hl⟩ := allOf_cons.mp h
    apply (ih hl _).trans
    cases a with
    | write index color => exact Function.update_of_ne (Nat.ne_of_gt (lt_of_lt_of_le ha hi)) _ _
    | copy dst src => exact Function.update_of_ne (Nat.ne_of_gt (lt_of_lt_of_le ha hi)) _ _

theorem targets_small (arch : Arch) (fb : Fb) : Allows (fun a => a.target < 2 ^ 32) arch fb where
  write _ _ _ _ _ := Nat.mod_lt _ (by decide)
  copy i hi := by
    have hbytes : arch.wrap (wrap32 (sub32 fb.h 16 * (fb.pitch / 4)) * 4) ≤
        wrap32 (sub32 fb.h 16 * (fb.pitch / 4)) * 4 := Nat.mod_le _ _
    have hwrap : wrap32 (sub32 fb.h 16 * (fb.pitch / 4)) < 2 ^ 32 := Nat.mod_lt _ (by decide)
    unfold copyCount at hi
    change i < 2 ^ 32
    omega

/-! ### When the last character is all that shows -/

def Cell.Covered : Cell → Prop
  | [] => True
  | (c, _) :: older => ∀ px < 8, ∀ py < 16, ¬ glyphBit c px py → Cell.shown px py older = COLOR_BLACK

instance : (cell : Cell) → Decidable cell.Covered
  | [] => inferInstanceAs (Decidable True)
  | (c, _) :: older =>
    inferInstanceAs (Decidable (∀ px < 8, ∀ py < 16, ¬ glyphBit c px py → Cell.shown px py older = COLOR_BLACK))

theorem Cell.covered_iff (cell : Cell) : cell.Covered ↔ ∀ px < 8, ∀ py < 16, cell.shown px py = cell.last px py := by
  cases cell with
  | nil => exact iff_of_true trivial fun _ _ _ _ => rfl
  | cons entry older =>
    obtain ⟨c, fg⟩ := entry
    refine forall_congr' fun px => forall_congr' fun hpx => forall_congr' fun py => forall_congr' fun hpy => ?_
    rw [Cell.shown, Cell.last]
    by_cases hbit : glyphBit c px py <;> simp [hbit]

def screenAfter (arch : Arch) (addr w h : ℕ) (prints : List (List UInt8 × ℕ)) (pix : ℕ → ℕ) : ℕ → ℕ :=
  applyAll pix
    ((fbInit addr w h (4 * w)).2 ++ (execAll arch (fbInit addr w h (4 * w)).1 (printCalls prints)).2)

def consoleAfter (w h : ℕ) (prints : List (List UInt8 × ℕ)) : Console :=
  (Console.blank (w / 8) (h / 16)).printAll prints

def ShowsLast (w h : ℕ) (pix : ℕ → ℕ) (cells : ℕ → ℕ → Cell) : Prop :=
  ∀ x < w / 8, ∀ y < h / 16, ∀ px < 8, ∀ py < 16,
    pix ((16 * y + py) * w + (8 * x + px)) = (cells x y).last px py

section Screen

variable {arch : Arch} {addr w h : ℕ} {prints : List (List UInt8 × ℕ)}

theorem screenAfter_shown (hs : TextScreen arch ⟨addr, w, h, 4 * w, 0, 0⟩ (w / 8) (h / 16))
    (htab : ∀ p ∈ prints, 9 ∉ p.1) (pix : ℕ → ℕ) :
    ∀ x < w / 8, ∀ y < h / 16, ∀ px < 8, ∀ py < 16,
      screenAfter arch addr w h prints pix ((16 * y + py) * w + (8 * x + px)) =
        ((consoleAfter w h prints).cells x y).shown px py := by
  have hrun := execAll_refines (init_refines hs pix) htab
  obtain ⟨hcols, hrows⟩ := (Console.blank (w / 8) (h / 16)).printAll_size prints
  have hcols' : ((Console.blank (w / 8) (h / 16)).printAll prints).cols = w / 8 := hcols
  have hwidth := hrun.screen.width
  have hw : w = 8 * (w / 8) := hs.width
  rw [hcols', ← hw] at hwidth
  rw [← applyAll_append] at hrun
  intro x hx y hy px hpx py hpy
  have hpixel := hrun.pixels x (hcols'.symm ▸ hx) y (hrows.symm ▸ hy) px hpx py hpy
  rw [hwidth] at hpixel
  exact hpixel

theorem screen_shows_last_iff (haddr : addr ≠ 0) (hw : 8 ∣ w) (hh : 16 ∣ h)
    (hbytes : 4 * (w * h) ≤ 2 ^ arch.wordBits) (htab : ∀ p ∈ prints, 9 ∉ p.1) :
    (∀ pix, ShowsLast w h (screenAfter arch addr w h prints pix) (consoleAfter w h prints).cells) ↔
      w * h ≤ 2 ^ 32 ∧ ∀ x < w / 8, ∀ y < h / 16, ((consoleAfter w h prints).cells x y).Covered := by
  by_cases hempty : w / 8 = 0 ∨ h / 16 = 0
  · have hno : ∀ x < w / 8, ∀ y < h / 16, False := by omega
    refine iff_of_true (fun _ x hx y hy => (hno x hx y hy).elim) ⟨?_, fun x hx y hy => (hno x hx y hy).elim⟩
    have hzero : w = 0 ∨ h = 0 := by omega
    rcases hzero with rfl | rfl <;> simp
  rw [not_or] at hempty
  by_cases hsmall : w * h ≤ 2 ^ 32
  · have hs : TextScreen arch ⟨addr, w, h, 4 * w, 0, 0⟩ (w / 8) (h / 16) :=
      ⟨haddr, by simp only; omega, by simp only; omega, by simp only; omega, by omega, by omega, hsmall, hbytes⟩
    have hshown := screenAfter_shown hs htab
    rw [and_iff_right hsmall]
    constructor
    · intro hlast x hx y hy
      rw [Cell.covered_iff]
      intro px hpx py hpy
      rw [← hshown (fun _ => 0) x hx y hy px hpx py hpy]
      exact hlast (fun _ => 0) x hx y hy px hpx py hpy
    · intro hcovered pix x hx y hy px hpx py hpy
      rw [hshown pix x hx y hy px hpx py hpy]
      exact (Cell.covered_iff _).mp (hcovered x hx y hy) px hpx py hpy
  · refine iff_of_false (fun hlast => ?_) (fun h => hsmall h.1)
    -- the last pixel keeps what was in the memory before the screen was cleared
    generalize hcell : (consoleAfter w h prints).cells (w / 8 - 1) (h / 16 - 1) = cell at hlast
    have hpixel := hlast (fun _ => cell.last 7 15 + 1) (w / 8 - 1) (by omega) (h / 16 - 1) (by omega) 7 (by omega) 15
      (by omega)
    rw [hcell] at hpixel
    have hindex : 2 ^ 32 ≤ (16 * (h / 16 - 1) + 15) * w + (8 * (w / 8 - 1) + 7) := by
      have hlastrow : 16 * (h / 16 - 1) + 15 = h - 1 := by omega
      have hrow : w ≤ h * w := Nat.le_mul_of_pos_left w (by omega)
      rw [hlastrow, Nat.sub_mul, Nat.one_mul]
      rw [Nat.mul_comm] at hsmall
      omega
    have hbeyond := applyAll_beyond
      (allOf_append.mpr ⟨(targets_small arch ⟨addr, w, h, 4 * w, 0, 0⟩).fillRect 0 0 w h COLOR_BLACK,
        (targets_small arch (fbInit addr w h (4 * w)).1).execAll (printCalls prints)⟩)
      hindex (fun _ => cell.last 7 15 + 1)
    have heq := hbeyond.symm.trans hpixel
    exact absurd heq (Nat.succ_ne_self _)

theorem screen_shows_last_semicolon :
    ShowsLast 16 32
      (screenAfter .x86 0xFD000000 16 32 [([0x3A, 13, 0x3B], COLOR_WHITE), ([10, 0x41], COLOR_YELLOW)] fun i => i)
      (consoleAfter 16 32 [([0x3A, 13, 0x3B], COLOR_WHITE), ([10, 0x41], COLOR_YELLOW)]).cells :=
  (screen_shows_last_iff (by decide) (by decide) (by decide) (by decide) (by decide)).mpr
    ⟨by decide, by decide⟩ _

theorem overprint_merges : ¬ ShowsLast 16 16
    (screenAfter .x86_64 0xFD000000 16 16 [([0x4F, 13, 0x2E], COLOR_WHITE)] fun _ => COLOR_BLACK)
    (consoleAfter 16 16 [([0x4F, 13, 0x2E], COLOR_WHITE)]).cells := by
  intro h
  have hpixel := h 0 (by decide) 0 (by decide) 1 (by decide) 2 (by decide)
  exact absurd hpixel (by decide)

end Screen

end JurkOS.Kernel.Framebuffer
