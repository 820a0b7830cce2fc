import JurkOS.Kernel.Types
import JurkOS.Kernel.Drivers.Font
import Mathlib.Data.List.Basic

/-!
The console of `drivers/framebuffer.c`. A call yields the accesses to the screen
memory that it makes, in their order; nothing it does depends on the pixels.
-/

namespace JurkOS.Kernel.Framebuffer

def COLOR_BLACK : ℕ := 0x00000000
def COLOR_YELLOW : ℕ := 0x00FFFF55
def COLOR_WHITE : ℕ := 0x00FFFFFF

structure Fb where
  addr : ℕ
  w : ℕ
  h : ℕ
  pitch : ℕ
  cursorX : ℕ
  cursorY : ℕ

/-- Indices of `fb_addr`; `copy` is one pixel of a `memcpy`. -/
inductive Access
  | write (index color : ℕ)
  | copy (dst src : ℕ)

def Access.indices : Access → List ℕ
  | .write index _ => [index]
  | .copy dst src => [dst, src]

def Access.apply (pix : ℕ → ℕ) : Access → ℕ → ℕ
  | .write index color => Function.update pix index color
  | .copy dst src => Function.update pix dst (pix src)

def applyAll (pix : ℕ → ℕ) (l : List Access) : ℕ → ℕ := l.foldl Access.apply pix

def wrap32 (x : ℕ) : ℕ := x % 2 ^ 32

def sub32 (x y : ℕ) : ℕ := wrap32 (x + (2 ^ 32 - wrap32 y))

theorem sub32_of_le {x y : ℕ} (h : y ≤ x) (hx : x < 2 ^ 32) : sub32 x y = x - y := by
  have hsum : x + (2 ^ 32 - y) = x - y + 2 ^ 32 := by omega
  rw [sub32, wrap32, wrap32, Nat.mod_eq_of_lt (lt_of_le_of_lt h hx), hsum, Nat.add_mod_right,
    Nat.mod_eq_of_lt (by omega)]

variable (fb : Fb)

def fbPutPixel (x y color : ℕ) : List Access :=
  if fb.addr = 0 ∨ fb.w ≤ x ∨ fb.h ≤ y then [] else [.write (wrap32 (y * (fb.pitch / 4) + x)) color]

def fillRow (y x color : ℕ) : ℕ → ℕ → List Access
  | 0, _ => []
  | n + 1, cx =>
    if wrap32 (x + cx) < fb.w then
      .write (wrap32 (y * (fb.pitch / 4) + wrap32 (x + cx))) color :: fillRow y x color n (cx + 1)
    else []

def fillRows (x y width color : ℕ) : ℕ → ℕ → List Access
  | 0, _ => []
  | n + 1, cy =>
    if wrap32 (y + cy) < fb.h then
      fillRow fb (wrap32 (y + cy)) x color width 0 ++ fillRows x y width color n (cy + 1)
    else []

def fbFillRect (x y width height color : ℕ) : List Access :=
  if fb.addr = 0 then [] else fillRows fb x y width color height 0

def fbClear (color : ℕ) : Fb × List Access :=
  ({ fb with cursorX := 0, cursorY := 0 }, fbFillRect fb 0 0 fb.w fb.h color)

def fbInit (addr w h pitch : ℕ) : Fb × List Access := fbClear ⟨addr, w, h, pitch, 0, 0⟩ COLOR_BLACK

def fbDrawChar (c : UInt8) (x y fg bg : ℕ) : List Access :=
  if fb.addr = 0 then []
  else
    (List.range 16).flatMap fun cy => (List.range 8).flatMap fun cx =>
      if glyphBit c cx cy then fbPutPixel fb (wrap32 (x + cx)) (wrap32 (y + cy)) fg
      else if bg ≠ COLOR_BLACK then fbPutPixel fb (wrap32 (x + cx)) (wrap32 (y + cy)) bg
      else []

variable (arch : Arch)

def fbScroll : List Access :=
  if fb.addr = 0 then []
  else
    let rowSize := fb.pitch / 4
    let copyPixels := wrap32 (sub32 fb.h 16 * rowSize)
    (List.range (arch.wrap (copyPixels * 4) / 4)).map (fun i => .copy i (wrap32 (16 * rowSize) + i)) ++
      fbFillRect fb 0 (sub32 fb.h 16) fb.w 16 COLOR_BLACK

def fbNewline : Fb × List Access :=
  let y := wrap32 (fb.cursorY + 16)
  if fb.h < wrap32 (y + 16) then
    ({ fb with cursorX := 0, cursorY := sub32 fb.h 16 }, fbScroll fb arch)
  else ({ fb with cursorX := 0, cursorY := y }, [])

def fbPrintChar (c : UInt8) (fg bg : ℕ) : Fb × List Access :=
  if c = 10 then fbNewline fb arch
  else if c = 13 then ({ fb with cursorX := 0 }, [])
  else if c = 9 then ({ fb with cursorX := wrap32 (fb.cursorX + 32) / 32 * 32 }, [])
  else
    let drawn := fbDrawChar fb c fb.cursorX fb.cursorY fg bg
    let fb := { fb with cursorX := wrap32 (fb.cursorX + 8) }
    if fb.w < wrap32 (fb.cursorX + 8) then
      let r := fbNewline fb arch
      (r.1, drawn ++ r.2)
    else (fb, drawn)

def printLoop (fg bg : ℕ) : Fb → List UInt8 → Fb × List Access
  | fb, [] => (fb, [])
  | fb, c :: str =>
    let r := fbPrintChar fb arch c fg bg
    let r' := printLoop fg bg r.1 str
    (r'.1, r.2 ++ r'.2)

def fbPrintColor (str : List UInt8) (fg bg : ℕ) : Fb × List Access :=
  if fb.addr = 0 then (fb, []) else printLoop arch fg bg fb str

def drawTitle (tx y bg : ℕ) : List UInt8 → ℕ → List Access
  | [], _ => []
  | c :: title, i =>
    fbDrawChar fb c (wrap32 (tx + i * 8)) (wrap32 (y + 8)) COLOR_YELLOW bg ++ drawTitle tx y bg title (i + 1)

def drawText (x bg : ℕ) : List UInt8 → ℕ → ℕ → List Access
  | [], _, _ => []
  | c :: text, mx, my =>
    if c = 10 then drawText x bg text (wrap32 (x + 16)) (wrap32 (my + 18))
    else fbDrawChar fb c mx my COLOR_WHITE bg ++ drawText x bg text (wrap32 (mx + 8)) my

def fbDrawBox (x y w h bg border : ℕ) (title text : Option (List UInt8)) : List Access :=
  fbFillRect fb x y w h bg ++ fbFillRect fb x y w 2 border ++ fbFillRect fb x (sub32 (y + h) 2) w 2 border ++
    fbFillRect fb x y 2 h border ++ fbFillRect fb (sub32 (x + w) 2) y 2 h border ++
    (match title with
      | none => []
      | some title => drawTitle fb (sub32 (x + w / 2) (arch.wrap (title.length * 8) / 2)) y bg title 0) ++
    match text with
    | none => []
    | some text => drawText fb x bg text (wrap32 (x + 16)) (wrap32 (y + 36))

inductive Call
  | printColor (str : List UInt8) (fg bg : ℕ)
  | clear (color : ℕ)
  | drawChar (c : UInt8) (x y fg bg : ℕ)
  | fillRect (x y width height color : ℕ)
  | putPixel (x y color : ℕ)
  | drawBox (x y w h bg border : ℕ) (title text : Option (List UInt8))

def Call.exec (fb : Fb) : Call → Fb × List Access
  | .printColor str fg bg => fbPrintColor fb arch str fg bg
  | .clear color => fbClear fb color
  | .drawChar c x y fg bg => (fb, fbDrawChar fb c x y fg bg)
  | .fillRect x y width height color => (fb, fbFillRect fb x y width height color)
  | .putPixel x y color => (fb, fbPutPixel fb x y color)
  | .drawBox x y w h bg border title text => (fb, fbDrawBox fb arch x y w h bg border title text)

def execAll : Fb → List Call → Fb × List Access
  | fb, [] => (fb, [])
  | fb, call :: calls =>
    let r := call.exec arch fb
    let r' := execAll r.1 calls
    (r'.1, r.2 ++ r'.2)

section Sessions

variable {fb arch} {P : Access → Prop}

def AllOf (P : Access → Prop) (l : List Access) : Prop := ∀ a ∈ l, P a

theorem allOf_nil (P : Access → Prop) : AllOf P [] := by simp [AllOf]

theorem allOf_append {l l' : List Access} : AllOf P (l ++ l') ↔ AllOf P l ∧ AllOf P l' := by
  simp [AllOf, or_imp, forall_and]

theorem allOf_cons {a : Access} {l : List Access} : AllOf P (a :: l) ↔ P a ∧ AllOf P l := by simp [AllOf]

theorem allOf_flatMap {α : Type} {l : List α} {f : α → List Access} (h : ∀ x ∈ l, AllOf P (f x)) :
    AllOf P (l.flatMap f) := by
  intro a ha
  obtain ⟨x, hx, ha⟩ := List.mem_flatMap.mp ha
  exact h x hx a ha

def copyCount (arch : Arch) (fb : Fb) : ℕ := arch.wrap (wrap32 (sub32 fb.h 16 * (fb.pitch / 4)) * 4) / 4

structure Allows (P : Access → Prop) (arch : Arch) (fb : Fb) : Prop where
  write : ∀ x y color, x < fb.w → y < fb.h → P (.write (wrap32 (y * (fb.pitch / 4) + x)) color)
  copy : ∀ i < copyCount arch fb, P (.copy i (wrap32 (16 * (fb.pitch / 4)) + i))

namespace Allows

theorem putPixel (h : Allows P arch fb) (x y color : ℕ) : AllOf P (fbPutPixel fb x y color) := by
  unfold fbPutPixel
  split_ifs with hout
  · exact allOf_nil P
  · rw [not_or, not_or, Nat.not_le, Nat.not_le] at hout
    exact allOf_cons.mpr ⟨h.write x y color hout.2.1 hout.2.2, allOf_nil P⟩

theorem fillRow (h : Allows P arch fb) {y : ℕ} (hy : y < fb.h) (x color width cx : ℕ) :
    AllOf P (fillRow fb y x color width cx) := by
  induction width generalizing cx with
  | zero => exact allOf_nil P
  | succ width ih =>
    unfold Framebuffer.fillRow
    split_ifs with hx
    · exact allOf_cons.mpr ⟨h.write _ y color hx hy, ih _⟩
    · exact allOf_nil P

theorem fillRows (h : Allows P arch fb) (x y width color height cy : ℕ) :
    AllOf P (fillRows fb x y width color height cy) := by
  induction height generalizing cy with
  | zero => exact allOf_nil P
  | succ height ih =>
    unfold Framebuffer.fillRows
    split_ifs with hy
    · exact allOf_append.mpr ⟨h.fillRow hy x color width 0, ih _⟩
    · exact allOf_nil P

theorem fillRect (h : Allows P arch fb) (x y width height color : ℕ) :
    AllOf P (fbFillRect fb x y width height color) := by
  unfold fbFillRect
  split_ifs
  · exact allOf_nil P
  · exact h.fillRows x y width color height 0

theorem drawChar (h : Allows P arch fb) (c : UInt8) (x y fg bg : ℕ) : AllOf P (fbDrawChar fb c x y fg bg) := by
  unfold fbDrawChar
  by_cases haddr : fb.addr = 0
  · rw [if_pos haddr]
    exact allOf_nil P
  rw [if_neg haddr]
  refine allOf_flatMap fun cy _ => allOf_flatMap fun cx _ => ?_
  split_ifs
  · exact h.putPixel _ _ fg
  · exact h.putPixel _ _ bg
  · exact allOf_nil P

theorem scroll (h : Allows P arch fb) : AllOf P (fbScroll fb arch) := by
  unfold fbScroll
  split_ifs
  · exact allOf_nil P
  refine allOf_append.mpr ⟨?_, h.fillRect _ _ _ _ _⟩
  intro a ha
  obtain ⟨i, hi, rfl⟩ := List.mem_map.mp ha
  exact h.copy i (List.mem_range.mp hi)

theorem newline (h : Allows P arch fb) : AllOf P (fbNewline fb arch).2 ∧ Allows P arch (fbNewline fb arch).1 := by
  unfold fbNewline
  dsimp only
  split_ifs
  · exact ⟨h.scroll, h.1, h.2⟩
  · exact ⟨allOf_nil P, h.1, h.2⟩

theorem printChar (h : Allows P arch fb) (c : UInt8) (fg bg : ℕ) :
    AllOf P (fbPrintChar fb arch c fg bg).2 ∧ Allows P arch (fbPrintChar fb arch c fg bg).1 := by
  unfold fbPrintChar
  split_ifs
  · exact h.newline
  · exact ⟨allOf_nil P, h.1, h.2⟩
  · exact ⟨allOf_nil P, h.1, h.2⟩
  · have hmoved : Allows P arch { fb with cursorX := wrap32 (fb.cursorX + 8) } := ⟨h.1, h.2⟩
    dsimp only
    split_ifs
    · exact ⟨allOf_append.mpr ⟨h.drawChar _ _ _ _ _, hmoved.newline.1⟩, hmoved.newline.2⟩
    · exact ⟨h.drawChar _ _ _ _ _, hmoved⟩

theorem printLoop (h : Allows P arch fb) (fg bg : ℕ) (str : List UInt8) :
    AllOf P (printLoop arch fg bg fb str).2 ∧ Allows P arch (printLoop arch fg bg fb str).1 := by
  induction str generalizing fb with
  | nil => exact ⟨allOf_nil P, h⟩
  | cons c str ih =>
    obtain ⟨hdrawn, hnext⟩ := h.printChar c fg bg
    obtain ⟨hrest, hend⟩ := ih hnext
    exact ⟨allOf_append.mpr ⟨hdrawn, hrest⟩, hend⟩

theorem drawTitle (h : Allows P arch fb) (tx y bg : ℕ) (title : List UInt8) (i : ℕ) :
    AllOf P (drawTitle fb tx y bg title i) := by
  induction title generalizing i with
  | nil => exact allOf_nil P
  | cons c title ih => exact allOf_append.mpr ⟨h.drawChar _ _ _ _ _, ih _⟩

theorem drawText (h : Allows P arch fb) (x bg : ℕ) (text : List UInt8) (mx my : ℕ) :
    AllOf P (drawText fb x bg text mx my) := by
  induction text generalizing mx my with
  | nil => exact allOf_nil P
  | cons c text ih =>
    unfold Framebuffer.drawText
    split_ifs
    · exact ih _ _
    · exact allOf_append.mpr ⟨h.drawChar _ _ _ _ _, ih _ _⟩

theorem drawBox (h : Allows P arch fb) (x y w height bg border : ℕ) (title text : Option (List UInt8)) :
    AllOf P (fbDrawBox fb arch x y w height bg border title text) := by
  unfold fbDrawBox
  simp only [allOf_append, h.fillRect, and_self, true_and]
  constructor
  · cases title with
    | none => exact allOf_nil P
    | some title => exact h.drawTitle _ _ _ _ _
  · cases text with
    | none => exact allOf_nil P
    | some text => exact h.drawText _ _ _ _ _

theorem exec (h : Allows P arch fb) (call : Call) :
    AllOf P (call.exec arch fb).2 ∧ Allows P arch (call.exec arch fb).1 := by
  cases call with
  | printColor str fg bg =>
    unfold Call.exec fbPrintColor
    dsimp only
    split_ifs
    · exact ⟨allOf_nil P, h⟩
    · exact h.printLoop fg bg str
  | clear color => exact ⟨h.fillRect _ _ _ _ _, h.1, h.2⟩
  | drawChar c x y fg bg => exact ⟨h.drawChar _ _ _ _ _, h⟩
  | fillRect x y width height color => exact ⟨h.fillRect _ _ _ _ _, h⟩
  | putPixel x y color => exact ⟨h.putPixel _ _ _, h⟩
  | drawBox x y w height bg border title text => exact ⟨h.drawBox _ _ _ _ _ _ _ _, h⟩

theorem execAll (h : Allows P arch fb) (calls : List Call) : AllOf P (execAll arch fb calls).2 := by
  induction calls generalizing fb with
  | nil => exact allOf_nil P
  | cons call calls ih => exact allOf_append.mpr ⟨(h.exec call).1, ih (h.exec call).2⟩

end Allows

end Sessions

structure Fits (fb : Fb) (n : ℕ) : Prop where
  rows : 16 ≤ fb.h
  columns : fb.w ≤ fb.pitch / 4
  size : fb.pitch / 4 * fb.h = n
  small : n < 2 ^ 32

namespace Fits

variable {fb arch} {n : ℕ}

theorem pixel_lt (h : Fits fb n) {x y : ℕ} (hx : x < fb.w) (hy : y < fb.h) :
    wrap32 (y * (fb.pitch / 4) + x) < n := by
  have hrow : (y + 1) * (fb.pitch / 4) ≤ fb.h * (fb.pitch / 4) := Nat.mul_le_mul_right _ hy
  have hlt : y * (fb.pitch / 4) + x < n := by
    rw [← h.size, Nat.mul_comm (fb.pitch / 4)]
    have := h.columns
    rw [Nat.succ_mul] at hrow
    omega
  exact lt_of_le_of_lt (Nat.mod_le _ _) hlt

theorem copyCount_le (h : Fits fb n) : copyCount arch fb ≤ (fb.h - 16) * (fb.pitch / 4) := by
  have hbytes : arch.wrap (wrap32 (sub32 fb.h 16 * (fb.pitch / 4)) * 4) ≤
      wrap32 (sub32 fb.h 16 * (fb.pitch / 4)) * 4 := Nat.mod_le _ _
  have hwrap : wrap32 (sub32 fb.h 16 * (fb.pitch / 4)) ≤ sub32 fb.h 16 * (fb.pitch / 4) := Nat.mod_le _ _
  unfold copyCount
  by_cases hrow : fb.pitch / 4 = 0
  · rw [hrow, Nat.mul_zero] at hwrap hbytes ⊢
    omega
  · have hh : fb.h ≤ n := by
      rw [← h.size]
      exact Nat.le_mul_of_pos_left _ (Nat.pos_of_ne_zero hrow)
    have hsub : sub32 fb.h 16 = fb.h - 16 := sub32_of_le h.rows (lt_of_le_of_lt hh h.small)
    rw [hsub] at hbytes hwrap ⊢
    omega

-- The copy reads from 16 rows further on and ends where the screen does.
theorem allows (arch : Arch) (h : Fits fb n) : Allows (fun a => ∀ i ∈ a.indices, i < n) arch fb where
  write x y color hx hy := by
    simpa [Access.indices] using h.pixel_lt hx hy
  copy i hi := by
    have hcopy := hi.trans_le h.copyCount_le
    have hrow : wrap32 (16 * (fb.pitch / 4)) ≤ 16 * (fb.pitch / 4) := Nat.mod_le _ _
    have hsplit : 16 * (fb.pitch / 4) + (fb.h - 16) * (fb.pitch / 4) = n := by
      rw [← Nat.add_mul, Nat.add_sub_cancel' h.rows, Nat.mul_comm, h.size]
    intro j hj
    simp only [Access.indices, List.mem_cons, List.not_mem_nil, or_false] at hj
    obtain rfl | rfl := hj <;> omega

end Fits

theorem accesses_inside_screen (arch : Arch) {addr w h pitch : ℕ} (hrows : 16 ≤ h) (hcolumns : w ≤ pitch / 4)
    (hsmall : pitch / 4 * h < 2 ^ 32) (calls : List Call) :
    ∀ a ∈ (fbInit addr w h pitch).2 ++ (execAll arch (fbInit addr w h pitch).1 calls).2,
      ∀ i ∈ a.indices, i < pitch / 4 * h := by
  have hstart : Fits ⟨addr, w, h, pitch, 0, 0⟩ (pitch / 4 * h) := ⟨hrows, hcolumns, rfl, hsmall⟩
  exact allOf_append.mpr ⟨(hstart.allows arch).fillRect _ _ _ _ _, (hstart.allows arch).execAll calls⟩

theorem accesses_inside_screen_text :
    1024 ≤ 4096 / 4 ∧ ∀ a ∈ (fbInit 0xFD000000 1024 768 4096).2 ++
        (execAll .x86 (fbInit 0xFD000000 1024 768 4096).1
          [.drawBox 0xFFFFFFFF 700 3 1 5 7 (some [0x41]) none, .printColor [9, 0x41, 10, 13, 0x42] 7 0]).2,
      ∀ i ∈ a.indices, i < 4096 / 4 * 768 :=
  ⟨by decide, accesses_inside_screen .x86 (show 16 ≤ 768 by decide) (by decide) (by decide) _⟩

end JurkOS.Kernel.Framebuffer
