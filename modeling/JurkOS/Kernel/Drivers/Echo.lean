import JurkOS.Kernel.Drivers.Cursor
import JurkOS.Kernel.Drivers.Readline
import JurkOS.Kernel.Drivers.Screen

/-!
The line editor on the console: what `keyboard_readline` prints after each key,
and where that leaves the cursor.
-/

namespace JurkOS.Kernel.Echo

open Lib.Libc Lib.Memory Readline Framebuffer

def typed (m : Mem) (buffer : ℕ) (keys : Str) : Editor :=
  keys.foldl typeKey { buffer := buffer, mem := m, idx := 0, prints := [] }

def shown (arch : Arch) (fb : Fb) (e : Editor) : Fb × List Access :=
  execAll arch fb (e.prints.map fun s => .printColor s COLOR_WHITE COLOR_BLACK)

def RowBlank (fb : Fb) (pix : ℕ → ℕ) (x : ℕ) : Prop :=
  ∀ px py, x ≤ px → px < fb.w → fb.cursorY ≤ py → py < fb.cursorY + 16 → pix (py * (fb.pitch / 4) + px) = COLOR_BLACK

structure InStep (arch : Arch) (fb : Fb) (pix : ℕ → ℕ) (e : Editor) : Prop where
  cursorX : (shown arch fb e).1.cursorX = fb.cursorX + 8 * e.idx
  cursorY : (shown arch fb e).1.cursorY = fb.cursorY
  blank : RowBlank fb (applyAll pix (shown arch fb e).2) (shown arch fb e).1.cursorX

structure Wide (fb : Fb) (keys : Str) : Prop where
  addr : fb.addr ≠ 0
  fits : Fits fb (fb.pitch / 4 * fb.h)
  row : fb.cursorY + 16 ≤ fb.h
  columns : 40 ≤ fb.w
  -- the line does not wrap
  line : ∀ ks, ks <+: keys → fb.cursorX + 8 * ((edit ks).length + 1) ≤ fb.w

def NeverErases (keys : Str) : Prop := ∀ ks, ks ++ [BACKSPACE] <+: keys → edit ks = []

section Console

variable {arch : Arch} {fb : Fb} {pix : ℕ → ℕ} {n : ℕ}

theorem applyAll_of_ne {l : List Access} {j : ℕ} (h : AllOf (fun a => a.target ≠ j) l) (pix : ℕ → ℕ) :
    applyAll pix l j = pix j := by
  induction l generalizing pix with
  | nil => rfl
  | cons a l ih =>
    obtain ⟨ha, hl⟩ := allOf_cons.mp h
    apply (ih hl _).trans
    cases a with
    | write index color => exact Function.update_of_ne (Ne.symm ha) _ _
    | copy dst src => exact Function.update_of_ne (Ne.symm ha) _ _

theorem putPixel_target (h : Fits fb n) {x y px py : ℕ} (hx : x < px) (hpx : px < fb.w) (color : ℕ) :
    AllOf (fun a => a.target ≠ py * (fb.pitch / 4) + px) (fbPutPixel fb x y color) := by
  unfold fbPutPixel
  split_ifs with hout
  · exact allOf_nil _
  · rw [not_or, not_or, Nat.not_le, Nat.not_le] at hout
    refine allOf_cons.mpr ⟨fun he => ?_, allOf_nil _⟩
    have hcolumns := h.columns
    have hindex : y * (fb.pitch / 4) + x < n := by
      rw [← h.size]
      exact pixel_index_lt (by omega) hout.2.2
    have hsmall := h.small
    have hwrap : wrap32 (y * (fb.pitch / 4) + x) = y * (fb.pitch / 4) + x := Nat.mod_eq_of_lt (by omega)
    simp only [Access.target, hwrap] at he
    have := (index_inj (by omega) (by omega) he).1
    omega

theorem drawChar_right (h : Fits fb n) (pix : ℕ → ℕ) (c : UInt8) (y fg bg py : ℕ) {x px : ℕ} (hx : x + 8 ≤ px)
    (hpx : px < fb.w) :
    applyAll pix (fbDrawChar fb c x y fg bg) (py * (fb.pitch / 4) + px) = pix (py * (fb.pitch / 4) + px) := by
  apply applyAll_of_ne
  unfold fbDrawChar
  by_cases haddr : fb.addr = 0
  · rw [if_pos haddr]
    exact allOf_nil _
  rw [if_neg haddr]
  refine allOf_flatMap fun cy _ => allOf_flatMap fun cx hcx => ?_
  have hlt : wrap32 (x + cx) < px := by
    have := List.mem_range.mp hcx
    have : wrap32 (x + cx) ≤ x + cx := Nat.mod_le _ _
    omega
  split_ifs
  · exact putPixel_target h hlt hpx _
  · exact putPixel_target h hlt hpx _
  · exact allOf_nil _

theorem Wide.w_lt {keys : Str} (h : Wide fb keys) : fb.w < 2 ^ 28 := by
  have hcolumns := h.fits.columns
  have hsmall := h.fits.small
  have hrows := Nat.mul_le_mul_left (fb.pitch / 4) h.fits.rows
  omega

def nextColumn (w x : ℕ) : ℕ := if w < x + 16 then 0 else x + 8

theorem shown_same (arch : Arch) (fb : Fb) (e : Editor) : SameScreen fb (shown arch fb e).1 := by
  unfold shown
  generalize e.prints = prints
  induction prints generalizing fb with
  | nil => exact .refl fb
  | cons s prints ih => exact (printColor_same arch fb s COLOR_WHITE COLOR_BLACK).trans (ih _)

theorem printChar_glyph (arch : Arch) (fb : Fb) {c : UInt8} (hc : IsGlyph c) (hx : fb.cursorX + 16 < 2 ^ 32)
    (fg bg : ℕ) :
    (fbPrintChar fb arch c fg bg).1.cursorX = nextColumn fb.w fb.cursorX := by
  obtain ⟨h₁, h₂, h₃⟩ := hc
  have hmoved : wrap32 (fb.cursorX + 8) = fb.cursorX + 8 := Nat.mod_eq_of_lt (by omega)
  have hnext : wrap32 (fb.cursorX + 8 + 8) = fb.cursorX + 16 := Nat.mod_eq_of_lt (by omega)
  rw [fbPrintChar, if_neg h₁, if_neg h₂, if_neg h₃]
  simp only [hmoved, hnext, nextColumn]
  split_ifs
  · exact newline_cursorX arch _
  · rfl

theorem execAll_append (arch : Arch) (fb : Fb) (l l' : List Call) :
    execAll arch fb (l ++ l') = ((execAll arch (execAll arch fb l).1 l').1,
      (execAll arch fb l).2 ++ (execAll arch (execAll arch fb l).1 l').2) := by
  induction l generalizing fb with
  | nil => rfl
  | cons call l ih => simp only [List.cons_append, execAll, ih, List.append_assoc]

theorem print_glyph (arch : Arch) (fb : Fb) {c : UInt8} (hc : IsGlyph c) (haddr : fb.addr ≠ 0)
    (hx : fb.cursorX + 16 ≤ fb.w) (hw : fb.w < 2 ^ 32) :
    execAll arch fb [.printColor [c] COLOR_WHITE COLOR_BLACK] =
      ({ fb with cursorX := fb.cursorX + 8 }, fbDrawChar fb c fb.cursorX fb.cursorY COLOR_WHITE COLOR_BLACK) := by
  obtain ⟨h₁, h₂, h₃⟩ := hc
  have hmoved : wrap32 (fb.cursorX + 8) = fb.cursorX + 8 := Nat.mod_eq_of_lt (by omega)
  have hnext : wrap32 (fb.cursorX + 8 + 8) = fb.cursorX + 16 := Nat.mod_eq_of_lt (by omega)
  simp only [execAll, Call.exec, fbPrintColor, if_neg haddr, printLoop, fbPrintChar, if_neg h₁, if_neg h₂, if_neg h₃,
    hmoved, hnext, if_neg (Nat.not_lt.mpr hx), List.append_nil]

end Console

section Keys

variable {arch : Arch} {fb : Fb} {pix : ℕ → ℕ} {m : Mem} {buffer : ℕ} {keys ks : Str} {c : UInt8}

theorem typed_append (m : Mem) (buffer : ℕ) (ks : Str) (c : UInt8) :
    typed m buffer (ks ++ [c]) = typeKey (typed m buffer ks) c := List.foldl_append

theorem edit_append (ks : Str) (c : UInt8) : edit (ks ++ [c]) = editKey (edit ks) c := List.foldl_append

theorem typed_holds (m : Mem) (buffer : ℕ) (ks : Str) : Holds (typed m buffer ks) (edit ks) := by
  induction ks using List.reverseRecOn with
  | nil => exact ⟨rfl, fun i hi => absurd hi (Nat.not_lt_zero i), List.not_mem_nil⟩
  | append_singleton ks c ih =>
    rw [typed_append, edit_append]
    exact ih.typeKey c

theorem typeKey_cases (e : Editor) (c : UInt8) :
    (c = BACKSPACE ∧ 0 < e.idx ∧ (typeKey e c).idx = e.idx - 1 ∧
      (typeKey e c).prints = e.prints ++ [[BACKSPACE, 0x20, BACKSPACE]]) ∨
    (isPrintable c ∧ (typeKey e c).idx = e.idx + 1 ∧ (typeKey e c).prints = e.prints ++ [[c]]) ∨
    typeKey e c = e := by
  unfold typeKey
  split_ifs with hback hpos hprint
  · exact .inl ⟨hback, hpos, rfl, rfl⟩
  · exact .inr (.inr rfl)
  · exact .inr (.inl ⟨hprint, rfl, rfl⟩)
  · exact .inr (.inr rfl)

theorem shown_print (arch : Arch) (fb : Fb) {e e' : Editor} {s : Str} (h : e'.prints = e.prints ++ [s]) :
    shown arch fb e' =
      ((execAll arch (shown arch fb e).1 [.printColor s COLOR_WHITE COLOR_BLACK]).1,
        (shown arch fb e).2 ++ (execAll arch (shown arch fb e).1 [.printColor s COLOR_WHITE COLOR_BLACK]).2) := by
  rw [shown, h, List.map_append, execAll_append]
  rfl

structure Written (arch : Arch) (fb : Fb) (pix : ℕ → ℕ) (e : Editor) : Prop where
  screen : (shown arch fb e).1 = { fb with cursorX := fb.cursorX + 8 * e.idx }
  right : ∀ px py, fb.cursorX + 8 * e.idx ≤ px → px < fb.w →
    applyAll pix (shown arch fb e).2 (py * (fb.pitch / 4) + px) = pix (py * (fb.pitch / 4) + px)

theorem isGlyph_of_printable (h : isPrintable c) : IsGlyph c := by
  refine ⟨?_, ?_, ?_⟩ <;> rintro rfl <;> exact absurd h (by decide)

theorem Written.typeKey {e : Editor} (h : Written arch fb pix e) (hwide : Wide fb keys)
    (hkeeps : ¬(c = BACKSPACE ∧ 0 < e.idx)) (hroom : fb.cursorX + 8 * ((typeKey e c).idx + 1) ≤ fb.w) :
    Written arch fb pix (typeKey e c) := by
  rcases typeKey_cases e c with ⟨hback, hpos, -⟩ | ⟨hprint, hidx, hprints⟩ | he
  · exact absurd ⟨hback, hpos⟩ hkeeps
  · rw [hidx] at hroom
    have hglyph := print_glyph arch { fb with cursorX := fb.cursorX + 8 * e.idx } (isGlyph_of_printable hprint)
      hwide.addr (by dsimp only; omega) (hwide.w_lt.trans (by decide))
    have hshown := shown_print arch fb hprints
    rw [h.screen, hglyph] at hshown
    refine ⟨?_, fun px py hx hpx => ?_⟩
    · rw [hshown, hidx, Nat.mul_add, Nat.add_assoc]
    · rw [hidx] at hx
      rw [hshown, applyAll_append]
      have hright := drawChar_right hwide.fits (applyAll pix (shown arch fb e).2) c fb.cursorY COLOR_WHITE COLOR_BLACK
        py (show fb.cursorX + 8 * e.idx + 8 ≤ px by omega) hpx
      exact hright.trans (h.right px py (by omega) hpx)
  · rwa [he]

theorem typed_written (hwide : Wide fb keys) (hkeeps : NeverErases keys) (hks : ks <+: keys) :
    Written arch fb pix (typed m buffer ks) := by
  induction ks using List.reverseRecOn with
  | nil => exact ⟨rfl, fun _ _ _ _ => rfl⟩
  | append_singleton ks c ih =>
    have hroom := hwide.line _ hks
    rw [← (typed_holds m buffer (ks ++ [c])).idx_eq, typed_append] at hroom
    rw [typed_append]
    refine (ih ((List.prefix_append ks [c]).trans hks)).typeKey hwide ?_ hroom
    rintro ⟨rfl, hpos⟩
    rw [(typed_holds m buffer ks).idx_eq, hkeeps ks hks] at hpos
    exact absurd hpos (lt_irrefl 0)

theorem length_edit_mono {k : UInt8} (hkeeps : NeverErases keys) (hks : k :: ks <+: keys) :
    (edit [k]).length ≤ (edit (k :: ks)).length := by
  induction ks using List.reverseRecOn with
  | nil => exact le_refl _
  | append_singleton ks c ih =>
    rw [← List.cons_append] at hks ⊢
    apply (ih ((List.prefix_append _ [c]).trans hks)).trans
    rw [edit_append, editKey]
    split_ifs with hback hprint
    · subst hback
      rw [hkeeps _ hks]
      exact Nat.zero_le _
    · simp
    · exact le_refl _

theorem nextColumn_off {w x : ℕ} (hw : 40 ≤ w) (hx : x + 8 ≤ w) (h8 : 8 ≤ x) :
    nextColumn w (nextColumn w (nextColumn w x)) ≠ x - 8 := by
  unfold nextColumn
  split_ifs <;> omega

theorem nextColumn_le {w x : ℕ} (hx : x + 8 ≤ w) : nextColumn w x + 8 ≤ w := by
  unfold nextColumn
  split_ifs <;> omega

/-- The console has no backspace: it draws three blanks. -/
theorem print_backspace (arch : Arch) (fb : Fb) (haddr : fb.addr ≠ 0) (hx : fb.cursorX + 8 ≤ fb.w)
    (hw : fb.w < 2 ^ 28) :
    (execAll arch fb [.printColor [BACKSPACE, 0x20, BACKSPACE] COLOR_WHITE COLOR_BLACK]).1.cursorX =
      nextColumn fb.w (nextColumn fb.w (nextColumn fb.w fb.cursorX)) := by
  have hback : IsGlyph BACKSPACE := ⟨by decide, by decide, by decide⟩
  have hspace : IsGlyph 0x20 := ⟨by decide, by decide, by decide⟩
  have hx₁ := nextColumn_le hx
  have hx₂ := nextColumn_le hx₁
  simp only [execAll, Call.exec, fbPrintColor, if_neg haddr, printLoop]
  have hsame₁ := printChar_same arch fb BACKSPACE COLOR_WHITE COLOR_BLACK
  have hcol₁ := printChar_glyph arch fb hback (by omega) COLOR_WHITE COLOR_BLACK
  generalize (fbPrintChar fb arch BACKSPACE COLOR_WHITE COLOR_BLACK).1 = fb₁ at *
  have hsame₂ := printChar_same arch fb₁ 0x20 COLOR_WHITE COLOR_BLACK
  have hcol₂ := printChar_glyph arch fb₁ hspace (by omega) COLOR_WHITE COLOR_BLACK
  rw [hcol₁, hsame₁.w] at hcol₂
  generalize (fbPrintChar fb₁ arch 0x20 COLOR_WHITE COLOR_BLACK).1 = fb₂ at *
  have hcol₃ := printChar_glyph arch fb₂ hback (by omega) COLOR_WHITE COLOR_BLACK
  rw [hcol₃, hcol₂, hsame₂.w, hsame₁.w]

theorem typeKey_backspace {e : Editor} (h : 0 < e.idx) : (typeKey e BACKSPACE).idx = e.idx - 1 ∧
    (typeKey e BACKSPACE).prints = e.prints ++ [[BACKSPACE, 0x20, BACKSPACE]] := by
  rw [typeKey, if_pos rfl, if_pos h]
  exact ⟨rfl, rfl⟩

theorem InStep.not_erase {e : Editor} (h : InStep arch fb pix e) (hwide : Wide fb keys) (hpos : 0 < e.idx)
    (hroom : fb.cursorX + 8 * (e.idx + 1) ≤ fb.w) : ¬InStep arch fb pix (typeKey e BACKSPACE) := by
  intro hnext
  obtain ⟨hidx, hprints⟩ := typeKey_backspace hpos
  have hsame := shown_same arch fb e
  have hx := h.cursorX
  have hx' := hnext.cursorX
  have hw := hwide.w_lt
  have hcolumns := hwide.columns
  rw [shown_print arch fb hprints, print_backspace _ _ (hsame.addr ▸ hwide.addr) (by rw [hsame.w, hx]; omega)
    (by rwa [hsame.w]), hsame.w, hx, hidx] at hx'
  exact nextColumn_off hcolumns (by omega) (by omega) (hx'.trans (by omega))

theorem neverErases_of_inStep (hwide : Wide fb keys)
    (h : ∀ ks, ks <+: keys → ks ≠ [] → InStep arch fb pix (typed m buffer ks)) : NeverErases keys := by
  intro ks hks
  by_contra hne
  have hidx := (typed_holds m buffer ks).idx_eq
  have hpos : 0 < (typed m buffer ks).idx := hidx ▸ List.length_pos_iff.mpr hne
  have hbefore : ks <+: keys := (List.prefix_append ks [BACKSPACE]).trans hks
  have hstep := h ks hbefore (by rintro rfl; exact hne rfl)
  have hnext := h (ks ++ [BACKSPACE]) hks (by simp)
  rw [typed_append] at hnext
  exact hstep.not_erase hwide hpos (hidx ▸ hwide.line ks hbefore) hnext

end Keys

theorem echo_inStep_iff {arch : Arch} {fb : Fb} {keys : Str} (hwide : Wide fb keys) (m : Mem) (buffer : ℕ)
    (pix : ℕ → ℕ) :
    (∀ ks, ks <+: keys → ks ≠ [] → InStep arch fb pix (typed m buffer ks)) ↔
      NeverErases keys ∧ ∀ k, keys.head? = some k → RowBlank fb pix (fb.cursorX + 8 * (edit [k]).length) := by
  constructor
  · intro h
    have hkeeps := neverErases_of_inStep hwide h
    refine ⟨hkeeps, fun k hk => ?_⟩
    have hfirst : [k] <+: keys := by
      obtain ⟨rest, rfl⟩ := List.head?_eq_some_iff.mp hk
      exact ⟨rest, rfl⟩
    have hwritten : Written arch fb pix (typed m buffer [k]) := typed_written hwide hkeeps hfirst
    have hidx := (typed_holds m buffer [k]).idx_eq
    intro px py hx hpx hy hpy
    rw [← hidx] at hx
    rw [← hwritten.right px py hx hpx]
    exact (h [k] hfirst (List.cons_ne_nil k [])).blank px py (by rwa [hwritten.screen]) hpx hy hpy
  · rintro ⟨hkeeps, hblank⟩ ks hks hne
    obtain ⟨k, ks, rfl⟩ := List.exists_cons_of_ne_nil hne
    have hwritten : Written arch fb pix (typed m buffer (k :: ks)) := typed_written hwide hkeeps hks
    have hidx := (typed_holds m buffer (k :: ks)).idx_eq
    have hmono := length_edit_mono hkeeps hks
    refine ⟨by rw [hwritten.screen], by rw [hwritten.screen], fun px py hx hpx hy hpy => ?_⟩
    rw [hwritten.screen] at hx
    rw [hwritten.right px py hx hpx]
    refine hblank k ?_ px py ?_ hpx hy hpy
    · obtain ⟨rest, rfl⟩ := hks
      rfl
    · dsimp only at hx
      omega

def promptScreen : Fb := ⟨0xFD000000, 1024, 768, 4096, 136, 0⟩

theorem wide_promptScreen {keys : Str} (h : keys.length ≤ 110) : Wide promptScreen keys where
  addr := by decide
  fits := ⟨by decide, by decide, rfl, by decide⟩
  row := by decide
  columns := by decide
  line := by
    intro ks hks
    have hlen := (length_edit_le ks).trans hks.length_le
    simp only [promptScreen]
    omega

theorem echo_inStep_ls : InStep .x86_64 promptScreen (fun _ => COLOR_BLACK) (typed (fun _ => 0) 0 (bytes "ls")) := by
  have hblank : NeverErases (bytes "ls") := by
    rintro ks ⟨rest, hks⟩
    have hmem : BACKSPACE ∈ bytes "ls" := hks ▸ by simp
    exact absurd hmem (by decide)
  exact (echo_inStep_iff (wide_promptScreen (by decide)) (fun _ => 0) 0 (fun _ => COLOR_BLACK)).mpr
    ⟨hblank, fun _ _ _ _ _ _ _ _ => rfl⟩ _ (List.prefix_refl _) (by decide)

theorem echo_backspace : Wide promptScreen [0x61, BACKSPACE] ∧
    ¬InStep .x86_64 promptScreen (fun _ => COLOR_BLACK) (typed (fun _ => 0) 0 [0x61, BACKSPACE]) := by
  refine ⟨wide_promptScreen (by decide), fun h => ?_⟩
  have hcursor := h.cursorX
  exact absurd hcursor (by decide)

end JurkOS.Kernel.Echo
