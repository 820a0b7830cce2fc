import JurkOS.Lib.Markup
import JurkOS.Userland.Install

/-!
The `meta.xml` that `install_app` writes, read again by `parse_meta_xml_buffer`.
-/

namespace JurkOS.Userland

open Lib.Libc Lib.Markup Lib.Paths

namespace Metadata

def tagNames : List Str :=
  [bytes "name", bytes "version", bytes "author", bytes "description", bytes "download"]

def fields (e : AppEntry) : List (Str × Str) :=
  [(bytes "name", e.name.text), (bytes "version", e.version.text), (bytes "author", e.author.text),
    (bytes "description", e.description.text), (bytes "download", e.download.text)]

def closing (t : Str) : Str := tag (SLASH :: t)

def fieldText (f : Str × Str) : Str := bytes "    " ++ (tag f.1 ++ (f.2 ++ (closing f.1 ++ [NEWLINE])))

def declaration : Str := bytes "?xml version=\"1.0\" encoding=\"UTF-8\"?"

def header : Str := tag declaration ++ NEWLINE :: (tag (bytes "jurkos-app") ++ [NEWLINE])

def footer : Str := closing (bytes "jurkos-app") ++ [NEWLINE]

theorem metaXml_eq (e : AppEntry) : Install.metaXml e = header ++ ((fields e).flatMap fieldText ++ footer) := by
  have hopen : bytes "    <" = bytes "    " ++ [LESS] := by decide
  have hclose : bytes "</" = [LESS, SLASH] := by decide
  have hend : bytes ">" = [GREATER] := by decide
  have hline : bytes ">\n" = [GREATER, NEWLINE] := by decide
  have hheader : bytes "<?xml version=\"1.0\" encoding=\"UTF-8\"?>\n" ++ bytes "<jurkos-app>\n" = header := by decide
  have hfooter : bytes "</jurkos-app>\n" = footer := by decide
  simp only [Install.metaXml, hheader, hfooter, hopen, hclose, hend, hline, fields, fieldText, closing, tag,
    List.flatMap_cons, List.flatMap_nil, List.append_assoc, List.cons_append, List.nil_append, List.append_nil]

structure Good (t : Str) : Prop where
  isName : IsTagName t
  head : t.head? ≠ some SLASH
  short : t.length ≤ 60
  ne_declaration : t ≠ declaration
  ne_root : t ≠ bytes "jurkos-app"

theorem good_of_mem {t : Str} (h : t ∈ tagNames) : Good t := by
  have hall : ∀ t ∈ tagNames, LESS ∉ t ∧ GREATER ∉ t ∧ t.head? ≠ some SLASH ∧ t.length ≤ 60 ∧ t ≠ declaration ∧
      t ≠ bytes "jurkos-app" := by decide
  obtain ⟨hlt, hgt, hhead, hshort, hdecl, hroot⟩ := hall t h
  exact ⟨⟨hlt, hgt⟩, hhead, hshort, hdecl, hroot⟩

theorem isTagName_closing {t : Str} (h : IsTagName t) : IsTagName (SLASH :: t) where
  lt := by
    rw [List.mem_cons, not_or]
    exact ⟨by decide, h.lt⟩
  gt := by
    rw [List.mem_cons, not_or]
    exact ⟨by decide, h.gt⟩

theorem Good.ne_closing {s : Str} (h : Good s) (t : Str) : s ≠ SLASH :: t := by
  rintro rfl
  exact h.head rfl

theorem openTag_eq {t : Str} (h : t.length ≤ 60) : openTag t = tag t := by
  have hlt : bytes "<" = [LESS] := by decide
  have hgt : bytes ">" = [GREATER] := by decide
  rw [openTag, hlt, hgt, snprintf_of_lt]
  · rfl
  · simp only [List.length_append, List.length_singleton]
    omega

theorem closeTag_eq {t : Str} (h : t.length ≤ 60) : closeTag t = closing t := by
  have hlt : bytes "</" = [LESS, SLASH] := by decide
  have hgt : bytes ">" = [GREATER] := by decide
  rw [closeTag, hlt, hgt, snprintf_of_lt]
  · rfl
  · simp only [List.length_append, List.length_cons, List.length_nil]
    omega

/-! ### Where the tags are found -/

section Search

variable {s t : Str}

theorem strstr_header (hs : Good s) (w : Str) :
    strstr (tag s) (header ++ w) = (strstr (tag s) w).map (· + header.length) := by
  have hdecl : IsTagName declaration := ⟨by decide, by decide⟩
  have hroot : IsTagName (bytes "jurkos-app") := ⟨by decide, by decide⟩
  have hline : LESS ∉ [NEWLINE] := by decide
  have he : header ++ w = tag declaration ++ ([NEWLINE] ++ (tag (bytes "jurkos-app") ++ ([NEWLINE] ++ w))) := by
    simp [header]
  rw [he, strstr_skip_tag hs.isName hdecl hs.ne_declaration, strstr_tag_skip hline,
    strstr_skip_tag hs.isName hroot hs.ne_root, strstr_tag_skip hline]
  simp only [Option.map_map]
  rfl

theorem fieldText_append (t v w : Str) :
    fieldText (t, v) ++ w = bytes "    " ++ (tag t ++ (v ++ (closing t ++ ([NEWLINE] ++ w)))) := by
  simp [fieldText]

theorem spaces_plain : LESS ∉ bytes "    " := by decide

theorem length_spaces : (bytes "    ").length = 4 := by decide

theorem strstr_fieldText (hs : IsTagName s) (ht : IsTagName t) (hne : s ≠ t) (hclose : s ≠ SLASH :: t) (v w : Str) :
    strstr (tag s) (fieldText (t, v) ++ w) =
      ((strstr (tag s) v).map (· + (4 + (tag t).length))).or
        ((strstr (tag s) w).map (· + (fieldText (t, v)).length)) := by
  have hline : LESS ∉ [NEWLINE] := by decide
  have hlen : (fieldText (t, v)).length = 4 + (tag t).length + v.length + (closing t).length + 1 := by
    simp only [fieldText, List.length_append, List.length_singleton, length_spaces]
    omega
  rw [fieldText_append, strstr_tag_skip spaces_plain, strstr_skip_tag hs ht hne, strstr_tag_append hs rfl, closing,
    strstr_skip_tag hs (isTagName_closing ht) hclose, strstr_tag_skip hline, hlen]
  cases strstr (tag s) v with
  | some i =>
    simp only [Option.some_or, Option.map_some]
    congr 1
    have hspaces := length_spaces
    omega
  | none =>
    simp only [Option.none_or, Option.map_none, Option.map_map]
    congr 1
    funext k
    simp only [Function.comp_apply, List.length_singleton, closing, length_spaces]
    omega

theorem strstr_own (t v w : Str) : strstr (tag t) (fieldText (t, v) ++ w) = some 4 := by
  rw [fieldText_append, strstr_tag_skip spaces_plain, strstr_tag]
  rfl

theorem strstr_closing (ht : Good t) (v w : Str) :
    strstr (closing t) (v ++ (closing t ++ w)) = some ((strstr (closing t) v).getD v.length) := by
  rw [closing, strstr_tag_append (isTagName_closing ht.isName) rfl, strstr_tag]
  cases strstr (tag (SLASH :: t)) v with
  | some i => rfl
  | none => simp

end Search

/-! ### What is read between the tags -/

def Enclosed (xml t y : Str) : Prop :=
  ∃ i, strstr (tag t) xml = some i ∧ strstr (closing t) (xml.drop (i + (tag t).length)) = some y.length ∧
    y <+: xml.drop (i + (tag t).length)

def Shadowed (t : Str) (before : List (Str × Str)) : Prop := ∃ f ∈ before, tag t <:+: f.2

def beforeClose (t v : Str) : Str := v.take ((strstr (closing t) v).getD v.length)

theorem Enclosed.extract {xml t y : Str} (ht : t.length ≤ 60) (h : Enclosed xml t y) (n : ℕ) :
    extractTagValue xml t n = trimEnd (y.take (n - 1)) := by
  obtain ⟨i, hopen, hclose, hy⟩ := h
  have htake : (xml.drop (i + (tag t).length)).take y.length = y := (List.prefix_iff_eq_take.mp hy).symm
  simp only [extractTagValue, openTag_eq ht, closeTag_eq ht, hopen, hclose, htake]

section Fields

variable {e : AppEntry} {before after : List (Str × Str)} {t v : Str} (hsplit : fields e = before ++ (t, v) :: after)

include hsplit

theorem names_split : tagNames = before.map Prod.fst ++ t :: after.map Prod.fst := by
  have h := congrArg (List.map Prod.fst) hsplit
  rw [List.map_append, List.map_cons] at h
  exact h

theorem good_field : Good t := good_of_mem (by rw [names_split hsplit]; simp)

theorem good_before {f : Str × Str} (hf : f ∈ before) : Good f.1 ∧ t ≠ f.1 := by
  have hnames := names_split hsplit
  have hnodup : tagNames.Nodup := by decide
  have hmem : f.1 ∈ before.map Prod.fst := List.mem_map_of_mem hf
  refine ⟨good_of_mem (by rw [hnames]; exact List.mem_append_left _ hmem), ?_⟩
  rintro rfl
  rw [hnames, List.nodup_append] at hnodup
  exact hnodup.2.2 _ hmem _ List.mem_cons_self rfl

theorem metaXml_split : ∃ rest, Install.metaXml e =
    header ++ (before.flatMap fieldText ++ (fieldText (t, v) ++ rest)) := by
  refine ⟨after.flatMap fieldText ++ footer, ?_⟩
  rw [metaXml_eq, hsplit, List.flatMap_append, List.flatMap_cons, List.append_assoc, List.append_assoc]

theorem metaXml_value : ∃ pre rest, Install.metaXml e = pre ++ (tag t ++ (v ++ (closing t ++ rest))) ∧
    pre.length = header.length + ((before.flatMap fieldText).length + 4) := by
  obtain ⟨rest, hrest⟩ := metaXml_split hsplit
  refine ⟨header ++ (before.flatMap fieldText ++ bytes "    "), [NEWLINE] ++ rest, ?_, ?_⟩
  · rw [hrest, fieldText_append]
    simp only [List.append_assoc]
  · simp only [List.length_append, length_spaces]

end Fields

theorem strstr_fields {u : Str} (hu : IsTagName u) {L : List (Str × Str)}
    (hL : ∀ f ∈ L, IsTagName f.1 ∧ u ≠ f.1 ∧ u ≠ SLASH :: f.1 ∧ ¬tag u <:+: f.2) (w : Str) :
    strstr (tag u) (L.flatMap fieldText ++ w) = (strstr (tag u) w).map (· + (L.flatMap fieldText).length) := by
  induction L with
  | nil => simp
  | cons f L ih =>
    obtain ⟨name, value⟩ := f
    obtain ⟨hf, hne, hclose, hclear⟩ := hL _ List.mem_cons_self
    have hvalue : strstr (tag u) value = none := strstr_eq_none_iff_infix.mpr hclear
    have hrest := ih fun g hg => hL g (List.mem_cons_of_mem _ hg)
    rw [List.flatMap_cons, List.append_assoc, strstr_fieldText hu hf hne hclose, hvalue, hrest]
    simp only [Option.map_none, Option.none_or, Option.map_map]
    congr 1
    funext k
    simp only [Function.comp_apply, List.length_append]
    omega

theorem strstr_before {s : Str} (hs : Good s) {before : List (Str × Str)}
    (hbefore : ∀ f ∈ before, Good f.1 ∧ s ≠ f.1) (hclear : ¬Shadowed s before) (w : Str) :
    strstr (tag s) (before.flatMap fieldText ++ w) =
      (strstr (tag s) w).map (· + (before.flatMap fieldText).length) := by
  apply strstr_fields hs.isName
  intro f hf
  obtain ⟨hgood, hne⟩ := hbefore f hf
  exact ⟨hgood.isName, hne, hs.ne_closing f.1, fun h => hclear ⟨f, hf, h⟩⟩

section Values

variable {e : AppEntry} {before after : List (Str × Str)} {t v : Str} (hsplit : fields e = before ++ (t, v) :: after)

include hsplit

theorem enclosed_clear (hclear : ¬Shadowed t before) : Enclosed (Install.metaXml e) t (beforeClose t v) := by
  have ht := good_field hsplit
  obtain ⟨pre, rest, hvalue, hpre⟩ := metaXml_value hsplit
  have hopen : strstr (tag t) (Install.metaXml e) =
      some (header.length + ((before.flatMap fieldText).length + 4)) := by
    obtain ⟨rest, hrest⟩ := metaXml_split hsplit
    rw [hrest, strstr_header ht, strstr_before ht (fun f hf => good_before hsplit hf) hclear, strstr_own]
    simp only [Option.map_some]
    congr 1
    omega
  have hclose := strstr_closing ht v rest
  have hlen : (strstr (closing t) v).getD v.length ≤ v.length := by
    cases h : strstr (closing t) v with
    | none => exact le_refl _
    | some i =>
      have hi := strstr_fits (tag_ne_nil _) h
      simp only [Option.getD_some]
      omega
  have hdrop : (Install.metaXml e).drop (pre.length + (tag t).length) = v ++ (closing t ++ rest) := by
    rw [hvalue, ← List.drop_drop, List.drop_left, List.drop_left]
  rw [← hpre] at hopen
  refine ⟨_, hopen, ?_, ?_⟩
  · rw [hdrop, hclose, beforeClose, List.length_take, Nat.min_eq_left hlen]
  · rw [hdrop]
    exact (List.take_prefix _ v).trans (List.prefix_append v _)

end Values

/-! ### What comes back -/

theorem length_trimEnd_le (s : Str) : (trimEnd s).length ≤ s.length := (List.rdropWhile_prefix _ s).length_le

theorem trimEnd_beforeClose_iff {t v : Str} : trimEnd (beforeClose t v) = v ↔ ¬closing t <:+: v ∧ trimEnd v = v := by
  rw [← strstr_eq_none_iff_infix, beforeClose]
  cases h : strstr (closing t) v with
  | none => simp
  | some i =>
    have hi := strstr_fits (tag_ne_nil _) h
    have hpos : 0 < (tag (SLASH :: t)).length := List.length_pos_iff.mpr (tag_ne_nil _)
    simp only [Option.getD_some, reduceCtorEq, false_and, iff_false]
    intro he
    have hlen := (length_trimEnd_le (v.take i)).trans (List.length_take_le i v)
    rw [he] at hlen
    omega

/-! ### A value behind the opening tag of another field -/

structure Shadows (t : Str) (before : List (Str × Str)) (s a b : Str) (mid : List (Str × Str)) : Prop where
  split : ∃ pre, before = pre ++ (s, a ++ (tag t ++ b)) :: mid ∧ ¬Shadowed t pre
  first : ¬tag t <:+: a

def between (s b : Str) (mid : List (Str × Str)) (r : Str) : Str :=
  b ++ (closing s ++ ([NEWLINE] ++ (mid.flatMap fieldText ++ (bytes "    " ++ tag r))))

def Stands (t s b : Str) (mid : List (Str × Str)) (y : Str) : Prop :=
  (closing t <:+: b ∧ y = beforeClose t b) ∨
    (¬closing t <:+: b ∧ ∃ m₁ r c m₂, mid = m₁ ++ (r, c) :: m₂ ∧ (∀ f ∈ m₁, ¬closing t <:+: f.2) ∧
      closing t <:+: c ∧ y = between s b m₁ r ++ beforeClose t c)

def Unclosed (t b : Str) (mid : List (Str × Str)) : Prop := ¬closing t <:+: b ∧ ∀ f ∈ mid, ¬closing t <:+: f.2

theorem strstr_split {t w : Str} (h : tag t <:+: w) : ∃ a b, w = a ++ (tag t ++ b) ∧ ¬tag t <:+: a := by
  obtain ⟨i, hi⟩ : ∃ i, strstr (tag t) w = some i := by
    apply Option.ne_none_iff_exists'.mp
    exact fun hnone => strstr_eq_none_iff_infix.mp hnone h
  obtain ⟨⟨b, hb⟩, hleast⟩ := (strstr_eq_some_iff (tag_ne_nil t)).mp hi
  refine ⟨w.take i, b, by rw [hb, List.take_append_drop], ?_⟩
  rintro ⟨x, y, hxy⟩
  have hpos : 0 < (tag t).length := List.length_pos_iff.mpr (tag_ne_nil t)
  have hlen := congrArg List.length hxy
  have hle := List.length_take_le i w
  simp only [List.length_append] at hlen
  apply hleast x.length (by omega)
  refine ⟨y ++ w.drop i, ?_⟩
  have hw : w = x ++ (tag t ++ (y ++ w.drop i)) := by
    rw [← List.append_assoc, ← List.append_assoc, hxy, List.take_append_drop]
  conv_rhs => rw [hw]
  rw [List.drop_left]

theorem exists_first {α : Type} {P : α → Prop} {L : List α} (h : ∃ x ∈ L, P x) :
    ∃ pre x post, L = pre ++ x :: post ∧ (∀ y ∈ pre, ¬P y) ∧ P x := by
  classical
  obtain ⟨x, hx, hP⟩ := h
  have hfound := List.find?_isSome (p := fun x => decide (P x)).mpr ⟨x, hx, decide_eq_true hP⟩
  obtain ⟨y, hy⟩ := Option.isSome_iff_exists.mp hfound
  obtain ⟨hP, pre, post, rfl, hpre⟩ := List.find?_eq_some_iff_append.mp hy
  exact ⟨pre, y, post, rfl, fun z hz => by simpa using hpre z hz, of_decide_eq_true hP⟩

theorem shadows_exists {t : Str} {before : List (Str × Str)} (h : Shadowed t before) :
    ∃ s a b mid, Shadows t before s a b mid := by
  obtain ⟨pre, ⟨s, w⟩, mid, rfl, hclear, hw⟩ := exists_first h
  obtain ⟨a, b, rfl, ha⟩ := strstr_split hw
  exact ⟨s, a, b, mid, ⟨pre, rfl, fun ⟨g, hg, hin⟩ => hclear g hg hin⟩, ha⟩

theorem Shadows.shadowed {t s a b : Str} {before mid : List (Str × Str)} (h : Shadows t before s a b mid) :
    Shadowed t before := by
  obtain ⟨pre, rfl, -⟩ := h.split
  exact ⟨_, List.mem_append_right _ List.mem_cons_self, a, b, by simp⟩

theorem stands_or_unclosed (t s b : Str) (mid : List (Str × Str)) : (∃ y, Stands t s b mid y) ∨ Unclosed t b mid := by
  by_cases hb : closing t <:+: b
  · exact .inl ⟨_, .inl ⟨hb, rfl⟩⟩
  by_cases hmid : ∃ f ∈ mid, closing t <:+: f.2
  · obtain ⟨m₁, ⟨r, c⟩, m₂, rfl, hclear, hc⟩ := exists_first hmid
    exact .inl ⟨_, .inr ⟨hb, m₁, r, c, m₂, rfl, hclear, hc, rfl⟩⟩
  · push Not at hmid
    exact .inr ⟨hb, hmid⟩

theorem Enclosed.unclosed {xml t y : Str} (h : Enclosed xml t y) : ¬closing t <:+: y := by
  obtain ⟨i, -, hclose, ⟨z, hz⟩⟩ := h
  rintro ⟨p, q, rfl⟩
  have hpos : 0 < (closing t).length := List.length_pos_iff.mpr (tag_ne_nil _)
  apply ((strstr_eq_some_iff (tag_ne_nil _)).mp hclose).2 p.length
  · simp only [List.length_append]
    omega
  · rw [← hz, List.append_assoc, List.append_assoc, List.drop_left]
    exact List.prefix_append _ _

theorem beforeClose_of_open {t v : Str} (h : ¬closing t <:+: v) : beforeClose t v = v := by
  rw [beforeClose, strstr_eq_none_iff_infix.mpr h, Option.getD_none, List.take_length]

/-! ### Repeated text -/

theorem prefix_repeat {P v : Str} (h : v <+: P ++ v) (k : ℕ) : v <+: (List.replicate k P).flatten ++ v := by
  induction k with
  | zero => exact List.prefix_rfl
  | succ k ih =>
    rw [List.replicate_succ, List.flatten_cons, List.append_assoc]
    exact h.trans (List.prefix_append_right_inj P |>.mpr ih)

theorem length_repeat (P : Str) (k : ℕ) : (List.replicate k P).flatten.length = k * P.length := by
  simp

theorem append_repeat (P : Str) (k : ℕ) : P ++ (List.replicate k P).flatten = (List.replicate k P).flatten ++ P := by
  rw [← List.flatten_cons, ← List.replicate_succ, List.replicate_succ', List.flatten_append, List.flatten_singleton]

theorem trimEnd_split (s : Str) : ∃ w, s = trimEnd s ++ w ∧ LESS ∉ w := by
  refine ⟨_, List.rdropWhile_append_rtakeWhile.symm, fun hmem => ?_⟩
  have hblank := List.mem_rtakeWhile_imp hmem
  revert hblank
  decide

theorem not_append_eq {P v w z : Str} (hP : LESS ∈ P) (hw : LESS ∉ w) : P ++ v ++ z ≠ v ++ w := by
  intro h
  have hcount := congrArg (List.count LESS) h
  have hpos := List.count_pos_iff.mpr hP
  rw [List.count_append, List.count_append, List.count_append, List.count_eq_zero.mpr hw] at hcount
  omega

theorem trimEnd_repeat_iff {P v : Str} {n : ℕ} (hP : LESS ∈ P) (hv : v.length < n) :
    trimEnd ((P ++ v).take (n - 1)) = v ↔ trimEnd ((List.replicate n P).flatten.take (n - 1)) = v := by
  obtain ⟨U, hU⟩ : ∃ U, U = (List.replicate n P).flatten := ⟨_, rfl⟩
  have hpos : 0 < P.length := List.length_pos_of_mem hP
  have hlen : n ≤ U.length := by
    rw [hU, length_repeat]
    exact Nat.le_mul_of_pos_right n hpos
  have hshift (h : v <+: U) : P ++ v <+: U ++ P := by
    rw [hU, ← append_repeat, ← hU]
    exact (List.prefix_append_right_inj P).mpr h
  have hcut (h : v <+: U) (hfull : n - 1 ≤ P.length + v.length) : (P ++ v).take (n - 1) = U.take (n - 1) := by
    rw [List.prefix_iff_eq_take.mp (hshift h), List.take_take, List.length_append, Nat.min_eq_left hfull,
      List.take_append_of_le_length (by omega)]
  rw [← hU]
  constructor
  · intro h
    obtain ⟨w, hw, hless⟩ := trimEnd_split ((P ++ v).take (n - 1))
    rw [h] at hw
    have hagain : v <+: P ++ v := ⟨w ++ (P ++ v).drop (n - 1), by
      rw [← List.append_assoc, ← hw, List.take_append_drop]⟩
    have hprefix : v <+: U := by
      apply List.prefix_of_prefix_length_le (prefix_repeat hagain n) _ (by omega)
      rw [← hU]
      exact List.prefix_append U v
    by_cases hfull : n - 1 ≤ P.length + v.length
    · rwa [← hcut hprefix hfull]
    · rw [List.take_of_length_le (by rw [List.length_append]; omega), ← List.append_nil (P ++ v)] at hw
      exact absurd hw (not_append_eq hP hless)
  · intro h
    obtain ⟨w, hw, hless⟩ := trimEnd_split (U.take (n - 1))
    rw [h] at hw
    have htake : v ++ w <+: U := hw ▸ List.take_prefix (n - 1) U
    have hprefix : v <+: U := (List.prefix_append v w).trans htake
    by_cases hfull : n - 1 ≤ P.length + v.length
    · rwa [hcut hprefix hfull]
    · have hwhole : v.length + w.length = n - 1 := by
        rw [← List.length_append, ← hw, List.length_take]
        omega
      obtain ⟨z, hz⟩ : P ++ v <+: v ++ w := by
        apply List.prefix_of_prefix_length_le (hshift hprefix) (htake.trans (List.prefix_append U P))
        rw [List.length_append, List.length_append]
        omega
      exact absurd hz (not_append_eq hP hless)

/-! ### What comes back of a field -/

/-- The value of the field `t` is read back: no earlier value holds its opening tag, and it neither holds its own
closing tag nor ends in a blank; or an earlier value holds its opening tag, and the value is what stands there up to
the next closing tag, or all up to its own place, repeated as far as the capacity `n` goes. -/
def Kept (t v : Str) (before : List (Str × Str)) (n : ℕ) : Prop :=
  (¬Shadowed t before ∧ ¬closing t <:+: v ∧ trimEnd v = v) ∨
    ∃ s a b mid, Shadows t before s a b mid ∧
      ((∃ y, Stands t s b mid y ∧ trimEnd (y.take (n - 1)) = v) ∨
        (Unclosed t b mid ∧ trimEnd ((List.replicate n (between s b mid t)).flatten.take (n - 1)) = v))

def Emptied (t v : Str) (before : List (Str × Str)) : Prop :=
  (¬Shadowed t before ∧ trimEnd (beforeClose t v) = []) ∨
    ∃ s a b mid, Shadows t before s a b mid ∧ closing t <:+: b ∧ trimEnd (beforeClose t b) = []

section Values

variable {e : AppEntry} {before after : List (Str × Str)} {t v : Str} (hsplit : fields e = before ++ (t, v) :: after)
  {n : ℕ}

include hsplit

theorem extract_clear (hv : v.length < n) (hclear : ¬Shadowed t before) :
    extractTagValue (Install.metaXml e) t n = trimEnd (beforeClose t v) := by
  rw [(enclosed_clear hsplit hclear).extract (good_field hsplit).short, List.take_of_length_le]
  have hlen : (beforeClose t v).length ≤ v.length := List.length_take_le' _ v
  omega

theorem strstr_beforeClose {c w : Str} (hc : closing t <:+: c) (hw : w.head? = some LESS) :
    strstr (closing t) (c ++ w) = some (beforeClose t c).length ∧ beforeClose t c <+: c := by
  have ht := isTagName_closing (good_field hsplit).isName
  obtain ⟨k, hk⟩ : ∃ k, strstr (closing t) c = some k := by
    apply Option.ne_none_iff_exists'.mp
    exact fun hnone => strstr_eq_none_iff_infix.mp hnone hc
  have hle := strstr_fits (tag_ne_nil _) hk
  refine ⟨?_, List.take_prefix _ c⟩
  rw [closing] at hk ⊢
  rw [strstr_tag_append ht hw, hk, Option.some_or, beforeClose, closing, hk, Option.getD_some, List.length_take,
    Nat.min_eq_left (by omega)]

section Shadowed

variable {s a b : Str} {mid : List (Str × Str)} (h : Shadows t before s a b mid)

include h

theorem Shadows.good : Good s ∧ t ≠ s ∧ ∀ f ∈ mid, Good f.1 ∧ t ≠ f.1 := by
  obtain ⟨pre, hbefore, -⟩ := h.split
  have hall : ∀ f ∈ before, Good f.1 ∧ t ≠ f.1 := fun f hf => good_before hsplit hf
  rw [hbefore] at hall
  obtain ⟨hgood, hne⟩ := hall _ (List.mem_append_right _ List.mem_cons_self)
  exact ⟨hgood, hne, fun f hf => hall f (List.mem_append_right _ (List.mem_cons_of_mem _ hf))⟩

theorem Shadows.opened : ∃ i rest, strstr (tag t) (Install.metaXml e) = some i ∧
    (Install.metaXml e).drop (i + (tag t).length) =
      b ++ (closing s ++ ([NEWLINE] ++ (mid.flatMap fieldText ++ (fieldText (t, v) ++ rest)))) := by
  have ht := good_field hsplit
  obtain ⟨hs, hne, -⟩ := h.good hsplit
  obtain ⟨rest, hrest⟩ := metaXml_split hsplit
  obtain ⟨pre, hbefore, hpre⟩ := h.split
  have hall : ∀ f ∈ pre, Good f.1 ∧ t ≠ f.1 := by
    intro f hf
    apply good_before hsplit
    rw [hbefore]
    exact List.mem_append_left _ hf
  have hxml : Install.metaXml e = (header ++ (pre.flatMap fieldText ++ (bytes "    " ++ (tag s ++ a)))) ++ (tag t ++
      (b ++ (closing s ++ ([NEWLINE] ++ (mid.flatMap fieldText ++ (fieldText (t, v) ++ rest)))))) := by
    rw [hrest, hbefore, List.flatMap_append, List.flatMap_cons]
    simp only [fieldText, List.append_assoc]
  refine ⟨(header ++ (pre.flatMap fieldText ++ (bytes "    " ++ (tag s ++ a)))).length, rest, ?_, ?_⟩
  · have hown : strstr (tag t) (a ++ (tag t ++ b)) = some a.length := by
      rw [strstr_tag_append ht.isName rfl, strstr_eq_none_iff_infix.mpr h.first, strstr_tag, Option.none_or,
        Option.map_some, Nat.zero_add]
    rw [hrest, hbefore, List.flatMap_append, List.flatMap_cons, strstr_header ht, List.append_assoc,
      strstr_before ht hall hpre, List.append_assoc, strstr_fieldText ht.isName hs.isName hne (ht.ne_closing s), hown]
    simp only [Option.map_some, Option.some_or, List.length_append, length_spaces]
    congr 1
    omega
  · rw [hxml, ← List.drop_drop, List.drop_left, List.drop_left]

theorem Shadows.strstr_between {m₁ : List (Str × Str)} {r : Str} (hm : ∀ f ∈ m₁, f ∈ mid) (hr : Good r)
    (hb : ¬closing t <:+: b) (hclear : ∀ f ∈ m₁, ¬closing t <:+: f.2) (w : Str) :
    strstr (closing t) (between s b m₁ r ++ w) = (strstr (closing t) w).map (· + (between s b m₁ r).length) := by
  have ht := isTagName_closing (good_field hsplit).isName
  obtain ⟨hs, hne, hmid⟩ := h.good hsplit
  have hslash : SLASH :: t ≠ SLASH :: s := fun heq => hne (List.cons.inj heq).2
  have hline : LESS ∉ [NEWLINE] := by decide
  have hfields := strstr_fields (L := m₁) ht fun f hf =>
    ⟨(hmid f (hm f hf)).1.isName, ((hmid f (hm f hf)).1.ne_closing t).symm,
      fun heq => (hmid f (hm f hf)).2 (List.cons.inj heq).2, hclear f hf⟩
  have hassoc : between s b m₁ r ++ w =
      b ++ (tag (SLASH :: s) ++ ([NEWLINE] ++ (m₁.flatMap fieldText ++ (bytes "    " ++ (tag r ++ w))))) := by
    simp only [between, closing, List.append_assoc]
  rw [closing] at hb ⊢
  rw [hassoc, strstr_tag_append ht rfl, strstr_eq_none_iff_infix.mpr hb, Option.none_or,
    strstr_skip_tag ht (isTagName_closing hs.isName) hslash, strstr_tag_skip hline, hfields,
    strstr_tag_skip spaces_plain, strstr_skip_tag ht hr.isName (hr.ne_closing t).symm]
  simp only [Option.map_map]
  congr 1
  funext k
  simp only [Function.comp_apply, between, closing, List.length_append]
  omega

theorem Shadows.stands {y : Str} (hy : Stands t s b mid y) : Enclosed (Install.metaXml e) t y := by
  obtain ⟨i, rest, hopen, hdrop⟩ := h.opened hsplit
  obtain ⟨-, -, hmid⟩ := h.good hsplit
  refine ⟨i, hopen, ?_⟩
  rw [hdrop]
  rcases hy with ⟨hb, rfl⟩ | ⟨hb, m₁, r, c, m₂, rfl, hclear, hc, rfl⟩
  · obtain ⟨hfound, hpre⟩ := strstr_beforeClose hsplit hb
      (w := closing s ++ ([NEWLINE] ++ (mid.flatMap fieldText ++ (fieldText (t, v) ++ rest)))) rfl
    exact ⟨hfound, hpre.trans (List.prefix_append _ _)⟩
  · have htext : b ++ (closing s ++ ([NEWLINE] ++
        ((m₁ ++ (r, c) :: m₂).flatMap fieldText ++ (fieldText (t, v) ++ rest)))) =
        between s b m₁ r ++
          (c ++ (closing r ++ ([NEWLINE] ++ (m₂.flatMap fieldText ++ (fieldText (t, v) ++ rest))))) := by
      rw [List.flatMap_append, List.flatMap_cons]
      simp only [between, fieldText, List.append_assoc]
    obtain ⟨hfound, hpre⟩ := strstr_beforeClose hsplit hc
      (w := closing r ++ ([NEWLINE] ++ (m₂.flatMap fieldText ++ (fieldText (t, v) ++ rest)))) rfl
    have hr : Good r := (hmid _ (List.mem_append_right _ List.mem_cons_self)).1
    rw [htext, h.strstr_between hsplit (fun f hf => List.mem_append_left _ hf) hr hb hclear, hfound]
    constructor
    · rw [Option.map_some, List.length_append, Nat.add_comm]
    · exact (List.prefix_append_right_inj _).mpr (hpre.trans (List.prefix_append _ _))

theorem Shadows.unclosed (hopen : Unclosed t b mid) :
    Enclosed (Install.metaXml e) t (between s b mid t ++ beforeClose t v) := by
  obtain ⟨i, rest, hfirst, hdrop⟩ := h.opened hsplit
  have ht := good_field hsplit
  have htext : b ++ (closing s ++ ([NEWLINE] ++ (mid.flatMap fieldText ++ (fieldText (t, v) ++ rest)))) =
      between s b mid t ++ (v ++ (closing t ++ ([NEWLINE] ++ rest))) := by
    simp only [between, fieldText, List.append_assoc]
  have hown : (strstr (closing t) v).getD v.length = (beforeClose t v).length := by
    rw [beforeClose, List.length_take]
    cases hv : strstr (closing t) v with
    | none => simp
    | some k =>
      have hle := strstr_fits (tag_ne_nil _) hv
      rw [Option.getD_some, Nat.min_eq_left (by omega)]
  refine ⟨i, hfirst, ?_⟩
  rw [hdrop, htext, h.strstr_between hsplit (fun f hf => hf) ht hopen.1 hopen.2, strstr_closing ht, hown]
  constructor
  · rw [Option.map_some, List.length_append, Nat.add_comm]
  · exact (List.prefix_append_right_inj _).mpr ((List.take_prefix _ v).trans (List.prefix_append _ _))

theorem Shadows.repeat_unclosed (hopen : Unclosed t b mid) (k : ℕ) :
    ¬closing t <:+: (List.replicate k (between s b mid t)).flatten := by
  rw [← strstr_eq_none_iff_infix]
  induction k with
  | zero => rfl
  | succ k ih =>
    rw [List.replicate_succ, List.flatten_cons,
      h.strstr_between hsplit (fun f hf => hf) (good_field hsplit) hopen.1 hopen.2, ih, Option.map_none]

theorem Shadows.unclosed_iff (hopen : Unclosed t b mid) (hv : v.length < n) :
    extractTagValue (Install.metaXml e) t n = v ↔
      trimEnd ((List.replicate n (between s b mid t)).flatten.take (n - 1)) = v := by
  have henclosed := h.unclosed hsplit hopen
  have hless : LESS ∈ between s b mid t := List.mem_append_right _ (List.mem_append_left _ List.mem_cons_self)
  rw [henclosed.extract (good_field hsplit).short]
  constructor
  · intro heq
    have hpre : v <+: between s b mid t ++ beforeClose t v := by
      conv_lhs => rw [← heq]
      exact (List.rdropWhile_prefix _ _).trans (List.take_prefix _ _)
    rw [beforeClose_of_open fun hin => henclosed.unclosed (hin.trans hpre.isInfix)] at heq
    exact (trimEnd_repeat_iff hless hv).mp heq
  · intro heq
    have hpre : v <+: (List.replicate n (between s b mid t)).flatten := by
      conv_lhs => rw [← heq]
      exact (List.rdropWhile_prefix _ _).trans (List.take_prefix _ _)
    rw [beforeClose_of_open fun hin => h.repeat_unclosed hsplit hopen n (hin.trans hpre.isInfix)]
    exact (trimEnd_repeat_iff hless hv).mpr heq

theorem Shadows.kept_iff (hv : v.length < n) : extractTagValue (Install.metaXml e) t n = v ↔
    (∃ y, Stands t s b mid y ∧ trimEnd (y.take (n - 1)) = v) ∨
      (Unclosed t b mid ∧ trimEnd ((List.replicate n (between s b mid t)).flatten.take (n - 1)) = v) := by
  have hshort := (good_field hsplit).short
  constructor
  · rintro heq
    rcases stands_or_unclosed t s b mid with ⟨y, hy⟩ | hopen
    · rw [(h.stands hsplit hy).extract hshort] at heq
      exact .inl ⟨y, hy, heq⟩
    · exact .inr ⟨hopen, (h.unclosed_iff hsplit hopen hv).mp heq⟩
  · rintro (⟨y, hy, heq⟩ | ⟨hopen, heq⟩)
    · rw [(h.stands hsplit hy).extract hshort, heq]
    · exact (h.unclosed_iff hsplit hopen hv).mpr heq

theorem Shadows.emptied_iff (hbefore : ∀ f ∈ before, f.2.length < n) : extractTagValue (Install.metaXml e) t n = [] ↔
    closing t <:+: b ∧ trimEnd (beforeClose t b) = [] := by
  have hshort := (good_field hsplit).short
  have hb : b.length + 2 ≤ n - 1 := by
    obtain ⟨pre, hpre, -⟩ := h.split
    have hlen := hbefore _ (by rw [hpre]; exact List.mem_append_right _ List.mem_cons_self)
    simp only [tag, List.length_append, List.length_cons] at hlen
    omega
  have hlonger (m₁ : List (Str × Str)) (r w : Str) : trimEnd ((between s b m₁ r ++ w).take (n - 1)) ≠ [] := by
    intro hnil
    have hblank := List.rdropWhile_eq_nil_iff.mp hnil
    have hmem : LESS ∈ (between s b m₁ r ++ w).take (n - 1) := by
      have hassoc : between s b m₁ r ++ w = (b ++ [LESS]) ++ (SLASH :: (s ++ [GREATER]) ++
          ([NEWLINE] ++ (m₁.flatMap fieldText ++ (bytes "    " ++ tag r)) ++ w)) := by
        simp [between, closing, tag]
      rw [hassoc, List.take_append]
      apply List.mem_append_left
      rw [List.take_of_length_le (by rw [List.length_append, List.length_singleton]; omega)]
      exact List.mem_append_right _ List.mem_cons_self
    have hless := hblank _ hmem
    revert hless
    decide
  by_cases hclosed : closing t <:+: b
  · have hle : (beforeClose t b).length ≤ b.length := List.length_take_le' _ b
    rw [(h.stands hsplit (.inl ⟨hclosed, rfl⟩)).extract hshort, List.take_of_length_le (by omega)]
    exact (and_iff_right hclosed).symm
  · refine ⟨fun hnil => ?_, fun hclose => absurd hclose.1 hclosed⟩
    exfalso
    rcases stands_or_unclosed t s b mid with ⟨y, hy⟩ | hopen
    · rw [(h.stands hsplit hy).extract hshort] at hnil
      rcases hy with ⟨hclose, -⟩ | ⟨-, m₁, r, c, m₂, -, -, -, rfl⟩
      · exact hclosed hclose
      · exact hlonger m₁ r _ hnil
    · rw [(h.unclosed hsplit hopen).extract hshort] at hnil
      exact hlonger mid t _ hnil

end Shadowed

theorem extract_kept_iff (hv : v.length < n) : extractTagValue (Install.metaXml e) t n = v ↔ Kept t v before n := by
  unfold Kept
  by_cases hshadow : Shadowed t before
  · simp only [hshadow, not_true_eq_false, false_and, false_or]
    constructor
    · intro heq
      obtain ⟨s, a, b, mid, h⟩ := shadows_exists hshadow
      exact ⟨s, a, b, mid, h, (h.kept_iff hsplit hv).mp heq⟩
    · rintro ⟨s, a, b, mid, h, hkept⟩
      exact (h.kept_iff hsplit hv).mpr hkept
  · have hnone : ¬∃ s a b mid, Shadows t before s a b mid ∧
        ((∃ y, Stands t s b mid y ∧ trimEnd (y.take (n - 1)) = v) ∨
          (Unclosed t b mid ∧ trimEnd ((List.replicate n (between s b mid t)).flatten.take (n - 1)) = v)) :=
      fun ⟨_, _, _, _, h, _⟩ => hshadow h.shadowed
    rw [or_iff_left hnone, extract_clear hsplit hv hshadow, trimEnd_beforeClose_iff, and_iff_right hshadow]

theorem extract_emptied_iff (hv : v.length < n) (hbefore : ∀ f ∈ before, f.2.length < n) :
    extractTagValue (Install.metaXml e) t n = [] ↔ Emptied t v before := by
  unfold Emptied
  by_cases hshadow : Shadowed t before
  · simp only [hshadow, not_true_eq_false, false_and, false_or]
    constructor
    · intro heq
      obtain ⟨s, a, b, mid, h⟩ := shadows_exists hshadow
      exact ⟨s, a, b, mid, h, (h.emptied_iff hsplit hbefore).mp heq⟩
    · rintro ⟨s, a, b, mid, h, hemptied⟩
      exact (h.emptied_iff hsplit hbefore).mpr hemptied
  · have hnone : ¬∃ s a b mid, Shadows t before s a b mid ∧ closing t <:+: b ∧ trimEnd (beforeClose t b) = [] :=
      fun ⟨_, _, _, _, h, _⟩ => hshadow h.shadowed
    rw [or_iff_left hnone, extract_clear hsplit hv hshadow, and_iff_right hshadow]

end Values

/-! ### The entry that is read -/

theorem zero_notMem_extract {xml t : Str} {n : ℕ} (h : 0 ∉ xml) : 0 ∉ extractTagValue xml t n := by
  unfold extractTagValue
  split
  · exact List.not_mem_nil
  · dsimp only
    split
    · exact List.not_mem_nil
    · intro hmem
      have hdrop := List.mem_of_mem_take (List.mem_of_mem_take ((List.rdropWhile_prefix _ _).subset hmem))
      exact h (List.mem_of_mem_drop hdrop)

theorem length_extract_le (xml t : Str) (n : ℕ) : (extractTagValue xml t n).length ≤ n - 1 := by
  unfold extractTagValue
  split
  · exact Nat.zero_le _
  · dsimp only
    split
    · exact Nat.zero_le _
    · exact (length_trimEnd_le _).trans (List.length_take_le _ _)

theorem safeStrcpy_text {s : Str} {n : ℕ} (h : 0 ∉ s) (hlen : s.length ≤ n) : (safeStrcpy n s).text = s := by
  simp only [safeStrcpy, cstr_of_notMem h, List.take_of_length_le hlen]

theorem zero_notMem_fieldText {f : Str × Str} (hname : 0 ∉ f.1) (hvalue : 0 ∉ f.2) : 0 ∉ fieldText f := by
  have hspaces : (0 : UInt8) ∉ bytes "    " := by decide
  simp only [fieldText, closing, tag, List.mem_append, List.mem_cons, List.not_mem_nil, or_false, not_or]
  refine ⟨hspaces, ⟨?_, hname, ?_⟩, hvalue, ⟨?_, ⟨?_, hname⟩, ?_⟩, ?_⟩ <;> decide

theorem zero_notMem_metaXml (e : AppEntry) : 0 ∉ Install.metaXml e := by
  have hheader : 0 ∉ header := by decide
  have hfooter : 0 ∉ footer := by decide
  have hnames : ∀ t ∈ tagNames, 0 ∉ t := by decide
  have hvalues : ∀ f ∈ fields e, 0 ∉ f.2 := by
    simp only [fields, List.forall_mem_cons]
    exact ⟨e.name.zero_notMem, e.version.zero_notMem, e.author.zero_notMem, e.description.zero_notMem,
      e.download.zero_notMem, fun _ h => absurd h List.not_mem_nil⟩
  rw [metaXml_eq, List.mem_append, List.mem_append, not_or, not_or]
  refine ⟨hheader, fun hmem => ?_, hfooter⟩
  obtain ⟨f, hf, hzero⟩ := List.mem_flatMap.mp hmem
  have hname : f.1 ∈ tagNames := List.mem_map_of_mem (f := Prod.fst) hf
  exact zero_notMem_fieldText (hnames _ hname) (hvalues f hf) hzero

theorem charArray_eq_iff {n : ℕ} {x y : CharArray n} : x = y ↔ x.text = y.text := by
  cases x
  cases y
  simp

def reread (stat : Str → Option Stat) (folder : CharArray 256) (e : AppEntry) : AppEntry :=
  metaEntry stat folder.text (cstr (Install.metaXml e))

structure SameFields (e e' : AppEntry) : Prop where
  name : e'.name = e.name
  version : e'.version = e.version
  author : e'.author = e.author
  description : e'.description = e.description
  download : e'.download = e.download

def defaultDownload (folder name : Str) : Str :=
  snprintf 512 (REPO_BASE ++ bytes "/apps/" ++ folder ++ bytes "/" ++ name ++ bytes ".bk")

structure Survives (folder : CharArray 256) (e : AppEntry) : Prop where
  name : (e.name.text ≠ [] ∧ Kept (bytes "name") e.name.text [] 64) ∨
    (Emptied (bytes "name") e.name.text [] ∧ folder.text.take 63 = e.name.text)
  version : Kept (bytes "version") e.version.text ((fields e).take 1) 32
  author : Kept (bytes "author") e.author.text ((fields e).take 2) 64
  description : Kept (bytes "description") e.description.text ((fields e).take 3) 256
  download :
    (e.download.text ≠ [] ∧ Kept (bytes "download") e.download.text ((fields e).take 4) 512) ∨
    (Emptied (bytes "download") e.download.text ((fields e).take 4) ∧
      defaultDownload folder.text e.name.text = e.download.text)

theorem default_iff {x d v : Str} : (if x.length = 0 then d else x) = v ↔ (v ≠ [] ∧ x = v) ∨ (x = [] ∧ d = v) := by
  by_cases hx : x = []
  · subst hx
    simp
  · have hlen : x.length ≠ 0 := fun h => hx (List.length_eq_zero_iff.mp h)
    rw [if_neg hlen]
    simp only [hx, false_and, or_false]
    constructor
    · rintro rfl
      exact ⟨hx, rfl⟩
    · exact fun h => h.2

section Reread

variable (stat : Str → Option Stat) (folder : CharArray 256) (e : AppEntry)

theorem reread_eq : reread stat folder e = metaEntry stat folder.text (Install.metaXml e) := by
  rw [reread, cstr_of_notMem (zero_notMem_metaXml e)]

theorem reread_name_text : (reread stat folder e).name.text = metaName folder.text (Install.metaXml e) := by
  rw [reread_eq]
  simp only [metaEntry, newEntry]
  apply safeStrcpy_text
  · unfold metaName
    dsimp only
    split_ifs
    · exact (safeStrcpy 63 folder.text).zero_notMem
    · exact zero_notMem_extract (zero_notMem_metaXml e)
  · unfold metaName
    dsimp only
    split_ifs
    · exact Nat.le_of_lt_succ (safeStrcpy 63 folder.text).length_lt
    · exact length_extract_le _ _ _

theorem zero_notMem_defaultDownload {name : Str} (h : 0 ∉ name) : 0 ∉ defaultDownload folder.text name := by
  have hbase : 0 ∉ REPO_BASE ++ bytes "/apps/" := by decide
  have hslash : (0 : UInt8) ∉ bytes "/" := by decide
  have hsuffix : (0 : UInt8) ∉ bytes ".bk" := by decide
  apply zero_notMem_take
  simp only [List.mem_append, not_or] at hbase ⊢
  exact ⟨⟨⟨⟨hbase, folder.zero_notMem⟩, hslash⟩, h⟩, hsuffix⟩

theorem metaDownload_eq (xml : Str) : metaDownload folder.text xml =
    if (extractTagValue xml (bytes "download") 512).length = 0 then
      defaultDownload folder.text (metaName folder.text xml)
    else extractTagValue xml (bytes "download") 512 := rfl

theorem reread_download_text :
    (reread stat folder e).download.text = metaDownload folder.text (Install.metaXml e) := by
  have hname : 0 ∉ metaName folder.text (Install.metaXml e) := by
    rw [← reread_name_text stat]
    exact (reread stat folder e).name.zero_notMem
  rw [reread_eq]
  simp only [metaEntry, newEntry]
  rw [metaDownload_eq]
  apply safeStrcpy_text
  · split_ifs
    · exact zero_notMem_defaultDownload folder hname
    · exact zero_notMem_extract (zero_notMem_metaXml e)
  · split_ifs
    · exact List.length_take_le _ _
    · exact length_extract_le _ _ _

theorem name_iff : (reread stat folder e).name = e.name ↔
    (e.name.text ≠ [] ∧ Kept (bytes "name") e.name.text [] 64) ∨
    (Emptied (bytes "name") e.name.text [] ∧ folder.text.take 63 = e.name.text) := by
  have hsplit : fields e = [] ++ (bytes "name", e.name.text) :: (fields e).drop 1 := rfl
  have hdefault : (safeStrcpy 63 folder.text).text = folder.text.take 63 := by
    simp only [safeStrcpy, cstr_of_notMem folder.zero_notMem]
  rw [charArray_eq_iff, reread_name_text, metaName, default_iff, extract_kept_iff hsplit e.name.length_lt,
    extract_emptied_iff hsplit e.name.length_lt (fun _ hf => absurd hf List.not_mem_nil), hdefault]

theorem download_iff (hname : (reread stat folder e).name = e.name) : (reread stat folder e).download = e.download ↔
    (e.download.text ≠ [] ∧ Kept (bytes "download") e.download.text ((fields e).take 4) 512) ∨
    (Emptied (bytes "download") e.download.text ((fields e).take 4) ∧
      defaultDownload folder.text e.name.text = e.download.text) := by
  have hsplit : fields e = (fields e).take 4 ++ (bytes "download", e.download.text) :: [] := rfl
  have hmeta : metaName folder.text (Install.metaXml e) = e.name.text := by
    rw [← reread_name_text stat, hname]
  have hbefore : ∀ f ∈ (fields e).take 4, f.2.length < 512 := by
    have hname := e.name.length_lt
    have hversion := e.version.length_lt
    have hauthor := e.author.length_lt
    have hdescription := e.description.length_lt
    simp only [fields, List.take_succ_cons, List.take_zero, List.forall_mem_cons]
    exact ⟨by omega, by omega, by omega, by omega, fun _ hf => absurd hf List.not_mem_nil⟩
  rw [charArray_eq_iff, reread_download_text, metaDownload_eq, default_iff, hmeta,
    extract_kept_iff hsplit e.download.length_lt, extract_emptied_iff hsplit e.download.length_lt hbefore]

end Reread

theorem stored_iff {e : AppEntry} {before after : List (Str × Str)} {t : Str} {n : ℕ} {x : CharArray (n + 1)}
    (hsplit : fields e = before ++ (t, x.text) :: after) :
    safeStrcpy n (extractTagValue (Install.metaXml e) t (n + 1)) = x ↔
      Kept t x.text before (n + 1) := by
  have hlen : (extractTagValue (Install.metaXml e) t (n + 1)).length ≤ n := length_extract_le _ _ _
  rw [charArray_eq_iff, safeStrcpy_text (zero_notMem_extract (zero_notMem_metaXml e)) hlen]
  exact extract_kept_iff hsplit x.length_lt

theorem reread_sameFields_iff (stat : Str → Option Stat) (folder : CharArray 256) (e : AppEntry) :
    SameFields e (reread stat folder e) ↔ Survives folder e := by
  have hversion : (reread stat folder e).version = e.version ↔
      Kept (bytes "version") e.version.text ((fields e).take 1) 32 := by
    have hsplit : fields e = (fields e).take 1 ++ (bytes "version", e.version.text) :: (fields e).drop 2 := rfl
    rw [reread_eq]
    exact stored_iff hsplit
  have hauthor : (reread stat folder e).author = e.author ↔
      Kept (bytes "author") e.author.text ((fields e).take 2) 64 := by
    have hsplit : fields e = (fields e).take 2 ++ (bytes "author", e.author.text) :: (fields e).drop 3 := rfl
    rw [reread_eq]
    exact stored_iff hsplit
  have hdescription : (reread stat folder e).description = e.description ↔
      Kept (bytes "description") e.description.text ((fields e).take 3) 256 := by
    have hsplit : fields e = (fields e).take 3 ++ (bytes "description", e.description.text) :: (fields e).drop 4 := rfl
    rw [reread_eq]
    exact stored_iff hsplit
  constructor
  · intro h
    exact ⟨(name_iff stat folder e).mp h.name, hversion.mp h.version, hauthor.mp h.author,
      hdescription.mp h.description, (download_iff stat folder e h.name).mp h.download⟩
  · intro h
    have hname := (name_iff stat folder e).mpr h.name
    exact ⟨hname, hversion.mpr h.version, hauthor.mpr h.author, hdescription.mpr h.description,
      (download_iff stat folder e hname).mpr h.download⟩

theorem roundTrip_iff (stat stat' : Str → Option Stat) (folderId xml : Str) (folder : CharArray 256) :
    SameFields (metaEntry stat folderId (cstr xml)) (reread stat' folder (metaEntry stat folderId (cstr xml))) ↔
      Survives folder (metaEntry stat folderId (cstr xml)) :=
  reread_sameFields_iff stat' folder _

-- The description holds a `<download>` of its own, which closes nothing the first reading looked for.
def nested : Str :=
  bytes "<name>calc</name><download>a</download><description><download>b</download></description>"

def nestedEntry : AppEntry := metaEntry (fun _ => none) (bytes "calc") (cstr nested)

theorem roundTrip_nested :
    ¬SameFields nestedEntry (reread (fun _ => none) (safeStrcpy 255 (bytes "calc")) nestedEntry) := by
  intro h
  have hdownload := congrArg CharArray.text h.download
  have hread : extractTagValue (Install.metaXml nestedEntry) (bytes "download") 512 = bytes "b" := by decide +kernel
  have hfirst : nestedEntry.download.text = bytes "a" := by decide
  have hlen : (bytes "b").length ≠ 0 := by decide
  rw [reread_download_text, metaDownload_eq, hread, if_neg hlen, hfirst] at hdownload
  exact absurd hdownload (by decide)

end Metadata

end JurkOS.Userland
