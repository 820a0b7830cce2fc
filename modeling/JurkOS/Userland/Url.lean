import JurkOS.Lib.Libc

/-!
`parse_url` of `NoneCompiled/wget.c`. A URL put together from its parts is taken
apart into the same parts.
-/

namespace JurkOS.Userland.Wget

open Lib.Libc

def SLASH : UInt8 := 0x2F
def COLON : UInt8 := 0x3A

structure Target where
  isHttps : Bool
  host : Str
  port : Str
  path : Str
  deriving DecidableEq

def clip (max len : ℕ) : ℕ := if max ≤ len then max - 1 else len

def parseScheme (maxPort : ℕ) (p : Str) : Bool × Str × Str :=
  if bytes "https://" <+: p then (true, snprintf maxPort (bytes "443"), p.drop 8)
  else if bytes "http://" <+: p then (false, snprintf maxPort (bytes "80"), p.drop 7)
  else (true, snprintf maxPort (bytes "443"), p)

def parseAuthority (maxHost maxPort : ℕ) (default p : Str) : Str × Str :=
  let slash := strchr p SLASH
  match strchr p COLON with
  | some colon =>
    if ∀ i ∈ slash, colon < i then
      (p.take (clip maxHost colon),
        (p.drop (colon + 1)).take (clip maxPort (slash.getD p.length - (colon + 1))))
    else (p.take (clip maxHost (slash.getD p.length)), default)
  | none => (p.take (clip maxHost (slash.getD p.length)), default)

def parseUrl (url : Option Str) (maxHost maxPort maxPath : ℕ) : Option Target :=
  url.map fun url =>
    let (isHttps, default, p) := parseScheme maxPort (cstr url)
    let (host, port) := parseAuthority maxHost maxPort default p
    let path := match strchr p SLASH with
      | some i => snprintf maxPath (p.drop i)
      | none => snprintf maxPath (bytes "/")
    ⟨isHttps, host, port, path⟩

inductive Scheme
  | http
  | https
  deriving DecidableEq

def Scheme.name : Scheme → Str
  | http => bytes "http"
  | https => bytes "https"

def Scheme.port : Scheme → Str
  | http => bytes "80"
  | https => bytes "443"

structure Parts where
  scheme : Option Scheme
  host : Str
  port : Option Str
  path : Option Str
  host_ne : host ≠ []
  host_lt : host.length < 256
  host_plain : ∀ c ∈ host, c ≠ 0 ∧ c ≠ COLON ∧ c ≠ SLASH
  port_ne : ∀ s ∈ port, s ≠ []
  port_le : ∀ s ∈ port, s.length ≤ 15
  port_digits : ∀ s ∈ port, ∀ c ∈ s, 0x30 ≤ c ∧ c ≤ 0x39
  path_slash : ∀ s ∈ path, s.head? = some SLASH
  path_lt : ∀ s ∈ path, s.length < 1024
  path_text : ∀ s ∈ path, 0 ∉ s

namespace Parts

variable (u : Parts)

def schemeText : Str := (u.scheme.map fun s => s.name ++ bytes "://").getD []

def portText : Str := (u.port.map (COLON :: ·)).getD []

def pathText : Str := u.path.getD []

def text : Str := u.schemeText ++ (u.host ++ (u.portText ++ u.pathText))

def target : Target where
  isHttps := u.scheme ≠ some .http
  host := u.host
  port := u.port.getD (u.scheme.getD .https).port
  path := u.path.getD (bytes "/")

variable {u}

theorem colon_notMem_host : COLON ∉ u.host := fun h => (u.host_plain _ h).2.1 rfl

theorem slash_notMem_host : SLASH ∉ u.host := fun h => (u.host_plain _ h).2.2 rfl

theorem digit_ne {s : Str} (hs : s ∈ u.port) {c : UInt8} (hc : c ∈ s) : c ≠ 0 ∧ c ≠ COLON ∧ c ≠ SLASH := by
  have hdigit := u.port_digits s hs c hc
  refine ⟨?_, ?_, ?_⟩ <;>
  · rintro rfl
    revert hdigit
    decide

theorem pathText_cases : u.pathText = [] ∧ u.path = none ∨
    ∃ rest, u.pathText = SLASH :: rest ∧ u.path = some (SLASH :: rest) := by
  cases hpath : u.path with
  | none => simp [pathText, hpath]
  | some s =>
    have hhead := u.path_slash s hpath
    cases s with
    | nil => cases hhead
    | cons c rest =>
      obtain rfl := Option.some.inj hhead
      simp [pathText, hpath]

theorem zero_notMem_text : 0 ∉ u.text := by
  have hscheme : 0 ∉ u.schemeText := by
    unfold schemeText
    cases u.scheme with
    | none => simp
    | some s => cases s <;> decide
  have hport : 0 ∉ u.portText := by
    unfold portText
    cases hs : u.port with
    | none => simp
    | some s =>
      intro hmem
      rcases List.mem_cons.mp hmem with hcolon | hdigit
      · cases hcolon
      · exact (digit_ne hs hdigit).1 rfl
  have hpath : 0 ∉ u.pathText := by
    unfold pathText
    cases hs : u.path with
    | none => simp
    | some s => exact u.path_text s hs
  have hhost : 0 ∉ u.host := fun h => (u.host_plain _ h).1 rfl
  simp [text, hscheme, hport, hpath, hhost]

theorem head_rest : ∀ c ∈ (u.portText ++ u.pathText).head?, c = COLON ∨ c = SLASH := by
  unfold portText
  cases u.port with
  | none =>
    rcases u.pathText_cases with ⟨hp, -⟩ | ⟨rest, hp, -⟩ <;> simp [hp]
  | some s => simp

theorem takeWhile_host :
    (u.host ++ (u.portText ++ u.pathText)).takeWhile (fun c => c ≠ COLON ∧ c ≠ SLASH) = u.host := by
  rw [List.takeWhile_append_of_pos]
  · have hstop : (u.portText ++ u.pathText).takeWhile (fun c => decide (c ≠ COLON ∧ c ≠ SLASH)) = [] := by
      have hhead := u.head_rest
      cases hrest : u.portText ++ u.pathText with
      | nil => rfl
      | cons c rest =>
        rw [hrest] at hhead
        rcases hhead c rfl with rfl | rfl <;> rfl
    rw [hstop, List.append_nil]
  · intro c hc
    exact decide_eq_true (u.host_plain c hc).2

theorem not_scheme (s : Scheme) : ¬ s.name ++ bytes "://" <+: u.host ++ (u.portText ++ u.pathText) := by
  rintro ⟨t, ht⟩
  have hhost : u.host = s.name := by
    rw [← u.takeWhile_host, ← ht]
    cases s <;> rfl
  rw [hhost, List.append_assoc, List.append_cancel_left_eq] at ht
  have hdigit {c : UInt8} {l : Str} (hs : c :: l ∈ u.port) : c ≠ SLASH := (digit_ne hs List.mem_cons_self).2.2
  unfold portText at ht
  cases hport : u.port with
  | none =>
    rcases u.pathText_cases with ⟨hp, -⟩ | ⟨rest, hp, -⟩ <;> rw [hport, hp] at ht <;> cases ht
  | some l =>
    cases l with
    | nil => exact u.port_ne [] hport rfl
    | cons c l =>
      rw [hport] at ht
      have hslash : SLASH = c := (List.cons.inj (List.cons.inj ht).2).1
      exact hdigit hport hslash.symm

theorem parseScheme_text : parseScheme 16 u.text =
    (decide (u.scheme ≠ some .http), (u.scheme.getD .https).port, u.host ++ (u.portText ++ u.pathText)) := by
  unfold parseScheme text schemeText
  cases hs : u.scheme with
  | none =>
    have hhttps : ¬ bytes "https://" <+: u.host ++ (u.portText ++ u.pathText) := u.not_scheme .https
    have hhttp : ¬ bytes "http://" <+: u.host ++ (u.portText ++ u.pathText) := u.not_scheme .http
    simp only [Option.map_none, Option.getD_none, List.nil_append, if_neg hhttps, if_neg hhttp]
    rfl
  | some s =>
    cases s with
    | http => rfl
    | https => rfl

theorem strchr_slash : strchr (u.host ++ (u.portText ++ u.pathText)) SLASH =
    u.path.map fun _ => (u.host ++ u.portText).length := by
  have hnone : SLASH ∉ u.host ++ u.portText := by
    unfold portText
    cases hs : u.port with
    | none => simpa using u.slash_notMem_host
    | some s =>
      simp only [Option.map_some, Option.getD_some, List.mem_append, List.mem_cons, not_or]
      exact ⟨u.slash_notMem_host, by decide, fun h => (digit_ne hs h).2.2 rfl⟩
  rw [← List.append_assoc]
  rcases u.pathText_cases with ⟨hp, hpath⟩ | ⟨rest, hp, hpath⟩
  · rw [hp, hpath, List.append_nil]
    exact strchr_eq_none hnone
  · rw [hp, hpath]
    exact strchr_append hnone rest

theorem clip_of_lt {max len : ℕ} (h : len < max) : clip max len = len := if_neg (Nat.not_le.mpr h)

theorem parseAuthority_port {s : Str} (hport : u.port = some s) (default : Str) :
    parseAuthority 256 16 default (u.host ++ (u.portText ++ u.pathText)) = (u.host, s) := by
  have htext : u.portText = COLON :: s := by rw [portText, hport]; rfl
  have hcolon : strchr (u.host ++ (u.portText ++ u.pathText)) COLON = some u.host.length := by
    rw [htext]
    exact strchr_append u.colon_notMem_host (s ++ u.pathText)
  have hfirst : ∀ i ∈ u.path.map fun _ => (u.host ++ u.portText).length, u.host.length < i := by
    rw [htext]
    simp
  have hplen : (u.path.map fun _ => (u.host ++ u.portText).length).getD
      (u.host ++ (u.portText ++ u.pathText)).length - (u.host.length + 1) = s.length := by
    rw [htext]
    rcases u.pathText_cases with ⟨hp, hpath⟩ | ⟨rest, hp, hpath⟩ <;> simp [hp, hpath] <;> omega
  have hlt : s.length < 16 := Nat.lt_succ_of_le (u.port_le s hport)
  have hdrop : (u.host ++ (u.portText ++ u.pathText)).drop (u.host.length + 1) = s ++ u.pathText := by
    rw [htext]
    simp [List.drop_append]
  unfold parseAuthority
  rw [strchr_slash, hcolon]
  dsimp only
  rw [if_pos hfirst, hplen, clip_of_lt u.host_lt, clip_of_lt hlt, hdrop, List.take_left, List.take_left]

theorem parseAuthority_default (hport : u.port = none) (default : Str) :
    parseAuthority 256 16 default (u.host ++ (u.portText ++ u.pathText)) = (u.host, default) := by
  have htext : u.portText = [] := by rw [portText, hport]; rfl
  have hhlen : (u.path.map fun _ => (u.host ++ u.portText).length).getD
      (u.host ++ (u.portText ++ u.pathText)).length = u.host.length := by
    rw [htext]
    rcases u.pathText_cases with ⟨hp, hpath⟩ | ⟨rest, hp, hpath⟩ <;> simp [hp, hpath]
  have hhost : (u.host ++ (u.portText ++ u.pathText)).take u.host.length = u.host := List.take_left
  unfold parseAuthority
  rw [strchr_slash]
  cases hcolon : strchr (u.host ++ (u.portText ++ u.pathText)) COLON with
  | none => simp only [hhlen, clip_of_lt u.host_lt, hhost]
  | some colon =>
    -- a colon of the path
    have hlate : ¬ ∀ i ∈ u.path.map fun _ => (u.host ++ u.portText).length, colon < i := by
      rw [htext] at hcolon ⊢
      rcases u.pathText_cases with ⟨hp, -⟩ | ⟨rest, hp, hpath⟩
      · rw [hp, List.append_nil, List.append_nil, strchr_eq_none u.colon_notMem_host] at hcolon
        cases hcolon
      · rw [hp] at hcolon
        have hbehind := strchr_behind u.colon_notMem_host (by decide) rest colon hcolon
        simp only [hpath, List.append_nil, Option.map_some, Option.mem_some_iff, forall_eq', not_lt]
        exact hbehind.le
    simp only [if_neg hlate, hhlen, clip_of_lt u.host_lt, hhost]

theorem parseAuthority_text (default : Str) :
    parseAuthority 256 16 default (u.host ++ (u.portText ++ u.pathText)) = (u.host, u.port.getD default) := by
  cases hport : u.port with
  | some s => exact parseAuthority_port hport default
  | none => exact parseAuthority_default hport default

end Parts

theorem parseUrl_text (u : Parts) : parseUrl (some u.text) 256 16 1024 = some u.target := by
  unfold parseUrl
  rw [Option.map_some, cstr_of_notMem u.zero_notMem_text, u.parseScheme_text]
  simp only [Parts.parseAuthority_text, Parts.strchr_slash]
  rcases u.pathText_cases with ⟨hp, hpath⟩ | ⟨rest, hp, hpath⟩
  · rw [hpath]
    simp only [Parts.target, hpath]
    rfl
  · have hdrop : (u.host ++ (u.portText ++ u.pathText)).drop (u.host ++ u.portText).length = u.pathText := by
      rw [← List.append_assoc]
      exact List.drop_left
    have hlt := u.path_lt _ hpath
    rw [hpath, Option.map_some]
    simp only [hdrop]
    rw [hp, snprintf_of_lt hlt, Parts.target, hpath]
    rfl

end JurkOS.Userland.Wget
