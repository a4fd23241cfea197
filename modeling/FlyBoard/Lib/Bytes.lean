import Mathlib.Algebra.Order.Ring.Int
import Mathlib.Data.List.Basic
import Mathlib.Data.List.TakeWhile

/-!
# Byte strings and the C string functions over them

A `Bytes` value is the content of a C buffer. The functions here are the ones
of `<string.h>`, `<strings.h>` and `<stdlib.h>` that the modelled sources call,
on byte lists: a C string is a list without `0`, and reading past its end is the
end of the list.
-/

namespace FlyBoard

abbrev Bytes := List UInt8

instance lawfulBEq_bytes : LawfulBEq Bytes := inferInstance

def bytes (s : String) : Bytes := s.toList.map fun c => UInt8.ofNat c.toNat

namespace Bytes

/-- What a C function sees of a buffer: everything before the first NUL. -/
def cstr (s : Bytes) : Bytes := s.takeWhile (· != 0)

/-- `tolower` in the C locale. -/
def toLower (c : UInt8) : UInt8 := if 65 ≤ c ∧ c ≤ 90 then c + 32 else c

/-- `toupper` in the C locale. -/
def toUpper (c : UInt8) : UInt8 := if 97 ≤ c ∧ c ≤ 122 then c - 32 else c

/-- `strcasecmp(a, b) == 0`. -/
def eqCI (a b : Bytes) : Bool := a.map toLower == b.map toLower

/-- `strncmp(s, p, strlen(p)) == 0`. -/
def startsWith (s p : Bytes) : Bool := s.take p.length == p

/-- `strncasecmp(s, p, strlen(p)) == 0`. -/
def startsWithCI (s p : Bytes) : Bool := eqCI (s.take p.length) p

/-- `strstr(s, p) != NULL`. -/
def hasSub (s p : Bytes) : Bool :=
  startsWith s p || match s with
    | [] => false
    | _ :: t => hasSub t p

/-- `strstr(s, p)`: what stands before the first occurrence of `p` and after it. -/
def cutAt (p : Bytes) : Bytes → Option (Bytes × Bytes)
  | [] => if p.isEmpty then some ([], []) else none
  | c :: t =>
    if startsWith (c :: t) p then some ([], (c :: t).drop p.length)
    else (cutAt p t).map fun r => (c :: r.1, r.2)

/-- `s` without the leading bytes that satisfy `p`. -/
def trimLeft (p : UInt8 → Bool) (s : Bytes) : Bytes := s.dropWhile p

/-- `s` without the trailing bytes that satisfy `p`. -/
def trimRight (p : UInt8 → Bool) (s : Bytes) : Bytes := (s.reverse.dropWhile p).reverse

/-- The string `snprintf(buf, cap, "%s", s)` leaves in `buf`, for `cap > 0`. -/
def snprintfS (cap : Nat) (s : Bytes) : Bytes := s.take (cap - 1)

def isBlank (c : UInt8) : Bool := c == 32 || c == 9

/-- `isspace` in the C locale. -/
def isSpace (c : UInt8) : Bool := c == 32 || (9 ≤ c && c ≤ 13)

def isDigit (c : UInt8) : Bool := 48 ≤ c && c ≤ 57

/-- `islower` in the C locale. -/
def isLower (c : UInt8) : Bool := 97 ≤ c && c ≤ 122

def digitsValue (ds : Bytes) : Nat := ds.foldl (fun n d => 10 * n + (d.toNat - 48)) 0

/-- What `%u` prints. -/
def decimal (n : Nat) : Bytes := (Nat.toDigits 10 n).map fun c => UInt8.ofNat c.toNat

/-- What `%d` prints. -/
def decimalInt (n : Int) : Bytes := if n < 0 then 45 :: decimal n.natAbs else decimal n.natAbs

def hexDigit (d : Nat) : UInt8 := UInt8.ofNat (if d < 10 then 48 + d else 87 + d)

/-- The last `w` hexadecimal digits of `n`: what `%0*x` prints of a number that has
no more digits. -/
def hex : Nat → Nat → Bytes
  | 0, _ => []
  | w + 1, n => hex w (n / 16) ++ [hexDigit (n % 16)]

def textKey (s : Bytes) : List ℕ := s.map UInt8.toNat

theorem textKey_injective : Function.Injective textKey :=
  List.map_injective_iff.mpr fun _ _ h => UInt8.toNat_inj.mp h

/-- `strtol(s, NULL, 10)` with a 64-bit `long`: out-of-range values saturate. -/
def strtol (s : Bytes) : Int :=
  match trimLeft isSpace s with
  | 45 :: t => max (-(digitsValue (t.takeWhile isDigit) : Int)) (-(2 ^ 63))
  | 43 :: t => min (digitsValue (t.takeWhile isDigit) : Int) (2 ^ 63 - 1)
  | t => min (digitsValue (t.takeWhile isDigit) : Int) (2 ^ 63 - 1)

/-- `atoi(s)`: `strtol` converted to a 32-bit `int`. -/
def atoi (s : Bytes) : Int := (BitVec.ofInt 32 (strtol s)).toInt

theorem forall_byte {P : UInt8 → Prop} (h : ∀ n : Fin 256, P (UInt8.ofNat n)) (b : UInt8) :
    P b := by
  have hb := h ⟨b.toNat, b.toNat_lt⟩
  rwa [UInt8.ofNat_toNat] at hb

/-- A fact about the bytes of a fixed string, decided along the string rather than
over all bytes. -/
theorem forall_mem_of_all {s : Bytes} {p : UInt8 → Prop} [DecidablePred p]
    (h : s.all (fun c => decide (p c)) = true) : ∀ c ∈ s, p c := by
  intro c hc
  exact of_decide_eq_true (List.all_eq_true.mp h c hc)

theorem bne_of_not_mem {s : Bytes} {d : UInt8} (h : d ∉ s) : ∀ c ∈ s, (c != d) = true := by
  intro c hc
  simp only [bne_iff_ne, ne_eq]
  rintro rfl
  exact h hc

/-! ## Decimal numbers -/

variable {c : UInt8}

theorem isSpace_of_isDigit (h : isDigit c = true) : isSpace c = false := by
  simp only [isDigit, isSpace, Bool.and_eq_true, decide_eq_true_eq, Bool.or_eq_false_iff,
    beq_eq_false_iff_ne, ne_eq, Bool.and_eq_false_iff, decide_eq_false_iff_not,
    UInt8.le_iff_toNat_le, ← UInt8.toNat_inj] at h ⊢
  have hlow : (48 : UInt8).toNat = 48 := rfl
  have hspace : (32 : UInt8).toNat = 32 := rfl
  have hhigh : (13 : UInt8).toNat = 13 := rfl
  omega

variable {n : ℕ}

theorem toNat_of_mem_toDigits {d : Char} (hd : d ∈ Nat.toDigits 10 n) :
    48 ≤ d.toNat ∧ d.toNat ≤ 57 := by
  have hdigit := Nat.isDigit_of_mem_toDigits (by decide) (by decide) hd
  rw [Char.isDigit, Bool.and_eq_true, decide_eq_true_eq, decide_eq_true_eq] at hdigit
  exact hdigit

theorem isDigit_of_mem_decimal (h : c ∈ decimal n) : isDigit c = true := by
  rcases List.mem_map.mp h with ⟨d, hd, rfl⟩
  have hrange := toNat_of_mem_toDigits hd
  rw [isDigit, Bool.and_eq_true, decide_eq_true_eq, decide_eq_true_eq, UInt8.le_iff_toNat_le,
    UInt8.le_iff_toNat_le, UInt8.toNat_ofNat']
  have hsmall : d.toNat % 2 ^ 8 = d.toNat := by omega
  rw [hsmall]
  exact hrange

theorem not_mem_decimal (h : isDigit c = false) : c ∉ decimal n := by
  intro hmem
  rw [isDigit_of_mem_decimal hmem] at h
  exact absurd h (by decide)

theorem decimal_ne_nil (n : ℕ) : decimal n ≠ [] := by
  rw [decimal, ne_eq, List.map_eq_nil_iff]
  exact Nat.toDigits_ne_nil

theorem digitsValue_decimal (n : ℕ) : digitsValue (decimal n) = n := by
  have hfold : ∀ (ds : List Char) (m : ℕ), (∀ d ∈ ds, d.toNat < 256) →
      (ds.map fun c => UInt8.ofNat c.toNat).foldl (fun n d => 10 * n + (d.toNat - 48)) m =
        Nat.ofDigitChars 10 ds m := by
    intro ds
    induction ds with
    | nil =>
      intro m _
      rw [List.map_nil, List.foldl_nil, Nat.ofDigitChars_nil]
    | cons d ds ih =>
      intro m hds
      have hd : (UInt8.ofNat d.toNat).toNat = d.toNat := by
        have hlt := hds d List.mem_cons_self
        rw [UInt8.toNat_ofNat']
        omega
      rw [List.map_cons, List.foldl_cons, hd, Nat.ofDigitChars_cons]
      exact ih _ fun d hd => hds d (List.mem_cons_of_mem _ hd)
  rw [digitsValue, decimal, hfold, Nat.ofDigitChars_ten_toDigits]
  intro d hd
  have hrange := toNat_of_mem_toDigits hd
  omega

theorem decimal_injective : Function.Injective decimal :=
  Function.LeftInverse.injective digitsValue_decimal

theorem decimal_of_base_le (h : 10 ≤ n) :
    ∃ d, decimal n = decimal (n / 10) ++ [d] := by
  refine ⟨UInt8.ofNat (n % 10).digitChar.toNat, ?_⟩
  rw [decimal, Nat.toDigits_of_base_le (by decide) h, List.map_append]
  rfl

theorem decimal_of_head (h : (decimal n).head? = some 48) : decimal n = [48] := by
  have hdigit : ∀ n < 10, (decimal n).head? = some 48 → decimal n = [48] := by decide
  induction n using Nat.strong_induction_on with
  | h n ih =>
    rcases Nat.lt_or_ge n 10 with hlt | hge
    · exact hdigit n hlt h
    · rcases decimal_of_base_le hge with ⟨d, hd⟩
      have hsmall : n / 10 < n := by omega
      rw [hd, List.head?_append_of_ne_nil _ (decimal_ne_nil _)] at h
      have hzero := ih _ hsmall h
      have hvalue := digitsValue_decimal (n / 10)
      rw [hzero] at hvalue
      have hten : digitsValue [48] = 0 := rfl
      omega

theorem length_decimal_le {n k : ℕ} (hk : 0 < k) (h : n < 10 ^ k) : (decimal n).length ≤ k := by
  rw [decimal, List.length_map]
  exact (Nat.length_toDigits_le_iff (by decide) hk).mpr h

variable {ds : Bytes}

/-- `strtol` reads a run of digits. -/
theorem strtol_digits (hne : ds ≠ []) (h : ∀ c ∈ ds, isDigit c = true) :
    strtol ds = min (digitsValue ds : ℤ) (2 ^ 63 - 1) := by
  rcases ds with _ | ⟨d, ds⟩
  · exact absurd rfl hne
  · have hd : isDigit d = true := h d List.mem_cons_self
    have hspace := isSpace_of_isDigit hd
    rw [strtol, trimLeft, List.dropWhile_cons_of_neg (by rw [hspace]; decide)]
    split
    · next heq =>
      rw [(List.cons.inj heq).1] at hd
      exact absurd hd (by decide)
    · next heq =>
      rw [(List.cons.inj heq).1] at hd
      exact absurd hd (by decide)
    · rw [List.takeWhile_eq_self_iff.mpr h]

/-- `strtol` reads what `%ld` prints. -/
theorem strtol_decimalInt {n : ℤ} (hlow : -2 ^ 63 ≤ n) (hhigh : n < 2 ^ 63) :
    strtol (decimalInt n) = n := by
  unfold decimalInt
  split
  · have hminus : strtol (45 :: decimal n.natAbs) =
        max (-(digitsValue ((decimal n.natAbs).takeWhile isDigit) : ℤ)) (-(2 ^ 63)) := rfl
    rw [hminus, List.takeWhile_eq_self_iff.mpr fun c => isDigit_of_mem_decimal,
      digitsValue_decimal]
    omega
  · rw [strtol_digits (decimal_ne_nil _) fun c => isDigit_of_mem_decimal, digitsValue_decimal]
    omega

/-- `atoi` reads what `%d` prints. -/
theorem atoi_decimalInt {n : ℤ} (hlow : -2 ^ 31 ≤ n) (hhigh : n < 2 ^ 31) :
    atoi (decimalInt n) = n := by
  rw [atoi, strtol_decimalInt (by omega) (by omega), BitVec.toInt_ofInt]
  exact Int.bmod_eq_of_le (by omega) (by omega)

/-- `atoi` reads a run of digits. -/
theorem atoi_digits (hne : ds ≠ []) (h : ∀ c ∈ ds, isDigit c = true)
    (hsmall : digitsValue ds < 2 ^ 31) : atoi ds = digitsValue ds := by
  have hmin : min (digitsValue ds : ℤ) (2 ^ 63 - 1) = digitsValue ds := by omega
  rw [atoi, strtol_digits hne h, hmin, BitVec.toInt_ofInt]
  exact Int.bmod_eq_of_le (by omega) (by omega)

theorem length_hex (w n : ℕ) : (hex w n).length = w := by
  induction w generalizing n with
  | zero => rfl
  | succ w ih => rw [hex, List.length_append, ih, List.length_singleton]

theorem mem_hex {w n : ℕ} (h : c ∈ hex w n) : ∃ d < 16, c = hexDigit d := by
  induction w generalizing n with
  | zero => exact nomatch h
  | succ w ih =>
    rw [hex, List.mem_append] at h
    rcases h with h | h
    · exact ih h
    · exact ⟨n % 16, Nat.mod_lt n (by decide), List.mem_singleton.mp h⟩

theorem digitsValue_append_le (ds : Bytes) {rest : Bytes} (hne : rest ≠ []) :
    10 * digitsValue ds ≤ digitsValue (ds ++ rest) := by
  have hgrow : ∀ (l : Bytes) (n : ℕ), n ≤ l.foldl (fun n d => 10 * n + (d.toNat - 48)) n := by
    intro l
    induction l with
    | nil => exact fun n => Nat.le_refl n
    | cons d l ih =>
      intro n
      have hnext := ih (10 * n + (d.toNat - 48))
      rw [List.foldl_cons]
      omega
  rcases rest with _ | ⟨d, rest⟩
  · exact absurd rfl hne
  · have hnext := hgrow rest (10 * digitsValue ds + (d.toNat - 48))
    have hvalue : digitsValue (ds ++ d :: rest) = rest.foldl
        (fun n d => 10 * n + (d.toNat - 48)) (10 * digitsValue ds + (d.toNat - 48)) := by
      rw [digitsValue, List.foldl_append, List.foldl_cons, digitsValue]
    rw [hvalue]
    exact (Nat.le_add_right _ _).trans hnext

/-! ## Fields and separators -/

theorem takeWhile_cut {s : Bytes} (hs : c ∉ s) (t : Bytes) :
    (s ++ c :: t).takeWhile (· != c) = s := by
  rw [List.takeWhile_append_of_pos (bne_of_not_mem hs), List.takeWhile_cons_of_neg (by simp),
    List.append_nil]

variable {s s' t t' : Bytes}

theorem cut_first (hs : c ∉ s) (hs' : c ∉ s')
    (h : s ++ c :: t = s' ++ c :: t') : s = s' ∧ t = t' := by
  have hfield : s = s' := by
    rw [← takeWhile_cut hs t, h, takeWhile_cut hs']
  subst hfield
  exact ⟨rfl, List.cons_injective (List.append_cancel_left h)⟩

theorem cut_last (ht : c ∉ t) (ht' : c ∉ t')
    (h : s ++ c :: t = s' ++ c :: t') : s = s' ∧ t = t' := by
  have hreverse : t.reverse ++ c :: s.reverse = t'.reverse ++ c :: s'.reverse := by
    simpa using congrArg List.reverse h
  rcases cut_first (fun hmem => ht (List.mem_reverse.mp hmem))
    (fun hmem => ht' (List.mem_reverse.mp hmem)) hreverse with ⟨htail, hhead⟩
  exact ⟨List.reverse_injective hhead, List.reverse_injective htail⟩

/-- A text that is shorter than its cut is not cut, and no other text is cut to it. -/
theorem eq_of_take_eq {s t : Bytes} (hs : s.length < n) (h : t.take n = s.take n) :
    t = s := by
  rw [List.take_of_length_le (Nat.le_of_lt hs)] at h
  have hlen := congrArg List.length h
  rw [List.length_take] at hlen
  have ht : t.length ≤ n := by omega
  rwa [List.take_of_length_le ht] at h

theorem startsWith_iff {s p : Bytes} : startsWith s p = true ↔ p <+: s := by
  rw [startsWith, beq_iff_eq, List.prefix_iff_eq_take]
  exact eq_comm

/-! ## Comparisons without case -/

variable {a b : Bytes}

theorem eqCI_iff : eqCI a b = true ↔ a.map toLower = b.map toLower := by
  simp [eqCI]

theorem eqCI_append {a b c d : Bytes} (h : eqCI a b = true) (h' : eqCI c d = true) :
    eqCI (a ++ c) (b ++ d) = true := by
  rw [eqCI_iff] at h h' ⊢
  simp [h, h']

theorem startsWithCI_iff {s p : Bytes} :
    startsWithCI s p = true ↔ ∃ u t, s = u ++ t ∧ eqCI u p = true := by
  constructor
  · intro h
    exact ⟨s.take p.length, s.drop p.length, (List.take_append_drop _ _).symm, h⟩
  · rintro ⟨u, t, rfl, h⟩
    have hlen : u.length = p.length := by
      simpa using congrArg List.length (eqCI_iff.mp h)
    simpa [startsWithCI, ← hlen] using h

/-- A prefix test sees only the case-folded string. -/
theorem startsWithCI_congr (h : eqCI a b = true) (p : Bytes) :
    startsWithCI a p = startsWithCI b p := by
  simp only [startsWithCI, eqCI, List.map_take]
  rw [eqCI_iff.mp h]

theorem startsWithCI_of_le {s p q : Bytes} (h : startsWithCI s p = true)
    (hle : q.length ≤ p.length) : startsWithCI s q = startsWithCI p q := by
  obtain ⟨u, t, rfl, hu⟩ := startsWithCI_iff.mp h
  have hlen : u.length = p.length := by
    simpa using congrArg List.length (eqCI_iff.mp hu)
  rw [← startsWithCI_congr hu q, startsWithCI, startsWithCI,
    List.take_append_of_le_length (hlen ▸ hle)]

/-- Every byte of a string stands, up to case, in every case variant of it. -/
theorem mem_of_eqCI (h : eqCI a b = true) (hc : c ∈ a) :
    ∃ d ∈ b, toLower d = toLower c := by
  have hmem : toLower c ∈ b.map toLower := by
    rw [← eqCI_iff.mp h]
    exact List.mem_map_of_mem hc
  obtain ⟨d, hd, hdc⟩ := List.mem_map.mp hmem
  exact ⟨d, hd, hdc⟩

end Bytes

end FlyBoard
