import FlyBoard.Auth.Totp
import FlyBoard.Lib.Buffer
import FlyBoard.Lib.Regroup

/-!
# Base32 (`src/auth/totp.c`)

Both loops are shift registers: bytes go in and digits of five bits come out, or the other way.
The register of 32 bits overflows after a few bytes, which the digits do not see.

The functions of `FlyBoard.Auth` say which text comes out. Here they also write it into the
buffer of the caller.
-/

namespace FlyBoard.Base32

open Bytes Auth Regroup

variable {buffer : UInt32} {n k cap fuel bits p : ℕ} {c : UInt8} {xs ys vs ds : List ℕ}
  {out text input : Bytes}

/-! ## The register -/

def Register (buffer : UInt32) (n : ℕ) : Prop := buffer.toNat = n % 2 ^ 32

theorem register_zero : Register 0 (value k []) := rfl

theorem Register.byte (h : Register buffer n) (c : UInt8) :
    Register (buffer <<< 8 ||| c.toUInt32) (2 ^ 8 * n + c.toNat) := by
  have hc : c.toNat < 2 ^ 8 := c.toNat_lt
  rw [Register, UInt32.toNat_or, UInt32.toNat_shiftLeft, UInt8.toNat_toUInt32, Nat.shiftLeft_eq]
  change buffer.toNat * 2 ^ 8 % 2 ^ 32 ||| c.toNat = _
  rw [or_register (by decide) _ hc, h, ← Nat.mod_add_mod, Nat.mul_mod_mod, Nat.mod_add_mod]

theorem Register.digit (h : Register buffer n) {v : UInt32} (hv : v.toNat < 2 ^ 5) :
    Register (buffer <<< 5 ||| v) (2 ^ 5 * n + v.toNat) := by
  rw [Register, UInt32.toNat_or, UInt32.toNat_shiftLeft, Nat.shiftLeft_eq]
  change buffer.toNat * 2 ^ 5 % 2 ^ 32 ||| v.toNat = _
  rw [or_register (by decide) _ hv, h, ← Nat.mod_add_mod, Nat.mul_mod_mod, Nat.mod_add_mod]

theorem Register.shiftRight (h : Register buffer n) {w : ℕ} (hk : k + w ≤ 32) (hw : 0 < w) :
    (buffer >>> k.toUInt32).toNat % 2 ^ w = n / 2 ^ k % 2 ^ w := by
  have hshift : k.toUInt32.toNat % 32 = k := by
    rw [Nat.toUInt32_eq, UInt32.toNat_ofNat']
    omega
  rw [UInt32.toNat_shiftRight, hshift, Nat.shiftRight_eq_div_pow, h, div_mod_register hk]

theorem Register.shiftLeft (h : Register buffer n) {w : ℕ} (hk : k < 32) (hw : w ≤ 32) :
    (buffer <<< k.toUInt32).toNat % 2 ^ w = n * 2 ^ k % 2 ^ w := by
  have hshift : k.toUInt32.toNat % 32 = k := by
    rw [Nat.toUInt32_eq, UInt32.toNat_ofNat']
    omega
  rw [UInt32.toNat_shiftLeft, hshift, Nat.shiftLeft_eq, h, mul_mod_register hw]

def b32Digit (v : ℕ) : UInt8 := b32Alphabet.getD v 0

theorem b32Char_eq (v : UInt32) : b32Char v = b32Digit (v.toNat % 2 ^ 5) := by
  rw [b32Char, UInt32.toNat_and]
  exact congrArg b32Digit (Nat.and_two_pow_sub_one_eq_mod v.toNat 5)

/-! ## The encoder -/

/-- The characters of `n` bytes. -/
def b32Length (n : ℕ) : ℕ := (8 * n + 4) / 5

theorem b32Flush_spec (hr : Register buffer (value 8 xs)) (h : Regrouped 8 5 xs ys bits)
    (hbits : bits ≤ 12) (hfuel : bits ≤ fuel) (hcap : ys.length < cap) :
    (b32Flush cap buffer fuel bits (ys.map b32Digit) = none ∧ cap ≤ 8 * xs.length / 5) ∨
      ∃ ys' bits', b32Flush cap buffer fuel bits (ys.map b32Digit) =
          some (bits', ys'.map b32Digit) ∧
        Regrouped 8 5 xs ys' bits' ∧ bits' < 5 ∧ ys'.length < cap := by
  induction fuel generalizing bits ys with
  | zero => exact .inr ⟨ys, bits, rfl, h, by omega, hcap⟩
  | succ fuel ih =>
    rw [b32Flush]
    by_cases hfive : 5 ≤ bits
    · rw [if_pos hfive, List.length_map]
      by_cases hfull : cap ≤ ys.length + 1
      · rw [if_pos hfull]
        have hlen := h.length
        exact .inl ⟨rfl, by omega⟩
      · have hdigit : b32Char (buffer >>> (bits - 5).toUInt32) =
            b32Digit (value 8 xs / 2 ^ (bits - 5) % 2 ^ 5) := by
          rw [b32Char_eq, hr.shiftRight (by omega) (by decide)]
        have hnext : (ys ++ [value 8 xs / 2 ^ (bits - 5) % 2 ^ 5]).length < cap := by
          rw [List.length_append, List.length_singleton]
          omega
        rw [if_neg hfull, hdigit, ← List.map_singleton (f := b32Digit), ← List.map_append]
        exact ih (h.emit hfive) (by omega) (by omega) hnext
    · rw [if_neg hfive]
      exact .inr ⟨ys, bits, rfl, h, by omega, hcap⟩

theorem b32EncodeLoop_spec (input : Bytes) (hr : Register buffer (value 8 xs))
    (h : Regrouped 8 5 xs ys bits) (hbits : bits < 5) (hcap : ys.length < cap) :
    (b32EncodeLoop cap buffer bits (ys.map b32Digit) input = none ∧
        cap ≤ 8 * (xs.length + input.length) / 5) ∨
      ∃ buffer' ys' bits', b32EncodeLoop cap buffer bits (ys.map b32Digit) input =
          some (buffer', bits', ys'.map b32Digit) ∧
        Register buffer' (value 8 (xs ++ input.map UInt8.toNat)) ∧
        Regrouped 8 5 (xs ++ input.map UInt8.toNat) ys' bits' ∧ bits' < 5 ∧ ys'.length < cap := by
  induction input generalizing buffer xs ys bits with
  | nil =>
    rw [List.map_nil, List.append_nil]
    exact .inr ⟨buffer, ys, bits, rfl, hr, h, hbits, hcap⟩
  | cons c input ih =>
    have hr' : Register (buffer <<< 8 ||| c.toUInt32) (value 8 (xs ++ [c.toNat])) := by
      rw [value_concat]
      exact hr.byte c
    have hflush := b32Flush_spec hr' (h.push c.toNat_lt) (by omega) (Nat.le_refl _) hcap
    rw [b32EncodeLoop, List.map_cons, List.append_cons, List.length_cons]
    rcases hflush with ⟨hnone, hfull⟩ | ⟨ys', bits', hsome, hgroup, hfew, hroom⟩
    · rw [hnone]
      rw [List.length_append, List.length_singleton] at hfull
      exact .inl ⟨rfl, by omega⟩
    · rw [hsome]
      have hrest := ih hr' hgroup hfew hroom
      rw [List.length_append, List.length_singleton, Nat.add_assoc, Nat.add_comm 1] at hrest
      exact hrest

/-! ## The decoder -/

def isSkipped (c : UInt8) : Bool := c == 61 || c == 32 || c == 10 || c == 13 || c == 9

def digitsOf (text : Bytes) : Bytes := text.filter fun c => !isSkipped c

def Spells (text : Bytes) (ds : List ℕ) : Prop :=
  (digitsOf text).map (fun c => (b32Value c).map UInt32.toNat) = ds.map some

theorem b32Value_lt {v : UInt32} (h : b32Value c = some v) : v.toNat < 2 ^ 5 := by
  have hbyte : ∀ c, (b32Value c).all (fun v => decide (v.toNat < 2 ^ 5)) = true :=
    forall_byte (by decide +kernel)
  have hc := hbyte c
  rw [h] at hc
  exact of_decide_eq_true hc

theorem spells_skipped (h : isSkipped c = true) : Spells (c :: text) ds ↔ Spells text ds := by
  rw [Spells, digitsOf, List.filter_cons_of_neg (by simp [h])]
  rfl

theorem spells_digit (h : isSkipped c = false) : Spells (c :: text) ds ↔
    ∃ v ds', b32Value c = some v ∧ ds = v.toNat :: ds' ∧ Spells text ds' := by
  rw [Spells, digitsOf, List.filter_cons_of_pos (by simp [h]), List.map_cons]
  rcases ds with _ | ⟨d, ds⟩
  · simp
  · rw [List.map_cons, List.cons.injEq]
    constructor
    · rintro ⟨hd, hrest⟩
      obtain ⟨v, hv, rfl⟩ := Option.map_eq_some_iff.mp hd
      exact ⟨v, ds, hv, rfl, hrest⟩
    · rintro ⟨v, ds', hv, hds, hrest⟩
      obtain ⟨rfl, rfl⟩ := List.cons.inj hds
      rw [hv]
      exact ⟨rfl, hrest⟩

theorem b32DecodeLoop_skipped (h : isSkipped c = true) :
    b32DecodeLoop cap buffer bits out (c :: text) = b32DecodeLoop cap buffer bits out text := by
  rw [b32DecodeLoop]
  exact if_pos h

theorem b32DecodeLoop_other (h : isSkipped c = false) (hv : b32Value c = none) :
    b32DecodeLoop cap buffer bits out (c :: text) = none := by
  rw [b32DecodeLoop, hv]
  exact if_neg (Bool.eq_false_iff.mp h)

theorem b32DecodeLoop_digit {v : UInt32} (h : isSkipped c = false) (hv : b32Value c = some v) :
    b32DecodeLoop cap buffer bits out (c :: text) =
      if 8 ≤ bits + 5 then
        if cap ≤ out.length then none
        else b32DecodeLoop cap (buffer <<< 5 ||| v) (bits + 5 - 8)
          (out ++ [((buffer <<< 5 ||| v) >>> (bits + 5 - 8).toUInt32).toUInt8]) text
      else b32DecodeLoop cap (buffer <<< 5 ||| v) (bits + 5) out text := by
  rw [b32DecodeLoop, hv]
  exact if_neg (Bool.eq_false_iff.mp h)

theorem b32DecodeLoop_spec (hr : Register buffer (value 5 vs)) (h : Regrouped 5 8 vs ys bits)
    (hbits : bits < 8) (hcap : ys.length ≤ cap) (hspells : Spells text ds) :
    (b32DecodeLoop cap buffer bits (ys.map UInt8.ofNat) text = none ∧
        cap < 5 * (vs.length + ds.length) / 8) ∨
      ∃ ys' bits', b32DecodeLoop cap buffer bits (ys.map UInt8.ofNat) text =
          some (ys'.map UInt8.ofNat) ∧
        Regrouped 5 8 (vs ++ ds) ys' bits' ∧ bits' < 8 ∧ ys'.length ≤ cap := by
  induction text generalizing buffer vs ds ys bits with
  | nil =>
    obtain rfl : ds = [] := List.map_eq_nil_iff.mp hspells.symm
    rw [List.append_nil]
    exact .inr ⟨ys, bits, rfl, h, hbits, hcap⟩
  | cons c text ih =>
    cases hskip : isSkipped c with
    | true =>
      rw [spells_skipped hskip] at hspells
      rw [b32DecodeLoop_skipped hskip]
      exact ih hr h hbits hcap hspells
    | false =>
      obtain ⟨v, ds', hv, rfl, hrest⟩ := (spells_digit hskip).mp hspells
      have hlt := b32Value_lt hv
      have hr' : Register (buffer <<< 5 ||| v) (value 5 (vs ++ [v.toNat])) := by
        rw [value_concat]
        exact hr.digit hlt
      have hpush := h.push hlt
      have hcons : vs ++ v.toNat :: ds' = vs ++ [v.toNat] ++ ds' := List.append_cons _ _ _
      have hcount : vs.length + (v.toNat :: ds').length =
          (vs ++ [v.toNat]).length + ds'.length := by
        rw [List.length_append, List.length_cons, List.length_singleton]
        omega
      rw [b32DecodeLoop_digit hskip hv, hcons, hcount]
      by_cases hbyte : 8 ≤ bits + 5
      · rw [if_pos hbyte, List.length_map]
        by_cases hfull : cap ≤ ys.length
        · rw [if_pos hfull]
          have hlen := hpush.length
          exact .inl ⟨rfl, by omega⟩
        · have hout : ((buffer <<< 5 ||| v) >>> (bits + 5 - 8).toUInt32).toUInt8 =
              UInt8.ofNat (value 5 (vs ++ [v.toNat]) / 2 ^ (bits + 5 - 8) % 2 ^ 8) := by
            rw [← hr'.shiftRight (by omega) (by decide)]
            apply UInt8.toNat_inj.mp
            rw [UInt32.toNat_toUInt8, UInt8.toNat_ofNat', Nat.mod_mod]
          have hnext : (ys ++ [value 5 (vs ++ [v.toNat]) / 2 ^ (bits + 5 - 8) % 2 ^ 8]).length ≤
              cap := by
            rw [List.length_append, List.length_singleton]
            omega
          rw [if_neg hfull, hout, ← List.map_singleton (f := UInt8.ofNat), ← List.map_append]
          exact ih hr' (hpush.emit hbyte) (by omega) hnext hrest
      · rw [if_neg hbyte]
        exact ih hr' hpush (by omega) hcap hrest

theorem exists_spells {out' : Bytes} (h : b32DecodeLoop cap buffer bits out text = some out') :
    ∃ ds, Spells text ds := by
  induction text generalizing buffer bits out with
  | nil => exact ⟨[], rfl⟩
  | cons c text ih =>
    cases hskip : isSkipped c with
    | true =>
      rw [b32DecodeLoop_skipped hskip] at h
      obtain ⟨ds, hds⟩ := ih h
      exact ⟨ds, (spells_skipped hskip).mpr hds⟩
    | false =>
      cases hv : b32Value c with
      | none =>
        rw [b32DecodeLoop_other hskip hv] at h
        exact nomatch h
      | some v =>
        rw [b32DecodeLoop_digit hskip hv] at h
        have hrest : ∃ ds, Spells text ds := by
          split at h
          · split at h
            · exact nomatch h
            · exact ih h
          · exact ih h
        obtain ⟨ds, hds⟩ := hrest
        exact ⟨v.toNat :: ds, (spells_digit hskip).mpr ⟨v, ds, hv, rfl, hds⟩⟩

/-! ## The text and its spellings -/

/-- The same digits in any case, with anything between them that is skipped. -/
def Respelled (text text' : Bytes) : Prop := (digitsOf text').map toUpper = text.map toUpper

theorem b32Value_toUpper (c : UInt8) : b32Value (toUpper c) = b32Value c := by
  revert c
  exact forall_byte (by decide +kernel)

theorem b32Value_b32Digit {v : ℕ} (h : v < 2 ^ 5) :
    (b32Value (b32Digit v)).map UInt32.toNat = some v := by
  have hall : ∀ v < 2 ^ 5, (b32Value (b32Digit v)).map UInt32.toNat = some v := by decide +kernel
  exact hall v h

theorem b32Digit_ne_zero {v : ℕ} (h : v < 2 ^ 5) : b32Digit v ≠ 0 := by
  have hall : ∀ v < 2 ^ 5, b32Digit v ≠ 0 := by decide +kernel
  exact hall v h

theorem spells_of_respelled (hds : ∀ d ∈ ds, d < 2 ^ 5) (h : Respelled (ds.map b32Digit) text) :
    Spells text ds := by
  have hvalue (s : Bytes) : (s.map toUpper).map (fun c => (b32Value c).map UInt32.toNat) =
      s.map fun c => (b32Value c).map UInt32.toNat := by
    rw [List.map_map]
    exact List.map_congr_left fun c _ => congrArg _ (b32Value_toUpper c)
  rw [Spells, ← hvalue, h, hvalue, List.map_map]
  exact List.map_congr_left fun d hd => b32Value_b32Digit (hds d hd)

theorem length_of_spells (h : Spells text ds) : (digitsOf text).length = ds.length := by
  have hlen := congrArg List.length h
  rwa [List.length_map, List.length_map] at hlen

/-! ## Buffers -/

/-- The loop `while (bits >= 5)`: the digits left and the place in the buffer, or none where
the function returns 0. -/
def b32FlushInto (buffer : UInt32) : ℕ → ℕ → Buffer UInt8 → ℕ → Buffer UInt8 × Option (ℕ × ℕ)
  | 0, bits, out, o => (out, some (bits, o))
  | fuel + 1, bits, out, o =>
    if 5 ≤ bits then
      if out.size ≤ o + 1 then (out, none)
      else
        b32FlushInto buffer fuel (bits - 5)
          (out.put o (b32Char (buffer >>> (bits - 5).toUInt32))) (o + 1)
    else (out, some (bits, o))

def b32EncodeLoopInto : UInt32 → ℕ → Buffer UInt8 → ℕ → Bytes →
    Buffer UInt8 × Option (UInt32 × ℕ × ℕ)
  | buffer, bits, out, o, [] => (out, some (buffer, bits, o))
  | buffer, bits, out, o, c :: rest =>
    let buffer := buffer <<< 8 ||| c.toUInt32
    match b32FlushInto buffer (bits + 8) (bits + 8) out o with
    | (out, none) => (out, none)
    | (out, some (bits, o)) => b32EncodeLoopInto buffer bits out o rest

/-- `if (o >= out_cap) return 0; out[o] = '\0'; return o` -/
def terminate (out : Buffer UInt8) (o : ℕ) : Buffer UInt8 × ℕ :=
  if out.size ≤ o then (out, 0) else (out.put o 0, o)

/-- `totp_base32_encode`: the buffer and what is returned. -/
def totpBase32EncodeInto (input : Bytes) (out : Buffer UInt8) : Buffer UInt8 × ℕ :=
  if out.size = 0 then (out, 0)
  else
    match b32EncodeLoopInto 0 0 out 0 input with
    | (out, none) => (out, 0)
    | (out, some (buffer, bits, o)) =>
      if 0 < bits then
        if out.size ≤ o + 1 then (out, 0)
        else terminate (out.put o (b32Char (buffer <<< (5 - bits).toUInt32))) (o + 1)
      else terminate out o

def b32DecodeLoopInto : UInt32 → ℕ → Buffer UInt8 → ℕ → Bytes → Buffer UInt8 × Option ℕ
  | _, _, out, o, [] => (out, some o)
  | buffer, bits, out, o, c :: rest =>
    if isSkipped c then b32DecodeLoopInto buffer bits out o rest
    else
      match b32Value c with
      | none => (out, none)
      | some v =>
        let buffer := buffer <<< 5 ||| v
        if 8 ≤ bits + 5 then
          if out.size ≤ o then (out, none)
          else
            b32DecodeLoopInto buffer (bits + 5 - 8)
              (out.put o (buffer >>> (bits + 5 - 8).toUInt32).toUInt8) (o + 1) rest
        else b32DecodeLoopInto buffer (bits + 5) out o rest

/-- `totp_base32_decode`: the buffer and what is returned. -/
def totpBase32DecodeInto (b32 : Bytes) (out : Buffer UInt8) : Buffer UInt8 × ℕ :=
  if out.size = 0 then (out, 0)
  else
    match b32DecodeLoopInto 0 0 out 0 b32 with
    | (out, none) => (out, 0)
    | (out, some o) => (out, o)

/-- The text stands in the buffer, and nothing was written beyond it. -/
structure Kept (cap : ℕ) (b : Buffer UInt8) (text : Bytes) : Prop where
  size : b.size = cap
  inBounds : b.InBounds
  holds : b.Holds text

variable {b : Buffer UInt8}

theorem kept_alloc (cap : ℕ) : Kept cap (Buffer.alloc cap) [] :=
  ⟨rfl, Buffer.inBounds_alloc cap, Buffer.holds_nil⟩

theorem Kept.put (h : Kept cap b text) (hroom : text.length < cap) (c : UInt8) :
    Kept cap (b.put text.length c) (text ++ [c]) where
  size := h.size
  inBounds := Buffer.inBounds_put.mpr ⟨h.inBounds, h.size.symm ▸ hroom⟩
  holds := h.holds.put c

theorem b32FlushInto_eq (buffer : UInt32) (fuel bits : ℕ) (h : Kept cap b text) :
    ∃ b' text', Kept cap b' text' ∧ ((b32FlushInto buffer fuel bits b text.length = (b', none) ∧
        b32Flush cap buffer fuel bits text = none) ∨
      ∃ bits', b32FlushInto buffer fuel bits b text.length = (b', some (bits', text'.length)) ∧
        b32Flush cap buffer fuel bits text = some (bits', text')) := by
  induction fuel generalizing bits b text with
  | zero => exact ⟨b, text, h, .inr ⟨bits, rfl, rfl⟩⟩
  | succ fuel ih =>
    rw [b32FlushInto, b32Flush, h.size]
    by_cases hfive : 5 ≤ bits
    · rw [if_pos hfive, if_pos hfive]
      by_cases hfull : cap ≤ text.length + 1
      · rw [if_pos hfull, if_pos hfull]
        exact ⟨b, text, h, .inl ⟨rfl, rfl⟩⟩
      · have hnext := ih (bits - 5)
          (h.put (by omega) (b32Char (buffer >>> (bits - 5).toUInt32)))
        rw [List.length_append, List.length_singleton] at hnext
        rw [if_neg hfull, if_neg hfull]
        exact hnext
    · rw [if_neg hfive, if_neg hfive]
      exact ⟨b, text, h, .inr ⟨bits, rfl, rfl⟩⟩

theorem b32EncodeLoopInto_eq (buffer : UInt32) (bits : ℕ) (input : Bytes)
    (h : Kept cap b text) :
    ∃ b' text', Kept cap b' text' ∧
      ((b32EncodeLoopInto buffer bits b text.length input = (b', none) ∧
        b32EncodeLoop cap buffer bits text input = none) ∨
      ∃ buffer' bits', b32EncodeLoopInto buffer bits b text.length input =
          (b', some (buffer', bits', text'.length)) ∧
        b32EncodeLoop cap buffer bits text input = some (buffer', bits', text')) := by
  induction input generalizing buffer bits b text with
  | nil => exact ⟨b, text, h, .inr ⟨buffer, bits, rfl, rfl⟩⟩
  | cons c input ih =>
    rw [b32EncodeLoopInto, b32EncodeLoop]
    obtain ⟨b', text', h', ⟨hinto, hlist⟩ | ⟨bits', hinto, hlist⟩⟩ :=
      b32FlushInto_eq (buffer <<< 8 ||| c.toUInt32) (bits + 8) (bits + 8) h
    · rw [hinto, hlist]
      exact ⟨b', text', h', .inl ⟨rfl, rfl⟩⟩
    · rw [hinto, hlist]
      exact ih _ _ h'

theorem b32DecodeLoopInto_eq (buffer : UInt32) (bits : ℕ) (s : Bytes) (h : Kept cap b text) :
    ∃ b' text', Kept cap b' text' ∧
      ((b32DecodeLoopInto buffer bits b text.length s = (b', none) ∧
        b32DecodeLoop cap buffer bits text s = none) ∨
      (b32DecodeLoopInto buffer bits b text.length s = (b', some text'.length) ∧
        b32DecodeLoop cap buffer bits text s = some text')) := by
  induction s generalizing buffer bits b text with
  | nil => exact ⟨b, text, h, .inr ⟨rfl, rfl⟩⟩
  | cons c s ih =>
    rw [b32DecodeLoopInto]
    cases hskip : isSkipped c with
    | true =>
      rw [b32DecodeLoop_skipped hskip, if_pos rfl]
      exact ih buffer bits h
    | false =>
      rw [if_neg Bool.false_ne_true]
      cases hv : b32Value c with
      | none =>
        rw [b32DecodeLoop_other hskip hv]
        exact ⟨b, text, h, .inl ⟨rfl, rfl⟩⟩
      | some v =>
        rw [b32DecodeLoop_digit hskip hv, h.size]
        dsimp only
        by_cases hbyte : 8 ≤ bits + 5
        · rw [if_pos hbyte, if_pos hbyte]
          by_cases hfull : cap ≤ text.length
          · rw [if_pos hfull, if_pos hfull]
            exact ⟨b, text, h, .inl ⟨rfl, rfl⟩⟩
          · have hnext := ih (buffer <<< 5 ||| v) (bits + 5 - 8)
              (h.put (by omega) ((buffer <<< 5 ||| v) >>> (bits + 5 - 8).toUInt32).toUInt8)
            rw [List.length_append, List.length_singleton] at hnext
            rw [if_neg hfull, if_neg hfull]
            exact hnext
        · rw [if_neg hbyte, if_neg hbyte]
          exact ih _ _ h

theorem Kept.terminate (h : Kept cap b text) (hlen : text.length = n) (hroom : n < cap) :
    ∃ b', terminate b n = (b', n) ∧ Kept cap b' (text ++ [0]) := by
  subst hlen
  rw [Base32.terminate, h.size, if_neg (Nat.not_le.mpr hroom)]
  exact ⟨_, rfl, h.put hroom 0⟩

/-- What comes out is the digits of the bytes, where they fit together with their end. -/
theorem totpBase32EncodeInto_spec (input : Bytes) (cap : ℕ) :
    (cap ≤ b32Length input.length ∧ totpBase32Encode input cap = [] ∧
        ∃ b, totpBase32EncodeInto input (Buffer.alloc cap) = (b, 0) ∧ b.InBounds) ∨
      ∃ b ys p, b32Length input.length < cap ∧ totpBase32Encode input cap = ys.map b32Digit ∧
        totpBase32EncodeInto input (Buffer.alloc cap) = (b, ys.length) ∧
        Kept cap b (ys.map b32Digit ++ [0]) ∧ ys.length = b32Length input.length ∧ p < 5 ∧
        Padded 8 5 (input.map UInt8.toNat) ys p := by
  rw [totpBase32EncodeInto, totpBase32Encode, (kept_alloc cap).size]
  by_cases hzero : cap = 0
  · rw [if_pos hzero, if_pos hzero]
    exact .inl ⟨hzero ▸ Nat.zero_le _, rfl, _, rfl, Buffer.inBounds_alloc cap⟩
  rw [if_neg hzero, if_neg hzero]
  obtain ⟨b, text, hb, hinto⟩ := b32EncodeLoopInto_eq 0 0 input (kept_alloc cap)
  have hloop := b32EncodeLoop_spec input register_zero (regrouped_nil 8 5) (by decide)
    (Nat.pos_of_ne_zero hzero)
  rw [List.map_nil, List.nil_append, List.length_nil, Nat.zero_add] at hloop
  rw [List.length_nil] at hinto
  rcases hloop with ⟨hnone, hfull⟩ | ⟨buffer, ys, bits, hsome, hr, hgroup, hfew, hroom⟩
  · rcases hinto with ⟨hinto, -⟩ | ⟨buffer, bits, -, hlist⟩
    · rw [hinto, hnone]
      refine .inl ⟨?_, rfl, b, rfl, hb.inBounds⟩
      rw [b32Length]
      omega
    · exact nomatch hnone.symm.trans hlist
  · rcases hinto with ⟨-, hlist⟩ | ⟨buffer', bits', hinto, hlist⟩
    · exact nomatch hsome.symm.trans hlist
    obtain ⟨rfl, rfl, rfl⟩ : buffer = buffer' ∧ bits = bits' ∧ ys.map b32Digit = text := by
      simpa using hsome.symm.trans hlist
    rw [hinto, hsome]
    dsimp only
    rw [List.length_map] at hinto ⊢
    have hlen := hgroup.length
    rw [List.length_map] at hlen
    by_cases hbits : 0 < bits
    · rw [if_pos hbits, if_pos hbits, hb.size]
      by_cases hlast : cap ≤ ys.length + 1
      · rw [if_pos hlast, if_pos hlast]
        refine .inl ⟨?_, rfl, b, rfl, hb.inBounds⟩
        rw [b32Length]
        omega
      · have hdigit : b32Char (buffer <<< (5 - bits).toUInt32) =
            b32Digit (value 8 (input.map UInt8.toNat) * 2 ^ (5 - bits) % 2 ^ 5) := by
          rw [b32Char_eq, hr.shiftLeft (by omega) (by decide)]
        have hput := hb.put (by rwa [List.length_map])
          (b32Digit (value 8 (input.map UInt8.toNat) * 2 ^ (5 - bits) % 2 ^ 5))
        rw [← List.map_singleton (f := b32Digit), ← List.map_append, List.length_map] at hput
        have hnext : (ys ++ [value 8 (input.map UInt8.toNat) * 2 ^ (5 - bits) % 2 ^ 5]).length =
            ys.length + 1 := by
          rw [List.length_append, List.length_singleton]
        obtain ⟨b', hend, hkept⟩ := hput.terminate (by rw [List.length_map, hnext])
          (Nat.not_le.mp hlast)
        rw [if_neg hlast, if_neg hlast, hdigit, hend, ← List.map_singleton (f := b32Digit),
          ← List.map_append]
        refine .inr ⟨b', _, 5 - bits, ?_, rfl, congrArg _ hnext.symm, hkept, ?_, by omega,
          hgroup.pad (by omega)⟩
        · rw [b32Length]
          omega
        · rw [hnext, b32Length]
          omega
    · obtain rfl : bits = 0 := by omega
      obtain ⟨b', hend, hkept⟩ := hb.terminate (by rw [List.length_map]) hroom
      rw [if_neg hbits, if_neg hbits, if_neg (by omega)]
      refine .inr ⟨b', ys, 0, ?_, rfl, hend, hkept, ?_, by decide, hgroup.padded⟩
      · rw [b32Length]
        omega
      · rw [b32Length]
        omega

theorem totpBase32DecodeInto_eq (text : Bytes) (cap : ℕ) :
    ∃ b, totpBase32DecodeInto text (Buffer.alloc cap) =
        (b, (totpBase32Decode text cap).length) ∧
      b.InBounds ∧ b.Holds (totpBase32Decode text cap) := by
  rw [totpBase32DecodeInto, totpBase32Decode, (kept_alloc cap).size]
  by_cases hzero : cap = 0
  · rw [if_pos hzero, if_pos hzero]
    exact ⟨_, rfl, Buffer.inBounds_alloc cap, Buffer.holds_nil⟩
  rw [if_neg hzero, if_neg hzero]
  obtain ⟨b, out, hb, hinto⟩ := b32DecodeLoopInto_eq 0 0 text (kept_alloc cap)
  rw [List.length_nil] at hinto
  rcases hinto with ⟨hinto, hlist⟩ | ⟨hinto, hlist⟩
  · rw [hinto, hlist]
    exact ⟨b, rfl, hb.inBounds, Buffer.holds_nil⟩
  · rw [hinto, hlist]
    exact ⟨b, rfl, hb.inBounds, hb.holds⟩

theorem totpBase32Decode_spec (cap : ℕ) (hspells : Spells text ds) :
    (totpBase32Decode text cap = [] ∧ cap < 5 * ds.length / 8) ∨ cap = 0 ∨
      ∃ ys bits, totpBase32Decode text cap = ys.map UInt8.ofNat ∧ Regrouped 5 8 ds ys bits ∧
        bits < 8 ∧ ys.length ≤ cap := by
  rw [totpBase32Decode]
  by_cases hzero : cap = 0
  · exact .inr (.inl hzero)
  rw [if_neg hzero]
  have hloop := b32DecodeLoop_spec register_zero (regrouped_nil 5 8) (by decide) (Nat.zero_le cap)
    hspells
  rw [List.map_nil, List.nil_append, List.length_nil, Nat.zero_add] at hloop
  rcases hloop with ⟨hnone, hfull⟩ | ⟨ys, bits, hsome, hgroup, hfew, hroom⟩
  · rw [hnone]
    exact .inl ⟨rfl, hfull⟩
  · rw [hsome]
    exact .inr (.inr ⟨ys, bits, rfl, hgroup, hfew, hroom⟩)

theorem totpBase32Decode_other (cap : ℕ) (h : ¬∃ ds, Spells text ds) :
    totpBase32Decode text cap = [] := by
  rw [totpBase32Decode]
  cases hloop : b32DecodeLoop cap 0 0 [] text with
  | none => exact ite_self _
  | some out => exact absurd (exists_spells hloop) h

theorem totpBase32Decode_full (h : cap < 5 * (digitsOf text).length / 8) :
    totpBase32Decode text cap = [] := by
  by_cases hspells : ∃ ds, Spells text ds
  · obtain ⟨ds, hds⟩ := hspells
    rw [length_of_spells hds] at h
    rcases totpBase32Decode_spec cap hds with
      ⟨hnil, -⟩ | hzero | ⟨ys, bits, -, hgroup, hfew, hroom⟩
    · exact hnil
    · rw [totpBase32Decode, if_pos hzero]
    · have hlen := hgroup.length
      omega
  · exact totpBase32Decode_other cap hspells

theorem length_totpBase32Decode_le (text : Bytes) (cap : ℕ) :
    (totpBase32Decode text cap).length ≤ cap := by
  by_cases hspells : ∃ ds, Spells text ds
  · obtain ⟨ds, hds⟩ := hspells
    rcases totpBase32Decode_spec cap hds with
      ⟨hnil, -⟩ | hzero | ⟨ys, bits, hdecode, -, -, hroom⟩
    · exact hnil ▸ Nat.zero_le _
    · rw [totpBase32Decode, if_pos hzero]
      exact Nat.zero_le _
    · rwa [hdecode, List.length_map]
  · exact totpBase32Decode_other cap hspells ▸ Nat.zero_le _

theorem totpBase32Decode_padded (hinput : Padded 8 5 (input.map UInt8.toNat) ds p) (hp : p < 5)
    (hspells : Spells text ds) (hcap : input.length ≤ cap) :
    totpBase32Decode text cap = input := by
  have hlen := hinput.length
  rw [List.length_map] at hlen
  rcases totpBase32Decode_spec cap hspells with
    ⟨-, hfull⟩ | rfl | ⟨ys, bits, hdecode, hgroup, hfew, -⟩
  · omega
  · obtain rfl : input = [] := List.length_eq_zero_iff.mp (Nat.le_zero.mp hcap)
    rfl
  · have hbytes : ∀ x ∈ input.map UInt8.toNat, x < 2 ^ 8 := by
      intro x hx
      obtain ⟨c, -, rfl⟩ := List.mem_map.mp hx
      exact c.toNat_lt
    have hsame : ys = input.map UInt8.toNat :=
      hinput.eq_of_regrouped hgroup hbytes (by omega) hfew
    rw [hdecode, hsame, List.map_map]
    exact (List.map_congr_left fun c _ => UInt8.ofNat_toNat).trans (List.map_id' input)

/-! ## The round trip -/

/-- `totp_base32_encode` stays within its buffer and returns 0 where the text does not fit;
otherwise every spelling of its text is decoded to the bytes. `totp_base32_decode` stays within
its buffer on every text and returns 0 where the bytes do not fit. -/
theorem base32_roundTrip (input : Bytes) (cap : ℕ) :
    let e := totpBase32EncodeInto input (Buffer.alloc cap)
    (e.1.InBounds ∧ (cap ≤ b32Length input.length → e.2 = 0) ∧
      (b32Length input.length < cap → e.2 = b32Length input.length ∧
        (e.1.upTo 0).length = e.2 ∧
        ∀ text, Respelled (e.1.upTo 0) text → ∀ cap', input.length ≤ cap' →
          let d := totpBase32DecodeInto text (Buffer.alloc cap')
          d.2 = input.length ∧ d.1.Holds input)) ∧
    ∀ text cap', let d := totpBase32DecodeInto text (Buffer.alloc cap')
      d.1.InBounds ∧ d.2 ≤ cap' ∧ (cap' < 5 * (digitsOf text).length / 8 → d.2 = 0) := by
  intro e
  refine ⟨?_, fun text cap' => ?_⟩
  · rcases totpBase32EncodeInto_spec input cap with ⟨hfull, -, b, he, hb⟩ |
      ⟨b, ys, p, hroom, -, he, hb, hlen, hp, hpadded⟩
    · have he : e = (b, 0) := he
      rw [he]
      exact ⟨hb, fun _ => rfl, fun hroom => absurd hfull (Nat.not_le.mpr hroom)⟩
    · have he : e = (b, ys.length) := he
      rw [he]
      have hzero : 0 ∉ ys.map b32Digit := by
        intro hmem
        obtain ⟨y, hy, hdigit⟩ := List.mem_map.mp hmem
        exact b32Digit_ne_zero (hpadded.digits y hy) hdigit
      have htext : b.upTo 0 = ys.map b32Digit := Buffer.upTo_of_holds hb.holds hzero
      refine ⟨hb.inBounds, fun hfull => absurd hfull (Nat.not_le.mpr hroom), fun _ => ?_⟩
      dsimp only
      rw [htext]
      refine ⟨hlen, List.length_map _, fun text htext' cap' hcap => ?_⟩
      obtain ⟨b', hd, -, hholds⟩ := totpBase32DecodeInto_eq text cap'
      rw [totpBase32Decode_padded hpadded hp (spells_of_respelled hpadded.digits htext') hcap]
        at hd hholds
      rw [hd]
      exact ⟨rfl, hholds⟩
  · obtain ⟨b', hd, hb, -⟩ := totpBase32DecodeInto_eq text cap'
    intro d
    have hd : d = (b', (totpBase32Decode text cap').length) := hd
    rw [hd]
    refine ⟨hb, length_totpBase32Decode_le text cap', fun hfull => ?_⟩
    rw [totpBase32Decode_full hfull]
    rfl

/-- A byte in small letters, over two lines. -/
theorem decode_spelled :
    let d := totpBase32DecodeInto (bytes "m\n y======") (Buffer.alloc 1)
    d.2 = 1 ∧ d.1.Holds (bytes "f") := by
  have htext : (totpBase32EncodeInto (bytes "f") (Buffer.alloc 3)).1.upTo 0 = bytes "MY" := by
    decide +kernel
  have hspelled : Respelled (bytes "MY") (bytes "m\n y======") := by
    unfold Respelled
    decide +kernel
  have hround := ((base32_roundTrip (bytes "f") 3).1.2.2 (by decide)).2.2
  rw [htext] at hround
  exact hround _ hspelled 1 (by decide)

end FlyBoard.Base32
