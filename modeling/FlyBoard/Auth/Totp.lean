import FlyBoard.Lib.Bytes

/-!
# One-time codes (`src/auth/totp.c`)

RFC 6238 codes over a base32 secret. The MAC is OpenSSL's and a parameter; the
base32 coding, the truncation to six digits and the drift window are the
source's own.
-/

namespace FlyBoard.Auth

open Bytes

/-- The primitives taken from OpenSSL. -/
structure Crypto where
  /-- `HMAC(EVP_sha1(), key, msg)`; `none` when the call fails. -/
  hmacSha1 : Bytes → Bytes → Option Bytes
  /-- `sha256_hex` of `handlers/auth.c`: the lower-case hex digest. -/
  sha256Hex : Bytes → Bytes
  /-- `sha512_hex` of `auth/auth.c`. -/
  sha512Hex : Bytes → Option Bytes
  argon2idHashVerify : Bytes → Bytes → Bool
  pbkdf2HashVerify : Bytes → Bytes → Bool

/-! ## Base32 -/

/-- `k_b32_alphabet`. -/
def b32Alphabet : Bytes := bytes "ABCDEFGHIJKLMNOPQRSTUVWXYZ234567"

def b32Char (v : UInt32) : UInt8 := b32Alphabet.getD (v &&& 31).toNat 0

/-- The loop `while (bits >= 5)` of the encoder, with `bits` as its bound. -/
def b32Flush (cap : Nat) (buffer : UInt32) : Nat → Nat → Bytes → Option (Nat × Bytes)
  | 0, bits, out => some (bits, out)
  | fuel + 1, bits, out =>
    if 5 ≤ bits then
      if cap ≤ out.length + 1 then none
      else b32Flush cap buffer fuel (bits - 5) (out ++ [b32Char (buffer >>> (bits - 5).toUInt32)])
    else some (bits, out)

def b32EncodeLoop (cap : Nat) : UInt32 → Nat → Bytes → Bytes → Option (UInt32 × Nat × Bytes)
  | buffer, bits, out, [] => some (buffer, bits, out)
  | buffer, bits, out, c :: rest =>
    let buffer := buffer <<< 8 ||| c.toUInt32
    match b32Flush cap buffer (bits + 8) (bits + 8) out with
    | none => none
    | some (bits, out) => b32EncodeLoop cap buffer bits out rest

/-- `totp_base32_encode`: the text written, empty where the source returns 0. -/
def totpBase32Encode (input : Bytes) (cap : Nat) : Bytes :=
  if cap = 0 then []
  else
    match b32EncodeLoop cap 0 0 [] input with
    | none => []
    | some (buffer, bits, out) =>
      if 0 < bits then
        if cap ≤ out.length + 1 then [] else out ++ [b32Char (buffer <<< (5 - bits).toUInt32)]
      else if cap ≤ out.length then []
      else out

/-- `b32_value`. -/
def b32Value (c : UInt8) : Option UInt32 :=
  if 65 ≤ c ∧ c ≤ 90 then some (c - 65).toUInt32
  else if 97 ≤ c ∧ c ≤ 122 then some (c - 97).toUInt32
  else if 50 ≤ c ∧ c ≤ 55 then some (c - 50 + 26).toUInt32
  else none

def b32DecodeLoop (cap : Nat) : UInt32 → Nat → Bytes → Bytes → Option Bytes
  | _, _, out, [] => some out
  | buffer, bits, out, c :: rest =>
    if c == 61 || c == 32 || c == 10 || c == 13 || c == 9 then
      b32DecodeLoop cap buffer bits out rest
    else
      match b32Value c with
      | none => none
      | some v =>
        let buffer := buffer <<< 5 ||| v
        if 8 ≤ bits + 5 then
          if cap ≤ out.length then none
          else b32DecodeLoop cap buffer (bits + 5 - 8)
            (out ++ [(buffer >>> (bits + 5 - 8).toUInt32).toUInt8]) rest
        else b32DecodeLoop cap buffer (bits + 5) out rest

/-- `totp_base32_decode`: the bytes written, none where the source returns 0. -/
def totpBase32Decode (b32 : Bytes) (cap : Nat) : Bytes :=
  if cap = 0 then [] else (b32DecodeLoop cap 0 0 [] b32).getD []

/-! ## Secrets and codes -/

/-- `totp_secret_generate`, from the 20 bytes that `RAND_bytes` drew. -/
def totpSecretGenerate (rand : Option Bytes) : Option Bytes :=
  match rand with
  | none => none
  | some raw =>
    let out := totpBase32Encode raw 33
    if out.length = 32 then some out else none

/-- A number as eight big-endian bytes. -/
def beBytes (n : Nat) : Bytes := (List.range 8).map fun i => UInt8.ofNat (n >>> (8 * (7 - i)) % 256)

/-- `snprintf("%06u", n)` for `n < 1000000`. -/
def sixDigits (n : Nat) : Bytes :=
  [100000, 10000, 1000, 100, 10, 1].map fun p => UInt8.ofNat (48 + n / p % 10)

/-- `totp_code_at`. -/
def totpCodeAt (crypto : Crypto) (secret : Bytes) (t : Int) : Option Bytes :=
  let key := totpBase32Decode secret 64
  if key.length < 10 then none
  else
    let msg := beBytes (BitVec.ofInt 64 (t.tdiv 30)).toNat
    match crypto.hmacSha1 key msg with
    | none => none
    | some digest =>
      if digest.length < 20 then none
      else
        let at' (i : Nat) : Nat := (digest.getD i 0).toNat
        let offset := at' 19 % 16
        let bin := at' offset % 128 * 2 ^ 24 + at' (offset + 1) * 2 ^ 16 +
          at' (offset + 2) * 2 ^ 8 + at' (offset + 3)
        some (sixDigits (bin % 1000000))

/-- `code_is_welformed`. -/
def codeIsWelformed (code : Bytes) : Bool := code.length == 6 && code.all isDigit

/-- `totp_verify_at`: the current step and one on either side. -/
def totpVerifyAt (crypto : Crypto) (secret : Bytes) (code : Option Bytes) (t : Int) : Bool :=
  match code with
  | none => false
  | some code =>
    codeIsWelformed code &&
      [-1, 0, 1].any fun drift : Int => totpCodeAt crypto secret (t + drift * 30) == some code

end FlyBoard.Auth
