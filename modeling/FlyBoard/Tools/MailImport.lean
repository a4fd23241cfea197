import FlyBoard.Lib.Bytes

/-!
# The headers of an imported message (`src/tools/mail_import.c`)

From the bytes of a message to the account that it is stored for: the header block and its
fields, with encoded words decoded, the recipient that the To header names where none is
given, and the account of that recipient.
-/

namespace FlyBoard.MailImport

open Bytes

/-! ## Transfer encodings -/

/-- `b64_val`; `none` is -1. -/
def b64Val (c : UInt8) : Option ℕ :=
  if 65 ≤ c ∧ c ≤ 90 then some (c.toNat - 65)
  else if 97 ≤ c ∧ c ≤ 122 then some (c.toNat - 97 + 26)
  else if 48 ≤ c ∧ c ≤ 57 then some (c.toNat - 48 + 52)
  else if c = 43 then some 62
  else if c = 47 then some 63
  else none

/-- The loop of `b64_decode`. Only the low `nbits` bits of `acc` are looked at again. -/
def b64Go (acc nbits : ℕ) : Bytes → Bytes
  | [] => []
  | c :: s =>
    match b64Val c with
    | none => b64Go acc nbits s
    | some v =>
      if 8 ≤ nbits + 6 then
        UInt8.ofNat ((64 * acc + v) / 2 ^ (nbits - 2)) ::
          b64Go ((64 * acc + v) % 2 ^ (nbits - 2)) (nbits - 2) s
      else b64Go (64 * acc + v) (nbits + 6) s

/-- `b64_decode`: what is not of the alphabet is passed over. -/
def b64Decode (s : Bytes) : Bytes := b64Go 0 0 s

def hexVal (c : UInt8) : Option ℕ :=
  if 48 ≤ c ∧ c ≤ 57 then some (c.toNat - 48)
  else if 97 ≤ c ∧ c ≤ 102 then some (c.toNat - 87)
  else if 65 ≤ c ∧ c ≤ 70 then some (c.toNat - 55)
  else none

/-- `qp_decode` -/
def qpDecode : Bytes → Bytes
  | [] => []
  | c :: s =>
    if c ≠ 61 then c :: qpDecode s
    else
      match s with
      | [] => []
      | [a] => if a = 10 then [] else 61 :: qpDecode [a]
      | a :: b :: rest =>
        match hexVal a, hexVal b with
        | some x, some y => UInt8.ofNat (16 * x + y) :: qpDecode rest
        | _, _ =>
          -- a soft line break
          if a = 10 then qpDecode (b :: rest)
          else if a = 13 ∧ b = 10 then qpDecode rest
          else 61 :: qpDecode (a :: b :: rest)

/-! ## Headers -/

/-- An encoded word at the start of a text: what it stands for, and what follows it. -/
def encodedWord (p : Bytes) : Option (Bytes × Bytes) :=
  match p with
  | 61 :: 63 :: p =>
    match cutAt [63] p with
    | some (_, e :: 63 :: payload) =>
      if toLower e = 98 ∨ toLower e = 113 then
        (cutAt [63, 61] payload).map fun r =>
          (if toLower e = 98 then b64Decode r.1 else qpDecode r.1, r.2)
      else none
    | _ => none
  | _ => none

/-- The loop of `decode_encoded_words`, without the end of the buffer. -/
def decodeWords : ℕ → Bytes → Bytes
  | 0, _ => []
  | _, [] => []
  | fuel + 1, c :: p =>
    match encodedWord (c :: p) with
    | some (decoded, rest) => decoded ++ decodeWords fuel rest
    | none => c :: decodeWords fuel p

/-- `hdr_strdup` -/
def hdrStrdup (v : Bytes) : Bytes :=
  let dec := cstr (snprintfS 2048 (decodeWords (cstr v).length (cstr v)))
  trimRight (fun c => isBlank c || c == 13 || c == 10) (trimLeft isBlank dec)

/-- The fields that `parse_headers` has read, and the one it is in. -/
structure HeaderState where
  done : List (Bytes × Bytes)
  cur : Option (Bytes × Bytes)

def HeaderState.flush (s : HeaderState) : List (Bytes × Bytes) :=
  s.done ++ (s.cur.map fun f => (cstr f.1, hdrStrdup f.2)).toList

/-- `line` without the carriage return at its end. -/
def dropCR (line : Bytes) : Bytes := if line.getLast? = some 13 then line.dropLast else line

def headerLine (s : HeaderState) (line : Bytes) : HeaderState :=
  let line := dropCR line
  if (line.head?.map isBlank).getD false then
    match s.cur with
    | none => s
    | some (name, value) =>
      if (cstr value).length + line.length + 2 < 4096 then
        { s with cur := some (name, cstr value ++ 32 :: line) }
      else s
  else
    match cutAt [58] line with
    | none => s
    | some (name, value) => ⟨s.flush, some (name, value.take 4095)⟩

/-- `parse_headers` -/
def parseHeaders (hdr : Bytes) : List (Bytes × Bytes) :=
  ((hdr.splitOn 10).foldl headerLine ⟨[], none⟩).flush

def header (fields : List (Bytes × Bytes)) (name : String) : Option Bytes :=
  ((fields.filter fun f => eqCI f.1 (bytes name)).getLast?).map Prod.snd

def splitMessage (raw : Bytes) : Bytes × Bytes :=
  match cutAt [13, 10, 13, 10] (cstr raw) with
  | some (hdr, _) => (hdr, raw.drop (hdr.length + 4))
  | none =>
    match cutAt [10, 10] (cstr raw) with
    | some (hdr, _) => (hdr, raw.drop (hdr.length + 2))
    | none => (raw, [])

/-! ## The recipient -/

def firstAddress (value : Bytes) : Bytes :=
  let plain := (value.takeWhile fun c => !(bytes ",; \t").contains c).take 255
  match cutAt [60] value with
  | none => plain
  | some (_, rest) =>
    match cutAt [62] rest with
    | some (c :: address, _) => (c :: address).take 255
    | _ => plain

/-- The part of an address before its last `@`, in a buffer of 128 bytes. -/
def localpart (address : Bytes) : Bytes :=
  let s := snprintfS 128 address
  if 64 ∈ s then ((s.reverse.dropWhile (· ≠ 64)).drop 1).reverse else s

/-- A row of `users`. -/
structure User where
  id : ℕ
  username : Bytes
  isAdmin : Bool
deriving DecidableEq

/-- `k_reserved` -/
def reserved : List Bytes :=
  ["postmaster", "abuse", "admin", "administrator", "support", "help", "noreply",
    "mailer-daemon", "root", "info", "webmaster", "hostmaster", "noc", "security"].map bytes

/-- `is_reserved` -/
def isReserved (name : Bytes) : Bool := reserved.any (eqCI name)

section Owner

-- the users in the order of their ids
variable (users : List User)

/-- `find_owner`. The index on `username` gives the name as it is written before the one in
lower case, which is larger. -/
def findOwner (address : Bytes) : Option User :=
  let name := localpart address
  if name = [] then none
  else if isReserved name then users.find? (·.isAdmin)
  else
    (users.find? fun u => u.username = name).or
      (users.find? fun u => u.username = name.map toLower)

/-- The recipient of `main`: the argument, or else the first address of the To header. -/
def recipient (arg raw : Bytes) : Bytes :=
  if arg ≠ [] then snprintfS 256 arg
  else ((header (parseHeaders (splitMessage raw).1) "To").map firstAddress).getD []

/-- The account that `mail-import dbonly` stores a message for. -/
def importOwner (raw : Bytes) : Option User :=
  if raw = [] ∨ localpart (recipient [] raw) = [] then none
  else findOwner users (recipient [] raw)

end Owner

example : importOwner [⟨1, bytes "root", true⟩, ⟨2, bytes "ann", false⟩]
    (bytes "From: x\r\nTo: \"Ann\" <Ann@b.c>\r\n\r\nhi") = some ⟨2, bytes "ann", false⟩ := by
  decide +kernel

end FlyBoard.MailImport
