import FlyBoard.Lib.Reader
import FlyBoard.Tasfa.StreamCrypto
import FlyBoard.Wasm.AesGcm

/-!
# Block crypto in the sandbox (`wasm/tasfa_crypto_module.c`,
`src/wasm_host/tasfa_crypto_wasm.c`, `src/handlers/tasfa/crypto.c`)

A block of a stream is sealed either by OpenSSL in the server's own process or by a module
that runs in a sandbox: the host writes one request to the module's input, and reads one
response from its output. The frames are those of `wasm/tasfa_crypto_protocol.h`.

* `moduleMain_answers`: the module reads nothing outside of a frame, and answers one that is
  not a request with a failure, as long as its input buffer does not wrap;
* `wasmEncrypt_eq`, `wasmDecrypt_eq`: what comes back from the sandbox is what OpenSSL
  computes, up to the size of a response that the host takes;
* `blockCrypto_agrees_iff`: so the two agree exactly below that size.
-/

namespace FlyBoard.BlockCrypto

open Bytes Reader Tasfa.StreamCrypto

abbrev Key := Vector UInt8 32
abbrev Seed := Vector UInt8 12

/-! ## The protocol -/

/-- `TASFA_CRYPTO_OP_ENCRYPT` -/
def opEncrypt : UInt8 := 1

/-- `TASFA_CRYPTO_OP_DECRYPT` -/
def opDecrypt : UInt8 := 2

/-- `TASFA_CRYPTO_TAG_LEN` -/
def tagLen : ℕ := 16

/-- `TASFA_CRYPTO_MAX_SID_LEN` -/
def maxSidLen : ℕ := 512

/-- `fb_be32_read` -/
def be32Read (p : Bytes) : UInt32 :=
  (p.getD 0 0).toUInt32 <<< 24 ||| (p.getD 1 0).toUInt32 <<< 16 ||| (p.getD 2 0).toUInt32 <<< 8 |||
    (p.getD 3 0).toUInt32

/-- `fb_be16_read` -/
def be16Read (p : Bytes) : UInt16 := (p.getD 0 0).toUInt16 <<< 8 ||| (p.getD 1 0).toUInt16

/-- `fb_be32_write` -/
def be32Write (v : UInt32) : Bytes :=
  [(v >>> 24).toUInt8, (v >>> 16).toUInt8, (v >>> 8).toUInt8, v.toUInt8]

/-- `fb_be16_write` -/
def be16Write (v : UInt16) : Bytes := [(v >>> 8).toUInt8, v.toUInt8]

def request (op : UInt8) (key : Key) (seed : Seed) (chunkIndex : Int32) (sid data : Bytes) :
    Bytes :=
  [op] ++ (key.toList ++ (seed.toList ++ (be32Write chunkIndex.toUInt32 ++
    (be16Write (UInt16.ofNat sid.length) ++ (sid ++
      (be32Write (UInt32.ofNat data.length) ++ data))))))

def response (status : UInt8) (out : Bytes) : Bytes :=
  status :: be32Write (UInt32.ofNat out.length) ++ out

def WellFormed (frame : Bytes) : Prop :=
  ∃ op key seed chunkIndex sid data, (op = opEncrypt ∨ op = opDecrypt) ∧
    sid.length ≤ maxSidLen ∧ data.length < 2 ^ 32 ∧ frame = request op key seed chunkIndex sid data

/-! ## The module -/

/-- The sizes of the buffer of `read_all_stdin`: 4096 bytes, doubled as long as it is full. -/
def bufferSizes : List ℕ := (List.range 20).map fun k => 4096 * 2 ^ k

/-- `read_all_stdin`. A buffer of `2^31` bytes that is full is doubled to none at all in the
32 bits of `size_t`, and what is then read into it and out of it is outside of it. -/
def readAllStdin (input : Bytes) : Except Stop Bytes :=
  if bufferSizes.any (input.length < ·) then .ok input else .error .fault

def toVector (n : ℕ) (bs : Bytes) : Vector UInt8 n := Vector.ofFn fun i => bs.getD i 0

/-- Header of a request: `1 + 32 + 12 + 4 + 2` bytes. -/
def fixed : ℕ := 51

/-- `build_stream_aad` of the module, into a buffer of `TASFA_CRYPTO_MAX_SID_LEN + 16` bytes. -/
def moduleAad (sid : Bytes) (chunkIndex : Int32) : Except Stop Bytes :=
  let aad := buildStreamAad sid chunkIndex.toInt
  if maxSidLen + 16 ≤ aad.length then .error .reject else .ok aad

def perform (op : Bytes) (key : Key) (iv : Vector UInt8 12) (aad data : Bytes) : UInt8 × Bytes :=
  if op = [opEncrypt] then
    let sealed := AesGcm.encrypt key iv aad data
    (0, sealed.1 ++ sealed.2.toList)
  else if op = [opDecrypt] ∧ tagLen ≤ data.length then
    match AesGcm.decrypt key iv aad (data.take (data.length - tagLen))
      (toVector 16 (data.drop (data.length - tagLen))) with
    | some pt => (0, pt)
    | none => (1, [])
  else (1, [])

/-- The part of `main` after the input is read. Lengths are added in 32 bits. -/
def answer (frame : Bytes) : Except Stop Bytes := do
  check (fixed + 4 ≤ frame.length)
  let op ← fetch frame 0 1
  let key ← fetch frame 1 32
  let seed ← fetch frame 33 12
  let chunkIndex ← fetch frame 45 4
  let sidLen := (be16Read (← fetch frame 49 2)).toNat
  check (sidLen ≤ maxSidLen && fixed + sidLen + 4 ≤ frame.length)
  let sid ← fetch frame fixed sidLen
  let dataLen := (be32Read (← fetch frame (fixed + sidLen) 4)).toNat
  check (frame.length = (fixed + sidLen + 4 + dataLen) % 2 ^ 32)
  let aad ← moduleAad (cstr sid) (be32Read chunkIndex).toInt32
  let data ← fetch frame (fixed + sidLen + 4) dataLen
  let iv := deriveStreamIv (toVector 12 seed) (be32Read chunkIndex).toInt32.toInt
  let result := perform op (toVector 32 key) iv aad data
  return response result.1 result.2

/-- `fail_resp` -/
def failResp : Bytes := [1, 0, 0, 0, 0]

/-- `main` -/
def moduleMain (input : Bytes) : Except Stop Bytes := do
  let frame ← readAllStdin input
  match answer frame with
  | .error .reject => return failResp
  | result => result

/-! ## The host -/

/-- `TASFA_WASM_MAX_IO` -/
def maxIo : ℕ := 64 * 1024 * 1024

/-- `read_full` -/
def readFull (stream : Bytes) (n : ℕ) : Except Stop (Bytes × Bytes) :=
  if stream.length < n then .error .reject else .ok (stream.take n, stream.drop n)

/-- `run_module`. A module that faults is ended by its sandbox. -/
def runModule (req : Bytes) : Except Stop Bytes :=
  match moduleMain req with
  | .error _ => .error .reject
  | .ok stdout => do
    let (hdr, rest) ← readFull stdout 5
    let outLen := (be32Read (hdr.drop 1)).toNat
    check (outLen ≤ maxIo)
    let (out, _) ← readFull rest outLen
    return hdr ++ out

/-- `build_request` -/
def buildRequest (op : UInt8) (key : Key) (seed : Seed) (chunkIndex : Int32) (sid data : Bytes) :
    Except Stop Bytes :=
  if maxSidLen < sid.length then .error .reject
  else .ok (request op key seed chunkIndex sid data)

/-- `tasfa_wasm_encrypt_block` -/
def wasmEncrypt (key : Key) (seed : Seed) (chunkIndex : Int32) (sid plaintext : Bytes) :
    Except Stop Bytes := do
  let req ← buildRequest opEncrypt key seed chunkIndex sid plaintext
  let resp ← runModule req
  check (resp.take 1 = [0])
  let outLen := (be32Read (resp.drop 1)).toNat
  check (outLen = plaintext.length + tagLen)
  return (resp.drop 5).take outLen

/-- `tasfa_wasm_decrypt_block` -/
def wasmDecrypt (key : Key) (seed : Seed) (chunkIndex : Int32) (sid ciphertext : Bytes)
    (plaintextLen : ℕ) : Except Stop Bytes := do
  check (tagLen ≤ ciphertext.length)
  check (plaintextLen + tagLen = ciphertext.length)
  let req ← buildRequest opDecrypt key seed chunkIndex sid ciphertext
  let resp ← runModule req
  check (resp.take 1 = [0])
  let outLen := (be32Read (resp.drop 1)).toNat
  check (outLen = plaintextLen)
  return (resp.drop 5).take outLen

/-! ## The native path -/

structure OpenSsl where
  encrypt : Key → Vector UInt8 12 → Bytes → Bytes → Bytes × Gcm.Block
  decrypt : Key → Vector UInt8 12 → Bytes → Bytes → Gcm.Block → Option Bytes

structure OpenSsl.Standard (ssl : OpenSsl) : Prop where
  encrypt_eq : ∀ key iv aad pt, ssl.encrypt key iv aad pt = Gcm.ae (Aes.cipher key) iv pt aad
  decrypt_eq : ∀ key iv aad ct tag,
    ssl.decrypt key iv aad ct tag = Gcm.ad (Aes.cipher key) iv ct aad tag

/-- `build_stream_aad` of the server, into a buffer of 512 bytes. The cipher is given as many
bytes as the text has, whether they fit or not. -/
def nativeAad (sid : Bytes) (chunkIndex : Int32) : Except Stop Bytes :=
  let aad := buildStreamAad sid chunkIndex.toInt
  if 512 < aad.length then .error .fault else .ok ((aad.take 511 ++ [0]).take aad.length)

/-- A length as the `int` of a call to OpenSSL, which refuses a negative one. -/
def evpLength (n : ℕ) : Except Stop ℕ :=
  let len := (BitVec.ofNat 32 n).toInt
  if len < 0 then .error .reject else .ok len.toNat

/-- `encrypt_stream_block` without the sandbox. -/
def nativeEncrypt (ssl : OpenSsl) (key : Key) (seed : Seed) (chunkIndex : Int32)
    (sid plaintext : Bytes) : Except Stop Bytes := do
  let aad ← nativeAad sid chunkIndex
  let len ← evpLength plaintext.length
  let sealed := ssl.encrypt key (deriveStreamIv seed chunkIndex.toInt) aad (plaintext.take len)
  return sealed.1 ++ sealed.2.toList

/-- `decrypt_stream_block` without the sandbox. -/
def nativeDecrypt (ssl : OpenSsl) (key : Key) (seed : Seed) (chunkIndex : Int32)
    (sid ciphertext : Bytes) (plaintextLen : ℕ) : Except Stop Bytes := do
  check (tagLen ≤ ciphertext.length)
  check (plaintextLen + tagLen = ciphertext.length)
  let aad ← nativeAad sid chunkIndex
  let len ← evpLength plaintextLen
  match ssl.decrypt key (deriveStreamIv seed chunkIndex.toInt) aad (ciphertext.take len)
    (toVector 16 (ciphertext.drop plaintextLen)) with
  | none => .error .reject
  | some plaintext =>
    check (plaintext.length = plaintextLen)
    return plaintext

/-! ## Frames -/

section

variable {op : UInt8} {key : Key} {seed : Seed} {chunkIndex : Int32} {sid data : Bytes}

theorem be32Read_write (v : UInt32) : be32Read (be32Write v) = v := by
  have hpack : be32Read (be32Write v) =
      AesGcm.pack (v >>> 24).toUInt8 (v >>> 16).toUInt8 (v >>> 8).toUInt8 v.toUInt8 := rfl
  have hlt := v.toNat_lt
  rw [hpack, ← UInt32.toNat_inj, AesGcm.toNat_pack]
  simp [Nat.shiftRight_eq_div_pow]
  omega

theorem be16Read_write (v : UInt16) : be16Read (be16Write v) = v := by
  refine UInt16.eq_of_toBitVec_eq (BitVec.eq_of_getLsbD_eq fun i hi => ?_)
  interval_cases i <;> simp [be16Read, be16Write, -UInt16.toUInt16_toUInt8]

theorem be32Write_read {p : Bytes} (h : p.length = 4) : be32Write (be32Read p) = p := by
  obtain ⟨a, b, c, d, rfl⟩ := List.length_eq_four.mp h
  have hbyte (r : Fin 4) := AesGcm.keyByte_pack a b c d r
  have hpack : be32Read [a, b, c, d] = AesGcm.pack a b c d := rfl
  have h₀ := hbyte 0
  have h₁ := hbyte 1
  have h₂ := hbyte 2
  have h₃ := hbyte 3
  simp [AesGcm.keyByte] at h₀ h₁ h₂ h₃
  simp [be32Write, hpack, h₀, h₁, h₂, h₃]

theorem be16Write_read {p : Bytes} (h : p.length = 2) : be16Write (be16Read p) = p := by
  obtain ⟨a, b, rfl⟩ := List.length_eq_two.mp h
  have hhigh : ((be16Read [a, b]) >>> 8).toUInt8 = a := by
    refine UInt8.eq_of_toBitVec_eq (BitVec.eq_of_getLsbD_eq fun i hi => ?_)
    interval_cases i <;> simp [be16Read]
  have hlow : (be16Read [a, b]).toUInt8 = b := by
    refine UInt8.eq_of_toBitVec_eq (BitVec.eq_of_getLsbD_eq fun i hi => ?_)
    interval_cases i <;> simp [be16Read]
  rw [be16Write, hhigh, hlow]

theorem toVector_toList {n : ℕ} (v : Vector UInt8 n) : toVector n v.toList = v := by
  refine Vector.ext fun i hi => ?_
  simp [toVector]

theorem toList_toVector {n : ℕ} {bs : Bytes} (h : bs.length = n) : (toVector n bs).toList = bs := by
  refine List.ext_getElem (by simp [h]) fun i hi hi' => ?_
  simp [toVector, hi']

theorem length_request (op : UInt8) (key : Key) (seed : Seed) (chunkIndex : Int32)
    (sid data : Bytes) :
    (request op key seed chunkIndex sid data).length = fixed + sid.length + 4 + data.length := by
  simp [request, be32Write, be16Write, fixed]
  omega

theorem length_decimalInt_le (n : Int32) : (decimalInt n.toInt).length ≤ 11 := by
  have hlow := n.le_toInt
  have hhigh := n.toInt_lt
  have habs : (decimal n.toInt.natAbs).length ≤ 10 := length_decimal_le (by norm_num) (by omega)
  unfold decimalInt
  split
  · rw [List.length_cons]
    omega
  · omega

theorem moduleAad_eq (hsid : sid.length ≤ maxSidLen) :
    moduleAad (cstr sid) chunkIndex = .ok (buildStreamAad (cstr sid) chunkIndex.toInt) := by
  have hcstr : (cstr sid).length ≤ maxSidLen :=
    (List.takeWhile_prefix _).length_le.trans hsid
  have hint := length_decimalInt_le chunkIndex
  have hlen : (buildStreamAad (cstr sid) chunkIndex.toInt).length < maxSidLen + 16 := by
    rw [buildStreamAad, List.length_append, List.length_cons]
    omega
  rw [moduleAad, if_neg (by omega)]

theorem answer_request (hsid : sid.length ≤ maxSidLen) (hdata : data.length < 2 ^ 32)
    (hlen : (request op key seed chunkIndex sid data).length < 2 ^ 32) :
    answer (request op key seed chunkIndex sid data) =
      .ok (response
        (perform [op] key (deriveStreamIv seed chunkIndex.toInt)
          (buildStreamAad (cstr sid) chunkIndex.toInt) data).1
        (perform [op] key (deriveStreamIv seed chunkIndex.toInt)
          (buildStreamAad (cstr sid) chunkIndex.toInt) data).2) := by
  obtain ⟨frame, hframe⟩ : ∃ frame, frame = request op key seed chunkIndex sid data := ⟨_, rfl⟩
  have htotal : frame.length = fixed + sid.length + 4 + data.length := by
    rw [hframe, length_request]
  have hsidLen : (be16Read (be16Write (UInt16.ofNat sid.length))).toNat = sid.length := by
    rw [be16Read_write, UInt16.toNat_ofNat']
    have : sid.length < 2 ^ 16 := lt_of_le_of_lt hsid (by decide)
    omega
  have hdataLen : (be32Read (be32Write (UInt32.ofNat data.length))).toNat = data.length := by
    rw [be32Read_write, UInt32.toNat_ofNat']
    omega
  -- what stands at each offset
  have h0 : RestAt frame 0 _ := ⟨Nat.zero_le _, hframe⟩
  have h1 := h0.skip
  have h33 := h1.skip
  have h45 := h33.skip
  have h49 := h45.skip
  have h51 := h49.skip
  have hlast := h51.skip
  have hend := hlast.skip
  have f0 : fetch frame 0 1 = .ok [op] := h0.fetch_eq
  have f1 : fetch frame 1 32 = .ok key.toList := by simpa using h1.fetch_eq
  have f33 : fetch frame 33 12 = .ok seed.toList := by simpa using h33.fetch_eq
  have f45 : fetch frame 45 4 = .ok (be32Write chunkIndex.toUInt32) := by
    simpa [be32Write] using h45.fetch_eq
  have f49 : fetch frame 49 2 = .ok (be16Write (UInt16.ofNat sid.length)) := by
    simpa [be32Write, be16Write] using h49.fetch_eq
  have f51 : fetch frame fixed sid.length = .ok sid := by
    simpa [be32Write, be16Write, fixed] using h51.fetch_eq
  have flast : fetch frame (fixed + sid.length) 4 = .ok (be32Write (UInt32.ofNat data.length)) := by
    simpa [be32Write, be16Write, fixed] using hlast.fetch_eq
  have hdata' : RestAt frame (fixed + sid.length + 4) (data ++ []) := by
    simpa [be32Write, be16Write, fixed] using hend
  have fdata := hdata'.fetch_eq
  rw [← hframe] at hlen ⊢
  have hmod : (fixed + sid.length + 4 + data.length) % 2 ^ 32 = frame.length := by
    rw [htotal, Nat.mod_eq_of_lt (htotal ▸ hlen)]
  have hindex : (be32Read (be32Write chunkIndex.toUInt32)).toInt32 = chunkIndex := by
    rw [be32Read_write]
    rfl
  have hfixed : check (decide (fixed + 4 ≤ frame.length)) = .ok () := check_of (by omega)
  have hfits : check (decide (sid.length ≤ maxSidLen) &&
      decide (fixed + sid.length + 4 ≤ frame.length)) = .ok () := by
    rw [check, decide_eq_true hsid, decide_eq_true (by omega)]
    rfl
  have hwhole : check (decide (frame.length =
      (fixed + sid.length + 4 + data.length) % 2 ^ 32)) = .ok () := check_of hmod.symm
  rw [answer]
  simp only [ok_bind, f0, f1, f33, f45, f49, f51, flast, fdata, hfixed, hfits, hwhole, hsidLen,
    hdataLen, hindex, moduleAad_eq hsid, toVector_toList]
  rfl

theorem request_of_answer {frame : Bytes} (h : answer frame ≠ .error .reject) :
    ∃ op key seed chunkIndex sid data, sid.length ≤ maxSidLen ∧ data.length < 2 ^ 32 ∧
      frame = request op key seed chunkIndex sid data := by
  have hread (p n : ℕ) (h : p + n ≤ frame.length) :
      fetch frame p n = .ok ((frame.drop p).take n) := if_pos h
  have hcheck {b : Bool} (hb : b = true) : check b = .ok () := if_pos hb
  obtain ⟨sidLen, hsidLen⟩ : ∃ n, n = (be16Read ((frame.drop 49).take 2)).toNat := ⟨_, rfl⟩
  obtain ⟨dataLen, hdataLen⟩ :
      ∃ n, n = (be32Read ((frame.drop (fixed + sidLen)).take 4)).toNat := ⟨_, rfl⟩
  have hdata32 : dataLen < 2 ^ 32 := hdataLen ▸ (be32Read _).toNat_lt
  -- each check is passed, since the frame is not rejected
  have hfixed : fixed + 4 ≤ frame.length := by
    by_contra hshort
    refine h ?_
    rw [answer, check_of_not hshort]
    rfl
  have h55 : 55 ≤ frame.length := hfixed
  have f0 := hread 0 1 (by omega)
  have f1 := hread 1 32 (by omega)
  have f33 := hread 33 12 (by omega)
  have f45 := hread 45 4 (by omega)
  have f49 := hread 49 2 (by omega)
  have hfits : (decide (sidLen ≤ maxSidLen) &&
      decide (fixed + sidLen + 4 ≤ frame.length)) = true := by
    by_contra hlong
    refine h ?_
    simp only [answer, check_of hfixed, ok_bind, f0, f1, f33, f45, f49, ← hsidLen]
    rw [check, if_neg hlong]
    rfl
  obtain ⟨hsid, hroom⟩ := Bool.and_eq_true_iff.mp hfits
  replace hsid := of_decide_eq_true hsid
  replace hroom := of_decide_eq_true hroom
  have f51 := hread fixed sidLen (by omega)
  have flast := hread (fixed + sidLen) 4 hroom
  have hwhole : frame.length = (fixed + sidLen + 4 + dataLen) % 2 ^ 32 := by
    by_contra hother
    refine h ?_
    simp only [answer, check_of hfixed, ok_bind, f0, f1, f33, f45, f49, ← hsidLen,
      hcheck hfits, f51, flast, ← hdataLen]
    rw [check_of_not hother]
    rfl
  -- a length that wraps would be less than what has been read already
  have hlen : frame.length = fixed + sidLen + 4 + dataLen := by
    have hsmall : fixed + sidLen + 4 < 2 ^ 32 := by
      have : fixed + maxSidLen + 4 < 2 ^ 32 := by decide
      omega
    omega
  have hcut (p n : ℕ) : (frame.drop p).take n ++ frame.drop (p + n) = frame.drop p := by
    rw [← List.drop_drop, List.take_append_drop]
  have hpiece (p n : ℕ) (hp : p + n ≤ frame.length) : ((frame.drop p).take n).length = n := by
    rw [List.length_take, List.length_drop]
    omega
  have hop : [frame.getD 0 0] = (frame.drop 0).take 1 := by
    cases hframe : frame with
    | nil => rw [hframe] at h55; exact absurd h55 (by decide)
    | cons b rest => rfl
  have hsidBytes : be16Write (UInt16.ofNat ((frame.drop fixed).take sidLen).length) =
      (frame.drop 49).take 2 := by
    rw [hpiece fixed sidLen (by omega), hsidLen, UInt16.ofNat_toNat,
      be16Write_read (hpiece 49 2 (by omega))]
  have hdataBytes : be32Write (UInt32.ofNat (frame.drop (fixed + sidLen + 4)).length) =
      (frame.drop (fixed + sidLen)).take 4 := by
    have hrest : (frame.drop (fixed + sidLen + 4)).length = dataLen := by
      rw [List.length_drop]
      omega
    rw [hrest, hdataLen, UInt32.ofNat_toNat, be32Write_read (hpiece _ 4 hroom)]
  have hindex : be32Write (be32Read ((frame.drop 45).take 4)).toInt32.toUInt32 =
      (frame.drop 45).take 4 := be32Write_read (hpiece 45 4 (by omega))
  refine ⟨frame.getD 0 0, toVector 32 ((frame.drop 1).take 32),
    toVector 12 ((frame.drop 33).take 12), (be32Read ((frame.drop 45).take 4)).toInt32, (frame.drop fixed).take sidLen,
    frame.drop (fixed + sidLen + 4), ?_, ?_, ?_⟩
  · rwa [hpiece fixed sidLen (by omega)]
  · rw [List.length_drop]
    omega
  · have h49 : (frame.drop 49).take 2 ++ frame.drop fixed = frame.drop 49 := hcut 49 2
    have h45 : (frame.drop 45).take 4 ++ frame.drop 49 = frame.drop 45 := hcut 45 4
    have h33 : (frame.drop 33).take 12 ++ frame.drop 45 = frame.drop 33 := hcut 33 12
    have h1 : (frame.drop 1).take 32 ++ frame.drop 33 = frame.drop 1 := hcut 1 32
    have h0 : (frame.drop 0).take 1 ++ frame.drop 1 = frame := hcut 0 1
    rw [request, hop, toList_toVector (hpiece 1 32 (by omega)),
      toList_toVector (hpiece 33 12 (by omega)), hindex, hsidBytes, hdataBytes,
      hcut (fixed + sidLen) 4, hcut fixed sidLen, h49, h45, h33, h1, h0]

theorem readAllStdin_eq (input : Bytes) :
    readAllStdin input = if input.length < 2 ^ 31 then .ok input else .error .fault := by
  have hsizes : bufferSizes.any (input.length < ·) = true ↔ input.length < 2 ^ 31 := by
    rw [List.any_eq_true]
    constructor
    · rintro ⟨size, hsize, hlt⟩
      have hmax : ∀ size ∈ bufferSizes, size ≤ 2 ^ 31 := by decide
      exact lt_of_lt_of_le (of_decide_eq_true hlt) (hmax size hsize)
    · intro hlt
      exact ⟨2 ^ 31, by decide, decide_eq_true hlt⟩
  rw [readAllStdin]
  simp only [hsizes]

theorem moduleMain_of_lt {input : Bytes} (h : input.length < 2 ^ 31) :
    moduleMain input = match answer input with
      | .error .reject => .ok failResp
      | result => result := by
  rw [moduleMain, readAllStdin_eq, if_pos h]
  rfl

theorem perform_of_ne {iv : Vector UInt8 12} {aad : Bytes}
    (h : ¬ (op = opEncrypt ∨ op = opDecrypt)) : perform [op] key iv aad data = (1, []) := by
  have hne := not_or.mp h
  rw [perform, if_neg (fun heq => hne.1 (List.singleton_inj.mp heq)),
    if_neg (fun heq => hne.2 (List.singleton_inj.mp heq.1))]

theorem moduleMain_cases {frame : Bytes} (h : frame.length < 2 ^ 31) :
    moduleMain frame = .ok failResp ∨ WellFormed frame ∧ ∃ out, moduleMain frame = .ok out := by
  rw [moduleMain_of_lt h]
  by_cases hanswer : answer frame = .error .reject
  · left
    rw [hanswer]
  · obtain ⟨op, key, seed, chunkIndex, sid, data, hsid, hdata, rfl⟩ := request_of_answer hanswer
    rw [answer_request hsid hdata (h.trans (by norm_num))]
    by_cases hop : op = opEncrypt ∨ op = opDecrypt
    · exact .inr ⟨⟨op, key, seed, chunkIndex, sid, data, hop, hsid, hdata, rfl⟩, _, rfl⟩
    · left
      rw [perform_of_ne hop]
      rfl

/-- The frame is read inside its bounds, and answered with a failure if it is no request. -/
def Answered (frame : Bytes) : Prop :=
  moduleMain frame ≠ .error .fault ∧ (¬ WellFormed frame → moduleMain frame = .ok failResp)

theorem moduleMain_answers {frame : Bytes} : Answered frame ↔ frame.length < 2 ^ 31 := by
  constructor
  · intro h
    by_contra hlong
    refine h.1 ?_
    rw [moduleMain, readAllStdin_eq, if_neg hlong]
    rfl
  · intro h
    rcases moduleMain_cases h with hfail | ⟨hwf, out, hout⟩
    · refine ⟨?_, fun _ => hfail⟩
      rw [hfail]
      exact nofun
    · refine ⟨?_, fun hn => absurd hwf hn⟩
      rw [hout]
      exact nofun

/-! ## Through the pipe -/

theorem length_be32Write (v : UInt32) : (be32Write v).length = 4 := rfl

theorem runModule_eq {req out : Bytes} {status : UInt8} (hout : out.length < 2 ^ 32)
    (h : moduleMain req = .ok (response status out)) :
    runModule req = if out.length ≤ maxIo then .ok (response status out) else .error .reject := by
  have hhdr : (response status out).take 5 = status :: be32Write (UInt32.ofNat out.length) := rfl
  have hrest : (response status out).drop 5 = out := rfl
  have hfive : readFull (response status out) 5 =
      .ok (status :: be32Write (UInt32.ofNat out.length), out) := by
    have hlen : ¬ (response status out).length < 5 := by
      rw [response, List.length_append, List.length_cons, length_be32Write]
      omega
    rw [readFull, if_neg hlen, hhdr, hrest]
  have houtLen : (be32Read ((status :: be32Write (UInt32.ofNat out.length)).drop 1)).toNat =
      out.length := by
    rw [List.drop_one, List.tail_cons, be32Read_write, UInt32.toNat_ofNat']
    omega
  have hall : readFull out out.length = .ok (out, []) := by
    rw [readFull, if_neg (lt_irrefl _), List.take_length, List.drop_length]
  rw [runModule, h]
  simp only [hfive, ok_bind, houtLen]
  by_cases hmax : out.length ≤ maxIo
  · rw [check_of hmax, if_pos hmax, ok_bind, hall]
    rfl
  · rw [check_of_not hmax, if_neg hmax]
    rfl

/-- `TASFA_DOWNLOAD_RESPONSE_BYTES_MAX` -/
def responseMax : ℕ := 128 * 1024 * 1024

variable {plaintext ciphertext : Bytes} {plaintextLen : ℕ} {ssl : OpenSsl}

noncomputable def sealedBlock (key : Key) (seed : Seed) (chunkIndex : Int32)
    (sid plaintext : Bytes) : Bytes :=
  let c := Gcm.ae (Aes.cipher key) (deriveStreamIv seed chunkIndex.toInt) plaintext
    (buildStreamAad sid chunkIndex.toInt)
  c.1 ++ c.2.toList

noncomputable def openedBlock (key : Key) (seed : Seed) (chunkIndex : Int32)
    (sid ciphertext : Bytes) (plaintextLen : ℕ) : Option Bytes :=
  Gcm.ad (Aes.cipher key) (deriveStreamIv seed chunkIndex.toInt) (ciphertext.take plaintextLen)
    (buildStreamAad sid chunkIndex.toInt) (toVector 16 (ciphertext.drop plaintextLen))

theorem length_sealedBlock :
    (sealedBlock key seed chunkIndex sid plaintext).length = plaintext.length + tagLen := by
  rw [sealedBlock]
  simp [Gcm.ae, Gcm.length_gctr, tagLen]

theorem length_openedBlock {out : Bytes} (hlen : plaintextLen ≤ ciphertext.length)
    (h : openedBlock key seed chunkIndex sid ciphertext plaintextLen = some out) :
    out.length = plaintextLen := by
  unfold openedBlock Gcm.ad at h
  split at h
  · rw [← Option.some.inj h, Gcm.length_gctr, List.length_take, Nat.min_eq_left hlen]
  · exact nomatch h

theorem cstr_of_no_nul (h : 0 ∉ sid) : cstr sid = sid := by
  rw [cstr, List.takeWhile_eq_self_iff]
  intro c hc
  have hne : c ≠ 0 := fun hzero => h (hzero ▸ hc)
  exact bne_iff_ne.mpr hne

theorem moduleMain_request (hsid : sid.length ≤ maxSidLen) (hnul : 0 ∉ sid)
    (hdata : data.length ≤ responseMax + tagLen) :
    moduleMain (request op key seed chunkIndex sid data) =
      .ok (response
        (perform [op] key (deriveStreamIv seed chunkIndex.toInt)
          (buildStreamAad sid chunkIndex.toInt) data).1
        (perform [op] key (deriveStreamIv seed chunkIndex.toInt)
          (buildStreamAad sid chunkIndex.toInt) data).2) := by
  have hlen : (request op key seed chunkIndex sid data).length < 2 ^ 31 := by
    have hmax : fixed + maxSidLen + 4 + (responseMax + tagLen) < 2 ^ 31 := by decide
    rw [length_request]
    omega
  have hdata32 : data.length < 2 ^ 32 := by
    have hmax : responseMax + tagLen < 2 ^ 32 := by decide
    omega
  have hanswer : answer (request op key seed chunkIndex sid data) = _ :=
    answer_request hsid hdata32 (hlen.trans (by norm_num))
  rw [moduleMain_of_lt hlen, hanswer, cstr_of_no_nul hnul]

theorem buildRequest_eq (hsid : sid.length ≤ maxSidLen) :
    buildRequest op key seed chunkIndex sid data =
      .ok (request op key seed chunkIndex sid data) := by
  rw [buildRequest, if_neg (by omega)]

theorem response_parts (status : UInt8) {out : Bytes} (hout : out.length < 2 ^ 32) :
    (response status out).take 1 = [status] ∧
      (be32Read ((response status out).drop 1)).toNat = out.length ∧
      (response status out).drop 5 = out := by
  refine ⟨rfl, ?_, rfl⟩
  have hread : be32Read ((response status out).drop 1) =
      be32Read (be32Write (UInt32.ofNat out.length)) := rfl
  rw [hread, be32Read_write, UInt32.toNat_ofNat']
  omega

theorem wasmEncrypt_eq (hsid : sid.length ≤ maxSidLen) (hnul : 0 ∉ sid)
    (hpt : plaintext.length ≤ responseMax) :
    wasmEncrypt key seed chunkIndex sid plaintext =
      if plaintext.length + tagLen ≤ maxIo
      then .ok (sealedBlock key seed chunkIndex sid plaintext) else .error .reject := by
  have hperform : perform [opEncrypt] key (deriveStreamIv seed chunkIndex.toInt)
      (buildStreamAad sid chunkIndex.toInt) plaintext =
      (0, sealedBlock key seed chunkIndex sid plaintext) := by
    rw [perform, if_pos rfl, AesGcm.encrypt_eq, sealedBlock]
  have hout : (sealedBlock key seed chunkIndex sid plaintext).length < 2 ^ 32 := by
    have hmax : responseMax + tagLen < 2 ^ 32 := by decide
    rw [length_sealedBlock]
    omega
  have hmain : moduleMain (request opEncrypt key seed chunkIndex sid plaintext) =
      .ok (response 0 (sealedBlock key seed chunkIndex sid plaintext)) := by
    rw [moduleMain_request hsid hnul (hpt.trans (Nat.le_add_right _ _)), hperform]
  rw [wasmEncrypt, buildRequest_eq hsid, ok_bind, runModule_eq hout hmain, length_sealedBlock]
  by_cases hmax : plaintext.length + tagLen ≤ maxIo
  · obtain ⟨hstatus, houtLen, hbody⟩ := response_parts 0 hout
    rw [if_pos hmax, if_pos hmax, ok_bind, check_of hstatus, ok_bind, houtLen]
    dsimp only
    rw [check_of length_sealedBlock, ok_bind, hbody, List.take_length]
    rfl
  · rw [if_neg hmax, if_neg hmax]
    rfl

theorem wasmDecrypt_eq (hsid : sid.length ≤ maxSidLen) (hnul : 0 ∉ sid)
    (hlen : plaintextLen + tagLen = ciphertext.length) (hpt : plaintextLen ≤ responseMax) :
    wasmDecrypt key seed chunkIndex sid ciphertext plaintextLen =
      match openedBlock key seed chunkIndex sid ciphertext plaintextLen with
      | some plaintext => if plaintextLen ≤ maxIo then .ok plaintext else .error .reject
      | none => .error .reject := by
  have hsub : ciphertext.length - tagLen = plaintextLen := by omega
  have hperform : perform [opDecrypt] key (deriveStreamIv seed chunkIndex.toInt)
      (buildStreamAad sid chunkIndex.toInt) ciphertext =
      match openedBlock key seed chunkIndex sid ciphertext plaintextLen with
      | some plaintext => (0, plaintext)
      | none => (1, []) := by
    have hop : [opDecrypt] ≠ [opEncrypt] := by decide
    rw [perform, if_neg hop, if_pos ⟨rfl, by omega⟩, AesGcm.decrypt_eq, hsub, openedBlock]
  have hmain : moduleMain (request opDecrypt key seed chunkIndex sid ciphertext) = _ :=
    moduleMain_request hsid hnul (by omega)
  rw [hperform] at hmain
  rw [wasmDecrypt, check_of (by omega), ok_bind, check_of hlen, ok_bind, buildRequest_eq hsid,
    ok_bind]
  cases hopen : openedBlock key seed chunkIndex sid ciphertext plaintextLen with
  | none =>
    rw [hopen] at hmain
    rw [runModule_eq (by decide) hmain]
    rfl
  | some plaintext =>
    have hplain : plaintext.length = plaintextLen := length_openedBlock (by omega) hopen
    have hout : plaintext.length < 2 ^ 32 := by
      have hmax : responseMax < 2 ^ 32 := by decide
      omega
    rw [hopen] at hmain
    dsimp only at hmain ⊢
    rw [runModule_eq hout hmain, hplain]
    by_cases hmax : plaintextLen ≤ maxIo
    · obtain ⟨hstatus, houtLen, hbody⟩ := response_parts 0 hout
      rw [if_pos hmax, if_pos hmax, ok_bind, check_of hstatus, ok_bind, houtLen]
      rw [check_of hplain, ok_bind, hbody, List.take_length]
      rfl
    · rw [if_neg hmax, if_neg hmax]
      rfl

/-! ## Against OpenSSL -/

theorem nativeAad_eq (hsid : sid.length ≤ 400) :
    nativeAad sid chunkIndex = .ok (buildStreamAad sid chunkIndex.toInt) := by
  have hlen : (buildStreamAad sid chunkIndex.toInt).length ≤ 511 := by
    have hint := length_decimalInt_le chunkIndex
    rw [buildStreamAad, List.length_append, List.length_cons]
    omega
  rw [nativeAad, if_neg (by omega), List.take_of_length_le hlen, List.take_left]

theorem evpLength_eq {n : ℕ} (hn : n ≤ responseMax) : evpLength n = .ok n := by
  have hint : (BitVec.ofNat 32 n).toInt = n := by
    have hmax : responseMax < 2 ^ 31 := by decide
    rw [BitVec.toInt_eq_toNat_of_lt]
    · rw [BitVec.toNat_ofNat]
      omega
    · rw [BitVec.toNat_ofNat]
      omega
  rw [evpLength, hint, if_neg (by omega), Int.toNat_natCast]

theorem nativeEncrypt_eq (hssl : ssl.Standard) (hsid : sid.length ≤ 400)
    (hpt : plaintext.length ≤ responseMax) :
    nativeEncrypt ssl key seed chunkIndex sid plaintext =
      .ok (sealedBlock key seed chunkIndex sid plaintext) := by
  rw [nativeEncrypt, nativeAad_eq hsid, ok_bind, evpLength_eq hpt, ok_bind, List.take_length]
  dsimp only
  rw [hssl.encrypt_eq]
  rfl

theorem nativeDecrypt_eq (hssl : ssl.Standard) (hsid : sid.length ≤ 400)
    (hlen : plaintextLen + tagLen = ciphertext.length) (hpt : plaintextLen ≤ responseMax) :
    nativeDecrypt ssl key seed chunkIndex sid ciphertext plaintextLen =
      match openedBlock key seed chunkIndex sid ciphertext plaintextLen with
      | some plaintext => .ok plaintext
      | none => .error .reject := by
  rw [nativeDecrypt, check_of (by omega), ok_bind, check_of hlen, ok_bind, nativeAad_eq hsid,
    ok_bind, evpLength_eq hpt, ok_bind, hssl.decrypt_eq, ← openedBlock]
  cases hopen : openedBlock key seed chunkIndex sid ciphertext plaintextLen with
  | none => rfl
  | some plaintext =>
    dsimp only
    rw [check_of (length_openedBlock (by omega) hopen), ok_bind]
    rfl

def Authentic (key : Key) (seed : Seed) (chunkIndex : Int32) (sid ciphertext : Bytes)
    (plaintextLen : ℕ) : Prop :=
  toVector 16 (ciphertext.drop plaintextLen) =
    Gcm.tag (Aes.cipher key) (deriveStreamIv seed chunkIndex.toInt)
      (buildStreamAad sid chunkIndex.toInt) (ciphertext.take plaintextLen)

theorem openedBlock_isSome_iff :
    (openedBlock key seed chunkIndex sid ciphertext plaintextLen).isSome ↔
      Authentic key seed chunkIndex sid ciphertext plaintextLen := by
  unfold openedBlock Gcm.ad Authentic
  split
  · next h => simp [h]
  · next h => simp [h]

theorem encrypt_agrees_iff (hssl : ssl.Standard) (hsid : sid.length ≤ 400) (hnul : 0 ∉ sid)
    (hpt : plaintext.length ≤ responseMax) :
    wasmEncrypt key seed chunkIndex sid plaintext =
        nativeEncrypt ssl key seed chunkIndex sid plaintext ↔
      plaintext.length + tagLen ≤ maxIo := by
  have hmaxSid : 400 ≤ maxSidLen := by decide
  rw [wasmEncrypt_eq (hsid.trans hmaxSid) hnul hpt, nativeEncrypt_eq hssl hsid hpt]
  by_cases hmax : plaintext.length + tagLen ≤ maxIo
  · rw [if_pos hmax]
    exact ⟨fun _ => hmax, fun _ => rfl⟩
  · rw [if_neg hmax]
    exact ⟨nofun, fun h => absurd h hmax⟩

theorem decrypt_agrees_iff (hssl : ssl.Standard) (hsid : sid.length ≤ 400) (hnul : 0 ∉ sid)
    (hpt : plaintextLen ≤ responseMax) :
    wasmDecrypt key seed chunkIndex sid ciphertext plaintextLen =
        nativeDecrypt ssl key seed chunkIndex sid ciphertext plaintextLen ↔
      plaintextLen + tagLen ≠ ciphertext.length ∨
        ¬ Authentic key seed chunkIndex sid ciphertext plaintextLen ∨ plaintextLen ≤ maxIo := by
  have hmaxSid : 400 ≤ maxSidLen := by decide
  by_cases hlen : plaintextLen + tagLen = ciphertext.length
  · rw [wasmDecrypt_eq (hsid.trans hmaxSid) hnul hlen hpt, nativeDecrypt_eq hssl hsid hlen hpt,
      ← openedBlock_isSome_iff]
    cases hopen : openedBlock key seed chunkIndex sid ciphertext plaintextLen with
    | none => simp
    | some plaintext =>
      by_cases hmax : plaintextLen ≤ maxIo
      · simp [hmax]
      · simp [hmax, hlen]
  · have hboth : wasmDecrypt key seed chunkIndex sid ciphertext plaintextLen =
        nativeDecrypt ssl key seed chunkIndex sid ciphertext plaintextLen := by
      rw [wasmDecrypt, nativeDecrypt, check_of_not hlen]
      rfl
    exact ⟨fun _ => .inl hlen, fun _ => hboth⟩

/-- Sandbox and OpenSSL agree below the host's ceiling, and no frame is misread below the
size at which the module's buffer wraps. -/
theorem blockCrypto_agrees_iff (ssl : OpenSsl) (hssl : ssl.Standard) (key : Key) (seed : Seed)
    (chunkIndex : Int32) (sid plaintext ciphertext frame : Bytes) (plaintextLen : ℕ)
    (hsid : sid.length ≤ 400) (hnul : 0 ∉ sid) (hplain : plaintext.length ≤ responseMax)
    (hlen : plaintextLen ≤ responseMax) :
    (wasmEncrypt key seed chunkIndex sid plaintext =
        nativeEncrypt ssl key seed chunkIndex sid plaintext ↔
      plaintext.length + tagLen ≤ maxIo) ∧
    (wasmDecrypt key seed chunkIndex sid ciphertext plaintextLen =
        nativeDecrypt ssl key seed chunkIndex sid ciphertext plaintextLen ↔
      plaintextLen + tagLen ≠ ciphertext.length ∨
        ¬ Authentic key seed chunkIndex sid ciphertext plaintextLen ∨ plaintextLen ≤ maxIo) ∧
    (Answered frame ↔ frame.length < 2 ^ 31) :=
  ⟨encrypt_agrees_iff hssl hsid hnul hplain, decrypt_agrees_iff hssl hsid hnul hlen,
    moduleMain_answers⟩

end

def moduleCipher : OpenSsl := ⟨AesGcm.encrypt, AesGcm.decrypt⟩

theorem moduleCipher_standard : moduleCipher.Standard :=
  ⟨AesGcm.encrypt_eq, AesGcm.decrypt_eq⟩

theorem blockCrypto_agrees_short :
    (wasmEncrypt (Vector.replicate 32 0) (Vector.replicate 12 0) 7 [115] [1, 2] =
        nativeEncrypt moduleCipher (Vector.replicate 32 0) (Vector.replicate 12 0) 7 [115] [1, 2] ↔
      [1, 2].length + tagLen ≤ maxIo) ∧
    (wasmDecrypt (Vector.replicate 32 0) (Vector.replicate 12 0) 7 [115] [1, 2] 2 =
        nativeDecrypt moduleCipher (Vector.replicate 32 0) (Vector.replicate 12 0) 7 [115]
          [1, 2] 2 ↔
      2 + tagLen ≠ [1, 2].length ∨
        ¬ Authentic (Vector.replicate 32 0) (Vector.replicate 12 0) 7 [115] [1, 2] 2 ∨
          2 ≤ maxIo) ∧
    (Answered [1] ↔ [1].length < 2 ^ 31) :=
  blockCrypto_agrees_iff moduleCipher moduleCipher_standard (Vector.replicate 32 0)
    (Vector.replicate 12 0) 7 [115] [1, 2] [1, 2] [1] 2 (by decide) (by decide) (by decide)
    (by decide)

/-- Half of the largest download response is refused by the sandbox only. -/
theorem half_response_refused :
    (List.replicate maxIo (0 : UInt8)).length ≤ responseMax ∧
      wasmEncrypt (Vector.replicate 32 0) (Vector.replicate 12 0) 0 [115]
        (List.replicate maxIo 0) = .error .reject ∧
      wasmEncrypt (Vector.replicate 32 0) (Vector.replicate 12 0) 0 [115]
          (List.replicate maxIo 0) ≠
        nativeEncrypt moduleCipher (Vector.replicate 32 0) (Vector.replicate 12 0) 0 [115]
          (List.replicate maxIo 0) := by
  have hlen : (List.replicate maxIo (0 : UInt8)).length = maxIo := List.length_replicate
  have hmax : maxIo ≤ responseMax := by decide
  have hover : ¬ maxIo + tagLen ≤ maxIo := by decide
  have hnul : (0 : UInt8) ∉ ([115] : Bytes) := by decide
  refine ⟨hlen.trans_le hmax, ?_, fun h => hover ?_⟩
  · rw [wasmEncrypt_eq (by decide) hnul (hlen.trans_le hmax), hlen, if_neg hover]
  · have hagrees := (encrypt_agrees_iff moduleCipher_standard (by decide) hnul
      (hlen.trans_le hmax)).mp h
    rwa [hlen] at hagrees

end FlyBoard.BlockCrypto
