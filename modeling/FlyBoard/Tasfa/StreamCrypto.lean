import FlyBoard.Tasfa.Download

/-!
# Encrypted download responses (`src/handlers/tasfa/crypto.c`, `src/handlers/tasfa/session.c`)

A response covers a span of chunks, is compressed with a codec that the client names, and
is sealed with AES-GCM under the session's key. The IV is made of the session's seed and of
the first chunk index, so the main results say which responses share one:

* `deriveStreamIv_inj`: different chunk indexes have different IVs;
* `pair_shared_iff`: over every run of chunk requests two sealed responses share key and IV
  when they start at the same chunk, and then their plaintexts differ only with the span,
  the codec or the stored file.
-/

namespace FlyBoard.Tasfa.StreamCrypto

open Bytes Download

/-! ## The cipher's inputs -/

/-- The byte of `chunk_index` that starts at bit `k`. -/
def indexByte (chunkIndex : ℤ) (k : ℕ) : UInt8 :=
  ⟨(BitVec.ofInt 32 chunkIndex).extractLsb' k 8⟩

/-- `derive_stream_iv` -/
def deriveStreamIv (seed : Vector UInt8 12) (chunkIndex : ℤ) : Vector UInt8 12 :=
  (((seed.set 8 (seed[8] ^^^ indexByte chunkIndex 24)).set 9
    (seed[9] ^^^ indexByte chunkIndex 16)).set 10
    (seed[10] ^^^ indexByte chunkIndex 8)).set 11 (seed[11] ^^^ indexByte chunkIndex 0)

/-- `build_stream_aad` -/
def buildStreamAad (sessionId : Bytes) (chunkIndex : ℤ) : Bytes :=
  sessionId ++ 58 :: decimalInt chunkIndex

/-- What `encrypt_stream_block` gives to the cipher. -/
structure GcmCall where
  key : Vector UInt8 32
  iv : Vector UInt8 12
  aad : Bytes
  plaintext : Bytes
deriving DecidableEq

/-- `encrypt_stream_block` -/
def encryptStreamBlock (key : Vector UInt8 32) (ivSeed : Vector UInt8 12) (chunkIndex : ℤ)
    (sessionId plaintext : Bytes) : GcmCall :=
  ⟨key, deriveStreamIv ivSeed chunkIndex, buildStreamAad sessionId chunkIndex, plaintext⟩

/-! ## Compression -/

/-- `tasfa_compress_type_t`, without `TASFA_COMPRESS_NONE`. -/
inductive CompressType
  | zstd
  | brotli
  | gzip
deriving DecidableEq

/-- `TASFA_COMPRESS_MIN_GAIN_BYTES` -/
def compressMinGainBytes : ℕ := 1024

/-- `str_contains_ci_local` -/
def strContainsCiLocal (needle : Bytes) : Bytes → Bool
  | [] => false
  | c :: t => startsWithCI (c :: t) needle || strContainsCiLocal needle t

structure Accepts where
  zstd : Bool
  brotli : Bool
  gzip : Bool
deriving DecidableEq

def Accepts.type (allow : Accepts) : Option CompressType :=
  if allow.zstd then some .zstd
  else if allow.brotli then some .brotli
  else if allow.gzip then some .gzip
  else none

/-- `tasfa_compress_alloc`, over the encoders of the libraries. -/
def tasfaCompressAlloc (encode : CompressType → Bytes → Option Bytes) (input : Bytes)
    (allow : Accepts) : Option (Bytes × CompressType) :=
  if input.length ≤ compressMinGainBytes then none
  else
    match allow.type with
    | none => none
    | some type =>
      match encode type input with
      | none => none
      | some out =>
        if input.length - compressMinGainBytes ≤ out.length then none else some (out, type)

/-! ## The response -/

/-- The keys of a session, which `meta.json` has in hex. -/
structure StreamKeys where
  key : Vector UInt8 32
  ivSeed : Vector UInt8 12
deriving DecidableEq

/-- What the chunk handler reads of a download session, with the response's part. -/
structure StreamSession extends DownloadSession where
  totalSize : ℤ
  streamKeys : Option StreamKeys
deriving DecidableEq

structure StreamRequest extends ChunkRequest where
  xTasfaAcceptEncoding : Option Bytes
  acceptEncoding : Option Bytes

/-- The codecs that a request's headers name; the first header that is there counts. -/
def StreamRequest.accepts (req : StreamRequest) : Accepts :=
  match req.xTasfaAcceptEncoding.or req.acceptEncoding with
  | none => ⟨false, false, false⟩
  | some encHeader =>
    ⟨strContainsCiLocal (bytes "zstd") encHeader, strContainsCiLocal (bytes "br") encHeader,
      strContainsCiLocal (bytes "gzip") encHeader⟩

/-- `offset` and `amount` of the chunk handler: the bytes of `span` chunks. -/
def sliceBounds (chunkSize totalSize chunkIndex span : ℤ) : ℤ × ℕ :=
  let offset := chunkIndex * chunkSize
  let stop := (chunkIndex + span) * chunkSize
  let stop := if totalSize < stop then totalSize else stop
  (offset, ((stop - offset) % 2 ^ 64).toNat)

/-- The `pread` loop: all bytes asked for, or nothing. -/
def readSlice (stored : Bytes) (offset : ℤ) (amount : ℕ) : Option Bytes :=
  let buf := (stored.drop offset.toNat).take amount
  if buf.length ≠ amount then none else some buf

def payload (encode : CompressType → Bytes → Option Bytes) (allow : Accepts)
    (buf : Bytes) : Bytes :=
  if compressMinGainBytes ≤ buf.length then
    match tasfaCompressAlloc encode buf allow with
    | some (out, _) => if out.length + compressMinGainBytes < buf.length then out else buf
    | none => buf
  else buf

/-- What a request finds: the time, which saved version of the session each of its two loads
returns, the stored file when it can be opened, and whether encryption works. -/
structure Env where
  now : ℕ
  loaded : ℕ
  reloaded : ℕ
  stored : Option Bytes
  encrypts : Bool

/-- A sealed response: its headers, the codecs that were accepted, the file that was read,
and the call of the cipher. -/
structure SealedResponse where
  chunkIndex : ℤ
  span : ℤ
  accepts : Accepts
  stored : Bytes
  call : GcmCall
deriving DecidableEq

/-- `send_file_slice_response`: the response when it is sealed. A session without keys is
answered in plaintext, and so is one where encryption fails. -/
def sendFileSliceResponse (encode : CompressType → Bytes → Option Bytes) (sessionId : Bytes)
    (sess : Option StreamSession) (req : StreamRequest) (env : Env) (offset : ℤ) (amount : ℕ)
    (span : ℤ) : Option SealedResponse :=
  match env.stored with
  | none => none
  | some stored =>
    match readSlice stored offset amount, sess.bind (·.streamKeys) with
    | some buf, some keys =>
      if env.encrypts then
        some ⟨req.chunkIndex, span, req.accepts, stored,
          encryptStreamBlock keys.key keys.ivSeed req.chunkIndex sessionId
            (payload encode req.accepts buf)⟩
      else none
    | _, _ => none

/-! ## Runs of a session -/

/-- Every version of `meta.json` that was saved, the last one first, and the sealed
responses. A load, from the cache or from the file, returns one of the versions. -/
structure State where
  saved : List StreamSession
  responses : List SealedResponse

/-- What `init_download_session` chooses and draws. -/
structure Handshake where
  sessionToken : Bytes
  now : ℕ
  totalSize : ℤ
  chunkSize : ℤ
  fileId : ℤ
  keys : StreamKeys

/-- `TASFA_DOWNLOAD_TTL` -/
def tasfaDownloadTtl : ℕ := 86400

def chunkCount (totalSize chunkSize : ℤ) : ℤ :=
  let chunkCount := (BitVec.ofInt 32 ((totalSize + chunkSize - 1).tdiv chunkSize)).toInt
  if chunkCount < 1 then 1 else chunkCount

/-- `init_download_session`: the session is saved, then saved again with its keys. -/
def initDownloadSession (h : Handshake) : State :=
  let doc : StreamSession :=
    { sessionToken := h.sessionToken
      expiresAt := h.now + tasfaDownloadTtl
      chunkCount := chunkCount h.totalSize h.chunkSize
      chunkSize := h.chunkSize
      fileId := h.fileId
      receivedChunks := 0
      rttSamples := []
      totalSize := h.totalSize
      streamKeys := none }
  ⟨[{ doc with streamKeys := some h.keys }, doc], []⟩

/-- `handler_file_download_chunk` with its response. -/
def handlerFileDownloadChunk (encode : CompressType → Bytes → Option Bytes) (sessionId : Bytes)
    (s : State) (r : StreamRequest × Env) : State :=
  let (req, env) := r
  match s.saved[env.loaded]? with
  | none => s
  | some doc =>
    match chunkWrite env.now doc.toDownloadSession req.toChunkRequest with
    | .nothing => s
    | .cleanup => s
    | .save doc' =>
      let span := chunkSpan doc.chunkSize doc.chunkCount req.chunkIndex req.span
      let bounds := sliceBounds doc.chunkSize doc.totalSize req.chunkIndex span
      let saved := { doc with toDownloadSession := doc' } :: s.saved
      let response := sendFileSliceResponse encode sessionId saved[env.reloaded]? req env
        bounds.1 bounds.2 span
      ⟨saved, response.toList ++ s.responses⟩

/-! ## The IV of a chunk index -/

theorem indexByte_toNat (chunkIndex : ℤ) (k : ℕ) :
    (indexByte chunkIndex k).toNat = (BitVec.ofInt 32 chunkIndex).toNat / 2 ^ k % 256 := by
  simp [indexByte, UInt8.toNat, Nat.shiftRight_eq_div_pow]

theorem eq_sum_bytes {n : ℕ} (hn : n < 2 ^ 32) :
    n = n / 2 ^ 24 % 256 * 2 ^ 24 + n / 2 ^ 16 % 256 * 2 ^ 16 + n / 2 ^ 8 % 256 * 2 ^ 8 +
      n / 2 ^ 0 % 256 := by
  omega

/-- The four bytes of an `int` tell which one it is. -/
theorem eq_of_indexByte_eq {i j : ℤ} (hi : 0 ≤ i ∧ i < 2 ^ 31) (hj : 0 ≤ j ∧ j < 2 ^ 31)
    (h : ∀ k ∈ [24, 16, 8, 0], indexByte i k = indexByte j k) : i = j := by
  have hbyte : ∀ k ∈ [24, 16, 8, 0],
      (BitVec.ofInt 32 i).toNat / 2 ^ k % 256 = (BitVec.ofInt 32 j).toNat / 2 ^ k % 256 := by
    intro k hk
    rw [← indexByte_toNat, ← indexByte_toNat, h k hk]
  have heq : (BitVec.ofInt 32 i).toNat = (BitVec.ofInt 32 j).toNat := by
    rw [eq_sum_bytes (BitVec.ofInt 32 i).isLt, hbyte 24 (by decide), hbyte 16 (by decide),
      hbyte 8 (by decide), hbyte 0 (by decide)]
    exact (eq_sum_bytes (BitVec.ofInt 32 j).isLt).symm
  rw [BitVec.toNat_ofInt, BitVec.toNat_ofInt] at heq
  omega

theorem deriveStreamIv_inj {seed : Vector UInt8 12} {i j : ℤ} (hi : 0 ≤ i ∧ i < 2 ^ 31)
    (hj : 0 ≤ j ∧ j < 2 ^ 31) : deriveStreamIv seed i = deriveStreamIv seed j ↔ i = j := by
  constructor
  · intro h
    -- byte `n` of the IV is byte `n` of the seed with one byte of the index
    have hget : ∀ n : Fin 12, (deriveStreamIv seed i)[n] = (deriveStreamIv seed j)[n] := by
      intro n
      rw [h]
    refine eq_of_indexByte_eq hi hj ?_
    simp only [List.forall_mem_cons, List.not_mem_nil, false_implies, implies_true, and_true]
    refine ⟨?_, ?_, ?_, ?_⟩
    · simpa [deriveStreamIv] using hget 8
    · simpa [deriveStreamIv] using hget 9
    · simpa [deriveStreamIv] using hget 10
    · simpa [deriveStreamIv] using hget 11
  · rintro rfl
    rfl

/-! ## What a response encrypts -/

section

variable {encode : CompressType → Bytes → Option Bytes} {sessionId : Bytes} {h : Handshake}

theorem payload_congr {allow allow' : Accepts} (htype : allow.type = allow'.type) (buf : Bytes) :
    payload encode allow buf = payload encode allow' buf := by
  simp only [payload, tasfaCompressAlloc, htype]

theorem payload_of_type_none {allow : Accepts} (htype : allow.type = none) (buf : Bytes) :
    payload encode allow buf = buf := by
  simp [payload, tasfaCompressAlloc, htype]

theorem chunkCount_lt (totalSize chunkSize : ℤ) : chunkCount totalSize chunkSize < 2 ^ 31 := by
  have hlt := (BitVec.ofInt 32 ((totalSize + chunkSize - 1).tdiv chunkSize)).toInt_lt
  unfold chunkCount
  simp only
  split_ifs <;> omega

/-- A request that is answered names a chunk of the session, and changes nothing that a
response is made of. -/
theorem chunkWrite_eq_save {now : ℕ} {doc doc' : DownloadSession} {req : ChunkRequest}
    (hw : chunkWrite now doc req = .save doc') :
    (0 ≤ req.chunkIndex ∧ req.chunkIndex < doc.chunkCount) ∧
      doc'.chunkSize = doc.chunkSize ∧ doc'.chunkCount = doc.chunkCount := by
  unfold chunkWrite at hw
  split_ifs at hw with _ _ _ hrange
  cases hw
  exact ⟨⟨by omega, by omega⟩, rfl, rfl⟩

theorem sendFileSliceResponse_eq_some {sess : Option StreamSession} {req : StreamRequest}
    {env : Env} {offset : ℤ} {amount : ℕ} {span : ℤ} {r : SealedResponse}
    (hr : sendFileSliceResponse encode sessionId sess req env offset amount span = some r) :
    ∃ stored buf doc keys, readSlice stored offset amount = some buf ∧ sess = some doc ∧
      doc.streamKeys = some keys ∧
      r = ⟨req.chunkIndex, span, req.accepts, stored,
        encryptStreamBlock keys.key keys.ivSeed req.chunkIndex sessionId
          (payload encode req.accepts buf)⟩ := by
  unfold sendFileSliceResponse at hr
  cases hstored : env.stored with
  | none => simp [hstored] at hr
  | some stored =>
    simp only [hstored] at hr
    split at hr
    · next buf keys hread hkeys =>
      split_ifs at hr
      rcases Option.bind_eq_some_iff.1 hkeys with ⟨doc, hsess, hkeys⟩
      exact ⟨stored, buf, doc, keys, hread, hsess, hkeys, (Option.some.inj hr).symm⟩
    · cases hr

/-! ## The invariant of a session -/

/-- A saved version has the session's geometry, and its keys if any. -/
structure SameStream (h : Handshake) (doc : StreamSession) : Prop where
  size : doc.chunkSize = h.chunkSize
  count : doc.chunkCount = chunkCount h.totalSize h.chunkSize
  total : doc.totalSize = h.totalSize
  keys : ∀ keys, doc.streamKeys = some keys → keys = h.keys

/-- The response seals the chunks that its headers name under the session's keys. -/
structure Answers (encode : CompressType → Bytes → Option Bytes) (sessionId : Bytes)
    (h : Handshake) (r : SealedResponse) : Prop where
  index : 0 ≤ r.chunkIndex ∧ r.chunkIndex < 2 ^ 31
  sealed : ∃ buf,
    readSlice r.stored (sliceBounds h.chunkSize h.totalSize r.chunkIndex r.span).1
      (sliceBounds h.chunkSize h.totalSize r.chunkIndex r.span).2 = some buf ∧
    r.call = encryptStreamBlock h.keys.key h.keys.ivSeed r.chunkIndex sessionId
      (payload encode r.accepts buf)

structure Inv (encode : CompressType → Bytes → Option Bytes) (sessionId : Bytes)
    (h : Handshake) (s : State) : Prop where
  saved : ∀ doc ∈ s.saved, SameStream h doc
  responses : ∀ r ∈ s.responses, Answers encode sessionId h r

theorem inv_initDownloadSession (h : Handshake) :
    Inv encode sessionId h (initDownloadSession h) := by
  constructor
  · intro doc hdoc
    simp only [initDownloadSession, List.mem_cons, List.not_mem_nil, or_false] at hdoc
    rcases hdoc with rfl | rfl
    · exact ⟨rfl, rfl, rfl, fun keys hkeys => (Option.some.inj hkeys).symm⟩
    · exact ⟨rfl, rfl, rfl, fun keys hkeys => nomatch hkeys⟩
  · exact fun r hr => nomatch hr

theorem Inv.step {s : State} (hinv : Inv encode sessionId h s) (a : StreamRequest × Env) :
    Inv encode sessionId h (handlerFileDownloadChunk encode sessionId s a) := by
  rcases a with ⟨req, env⟩
  simp only [handlerFileDownloadChunk]
  cases hload : s.saved[env.loaded]? with
  | none => exact hinv
  | some doc =>
    simp only
    cases hw : chunkWrite env.now doc.toDownloadSession req.toChunkRequest with
    | nothing => exact hinv
    | cleanup => exact hinv
    | save doc' =>
      have hdoc := hinv.saved doc (List.mem_of_getElem? hload)
      rcases chunkWrite_eq_save hw with ⟨hrange, hsize, hcount⟩
      have hsaved : ∀ d ∈ { doc with toDownloadSession := doc' } :: s.saved, SameStream h d := by
        intro d hd
        rcases List.mem_cons.1 hd with rfl | hd
        · exact ⟨hsize.trans hdoc.size, hcount.trans hdoc.count, hdoc.total, hdoc.keys⟩
        · exact hinv.saved d hd
      refine ⟨hsaved, ?_⟩
      intro r hr
      rcases List.mem_append.1 hr with hr | hr
      · -- the new response: its keys come from a version that was saved
        rcases sendFileSliceResponse_eq_some (Option.mem_toList.1 hr) with
          ⟨stored, buf, d, keys, hbuf, hd, hkeys, rfl⟩
        have hd := hsaved d (List.mem_of_getElem? hd)
        rw [hdoc.size, hdoc.total] at hbuf
        rw [hdoc.count] at hrange
        have hlt := chunkCount_lt h.totalSize h.chunkSize
        refine ⟨⟨hrange.1, hrange.2.trans hlt⟩, buf, ?_, ?_⟩
        · rw [← hbuf, hdoc.size]
        · rw [hd.keys keys hkeys]
      · exact hinv.responses r hr

/-! ## Which responses share key and IV -/

def GcmCall.pair (call : GcmCall) : Vector UInt8 32 × Vector UInt8 12 := (call.key, call.iv)

/-- Two responses share key and IV when they start at the same chunk, and only then; their
plaintexts differ only if their spans, codecs or files do. -/
def PairsFollowChunks (rs : List SealedResponse) : Prop :=
  ∀ r₁ ∈ rs, ∀ r₂ ∈ rs,
    (r₁.call.pair = r₂.call.pair ↔ r₁.chunkIndex = r₂.chunkIndex) ∧
    (r₁.call.pair = r₂.call.pair → r₁.call.plaintext ≠ r₂.call.plaintext →
      r₁.span ≠ r₂.span ∨ r₁.accepts.type ≠ r₂.accepts.type ∨ r₁.stored ≠ r₂.stored)

theorem Answers.pair_eq_iff {r₁ r₂ : SealedResponse} (h₁ : Answers encode sessionId h r₁)
    (h₂ : Answers encode sessionId h r₂) :
    r₁.call.pair = r₂.call.pair ↔ r₁.chunkIndex = r₂.chunkIndex := by
  rcases h₁.sealed with ⟨buf₁, -, hcall₁⟩
  rcases h₂.sealed with ⟨buf₂, -, hcall₂⟩
  rw [hcall₁, hcall₂]
  simp only [GcmCall.pair, encryptStreamBlock, Prod.mk.injEq, true_and]
  exact deriveStreamIv_inj h₁.index h₂.index

theorem Answers.plaintext_eq {r₁ r₂ : SealedResponse} (h₁ : Answers encode sessionId h r₁)
    (h₂ : Answers encode sessionId h r₂) (hindex : r₁.chunkIndex = r₂.chunkIndex)
    (hspan : r₁.span = r₂.span) (htype : r₁.accepts.type = r₂.accepts.type)
    (hstored : r₁.stored = r₂.stored) : r₁.call.plaintext = r₂.call.plaintext := by
  rcases h₁.sealed with ⟨buf₁, hbuf₁, hcall₁⟩
  rcases h₂.sealed with ⟨buf₂, hbuf₂, hcall₂⟩
  rw [hindex, hspan, hstored, hbuf₂] at hbuf₁
  cases hbuf₁
  rw [hcall₁, hcall₂]
  exact payload_congr htype _

/-- Over every run of chunk requests on a session, the sealed responses share key and IV by
their first chunk. -/
theorem pair_shared_iff (encode : CompressType → Bytes → Option Bytes) (sessionId : Bytes)
    (h : Handshake) (rs : List (StreamRequest × Env)) :
    PairsFollowChunks
      (Run.run (handlerFileDownloadChunk encode sessionId) (initDownloadSession h) rs).responses := by
  have hstep : ∀ s a, Inv encode sessionId h s →
      Inv encode sessionId h (handlerFileDownloadChunk encode sessionId s a) :=
    fun s a hs => hs.step a
  have hinv := Run.run_invariant _ hstep (inv_initDownloadSession h) rs
  intro r₁ hr₁ r₂ hr₂
  have h₁ := hinv.responses r₁ hr₁
  have h₂ := hinv.responses r₂ hr₂
  refine ⟨h₁.pair_eq_iff h₂, ?_⟩
  -- one pair means one chunk; with all else equal the plaintexts would be
  intro hpair hplain
  by_contra hsame
  push Not at hsame
  rcases hsame with ⟨hspan, htype, hstored⟩
  exact hplain (h₁.plaintext_eq h₂ ((h₁.pair_eq_iff h₂).1 hpair) hspan htype hstored)

end

/-! ## Two spans from one chunk -/

/-- No two responses with different plaintexts share key and IV. -/
def NoPairReuse (rs : List SealedResponse) : Prop :=
  ∀ r₁ ∈ rs, ∀ r₂ ∈ rs, r₁.call.plaintext ≠ r₂.call.plaintext → r₁.call.pair ≠ r₂.call.pair

theorem readSlice_replicate {n amount : ℕ} (hle : amount ≤ n) (b : UInt8) :
    readSlice (List.replicate n b) 0 amount = some (List.replicate amount b) := by
  simp [readSlice, hle]

theorem length_of_readSlice {stored buf : Bytes} {offset : ℤ} {amount : ℕ}
    (hread : readSlice stored offset amount = some buf) : buf.length = amount := by
  unfold readSlice at hread
  simp only at hread
  split_ifs at hread with hlen
  cases hread
  exact not_not.1 hlen

def handshake : Handshake :=
  { sessionToken := bytes "token"
    now := 1000
    totalSize := 12582912
    chunkSize := 8388608
    fileId := 7
    keys := ⟨Vector.replicate 32 1, Vector.replicate 12 2⟩ }

def firstChunks (stored : Bytes) (span : ℤ) : StreamRequest × Env :=
  ({ sessionToken := bytes "token", chunkIndex := 0, span := span, chunkRttMs := none
     connected := true, sizeOk := true, xTasfaAcceptEncoding := none, acceptEncoding := none },
    ⟨1001, 0, 0, some stored, true⟩)

def sealedFirst (stored : Bytes) (span : ℤ) (buf : Bytes) : SealedResponse :=
  ⟨0, span, ⟨false, false, false⟩, stored,
    encryptStreamBlock handshake.keys.key handshake.keys.ivSeed 0 (bytes "d1") buf⟩

theorem firstChunks_responses (encode : CompressType → Bytes → Option Bytes)
    {stored buf₁ buf₂ : Bytes} (hread₁ : readSlice stored 0 8388608 = some buf₁)
    (hread₂ : readSlice stored 0 12582912 = some buf₂) :
    (Run.run (handlerFileDownloadChunk encode (bytes "d1")) (initDownloadSession handshake)
      [firstChunks stored 1, firstChunks stored 2]).responses =
        [sealedFirst stored 2 buf₂, sealedFirst stored 1 buf₁] := by
  have hcount : chunkCount 12582912 8388608 = 2 := by decide
  have hspan₁ : chunkSpan 8388608 2 0 1 = 1 := by decide
  have hspan₂ : chunkSpan 8388608 2 0 2 = 2 := by decide
  have hbounds₁ : sliceBounds 8388608 12582912 0 1 = (0, 8388608) := by decide
  have hbounds₂ : sliceBounds 8388608 12582912 0 2 = (0, 12582912) := by decide
  have hplain : ∀ buf, payload encode ⟨false, false, false⟩ buf = buf := payload_of_type_none rfl
  simp [firstChunks, handlerFileDownloadChunk, initDownloadSession, handshake, chunkWrite,
    sendFileSliceResponse, StreamRequest.accepts, tasfaDownloadTtl, sealedFirst, hcount, hspan₁,
    hspan₂, hbounds₁, hbounds₂, hread₁, hread₂, hplain]

theorem spans_share_pair_of {stored buf₁ buf₂ : Bytes}
    (hread₁ : readSlice stored 0 8388608 = some buf₁)
    (hread₂ : readSlice stored 0 12582912 = some buf₂) :
    ¬NoPairReuse (Run.run (handlerFileDownloadChunk (fun _ _ => none) (bytes "d1"))
      (initDownloadSession handshake) [firstChunks stored 1, firstChunks stored 2]).responses := by
  rw [firstChunks_responses _ hread₁ hread₂]
  intro hno
  refine hno (sealedFirst stored 2 buf₂) (by simp) (sealedFirst stored 1 buf₁) (by simp) ?_ rfl
  intro (hplain : buf₂ = buf₁)
  have hlen₁ := length_of_readSlice hread₁
  have hlen₂ := length_of_readSlice hread₂
  rw [hplain] at hlen₂
  omega

theorem spans_share_pair :
    ¬NoPairReuse (Run.run (handlerFileDownloadChunk (fun _ _ => none) (bytes "d1"))
      (initDownloadSession handshake) [firstChunks (List.replicate 12582912 0) 1,
        firstChunks (List.replicate 12582912 0) 2]).responses :=
  spans_share_pair_of (readSlice_replicate (by decide) 0) (readSlice_replicate le_rfl 0)

end FlyBoard.Tasfa.StreamCrypto
