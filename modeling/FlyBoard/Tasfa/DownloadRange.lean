import FlyBoard.Tasfa.Download

/-!
# The ranges of a download (`src/handlers/tasfa/common.c`, `src/handlers/tasfa/download.c`)

`init_download_session` cuts a file into chunks of a size that it chooses for the client, and
`handler_file_download_chunk` serves a span of them as one byte range. Both count chunks in an
`int`, and the file size passes through the JSON number of the session: past either limit the
ranges no longer cover the file.
-/

namespace FlyBoard.Tasfa.Download

/-! ## The chunk size -/

/-- `while (requested < min_value && requested > 0) requested *= 2` -/
def doubleUpTo (minValue requested : ℕ) : ℕ :=
  if requested < minValue ∧ 0 < requested then doubleUpTo minValue (requested * 2) else requested
termination_by minValue - requested

/-- `while (requested > max_value) requested /= 2` -/
def halveDownTo (maxValue requested : ℕ) : ℕ :=
  if maxValue < requested then halveDownTo maxValue (requested / 2) else requested
termination_by requested

/-- `normalize_chunk_size_hint` -/
def normalizeChunkSizeHint (requested : ℤ) (fallback minValue maxValue : ℕ) : ℕ :=
  if requested ≤ 0 then fallback
  else
    let quantum := 128 * 1024
    let requested := requested.toNat / quantum * quantum
    let requested := if requested < quantum then quantum else requested
    let requested := doubleUpTo minValue requested
    let requested := halveDownTo maxValue requested
    if requested < minValue then minValue
    else if maxValue < requested then maxValue
    else requested

def mib (n : ℕ) : ℕ := n * 1024 * 1024

/-- What the client says of its link; `none` for a number that is missing or no number. -/
structure Link where
  downlinkMbps : Option ℚ
  rttMs : Option ℚ
  effectiveType : Bytes
  saveData : Bool

/-- `fast_download_chunk_max_from_request` -/
def fastDownloadChunkMaxFromRequest (l : Link) : ℕ :=
  match l.downlinkMbps with
  | none => mib 32
  | some downlink =>
    if downlink < 500 then mib 32
    else if l.saveData then mib 32
    else if [bytes "slow-2g", bytes "2g", bytes "3g"].contains l.effectiveType then mib 32
    else if l.rttMs.any fun rtt => 80 < rtt then mib 32
    else if 900 ≤ downlink then mib 64
    else mib 48

/-- `choose_chunk_size_download` -/
def chooseChunkSizeDownload (mobile : Bool) (requested : ℤ) (totalSize fastLinkMax : ℕ) : ℕ :=
  let fallback := if mobile then mib 6 else mib 8
  let maxValue := if mib 32 < fastLinkMax then fastLinkMax else mib 32
  let fallback :=
    if mib 100 < totalSize then if mobile then mib 10 else mib 16 else fallback
  let fallback :=
    if mib 1024 < totalSize then
      if mib 32 < maxValue then maxValue else if mobile then mib 14 else mib 32
    else fallback
  let requested : ℤ :=
    if mib 100 < totalSize ∧ 0 < requested ∧ requested < fallback then fallback else requested
  normalizeChunkSizeHint requested fallback (mib 2) maxValue

theorem normalizeChunkSizeHint_bounds (requested : ℤ) {fallback minValue maxValue : ℕ}
    (hmin : minValue ≤ fallback) (hmax : fallback ≤ maxValue) :
    minValue ≤ normalizeChunkSizeHint requested fallback minValue maxValue ∧
      normalizeChunkSizeHint requested fallback minValue maxValue ≤ maxValue := by
  unfold normalizeChunkSizeHint
  dsimp only
  generalize halveDownTo maxValue _ = r
  split_ifs <;> omega

theorem fastDownloadChunkMaxFromRequest_le (l : Link) :
    fastDownloadChunkMaxFromRequest l ≤ mib 64 := by
  unfold fastDownloadChunkMaxFromRequest mib
  split
  · decide
  · split_ifs <;> decide

theorem chooseChunkSizeDownload_bounds (mobile : Bool) (requested : ℤ) (totalSize : ℕ) (l : Link) :
    mib 2 ≤ chooseChunkSizeDownload mobile requested totalSize
        (fastDownloadChunkMaxFromRequest l) ∧
      chooseChunkSizeDownload mobile requested totalSize (fastDownloadChunkMaxFromRequest l) ≤
        mib 64 := by
  have hfast := fastDownloadChunkMaxFromRequest_le l
  unfold chooseChunkSizeDownload
  dsimp only
  generalize fastDownloadChunkMaxFromRequest l = fast at hfast ⊢
  generalize hmax : (if mib 32 < fast then fast else mib 32) = maxValue
  generalize hfall : (if mib 1024 < totalSize then
    if mib 32 < maxValue then maxValue else if mobile = true then mib 14 else mib 32
    else if mib 100 < totalSize then if mobile = true then mib 10 else mib 16
    else if mobile = true then mib 6 else mib 8) = fallback
  have hmax1 : mib 32 ≤ maxValue ∧ maxValue ≤ mib 64 := by
    split_ifs at hmax <;> simp only [mib] at * <;> omega
  have hfall1 : mib 2 ≤ fallback ∧ fallback ≤ maxValue := by
    split_ifs at hfall <;> simp only [mib] at * <;> omega
  have hbounds := normalizeChunkSizeHint_bounds (if mib 100 < totalSize ∧ 0 < requested ∧
    requested < fallback then (fallback : ℤ) else requested) hfall1.1 hfall1.2
  exact ⟨hbounds.1, hbounds.2.trans hmax1.2⟩

/-! ## The ranges -/

/-- What `init_download_session` stores of the file and its chunks. -/
structure Geometry where
  totalSize : ℤ
  chunkSize : ℤ
  chunkCount : ℤ
deriving DecidableEq

/-- `init_download_session`: `stored` is the file size after the session's JSON, the cast to `int`
wraps, and nothing is defined when the `long long` sum overflows. -/
def initDownloadSession (stored : ℤ → ℤ) (totalSize : ℕ) (mobile : Bool) (requested : ℤ)
    (fastLinkMax : ℕ) : Option Geometry :=
  let chunkSize : ℤ := chooseChunkSizeDownload mobile requested totalSize fastLinkMax
  let sum := totalSize + chunkSize - 1
  if 2 ^ 63 ≤ sum then none
  else
    let chunkCount := (sum / chunkSize).bmod (2 ^ 32)
    let chunkCount := if chunkCount < 1 then 1 else chunkCount
    some ⟨stored totalSize, chunkSize, chunkCount⟩

/-- The chunks of a response and its byte range, up to `stop`. -/
structure Slice where
  chunkIndex : ℤ
  span : ℤ
  offset : ℤ
  stop : ℤ
deriving DecidableEq

def clampSpan (chunkSize span : ℤ) : ℤ :=
  let span := if span < 1 then 1 else span
  let span := if 64 < span then 64 else span
  let maxSpanByBytes := if 0 < chunkSize then responseBytesMax / chunkSize else 1
  let maxSpanByBytes := if maxSpanByBytes < 1 then 1 else maxSpanByBytes
  if maxSpanByBytes < span then maxSpanByBytes else span

/-- The range that `handler_file_download_chunk` serves of a file of some size; nothing is defined
when the sum of the `int`s overflows. -/
def chunkSlice (g : Geometry) (size chunkIndex span : ℤ) : Option Slice :=
  if chunkIndex < 0 ∨ g.chunkCount ≤ chunkIndex then none
  else if 2 ^ 31 ≤ chunkIndex + clampSpan g.chunkSize span then none
  else
    let span := chunkSpan g.chunkSize g.chunkCount chunkIndex span
    let offset := chunkIndex * g.chunkSize
    let stop := (chunkIndex + span) * g.chunkSize
    let stop := if g.totalSize < stop then g.totalSize else stop
    if size ≠ g.totalSize then none else some ⟨chunkIndex, span, offset, stop⟩

theorem chunkSpan_eq (chunkSize chunkCount chunkIndex span : ℤ) :
    chunkSpan chunkSize chunkCount chunkIndex span =
      if chunkCount < chunkIndex + clampSpan chunkSize span then chunkCount - chunkIndex
      else clampSpan chunkSize span := rfl

/-- The chunks from 0 on up to `count` lie in one slice each. -/
def TilesChunks (count : ℤ) (slices : List Slice) : Prop :=
  ∀ i, 0 ≤ i → i < count →
    slices.countP (fun s => s.chunkIndex ≤ i ∧ i < s.chunkIndex + s.span) = 1

def TilesBytes (size : ℤ) (slices : List Slice) : Prop :=
  ∀ b, 0 ≤ b → b < size → slices.countP (fun s => s.offset ≤ b ∧ b < s.stop) = 1

/-- A download of a file serves what is asked for, and all of it when the slices of any requests
tile the chunks. -/
structure Serves (g : Geometry) (size : ℤ) : Prop where
  range : ∀ chunkIndex span, 0 ≤ chunkIndex → chunkIndex < g.chunkCount →
    ∃ s, chunkSlice g size chunkIndex span = some s ∧ 1 ≤ s.span ∧
      s.offset = chunkIndex * g.chunkSize ∧
      s.stop = min ((chunkIndex + s.span) * g.chunkSize) size ∧
      s.offset < s.stop ∧ s.stop - s.offset ≤ responseBytesMax
  tiles : ∀ slices : List Slice,
    (∀ s ∈ slices, ∃ chunkIndex span, chunkSlice g size chunkIndex span = some s) →
    TilesChunks g.chunkCount slices → TilesBytes size slices

/-- The file size survives the session's JSON, and the chunks and the longest span fit in an
`int` together. -/
def Fits (stored : ℤ → ℤ) (totalSize : ℕ) (chunkSize : ℤ) : Prop :=
  stored totalSize = totalSize ∧
    (totalSize + chunkSize - 1) / chunkSize - 1 + clampSpan chunkSize 64 < 2 ^ 31

/-! ## The slices of a session -/

section Slices

variable {g : Geometry} {size chunkSize : ℤ}

structure Sized (chunkSize : ℤ) : Prop where
  least : 2097152 ≤ chunkSize
  most : chunkSize ≤ 67108864

theorem clampSpan_bounds (h : Sized chunkSize) (span : ℤ) :
    1 ≤ clampSpan chunkSize span ∧ clampSpan chunkSize span ≤ clampSpan chunkSize 64 ∧
      clampSpan chunkSize span * chunkSize ≤ responseBytesMax := by
  have hpos : 0 < chunkSize := by
    have hleast := h.least
    omega
  have hone : 1 ≤ responseBytesMax / chunkSize := by
    rw [Int.le_ediv_iff_mul_le hpos]
    have hmost := h.most
    rw [responseBytesMax]
    omega
  have hmul := Int.ediv_mul_le responseBytesMax (Int.ne_of_gt hpos)
  have hclamp : 1 ≤ clampSpan chunkSize span ∧ clampSpan chunkSize span ≤ clampSpan chunkSize 64 ∧
      clampSpan chunkSize span ≤ responseBytesMax / chunkSize := by
    unfold clampSpan
    rw [if_pos hpos]
    generalize responseBytesMax / chunkSize = most at hone ⊢
    dsimp only
    split_ifs <;> omega
  exact ⟨hclamp.1, hclamp.2.1,
    (Int.mul_le_mul_of_nonneg_right hclamp.2.2 hpos.le).trans hmul⟩

theorem clampSpan_one (chunkSize : ℤ) : clampSpan chunkSize 1 = 1 := by
  unfold clampSpan
  generalize (if 0 < chunkSize then responseBytesMax / chunkSize else 1) = most
  dsimp only
  split_ifs <;> omega

theorem chunkSlice_eq_some {chunkIndex span : ℤ} {s : Slice}
    (h : chunkSlice g size chunkIndex span = some s) :
    0 ≤ chunkIndex ∧ chunkIndex < g.chunkCount ∧ chunkIndex + clampSpan g.chunkSize span < 2 ^ 31 ∧
      size = g.totalSize ∧ s = ⟨chunkIndex, chunkSpan g.chunkSize g.chunkCount chunkIndex span,
        chunkIndex * g.chunkSize, min ((chunkIndex +
          chunkSpan g.chunkSize g.chunkCount chunkIndex span) * g.chunkSize) size⟩ := by
  unfold chunkSlice at h
  split at h
  · exact nomatch h
  · split at h
    · exact nomatch h
    · dsimp only at h
      split at h
      · exact nomatch h
      · rename_i hrange hsum hsize
        have hsize' : size = g.totalSize := not_not.mp hsize
        refine ⟨by omega, by omega, by omega, hsize', ?_⟩
        rw [← Option.some.inj h, ← hsize']
        congr 1
        split_ifs <;> omega

theorem chunkCount_bounds (hpos : 0 < chunkSize) (size : ℤ) :
    ((size + chunkSize - 1) / chunkSize - 1) * chunkSize < size ∧
      size ≤ (size + chunkSize - 1) / chunkSize * chunkSize := by
  have hle := Int.ediv_mul_le (size + chunkSize - 1) (Int.ne_of_gt hpos)
  have hlt := Int.lt_ediv_add_one_mul_self (size + chunkSize - 1) hpos
  rw [Int.add_mul, Int.one_mul] at hlt
  rw [Int.sub_mul, Int.one_mul]
  omega

theorem chunkCount_pos (hpos : 0 < chunkSize) (hsize : 0 < size) :
    0 < (size + chunkSize - 1) / chunkSize := by
  by_contra hneg
  have hzero := Int.mul_le_mul_of_nonneg_right (Int.not_lt.mp hneg) hpos.le
  have hall := (chunkCount_bounds hpos size).2
  omega

theorem mem_slice_iff (hpos : 0 < chunkSize) {chunkIndex span b : ℤ} (hb : b < size) :
    (chunkIndex * chunkSize ≤ b ∧ b < min ((chunkIndex + span) * chunkSize) size) ↔
      (chunkIndex ≤ b / chunkSize ∧ b / chunkSize < chunkIndex + span) := by
  rw [Int.le_ediv_iff_mul_le hpos, Int.ediv_lt_iff_lt_mul hpos, Int.lt_min]
  exact and_congr_right fun _ => and_iff_left hb

theorem Serves.of_fits (hsized : Sized chunkSize)
    (hfit : (size + chunkSize - 1) / chunkSize - 1 + clampSpan chunkSize 64 < 2 ^ 31) :
    Serves ⟨size, chunkSize, (size + chunkSize - 1) / chunkSize⟩ size := by
  have hpos : 0 < chunkSize := by
    have hleast := hsized.least
    omega
  rcases chunkCount_bounds hpos size with ⟨hlast, hall⟩
  generalize hcount : (size + chunkSize - 1) / chunkSize = count at hfit hlast hall ⊢
  constructor
  · intro chunkIndex span hnonneg hlt
    rcases clampSpan_bounds hsized span with ⟨hone, hmost, hbytes⟩
    have hspan : 1 ≤ chunkSpan chunkSize count chunkIndex span ∧
        chunkSpan chunkSize count chunkIndex span ≤ clampSpan chunkSize span := by
      rw [chunkSpan_eq]
      dsimp only at hlt
      split_ifs <;> omega
    -- the first byte of the span is a byte of the file
    have hfirst : chunkIndex * chunkSize < size := by
      refine Int.lt_of_le_of_lt (Int.mul_le_mul_of_nonneg_right ?_ hpos.le) hlast
      dsimp only at hlt
      omega
    have hwidth := Int.mul_le_mul_of_nonneg_right hspan.2 hpos.le
    have hgrow := Int.mul_le_mul_of_nonneg_right hspan.1 hpos.le
    refine ⟨⟨chunkIndex, chunkSpan chunkSize count chunkIndex span, chunkIndex * chunkSize,
      min ((chunkIndex + chunkSpan chunkSize count chunkIndex span) * chunkSize) size⟩, ?_,
      hspan.1, rfl, rfl, ?_, ?_⟩
    · unfold chunkSlice
      dsimp only at hlt ⊢
      rw [if_neg (by omega), if_neg (by omega), if_neg (not_not.mpr rfl)]
      congr 2
      split_ifs <;> omega
    · dsimp only
      rw [Int.add_mul]
      omega
    · dsimp only
      rw [Int.add_mul]
      omega
  · intro slices hslices htiles b hb hlt
    rw [← htiles (b / chunkSize) (Int.ediv_nonneg hb hpos.le) ?_]
    · refine List.countP_congr fun s hs => ?_
      rcases hslices s hs with ⟨chunkIndex, span, hserved⟩
      rcases chunkSlice_eq_some hserved with ⟨-, -, -, -, rfl⟩
      rw [decide_eq_true_iff, decide_eq_true_iff]
      exact mem_slice_iff hpos hlt
    · rw [Int.ediv_lt_iff_lt_mul hpos]
      exact Int.lt_of_lt_of_le hlt hall

def singles (g : Geometry) (size : ℤ) : List Slice :=
  (List.range g.chunkCount.toNat).map fun i : ℕ =>
    ⟨i, 1, i * g.chunkSize, min ((i + 1) * g.chunkSize) size⟩

theorem singles_tile (g : Geometry) (size : ℤ) : TilesChunks g.chunkCount (singles g size) := by
  intro i hi hlt
  rw [singles, List.countP_map]
  have hcount : (List.range g.chunkCount.toNat).countP (fun k => k == i.toNat) = 1 := by
    refine List.count_eq_one_of_mem List.nodup_range (List.mem_range.mpr ?_)
    omega
  rw [← hcount]
  refine List.countP_congr fun k _ => ?_
  rw [Function.comp_apply, decide_eq_true_iff, beq_iff_eq]
  dsimp only
  omega

/-- With the ranges of single chunks all bytes are served, and with the last chunk and the longest
span the sum of the `int`s does not overflow. -/
theorem Serves.fits (hsized : Sized g.chunkSize) (hsize : 0 < size) (hcount : 1 ≤ g.chunkCount)
    (h : Serves g size) : g.totalSize = size ∧ size ≤ g.chunkCount * g.chunkSize ∧
      g.chunkCount - 1 + clampSpan g.chunkSize 64 < 2 ^ 31 := by
  have hpos : 0 < g.chunkSize := by
    have hleast := hsized.least
    omega
  have hserved : ∀ s ∈ singles g size,
      ∃ chunkIndex span, chunkSlice g size chunkIndex span = some s := by
    intro s hs
    rcases List.mem_map.mp hs with ⟨i, hi, rfl⟩
    have hlt := List.mem_range.mp hi
    rcases h.range i 1 (Int.natCast_nonneg i) (by omega) with ⟨t, ht, -⟩
    have hone : chunkSpan g.chunkSize g.chunkCount i 1 = 1 := by
      rw [chunkSpan_eq, clampSpan_one, if_neg (by omega)]
    rcases chunkSlice_eq_some ht with ⟨-, -, -, -, rfl⟩
    rw [hone] at ht
    exact ⟨i, 1, ht⟩
  have hbytes := h.tiles _ hserved (singles_tile g size)
  rcases h.range 0 1 (Int.le_refl 0) (by omega) with ⟨s, hs, -⟩
  rcases h.range (g.chunkCount - 1) 64 (by omega) (by omega) with ⟨t, ht, -⟩
  refine ⟨(chunkSlice_eq_some hs).2.2.2.1.symm, ?_, (chunkSlice_eq_some ht).2.2.1⟩
  -- the last byte lies in the slice of a chunk
  have hlast : 0 < (singles g size).countP (fun s => s.offset ≤ size - 1 ∧ size - 1 < s.stop) := by
    rw [hbytes (size - 1) (by omega) (by omega)]
    exact Nat.one_pos
  rcases List.countP_pos_iff.mp hlast with ⟨s, hs, hin⟩
  rcases List.mem_map.mp hs with ⟨i, hi, rfl⟩
  have hlt := List.mem_range.mp hi
  have hstop := (of_decide_eq_true hin).2
  have hup : ((i : ℤ) + 1) * g.chunkSize ≤ g.chunkCount * g.chunkSize :=
    Int.mul_le_mul_of_nonneg_right (by omega) hpos.le
  dsimp only at hstop
  omega

end Slices

/-! ## Downloads of a file -/

section Files

variable {stored : ℤ → ℤ} {totalSize : ℕ} {mobile : Bool} {requested : ℤ} {l : Link}

def sessionChunkSize (mobile : Bool) (requested : ℤ) (totalSize : ℕ) (l : Link) : ℤ :=
  chooseChunkSizeDownload mobile requested totalSize (fastDownloadChunkMaxFromRequest l)

/-- The handshake starts a session with chunks of 2 to 64 MiB that serves the file. -/
def Downloads (stored : ℤ → ℤ) (totalSize : ℕ) (mobile : Bool) (requested : ℤ) (l : Link) : Prop :=
  ∃ g, initDownloadSession stored totalSize mobile requested (fastDownloadChunkMaxFromRequest l) =
      some g ∧
    mib 2 ≤ g.chunkSize ∧ g.chunkSize ≤ mib 64 ∧ Serves g totalSize

theorem sized_sessionChunkSize : Sized (sessionChunkSize mobile requested totalSize l) := by
  have hbounds := chooseChunkSizeDownload_bounds mobile requested totalSize l
  simp only [mib] at hbounds
  constructor
  · rw [sessionChunkSize]
    omega
  · rw [sessionChunkSize]
    omega

theorem fits_of_downloads (hsize : 0 < totalSize)
    (h : Downloads stored totalSize mobile requested l) :
    Fits stored totalSize (sessionChunkSize mobile requested totalSize l) := by
  rcases h with ⟨g, hg, -, -, hserves⟩
  have hsized : Sized (sessionChunkSize mobile requested totalSize l) := sized_sessionChunkSize
  rw [initDownloadSession, ← sessionChunkSize] at hg
  generalize sessionChunkSize mobile requested totalSize l = chunkSize at hg hsized ⊢
  dsimp only at hg
  split at hg
  · exact nomatch hg
  have hpos : 0 < chunkSize := by
    have hleast := hsized.least
    omega
  have hsize' : (0 : ℤ) < totalSize := Int.natCast_pos.mpr hsize
  have hlast := (chunkCount_bounds hpos totalSize).1
  have hlow := chunkCount_pos hpos hsize'
  rw [Fits]
  generalize (totalSize + chunkSize - 1) / chunkSize = count at hg hlast hlow ⊢
  have hwrap : count.bmod (2 ^ 32) < 2 ^ 31 := Int.bmod_lt (by decide)
  generalize hchunks : (if count.bmod (2 ^ 32) < 1 then 1 else count.bmod (2 ^ 32)) = chunks at hg
  have hchunks1 : 1 ≤ chunks ∧ chunks < 2 ^ 31 := by
    split_ifs at hchunks <;> omega
  rw [← Option.some.inj hg] at hserves
  rcases hserves.fits hsized hsize' hchunks1.1 with ⟨hstored, hbytes, hsum⟩
  dsimp only at hstored hbytes hsum
  -- the count was not cut by the cast
  have hup : count ≤ chunks := by
    have hlt := Int.lt_of_mul_lt_mul_right (hlast.trans_le hbytes) hpos.le
    omega
  have hexact : count.bmod (2 ^ 32) = count := Int.bmod_eq_of_le (by omega) (by omega)
  rw [hexact, if_neg (by omega)] at hchunks
  rw [hchunks]
  exact ⟨hstored, hsum⟩

/-- A file is served in ranges that are not empty and not too long, and any requests whose spans
tile the chunks get every byte once, exactly when its size and its chunks fit. -/
theorem downloads_iff (stored : ℤ → ℤ) (hsize : 0 < totalSize) (mobile : Bool) (requested : ℤ)
    (l : Link) : Downloads stored totalSize mobile requested l ↔
      Fits stored totalSize (sessionChunkSize mobile requested totalSize l) := by
  refine ⟨fits_of_downloads hsize, ?_⟩
  rintro ⟨hstored, hsum⟩
  have hsized : Sized (sessionChunkSize mobile requested totalSize l) := sized_sessionChunkSize
  have hbounds := chooseChunkSizeDownload_bounds mobile requested totalSize l
  have hserves := Serves.of_fits hsized hsum
  rw [sessionChunkSize] at *
  refine ⟨_, ?_, Int.ofNat_le.mpr hbounds.1, Int.ofNat_le.mpr hbounds.2, hserves⟩
  rw [initDownloadSession, hstored]
  generalize ((chooseChunkSizeDownload mobile requested totalSize
    (fastDownloadChunkMaxFromRequest l) : ℕ) : ℤ) = chunkSize at hsized hsum ⊢
  have hleast := hsized.least
  have hmost := hsized.most
  have hpos : 0 < chunkSize := by omega
  have hall := (chunkCount_bounds hpos totalSize).2
  have hlow := chunkCount_pos hpos (Int.natCast_pos.mpr hsize)
  have hone := (clampSpan_bounds hsized 64).1
  dsimp only
  generalize (totalSize + chunkSize - 1) / chunkSize = count at hsum hall hlow ⊢
  have hbytes : count * chunkSize ≤ 2 ^ 31 * chunkSize :=
    Int.mul_le_mul_of_nonneg_right (by omega) hpos.le
  have hexact : count.bmod (2 ^ 32) = count := Int.bmod_eq_of_le (by omega) (by omega)
  rw [hexact, if_neg (by omega), if_neg (by omega)]

/-- A file of one byte. -/
theorem downloads_byte : Downloads id 1 false 0 ⟨none, none, [], false⟩ :=
  (downloads_iff id (by decide) false 0 ⟨none, none, [], false⟩).mpr ⟨rfl, by decide⟩

/-- A sparse file of 2^55 bytes has more chunks than an `int` counts. -/
theorem not_downloads_sparse : ¬ Downloads id (2 ^ 55) true 0 ⟨none, none, [], false⟩ := by
  intro h
  have hfits := fits_of_downloads (by decide) h
  exact absurd hfits.2 (by decide)

end Files

end FlyBoard.Tasfa.Download
