import FlyBoard.Lib.Bytes
import Mathlib.Tactic.SplitIfs

/-!
# Range responses (`src/handlers/file.c`)

`send_cached_file_response` answers with a file or with the part of it that the `Range`
header asks for. It reads `start-end`, `start-` and `-length` with `strtoll` and clamps the
end to the size; a start is compared with the size only when there is no end.
-/

namespace FlyBoard.RangeReply

open Bytes

/-! ## The header -/

/-- The digits at the start of a text: their value up to `clamp`, and what follows. -/
def number (clamp : ℤ → ℤ) (t : Bytes) : Option (ℤ × Bytes) :=
  let ds := t.takeWhile isDigit
  if ds.isEmpty then none else some (clamp (digitsValue ds), t.dropWhile isDigit)

def longMax : ℤ := 2 ^ 63 - 1

/-- `strtoll(p, &end, 10)`; nothing where `end == p`. -/
def strtoll (p : Bytes) : Option (ℤ × Bytes) :=
  match trimLeft isSpace p with
  | 45 :: t => number (fun v => max (-v) (-2 ^ 63)) t
  | 43 :: t => number (min · longMax) t
  | t => number (min · longMax) t

/-- The value that an `off_t` holds. -/
def off (x : ℤ) : ℤ := x.bmod (2 ^ 64)

/-- The value that a `size_t` holds. -/
def toSize (x : ℤ) : ℕ := (x % 2 ^ 64).toNat

/-- `range_start` and `range_end` -/
structure Span where
  start : ℤ
  stop : ℤ
deriving DecidableEq, Repr

/-- `-length` -/
def suffixSpan (size : ℤ) (p : Bytes) : Option Span :=
  (strtoll p).bind fun (val, _) =>
    if 0 < val then
      let val := if size < val then size else val
      some ⟨off (size - val), off (size - 1)⟩
    else none

/-- `start-` and `start-end`, from behind the dash. -/
def spanFrom (size startVal : ℤ) (p : Bytes) : Option Span :=
  match trimLeft isSpace p with
  | [] => if startVal < size then some ⟨startVal, off (size - 1)⟩ else none
  | c :: p =>
    (strtoll (c :: p)).bind fun (endVal, _) =>
      if startVal ≤ endVal then
        some ⟨startVal, if endVal < size then endVal else off (size - 1)⟩
      else none

/-- What the header asks for, from behind `bytes=`; nothing where `is_range` stays false. -/
def spanOf (size : ℤ) (p : Bytes) : Option Span :=
  match trimLeft isSpace p with
  | 45 :: p => suffixSpan size p
  | p =>
    (strtoll p).bind fun (startVal, p) =>
      if 0 ≤ startVal then
        match trimLeft isSpace p with
        | 45 :: p => spanFrom size startVal p
        | _ => none
      else none

def asked (size : ℤ) (rangeHdr : Option Bytes) : Option (Option Span) :=
  (rangeHdr.filter (startsWith · (bytes "bytes="))).map fun h => spanOf size (h.drop 6)

/-! ## The response -/

/-- What happens around the call: the client's copy is fresh, the file opens, the connection
is HTTP/1.1 over TLS, and there the buffer is allocated, filled and adopted. -/
structure Env where
  fresh : Bool
  opens : Bool
  http11Tls : Bool
  allocates : Bool
  fills : Bool
  adopts : Bool

/-- Status, headers and the part of the file that is sent, as its offset and its length. -/
structure Response where
  status : ℕ
  contentRange : Option Bytes
  contentLength : Option Bytes
  body : Option (ℤ × ℕ)
deriving DecidableEq, Repr

/-- `bytes start-end/size` -/
def contentRange (size : ℤ) (r : Span) : Bytes :=
  snprintfS 128 (bytes "bytes " ++ decimalInt r.start ++ bytes "-" ++ decimalInt r.stop ++
    bytes "/" ++ decimalInt size)

/-- `send_cached_file_response`, unless it returns false. -/
def sendCachedFileResponse (env : Env) (size : ℤ) (rangeHdr : Option Bytes) : Option Response :=
  if env.fresh then some ⟨304, none, none, none⟩
  else
    match asked size rangeHdr with
    | some none =>
      some ⟨416, some (snprintfS 128 (bytes "bytes */" ++ decimalInt size)), some (bytes "0"), none⟩
    | r =>
      let r := r.join
      if !env.opens then none
      else if size = 0 then some ⟨200, none, some (bytes "0"), some (0, 0)⟩
      else
        let responseLen := match r with
          | some r => toSize (off (off (r.stop - r.start) + 1))
          | none => toSize size
        let responseOffset := match r with
          | some r => r.start
          | none => 0
        if env.http11Tls && !env.allocates then some ⟨503, none, none, none⟩
        else if env.http11Tls && !(env.fills && env.adopts) then none
        else
          some ⟨if r.isSome then 206 else 200, r.map (contentRange size),
            some (snprintfS 32 (decimal responseLen)), some (responseOffset, responseLen)⟩

/-! ## What the response should be -/

/-- Nothing fails, and the client has no copy. -/
structure Env.Plain (env : Env) : Prop where
  stale : env.fresh = false
  opens : env.opens = true
  sends : env.http11Tls = true → env.allocates = true ∧ env.fills = true ∧ env.adopts = true

abbrev Number := { ds : Bytes // ds ≠ [] ∧ ∀ c ∈ ds, isDigit c = true }

def Number.value (n : Number) : ℕ := digitsValue n.1

inductive Ask
  | between (a b : Number)
  | since (a : Number)
  | last (n : Number)

def Ask.text : Ask → Bytes
  | .between a b => bytes "bytes=" ++ a.1 ++ bytes "-" ++ b.1
  | .since a => bytes "bytes=" ++ a.1 ++ bytes "-"
  | .last n => bytes "bytes=" ++ bytes "-" ++ n.1

def Ask.range (size : ℕ) : Ask → Option (ℕ × ℕ)
  | .between a b =>
    if a.value ≤ b.value ∧ a.value < size then some (a.value, min b.value (size - 1)) else none
  | .since a => if a.value < size then some (a.value, size - 1) else none
  | .last n =>
    if 0 < n.value ∧ 0 < size then some (size - min n.value size, size - 1) else none

def whole (size : ℕ) : Response := ⟨200, none, some (decimal size), some (0, size)⟩

def unsatisfiable (size : ℕ) : Response :=
  ⟨416, some (bytes "bytes */" ++ decimal size), some (bytes "0"), none⟩

/-- The bytes from `start` to `stop`. -/
def part (size start stop : ℕ) : Response :=
  ⟨206, some (bytes "bytes " ++ decimal start ++ bytes "-" ++ decimal stop ++ bytes "/" ++
    decimal size), some (decimal (stop - start + 1)), some (start, stop - start + 1)⟩

def Sound (size : ℕ) (r : Response) : Prop :=
  r = whole size ∨ r = unsatisfiable size ∨
    ∃ start stop, start ≤ stop ∧ stop < size ∧ r = part size start stop

/-- Where nothing fails, the response is sound, and it is the part that is asked for where a
single range can be satisfied. -/
def RangeRight (size : ℕ) (rangeHdr : Option Bytes) : Prop :=
  ∀ env : Env, env.Plain → ∃ r, sendCachedFileResponse env size rangeHdr = some r ∧
    Sound size r ∧
    ∀ ask : Ask, rangeHdr = some ask.text → ∀ p ∈ ask.range size, r = part size p.1 p.2

/-- The header asks for `start-end`, as `strtoll` reads the two numbers, and both lie behind
the end of a file that is not empty. -/
def Beyond (size : ℕ) (rangeHdr : Option Bytes) : Prop :=
  0 < size ∧ ∃ p start t t' stop rest, rangeHdr = some (bytes "bytes=" ++ p) ∧
    (trimLeft isSpace p).head? ≠ some 45 ∧ strtoll (trimLeft isSpace p) = some (start, t) ∧
    trimLeft isSpace t = 45 :: t' ∧ strtoll (trimLeft isSpace t') = some (stop, rest) ∧
    (size : ℤ) ≤ start ∧ start ≤ stop

/-! ## What the header is read as -/

variable {size : ℕ} {p t rest : Bytes} {v : ℤ} {env : Env} {rangeHdr : Option Bytes} {r : Span}

theorem off_eq {x : ℤ} (hlow : -2 ^ 63 ≤ x) (hhigh : x < 2 ^ 63) : off x = x :=
  Int.bmod_eq_of_le (by omega) (by omega)

theorem toSize_eq {n : ℕ} (h : n < 2 ^ 64) : toSize n = n := by
  rw [toSize]
  omega

theorem strtoll_number (n : Number) (h : ∀ c ∈ rest.head?, isDigit c = false) :
    strtoll (n.1 ++ rest) = some (min (n.value : ℤ) longMax, rest) := by
  rcases n with ⟨ds, hne, hdigits⟩
  have htake : (ds ++ rest).takeWhile isDigit = ds := by
    rw [List.takeWhile_append_of_pos hdigits]
    cases rest with
    | nil => exact List.append_nil ds
    | cons c rest =>
      rw [List.takeWhile_cons_of_neg (by rw [h c rfl]; exact Bool.false_ne_true), List.append_nil]
  have hdrop : (ds ++ rest).dropWhile isDigit = rest := by
    rw [List.dropWhile_append_of_pos hdigits]
    cases rest with
    | nil => rfl
    | cons c rest =>
      rw [List.dropWhile_cons_of_neg (by rw [h c rfl]; exact Bool.false_ne_true)]
  have hnumber : number (min · longMax) (ds ++ rest) =
      some (min (digitsValue ds : ℤ) longMax, rest) := by
    rw [number, htake, hdrop, List.isEmpty_eq_false_iff.mpr hne, if_neg Bool.false_ne_true]
  cases ds with
  | nil => exact absurd rfl hne
  | cons d ds =>
    have hd : isDigit d = true := hdigits d List.mem_cons_self
    have htrim : trimLeft isSpace (d :: ds ++ rest) = d :: (ds ++ rest) := by
      rw [trimLeft, List.cons_append, List.dropWhile_cons_of_neg]
      rw [isSpace_of_isDigit hd]
      exact Bool.false_ne_true
    unfold strtoll
    rw [htrim]
    split
    · next heq =>
      rw [(List.cons.inj heq).1] at hd
      exact absurd hd (by decide)
    · next heq =>
      rw [(List.cons.inj heq).1] at hd
      exact absurd hd (by decide)
    · exact hnumber

theorem strtoll_end (n : Number) : strtoll n.1 = some (min (n.value : ℤ) longMax, []) := by
  have h : ∀ c ∈ ([] : Bytes).head?, isDigit c = false := fun c hc => nomatch hc
  have hnumber := strtoll_number n h
  rwa [List.append_nil] at hnumber

theorem trimLeft_number (n : Number) (rest : Bytes) :
    ∃ d t, trimLeft isSpace (n.1 ++ rest) = d :: t ∧ d :: t = n.1 ++ rest ∧ d ≠ 45 := by
  rcases n with ⟨_ | ⟨d, ds⟩, hne, hdigits⟩
  · exact absurd rfl hne
  · have hd : isDigit d = true := hdigits d List.mem_cons_self
    refine ⟨d, ds ++ rest, ?_, rfl, ?_⟩
    · rw [trimLeft, List.cons_append, List.dropWhile_cons_of_neg]
      rw [isSpace_of_isDigit hd]
      exact Bool.false_ne_true
    · rintro rfl
      exact absurd hd (by decide)

def Span.Inside (size : ℕ) (r : Span) : Prop :=
  ∃ start stop : ℕ, start ≤ stop ∧ stop < size ∧ r = ⟨start, stop⟩

theorem suffixSpan_inside (hpos : 0 < size) (hsize : size < 2 ^ 63)
    (h : suffixSpan size p = some r) : r.Inside size := by
  rcases Option.bind_eq_some_iff.mp h with ⟨⟨val, rest⟩, -, hspan⟩
  dsimp only at hspan
  split at hspan
  · rename_i hval
    rw [Option.some_inj] at hspan
    refine ⟨size - (min val size).toNat, size - 1, by omega, by omega, ?_⟩
    rw [← hspan, off_eq (by omega) (by omega)]
    split
    · rw [off_eq (by omega) (by omega), Span.mk.injEq]
      omega
    · rw [off_eq (by omega) (by omega), Span.mk.injEq]
      omega
  · exact nomatch hspan

/-- A span from a start lies in the file, or both of its numbers lie behind it. -/
theorem spanFrom_cases {startVal : ℤ} (hpos : 0 < size) (hsize : size < 2 ^ 63)
    (hstart : 0 ≤ startVal) (h : spanFrom size startVal p = some r) :
    r.Inside size ∨ (size : ℤ) ≤ r.start ∧ r.start = startVal ∧
      ∃ stop rest, strtoll (trimLeft isSpace p) = some (stop, rest) ∧ startVal ≤ stop := by
  unfold spanFrom at h
  split at h
  · rw [Option.ite_none_right_eq_some, Option.some_inj] at h
    left
    refine ⟨startVal.toNat, size - 1, by omega, by omega, ?_⟩
    rw [← h.2, off_eq (by omega) (by omega), Span.mk.injEq]
    omega
  · rename_i c t htrim
    rcases Option.bind_eq_some_iff.mp h with ⟨⟨endVal, rest⟩, hend, hspan⟩
    dsimp only at hspan
    rw [Option.ite_none_right_eq_some, Option.some_inj, off_eq (by omega) (by omega)] at hspan
    rcases hspan with ⟨hle, rfl⟩
    by_cases hin : startVal < size
    · left
      refine ⟨startVal.toNat, (min endVal (size - 1)).toNat, by omega, by omega, ?_⟩
      rw [Span.mk.injEq]
      split
      · omega
      · omega
    · right
      rw [htrim]
      exact ⟨Int.not_lt.mp hin, rfl, endVal, rest, hend, hle⟩

theorem spanOf_cases (hpos : 0 < size) (hsize : size < 2 ^ 63) (h : spanOf size p = some r) :
    r.Inside size ∨ (size : ℤ) ≤ r.start ∧ Beyond size (some (bytes "bytes=" ++ p)) := by
  unfold spanOf at h
  split at h
  · exact .inl (suffixSpan_inside hpos hsize h)
  · rename_i hdash
    rcases Option.bind_eq_some_iff.mp h with ⟨⟨startVal, t⟩, hstart, hspan⟩
    dsimp only at hspan
    split at hspan
    · rename_i hnonneg
      split at hspan
      · rename_i t' ht'
        rcases spanFrom_cases hpos hsize hnonneg hspan with hin | ⟨hge, heq, stop, rest, hstop, hle⟩
        · exact .inl hin
        · right
          refine ⟨hge, hpos, p, startVal, t, t', stop, rest, rfl, ?_, hstart, ht', hstop,
            heq ▸ hge, hle⟩
          intro hhead
          rcases List.head?_eq_some_iff.mp hhead with ⟨q, hq⟩
          exact hdash q hq
      · exact nomatch hspan
    · exact nomatch hspan

/-- A header of that form gives a span that begins behind the end. -/
theorem spanOf_of_beyond (h : Beyond size (some (bytes "bytes=" ++ p))) :
    ∃ r, spanOf size p = some r ∧ (size : ℤ) ≤ r.start := by
  rcases h with ⟨hpos, q, start, t, t', stop, rest, hhdr, hhead, hstart, ht, hstop, hge, hle⟩
  have hp : q = p := (List.append_cancel_left (Option.some_inj.mp hhdr)).symm
  subst hp
  unfold spanOf
  split
  · next heq =>
    rw [heq] at hhead
    exact absurd rfl hhead
  · rw [hstart, Option.bind_some]
    dsimp only
    rw [if_pos (by omega), ht]
    change ∃ r, spanFrom size start t' = some r ∧ _
    unfold spanFrom
    split
    · next heq =>
      rw [heq] at hstop
      exact nomatch hstop
    · next heq =>
      rw [heq] at hstop
      rw [hstop, Option.bind_some]
      dsimp only
      rw [if_pos hle]
      exact ⟨_, rfl, hge⟩

theorem spanOf_ask (hsize : size < 2 ^ 63) {ask : Ask} {start stop : ℕ}
    (h : ask.range size = some (start, stop)) :
    ∃ p, ask.text = bytes "bytes=" ++ p ∧ spanOf size p = some ⟨start, stop⟩ := by
  have hmax : longMax = 2 ^ 63 - 1 := rfl
  cases ask with
  | between a b =>
    refine ⟨a.1 ++ 45 :: b.1, ?_, ?_⟩
    · rw [Ask.text, List.append_assoc, List.append_assoc]
      rfl
    · rw [Ask.range, Option.ite_none_right_eq_some, Option.some_inj, Prod.mk.injEq] at h
      rcases h with ⟨⟨hab, hlt⟩, rfl, rfl⟩
      rcases trimLeft_number a (45 :: b.1) with ⟨d, t, htrim, ha, hd⟩
      rcases trimLeft_number b [] with ⟨d', t', htrim', hb, -⟩
      rw [List.append_nil] at htrim' hb
      have hdash : ∀ c ∈ (45 :: b.1).head?, isDigit c = false := by
        intro c hc
        rw [List.head?_cons, Option.mem_some_iff] at hc
        rw [← hc]
        decide
      unfold spanOf
      rw [htrim]
      split
      · next heq => exact absurd (List.cons.inj heq).1 hd
      · rw [ha, strtoll_number a hdash, Option.bind_some]
        dsimp only
        have htail : trimLeft isSpace (45 :: b.1) = 45 :: b.1 := by
          rw [trimLeft, List.dropWhile_cons_of_neg (by decide)]
        rw [if_pos (by omega), htail]
        change spanFrom size _ b.1 = _
        unfold spanFrom
        rw [htrim']
        dsimp only
        rw [hb, strtoll_end, Option.bind_some]
        dsimp only
        rw [if_pos (by omega), off_eq (by omega) (by omega), Option.some_inj, Span.mk.injEq]
        split
        · omega
        · omega
  | since a =>
    refine ⟨a.1 ++ [45], ?_, ?_⟩
    · rw [Ask.text, List.append_assoc]
      rfl
    · rw [Ask.range, Option.ite_none_right_eq_some, Option.some_inj, Prod.mk.injEq] at h
      rcases h with ⟨hlt, rfl, rfl⟩
      rcases trimLeft_number a [45] with ⟨d, t, htrim, ha, hd⟩
      have hdash : ∀ c ∈ ([45] : Bytes).head?, isDigit c = false := by
        rintro c ⟨⟩
        rfl
      have htail : trimLeft isSpace [45] = [45] := by decide
      unfold spanOf
      rw [htrim]
      split
      · next heq => exact absurd (List.cons.inj heq).1 hd
      · rw [ha, strtoll_number a hdash, Option.bind_some]
        dsimp only
        have hrest : trimLeft isSpace [] = [] := rfl
        rw [if_pos (by omega), htail]
        change spanFrom size _ [] = _
        unfold spanFrom
        rw [hrest]
        dsimp only
        rw [if_pos (by omega), off_eq (by omega) (by omega), Option.some_inj, Span.mk.injEq]
        omega
  | last n =>
    refine ⟨45 :: n.1, ?_, ?_⟩
    · rw [Ask.text, List.append_assoc]
      rfl
    · rw [Ask.range, Option.ite_none_right_eq_some, Option.some_inj, Prod.mk.injEq] at h
      rcases h with ⟨⟨hn, hpos⟩, rfl, rfl⟩
      have htrim : trimLeft isSpace (45 :: n.1) = 45 :: n.1 := by
        rw [trimLeft, List.dropWhile_cons_of_neg (by decide)]
      unfold spanOf
      rw [htrim]
      change suffixSpan size n.1 = _
      unfold suffixSpan
      rw [strtoll_end, Option.bind_some]
      dsimp only
      rw [if_pos (by omega), off_eq (by omega) (by omega), Option.some_inj]
      split
      · rw [off_eq (by omega) (by omega), Span.mk.injEq]
        omega
      · rw [off_eq (by omega) (by omega), Span.mk.injEq]
        omega

/-! ## The response to it -/

theorem asked_text (size : ℕ) (p : Bytes) :
    asked size (some (bytes "bytes=" ++ p)) = some (spanOf size p) := by
  have hprefix : startsWith (bytes "bytes=" ++ p) (bytes "bytes=") = true :=
    startsWith_iff.mpr (List.prefix_append _ _)
  have hfilter : (some (bytes "bytes=" ++ p)).filter (startsWith · (bytes "bytes=")) =
      some (bytes "bytes=" ++ p) := Option.filter_some_pos hprefix
  rw [asked, hfilter, Option.map_some]
  rfl

theorem asked_cases {span : Option Span} (h : asked size rangeHdr = some span) :
    ∃ p, rangeHdr = some (bytes "bytes=" ++ p) ∧ spanOf size p = span := by
  rcases Option.map_eq_some_iff.mp h with ⟨hdr, hfilter, hspan⟩
  rcases Option.filter_eq_some_iff.mp hfilter with ⟨rfl, hprefix⟩
  rcases startsWith_iff.mp hprefix with ⟨p, rfl⟩
  exact ⟨p, rfl, hspan⟩

theorem decimal_short (hsize : size < 2 ^ 63) : (decimal size).length ≤ 19 :=
  length_decimal_le (by decide) (by omega)

theorem decimalInt_nat (n : ℕ) : decimalInt n = decimal n := by
  rw [decimalInt, if_neg (by omega), Int.natAbs_natCast]

theorem send_whole (henv : env.Plain) (hsize : size < 2 ^ 63) (h : asked size rangeHdr = none) :
    sendCachedFileResponse env size rangeHdr = some (whole size) := by
  have hshort := decimal_short hsize
  have hprint : snprintfS 32 (decimal size) = decimal size :=
    List.take_of_length_le (by omega)
  rcases henv with ⟨hstale, hopens, hsends⟩
  unfold sendCachedFileResponse
  rw [hstale, if_neg Bool.false_ne_true, h]
  dsimp only
  rw [hopens, if_neg (by decide), Option.join_none]
  split
  · rename_i hzero
    have hzero' : size = 0 := by omega
    rw [hzero']
    rfl
  · cases htls : env.http11Tls with
    | false => simp [toSize_eq (by omega : size < 2 ^ 64), hprint, whole]
    | true =>
      rcases hsends htls with ⟨hallocates, hfills, hadopts⟩
      simp [hallocates, hfills, hadopts, toSize_eq (by omega : size < 2 ^ 64), hprint, whole]

theorem send_unsatisfiable (henv : env.Plain) (hsize : size < 2 ^ 63)
    (h : asked size rangeHdr = some none) :
    sendCachedFileResponse env size rangeHdr = some (unsatisfiable size) := by
  have hshort := decimal_short hsize
  have hprint : snprintfS 128 (bytes "bytes */" ++ decimal size) =
      bytes "bytes */" ++ decimal size := by
    apply List.take_of_length_le
    rw [List.length_append]
    have hlen : (bytes "bytes */").length = 8 := by decide
    omega
  unfold sendCachedFileResponse
  rw [henv.stale, if_neg Bool.false_ne_true, h]
  dsimp only
  rw [decimalInt_nat, hprint, unsatisfiable]

theorem send_span (henv : env.Plain) (hpos : 0 < size) (h : asked size rangeHdr = some (some r)) :
    sendCachedFileResponse env size rangeHdr =
      some ⟨206, some (contentRange size r),
        some (snprintfS 32 (decimal (toSize (off (off (r.stop - r.start) + 1))))),
        some (r.start, toSize (off (off (r.stop - r.start) + 1)))⟩ := by
  rcases henv with ⟨hstale, hopens, hsends⟩
  unfold sendCachedFileResponse
  rw [hstale, if_neg Bool.false_ne_true, h]
  dsimp only
  rw [hopens, if_neg (by decide), Option.join_some, if_neg (by omega)]
  cases htls : env.http11Tls with
  | false => simp
  | true =>
    rcases hsends htls with ⟨hallocates, hfills, hadopts⟩
    simp [hallocates, hfills, hadopts]

theorem send_empty (henv : env.Plain) (h : asked 0 rangeHdr = some (some r)) :
    sendCachedFileResponse env 0 rangeHdr = some (whole 0) := by
  unfold sendCachedFileResponse
  rw [henv.stale, if_neg Bool.false_ne_true, h]
  dsimp only
  rw [henv.opens, if_neg (by decide), if_pos rfl]
  rfl

theorem send_inside (henv : env.Plain) (hsize : size < 2 ^ 63) {start stop : ℕ}
    (hle : start ≤ stop) (hlt : stop < size) (h : asked size rangeHdr = some (some ⟨start, stop⟩)) :
    sendCachedFileResponse env size rangeHdr = some (part size start stop) := by
  have hlen : toSize (off (off ((stop : ℤ) - start) + 1)) = stop - start + 1 := by
    have hdiff : off ((stop : ℤ) - start) = stop - start := off_eq (by omega) (by omega)
    rw [hdiff, off_eq (by omega) (by omega), toSize]
    omega
  have hrange : contentRange size ⟨start, stop⟩ = bytes "bytes " ++ decimal start ++ bytes "-" ++
      decimal stop ++ bytes "/" ++ decimal size := by
    rw [contentRange, decimalInt_nat, decimalInt_nat, decimalInt_nat]
    apply List.take_of_length_le
    have h1 := decimal_short (by omega : start < 2 ^ 63)
    have h2 := decimal_short (by omega : stop < 2 ^ 63)
    have h3 := decimal_short hsize
    have hwords : (bytes "bytes ").length = 6 ∧ (bytes "-").length = 1 ∧
        (bytes "/").length = 1 := by decide
    simp only [List.length_append]
    omega
  have hprint : snprintfS 32 (decimal (stop - start + 1)) = decimal (stop - start + 1) := by
    apply List.take_of_length_le
    have hshort := decimal_short (by omega : stop - start + 1 < 2 ^ 63)
    omega
  rw [send_span henv (by omega) h, hlen, hrange, hprint, part]

theorem not_sound_of_beyond (henv : env.Plain) (hpos : 0 < size)
    (hge : (size : ℤ) ≤ r.start) (h : asked size rangeHdr = some (some r)) :
    ∀ reply, sendCachedFileResponse env size rangeHdr = some reply → ¬ Sound size reply := by
  intro reply hreply hsound
  rw [send_span henv hpos h, Option.some_inj] at hreply
  rcases hsound with hwhole | hnone | ⟨start, stop, hle, hlt, hpart⟩
  · rw [hwhole, whole, Response.mk.injEq] at hreply
    exact absurd hreply.1 (by decide)
  · rw [hnone, unsatisfiable, Response.mk.injEq] at hreply
    exact absurd hreply.1 (by decide)
  · rw [hpart, part, Response.mk.injEq] at hreply
    have hbody := Option.some_inj.mp hreply.2.2.2
    rw [Prod.mk.injEq] at hbody
    omega

def plainEnv : Env := ⟨false, true, false, true, true, true⟩

theorem plain_plainEnv : plainEnv.Plain := ⟨rfl, rfl, nofun⟩

/-- The response is right exactly if the header does not ask for a start and an end that both
lie behind the end of the file. -/
theorem rangeRight_iff (hsize : size < 2 ^ 63) (rangeHdr : Option Bytes) :
    RangeRight size rangeHdr ↔ ¬ Beyond size rangeHdr := by
  constructor
  · intro h hbeyond
    rcases id hbeyond with ⟨hpos, p, -, -, -, -, -, rfl, -⟩
    rcases spanOf_of_beyond hbeyond with ⟨r, hr, hge⟩
    have hasked : asked size (some (bytes "bytes=" ++ p)) = some (some r) := by
      rw [asked_text, hr]
    rcases h plainEnv plain_plainEnv with ⟨reply, hreply, hsound, -⟩
    exact not_sound_of_beyond plain_plainEnv hpos hge hasked reply hreply hsound
  · intro hbeyond env henv
    -- What a single range that can be satisfied is read as.
    have hask : ∀ ask : Ask, rangeHdr = some ask.text → ∀ q ∈ ask.range size,
        asked size rangeHdr = some (some ⟨q.1, q.2⟩) := by
      rintro ask rfl ⟨start, stop⟩ hq
      rcases spanOf_ask hsize hq with ⟨p, htext, hspan⟩
      rw [htext, asked_text, hspan]
    cases hasked : asked size rangeHdr with
    | none =>
      refine ⟨whole size, send_whole henv hsize hasked, .inl rfl, ?_⟩
      intro ask htext q hq
      have hspan := hask ask htext q hq
      rw [hasked] at hspan
      exact nomatch hspan
    | some span =>
      cases span with
      | none =>
        refine ⟨unsatisfiable size, send_unsatisfiable henv hsize hasked, .inr (.inl rfl), ?_⟩
        intro ask htext q hq
        have hspan := hask ask htext q hq
        rw [hasked] at hspan
        exact nomatch hspan
      | some r =>
        rcases Nat.eq_zero_or_pos size with rfl | hpos
        · refine ⟨whole 0, send_empty henv hasked, .inl rfl, ?_⟩
          intro ask htext q hq
          cases ask <;> simp [Ask.range] at hq
        · rcases asked_cases hasked with ⟨p, rfl, hspan⟩
          rcases spanOf_cases hpos hsize hspan with ⟨start, stop, hle, hlt, rfl⟩ | ⟨-, hbad⟩
          · refine ⟨part size start stop, send_inside henv hsize hle hlt hasked,
              .inr (.inr ⟨start, stop, hle, hlt, rfl⟩), ?_⟩
            intro ask htext q hq
            have hsame := hask ask htext q hq
            rw [hasked, Option.some_inj, Option.some_inj, Span.mk.injEq] at hsame
            rw [Int.natCast_inj.mp hsame.1, Int.natCast_inj.mp hsame.2]
          · exact absurd hbad hbeyond

/-- The last bytes of a short file. -/
theorem tail_right : RangeRight 10 (some (bytes "bytes=-4")) := by
  refine (rangeRight_iff (by decide) _).mpr ?_
  rintro ⟨-, p, start, t, t', stop, rest, hhdr, hhead, -⟩
  have htext : bytes "bytes=" ++ bytes "-4" = bytes "bytes=" ++ p := Option.some_inj.mp hhdr
  have hp : p = bytes "-4" := (List.append_cancel_left htext).symm
  rw [hp] at hhead
  exact hhead rfl

/-- A range behind the end of the file is sent as a part of nearly 2⁶⁴ bytes. -/
theorem range_past_end_wrong :
    ¬ RangeRight 10 (some (bytes "bytes=20-29")) ∧
      sendCachedFileResponse plainEnv 10 (some (bytes "bytes=20-29")) =
        some ⟨206, some (bytes "bytes 20-9/10"), some (bytes "18446744073709551606"),
          some (20, 18446744073709551606)⟩ := by
  have hasked : asked (10 : ℕ) (some (bytes "bytes=20-29")) = some (some ⟨20, 9⟩) := by decide
  constructor
  · intro h
    rcases h plainEnv plain_plainEnv with ⟨reply, hreply, hsound, -⟩
    exact not_sound_of_beyond plain_plainEnv (by decide) (by decide) hasked reply hreply hsound
  · decide

end FlyBoard.RangeReply
