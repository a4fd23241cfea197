import FlyBoard.Lib.Reader

/-!
# Stored replies (`src/engine/bdr.c`)

`engine_bdr_store` writes a finished reply into one byte string, and `engine_bdr_serve` reads
such a string twice: once to see that it is whole, and once to fill the response. Numbers are
in host byte order, here the low byte first.

The header list of the web framework is a parameter; `HeaderApi.Lawful` says what the code
relies on.
-/

namespace FlyBoard.BdrBlob

open Bytes Reader

/-! ## Responses -/

structure Header where
  name : Bytes
  value : Bytes
  name_cstr : 0 ∉ name
  value_cstr : 0 ∉ value
deriving DecidableEq

/-- What a header is made of the content of two buffers. -/
def headerOf (name value : Bytes) : Header where
  name := cstr name
  value := cstr value
  name_cstr hmem := absurd (List.mem_takeWhile_imp hmem) (by decide)
  value_cstr hmem := absurd (List.mem_takeWhile_imp hmem) (by decide)

structure Response where
  status : ℕ
  headers : List Header
  body : Bytes
  useFileStream : Bool
  streamMode : Bool
  /-- `ptr_body`, when `is_ptr_body`. -/
  ptrBody : Option Bytes
deriving DecidableEq

def Response.content (res : Response) : Bytes := res.ptrBody.getD res.body

/-- `cwist_http_header_add`, `cwist_http_header_remove` with what it returns, and
`cwist_http_header_get`. -/
structure HeaderApi where
  add : List Header → Header → List Header
  remove : List Header → Bytes → List Header × ℕ
  get : List Header → Bytes → Option Bytes

/-- Headers are added at the end; a removal takes headers of the name away, and tells how
many. -/
structure HeaderApi.Lawful (api : HeaderApi) : Prop where
  add_eq : ∀ hs h, api.add hs h = hs ++ [h]
  remove_sublist : ∀ hs name, (api.remove hs name).1.Sublist hs
  remove_lt : ∀ hs name, (api.remove hs name).2 ≠ 0 → (api.remove hs name).1.length < hs.length
  remove_ne_zero : ∀ hs, ∀ h ∈ hs, (api.remove hs h.name).2 ≠ 0

inductive Method
  | get
  | head
  | other
deriving DecidableEq

/-- `g_enabled`, `g_ttl_sec` and the header list. -/
structure Env where
  enabled : Bool
  ttlSec : ℤ
  api : HeaderApi

/-- `BDR_MAGIC` -/
def bdrMagic : ℕ := 0x52444246

/-- `BDR_BODY_MAX` -/
def bdrBodyMax : ℕ := 8 * 2 ^ 20

/-! ## Writing -/

def wrSpan (s : Bytes) : Bytes := le 4 s.length ++ s

def patch (buf : Bytes) (off : ℕ) (s : Bytes) : Bytes :=
  buf.take off ++ s ++ buf.drop (off + s.length)

def wrHeaders (hs : List Header) : Bytes := hs.flatMap fun h => wrSpan h.name ++ wrSpan h.value

/-- What `engine_bdr_store` writes of a response. The count of the headers is patched in when
they are written. -/
def writeBlob (res : Response) (key : Bytes) (version : UInt64) (created : BitVec 64) : Bytes :=
  let w := le 4 bdrMagic ++ le 8 version.toNat ++ le 8 created.toNat ++ le 4 res.status ++
    wrSpan key
  let countAt := w.length
  let w := w ++ le 4 0 ++ wrHeaders res.headers ++ le 8 res.content.length ++ res.content
  patch w countAt (le 4 res.headers.length)

/-- `engine_bdr_store`: what is put into the store. `failed`: the buffer could not grow. -/
def engineBdrStore (env : Env) (method : Method) (failed : Bool) (key : Bytes) (version : UInt64)
    (now : BitVec 64) (res : Response) : Option Bytes :=
  if !env.enabled || key.isEmpty then none
  else if method ≠ .get then none
  else if res.status ≠ 200 then none
  else if res.useFileStream || res.streamMode then none
  else if (env.api.get res.headers (bytes "Set-Cookie")).isSome then none
  else if (env.api.get res.headers (bytes "X-Fly-Cache-Status")).isSome then none
  else if bdrBodyMax < res.content.length then none
  else if failed then none
  else some (writeBlob res key version now)

/-! ## Reading -/

/-- `rd`: the bytes, and the offset after them. -/
def rd (blob : Bytes) (p n : ℕ) : Except Stop (Bytes × ℕ) := do
  let next ← skip blob p n
  let s ← fetch blob p n
  return (s, next)

/-- `rd_span`: where the text begins, its length and the offset after it. -/
def rdSpan (blob : Bytes) (p : ℕ) : Except Stop (ℕ × ℕ × ℕ) := do
  let (s, start) ← rd blob p 4
  let next ← skip blob start (leValue s)
  return (start, leValue s, next)

def skipHeaders (blob : Bytes) : (count p : ℕ) → Except Stop ℕ
  | 0, p => return p
  | count + 1, p => do
    let (_, _, p) ← rdSpan blob p
    let (_, _, p) ← rdSpan blob p
    skipHeaders blob count p

def rdHeader (blob : Bytes) (p : ℕ) : Except Stop ((ℕ × ℕ) × (ℕ × ℕ) × ℕ) := do
  let (k, kl, p) ← rdSpan blob p
  let (v, vl, p) ← rdSpan blob p
  return ((k, kl), (v, vl), p)

/-- The second pass, which fills the response. `oom i`: there is no memory for the value of
the header. -/
def addHeaders (api : HeaderApi) (oom : ℕ → Bool) (blob : Bytes) :
    (count i p : ℕ) → List Header → Except Stop (List Header)
  | 0, _, _, hs => return hs
  | count + 1, i, p, hs =>
    match rdHeader blob p with
    | .error .fault => .error .fault
    | .error .reject => return hs
    | .ok ((k, kl), (v, vl), p) => do
      -- `char kbuf[256]`
      if oom i || 256 ≤ kl then addHeaders api oom blob count (i + 1) p hs
      else
        let name ← fetch blob k kl
        let value ← fetch blob v vl
        addHeaders api oom blob count (i + 1) p (api.add hs (headerOf name value))

/-- `clear_headers`, with `char name[256]`; a removal that removes something leaves fewer. -/
def clearHeaders (api : HeaderApi) : (fuel : ℕ) → List Header → List Header
  | 0, hs => hs
  | _ + 1, [] => []
  | fuel + 1, h :: hs =>
    let r := api.remove (h :: hs) (snprintfS 256 h.name)
    if r.2 = 0 then r.1 else clearHeaders api fuel r.1

def hitHeader : Header where
  name := bytes "X-Fly-BDR"
  value := bytes "hit"
  name_cstr := by decide
  value_cstr := by decide

/-- What the first pass of `engine_bdr_serve` finds. -/
structure Layout where
  status : ℕ
  count : ℕ
  headersAt : ℕ
  bodyAt : ℕ
  bodyLen : ℕ

/-- The fields before the headers: status and count, and the offset after them. `version` is
`engine_bdr_version_for_key(key)`. -/
def readHead (env : Env) (key : Bytes) (version : UInt64) (now : BitVec 64) (blob : Bytes) :
    Except Stop (ℕ × ℕ × ℕ) := do
  let (magic, p) ← rd blob 0 4
  check (leValue magic == bdrMagic)
  let (stamp, p) ← rd blob p 8
  let (created, p) ← rd blob p 8
  let (status, p) ← rd blob p 4
  let (keyAt, keyLen, p) ← rdSpan blob p
  check (keyLen == key.length)
  let storedKey ← fetch blob keyAt keyLen
  check (storedKey == key)
  let (count, p) ← rd blob p 4
  check (leValue stamp == version.toNat)
  check (now.toInt - (BitVec.ofNat 64 (leValue created)).toInt ≤ env.ttlSec)
  return (leValue status, leValue count, p)

def validate (env : Env) (key : Bytes) (version : UInt64) (now : BitVec 64) (blob : Bytes) :
    Except Stop Layout := do
  let (status, count, headersAt) ← readHead env key version now blob
  let p ← skipHeaders blob count headersAt
  let (bodyLen, p) ← rd blob p 8
  check (blob.length - p == leValue bodyLen)
  return ⟨status, count, headersAt, p, leValue bodyLen⟩

def fill (env : Env) (oom : ℕ → Bool) (method : Method) (blob : Bytes) (res : Response)
    (l : Layout) : Except Stop Response := do
  let headers ← addHeaders env.api oom blob l.count 0 l.headersAt
    (clearHeaders env.api res.headers.length res.headers)
  let body ← if method = .head then pure [] else fetch blob l.bodyAt l.bodyLen
  return { res with
    status := l.status
    headers := env.api.add headers hitHeader
    body := body }

/-- `engine_bdr_serve`: what it returns and the response after it; `none` stands for a read
outside of the stored string. -/
def engineBdrServe (env : Env) (oom : ℕ → Bool) (method : Method) (key : Bytes)
    (version : UInt64) (now : BitVec 64) (stored : Option Bytes) (res : Response) :
    Option (Bool × Response) :=
  if !env.enabled then some (false, res)
  else
    match stored with
    | none => some (false, res)
    | some blob =>
      match validate env key version now blob >>= fill env oom method blob res with
      | .ok res' => some (true, res')
      | .error .reject => some (false, res)
      | .error .fault => none

/-! ## Reads stay inside -/

section Safe

variable {blob : Bytes} {p n : ℕ} {api : HeaderApi} {oom : ℕ → Bool}

theorem safe_rd (h : p ≤ blob.length) :
    Safe (fun r => r.2 = p + n ∧ r.2 ≤ blob.length) (rd blob p n) := by
  refine (safe_skip h).bind ?_
  rintro next ⟨rfl, hnext⟩
  exact (safe_fetch hnext).bind fun _ _ => ⟨rfl, hnext⟩

theorem safe_rdSpan (h : p ≤ blob.length) :
    Safe (fun r => r.1 + r.2.1 ≤ blob.length ∧ r.2.2 ≤ blob.length) (rdSpan blob p) := by
  refine (safe_rd h).bind ?_
  rintro ⟨s, start⟩ ⟨-, hstart⟩
  refine (safe_skip hstart).bind ?_
  rintro next ⟨rfl, hnext⟩
  exact ⟨hnext, hnext⟩

theorem safe_skipHeaders (count : ℕ) (h : p ≤ blob.length) :
    Safe (fun q => q ≤ blob.length) (skipHeaders blob count p) := by
  induction count generalizing p with
  | zero => exact h
  | succ count ih =>
    refine (safe_rdSpan h).bind ?_
    rintro ⟨_, _, q⟩ ⟨-, hq⟩
    refine (safe_rdSpan hq).bind ?_
    rintro ⟨_, _, q'⟩ ⟨-, hq'⟩
    exact ih hq'

theorem safe_rdHeader (h : p ≤ blob.length) :
    Safe (fun r => r.1.1 + r.1.2 ≤ blob.length ∧ r.2.1.1 + r.2.1.2 ≤ blob.length ∧
      r.2.2 ≤ blob.length) (rdHeader blob p) := by
  refine (safe_rdSpan h).bind ?_
  rintro ⟨k, kl, q⟩ ⟨hk, hq⟩
  refine (safe_rdSpan hq).bind ?_
  rintro ⟨v, vl, q'⟩ ⟨hv, hq'⟩
  exact ⟨hk, hv, hq'⟩

theorem exists_addHeaders (count i : ℕ) (hs : List Header) (h : p ≤ blob.length) :
    ∃ hs', addHeaders api oom blob count i p hs = .ok hs' := by
  induction count generalizing i p hs with
  | zero => exact ⟨hs, rfl⟩
  | succ count ih =>
    have hsafe := safe_rdHeader h
    rw [addHeaders]
    cases hread : rdHeader blob p with
    | error e =>
      rw [hread] at hsafe
      cases e with
      | fault => exact hsafe.elim
      | reject => exact ⟨hs, rfl⟩
    | ok r =>
      rw [hread] at hsafe
      rcases r with ⟨⟨k, kl⟩, ⟨v, vl⟩, q⟩
      rcases hsafe with ⟨hk, hv, hq⟩
      dsimp only
      split
      · exact ih _ _ hq
      · rw [fetch, if_pos hk, fetch, if_pos hv]
        exact ih _ _ hq

theorem safe_readHead (env : Env) (key : Bytes) (version : UInt64) (now : BitVec 64)
    (blob : Bytes) :
    Safe (fun r => r.2.2 ≤ blob.length) (readHead env key version now blob) := by
  refine (safe_rd (Nat.zero_le _)).bind ?_
  rintro ⟨magic, p⟩ ⟨-, hp⟩
  refine safe_check_bind fun _ => ?_
  refine (safe_rd hp).bind ?_
  rintro ⟨stamp, p⟩ ⟨-, hp⟩
  refine (safe_rd hp).bind ?_
  rintro ⟨created, p⟩ ⟨-, hp⟩
  refine (safe_rd hp).bind ?_
  rintro ⟨status, p⟩ ⟨-, hp⟩
  refine (safe_rdSpan hp).bind ?_
  rintro ⟨keyAt, keyLen, p⟩ ⟨hkey, hp⟩
  refine safe_check_bind fun _ => ?_
  refine (safe_fetch hkey).bind ?_
  intro storedKey _
  refine safe_check_bind fun _ => ?_
  refine (safe_rd hp).bind ?_
  rintro ⟨count, p⟩ ⟨-, hp⟩
  refine safe_check_bind fun _ => ?_
  exact safe_check_bind fun _ => hp

theorem safe_validate (env : Env) (key : Bytes) (version : UInt64) (now : BitVec 64)
    (blob : Bytes) :
    Safe (fun l => l.headersAt ≤ blob.length ∧ l.bodyAt + l.bodyLen = blob.length)
      (validate env key version now blob) := by
  refine (safe_readHead env key version now blob).bind ?_
  rintro ⟨status, count, headersAt⟩ hheaders
  refine (safe_skipHeaders count hheaders).bind ?_
  intro p hp
  refine (safe_rd hp).bind ?_
  rintro ⟨bodyLen, q⟩ ⟨-, hq⟩
  refine safe_check_bind fun hlen => ⟨hheaders, ?_⟩
  rw [beq_iff_eq] at hlen
  dsimp only at hq ⊢
  omega

theorem exists_fill (env : Env) (oom : ℕ → Bool) (method : Method)
    (res : Response) {l : Layout} (hheaders : l.headersAt ≤ blob.length)
    (hbody : l.bodyAt + l.bodyLen = blob.length) :
    ∃ res', fill env oom method blob res l = .ok res' := by
  rcases exists_addHeaders l.count 0 (clearHeaders env.api res.headers.length res.headers)
    hheaders with ⟨headers, heq⟩
  unfold fill
  rw [heq]
  dsimp only [bind, Except.bind]
  split
  · exact ⟨_, rfl⟩
  · rw [fetch, if_pos (Nat.le_of_eq hbody)]
    exact ⟨_, rfl⟩

theorem engineBdrServe_cases (env : Env) (oom : ℕ → Bool) (method : Method) (key : Bytes)
    (version : UInt64) (now : BitVec 64) (stored : Option Bytes) (res : Response) :
    ∃ ok res', engineBdrServe env oom method key version now stored res = some (ok, res') ∧
      (ok = false → res' = res) := by
  unfold engineBdrServe
  split
  · exact ⟨false, res, rfl, fun _ => rfl⟩
  · cases stored with
    | none => exact ⟨false, res, rfl, fun _ => rfl⟩
    | some blob =>
      have hsafe := safe_validate env key version now blob
      dsimp only
      cases hread : validate env key version now blob with
      | ok l =>
        rw [hread] at hsafe
        rcases exists_fill env oom method res hsafe.1 hsafe.2 with ⟨res', hfill⟩
        refine ⟨true, res', ?_, nofun⟩
        dsimp only [bind, Except.bind]
        rw [hfill]
      | error e =>
        rw [hread] at hsafe
        cases e with
        | fault => exact hsafe.elim
        | reject => exact ⟨false, res, rfl, fun _ => rfl⟩

end Safe

/-! ## What was written is read -/

section RoundTrip

variable {blob a s : Bytes} {p n : ℕ} {api : HeaderApi} {oom : ℕ → Bool} {hs : List Header}

theorem rd_restAt (h : RestAt blob p (a ++ s)) (hn : a.length = n) :
    rd blob p n = .ok (a, p + n) ∧ RestAt blob (p + n) s := by
  subst hn
  refine ⟨?_, h.skip⟩
  rw [rd, h.skip_eq, h.fetch_eq]
  rfl

theorem rd_le (h : RestAt blob p (le n m ++ s)) :
    rd blob p n = .ok (le n m, p + n) ∧ RestAt blob (p + n) s :=
  rd_restAt h (length_le n m)

theorem rdSpan_restAt (h : RestAt blob p (wrSpan a ++ s)) :
    ∃ start, rdSpan blob p = .ok (start, a.length % 2 ^ 32, start + a.length % 2 ^ 32) ∧
      RestAt blob start (a ++ s) := by
  rw [wrSpan, List.append_assoc] at h
  rcases rd_le h with ⟨hlen, hrest⟩
  refine ⟨p + 4, ?_, hrest⟩
  have hvalue : leValue (le 4 a.length) = a.length % 2 ^ 32 := leValue_le 4 a.length
  have hinside := hrest.length
  rw [List.length_append] at hinside
  have hmod : a.length % 2 ^ 32 ≤ a.length := Nat.mod_le _ _
  rw [rdSpan, hlen]
  dsimp only [bind, Except.bind]
  rw [hvalue, skip, if_neg (by omega)]
  rfl

theorem patch_append {w x y rest : Bytes} (h : x.length = y.length) :
    patch (w ++ x ++ rest) w.length y = w ++ y ++ rest := by
  rw [patch, List.append_assoc w x rest, List.take_left, ← List.drop_drop, List.drop_left, ← h,
    List.drop_left]

theorem writeBlob_eq (res : Response) (key : Bytes) (version : UInt64) (created : BitVec 64) :
    writeBlob res key version created =
      le 4 bdrMagic ++ (le 8 version.toNat ++ (le 8 created.toNat ++ (le 4 res.status ++
        (wrSpan key ++ (le 4 res.headers.length ++ (wrHeaders res.headers ++
          (le 8 res.content.length ++ res.content))))))) := by
  have hcount : (le 4 0).length = (le 4 res.headers.length).length := by
    rw [length_le, length_le]
  rw [writeBlob, List.append_assoc (_ ++ wrHeaders _), List.append_assoc (_ ++ le 4 0),
    patch_append hcount]
  simp only [List.append_assoc]

theorem readHead_writeBlob (env : Env) {res : Response} {key : Bytes} (version : UInt64)
    {created now : BitVec 64} (hkey : key.length < 2 ^ 32) (hstatus : res.status = 200)
    (httl : now.toInt - created.toInt ≤ env.ttlSec) :
    ∃ p, readHead env key version now (writeBlob res key version created) =
        .ok (200, res.headers.length % 2 ^ 32, p) ∧
      RestAt (writeBlob res key version created) p
        (wrHeaders res.headers ++ (le 8 res.content.length ++ res.content)) := by
  have heq := writeBlob_eq res key version created
  generalize writeBlob res key version created = blob at heq ⊢
  have hblob : RestAt blob 0 _ := ⟨Nat.zero_le _, heq⟩
  rcases rd_le hblob with ⟨hmagic, hblob⟩
  rcases rd_le hblob with ⟨hstamp, hblob⟩
  rcases rd_le hblob with ⟨hcreated, hblob⟩
  rcases rd_le hblob with ⟨hstate, hblob⟩
  rcases rdSpan_restAt hblob with ⟨keyAt, hspan, hblob⟩
  rw [Nat.mod_eq_of_lt hkey] at hspan
  rcases rd_le hblob.skip with ⟨hcount, hrest⟩
  have hmagicValue : (leValue (le 4 bdrMagic) == bdrMagic) = true := by decide
  have hstampValue : (leValue (le 8 version.toNat) == version.toNat) = true := by
    rw [leValue_le, beq_iff_eq]
    exact Nat.mod_eq_of_lt version.toNat_lt
  have hcreatedValue : BitVec.ofNat 64 (leValue (le 8 created.toNat)) = created := by
    rw [leValue_le]
    have hlt : created.toNat % 256 ^ 8 = created.toNat := Nat.mod_eq_of_lt created.isLt
    rw [hlt, BitVec.ofNat_toNat, BitVec.setWidth_eq]
  have hcountValue : leValue (le 4 res.headers.length) = res.headers.length % 2 ^ 32 :=
    leValue_le 4 _
  have hstatusValue : leValue (le 4 res.status) = 200 := by
    rw [hstatus]
    decide
  refine ⟨_, ?_, hrest⟩
  simp only [readHead, hmagic, hstamp, hcreated, hstate, hspan, hblob.fetch_eq, hcount,
    hmagicValue, hstampValue, hcreatedValue, hcountValue, hstatusValue, check, beq_self_eq_true,
    decide_eq_true httl, if_true, bind, Except.bind, pure, Except.pure]

/-- Every header comes back: its name fits in `kbuf`, the length of its value in 32 bits, and
there is memory for the value. -/
def Kept (oom : ℕ → Bool) : ℕ → List Header → Prop
  | _, [] => True
  | i, h :: hs =>
    h.name.length < 256 ∧ h.value.length < 2 ^ 32 ∧ oom i = false ∧ Kept oom (i + 1) hs

theorem wrHeaders_cons (h : Header) (hs : List Header) (s : Bytes) :
    wrHeaders (h :: hs) ++ s = wrSpan h.name ++ (wrSpan h.value ++ (wrHeaders hs ++ s)) := by
  simp only [wrHeaders, List.flatMap_cons, List.append_assoc]

theorem skipHeaders_restAt {i : ℕ} (hkept : Kept oom i hs) (h : RestAt blob p (wrHeaders hs ++ s)) :
    ∃ q, skipHeaders blob hs.length p = .ok q ∧ RestAt blob q s := by
  induction hs generalizing i p with
  | nil => exact ⟨p, rfl, h⟩
  | cons header hs ih =>
    rcases hkept with ⟨hname, hvalue, -, hrest⟩
    rw [wrHeaders_cons] at h
    rcases rdSpan_restAt h with ⟨k, hk, hblob⟩
    rw [Nat.mod_eq_of_lt (by omega)] at hk
    rcases rdSpan_restAt hblob.skip with ⟨v, hv, hblob⟩
    rw [Nat.mod_eq_of_lt hvalue] at hv
    rcases ih hrest hblob.skip with ⟨q, hq, hend⟩
    refine ⟨q, ?_, hend⟩
    simp only [List.length_cons, skipHeaders, hk, hv, hq, bind, Except.bind]

theorem cstr_of_not_mem (h : 0 ∉ a) : cstr a = a := by
  have hall : ∀ c ∈ a, (c != 0) = true := bne_of_not_mem h
  exact List.takeWhile_eq_self_iff.mpr hall

theorem headerOf_self (h : Header) : headerOf h.name h.value = h := by
  cases h with
  | mk name value hname hvalue =>
    simp only [headerOf, cstr_of_not_mem hname, cstr_of_not_mem hvalue]

theorem addHeaders_restAt (hapi : api.Lawful) (acc : List Header) {i : ℕ}
    (hkept : Kept oom i hs) (h : RestAt blob p (wrHeaders hs ++ s)) :
    addHeaders api oom blob hs.length i p acc = .ok (acc ++ hs) := by
  induction hs generalizing i p acc with
  | nil =>
    rw [List.append_nil]
    rfl
  | cons header hs ih =>
    rcases hkept with ⟨hname, hvalue, hmem, hrest⟩
    rw [wrHeaders_cons] at h
    rcases rdSpan_restAt h with ⟨k, hk, hk'⟩
    rw [Nat.mod_eq_of_lt (by omega)] at hk
    rcases rdSpan_restAt hk'.skip with ⟨v, hv, hv'⟩
    rw [Nat.mod_eq_of_lt hvalue] at hv
    have hread : rdHeader blob p = .ok ((k, header.name.length), (v, header.value.length),
        v + header.value.length) := by
      simp only [rdHeader, hk, hv, bind, Except.bind, pure, Except.pure]
    have hshort : ¬ 256 ≤ header.name.length := Nat.not_le_of_lt hname
    have hnext := ih (acc ++ [header]) hrest hv'.skip
    simp only [List.length_cons, addHeaders, hread, hmem, hshort, decide_false, Bool.or_self,
      Bool.false_eq_true, if_false, hk'.fetch_eq, hv'.fetch_eq, headerOf_self, hapi.add_eq,
      bind, Except.bind, hnext, List.append_assoc, List.singleton_append]

theorem addHeaders_append (hapi : api.Lawful) {count i : ℕ} {acc hs : List Header}
    (h : addHeaders api oom blob count i p acc = .ok hs) :
    ∃ added, hs = acc ++ added ∧ added.length ≤ count := by
  induction count generalizing i p acc with
  | zero => exact ⟨[], by rw [List.append_nil]; exact (Except.ok.inj h).symm, Nat.le_refl _⟩
  | succ count ih =>
    rw [addHeaders] at h
    split at h
    · exact nomatch h
    · exact ⟨[], by rw [List.append_nil]; exact (Except.ok.inj h).symm, Nat.zero_le _⟩
    · next k kl v vl q hread =>
      split at h
      · rcases ih h with ⟨added, heq, hle⟩
        exact ⟨added, heq, Nat.le_succ_of_le hle⟩
      · cases hname : fetch blob k kl with
        | error e =>
          rw [hname] at h
          exact nomatch h
        | ok name =>
          cases hvalue : fetch blob v vl with
          | error e =>
            rw [hname, hvalue] at h
            exact nomatch h
          | ok value =>
            rw [hname, hvalue] at h
            rcases ih h with ⟨added, heq, hle⟩
            refine ⟨headerOf name value :: added, ?_, Nat.succ_le_succ hle⟩
            rw [heq, hapi.add_eq, List.append_assoc, List.singleton_append]

theorem length_cstr_le (s : Bytes) : (cstr s).length ≤ s.length :=
  (List.takeWhile_prefix _).length_le

/-- A step of the second pass that adds a header, from a later state in which it and all
others are there. -/
theorem addHeaders_cons (hapi : api.Lawful) {count i k kl v vl q : ℕ} {acc hs : List Header}
    {header : Header} (hread : rdHeader blob p = .ok ((k, kl), (v, vl), q))
    (hle : count ≤ hs.length)
    (h : addHeaders api oom blob (count + 1) i p acc = .ok (acc ++ header :: hs)) :
    oom i = false ∧ kl < 256 ∧ (∃ name value, fetch blob k kl = .ok name ∧
      fetch blob v vl = .ok value ∧ headerOf name value = header) ∧
      addHeaders api oom blob count (i + 1) q (acc ++ [header]) =
        .ok (acc ++ [header] ++ hs) := by
  rw [addHeaders, hread] at h
  dsimp only at h
  split at h
  · -- a header less
    rcases addHeaders_append hapi h with ⟨added, heq, hadded⟩
    have hsame := List.append_cancel_left heq
    rw [← hsame, List.length_cons] at hadded
    omega
  · next hkept =>
    rw [Bool.or_eq_true, decide_eq_true_eq, not_or, Bool.not_eq_true] at hkept
    cases hname : fetch blob k kl with
    | error e =>
      rw [hname] at h
      exact nomatch h
    | ok name =>
      cases hvalue : fetch blob v vl with
      | error e =>
        rw [hname, hvalue] at h
        exact nomatch h
      | ok value =>
        rw [hname, hvalue] at h
        dsimp only [bind, Except.bind] at h
        rw [hapi.add_eq] at h
        rcases addHeaders_append hapi h with ⟨added, heq, -⟩
        rw [List.append_assoc, List.singleton_append] at heq
        rcases List.cons.inj (List.append_cancel_left heq) with ⟨rfl, rfl⟩
        refine ⟨hkept.1, Nat.lt_of_not_le hkept.2, ⟨name, value, rfl, rfl, rfl⟩, ?_⟩
        rw [h, List.append_assoc, List.singleton_append]

/-- A text that comes back from a span was written with its whole length. -/
theorem length_lt_of_cstr_take {m : ℕ} (h : cstr (a.take (a.length % m)) = a) (hm : 0 < m) :
    a.length < m := by
  have hle := length_cstr_le (a.take (a.length % m))
  rw [h, List.length_take] at hle
  have hlt := Nat.mod_lt a.length hm
  omega

theorem kept_of_addHeaders (hapi : api.Lawful) (acc : List Header) {i : ℕ}
    (h : RestAt blob p (wrHeaders hs ++ s))
    (hadd : addHeaders api oom blob hs.length i p acc = .ok (acc ++ hs)) : Kept oom i hs := by
  induction hs generalizing i p acc with
  | nil => trivial
  | cons header hs ih =>
    rw [wrHeaders_cons] at h
    rcases rdSpan_restAt h with ⟨k, hk, hk'⟩
    cases hread : rdHeader blob p with
    | error e =>
      rw [List.length_cons, addHeaders, hread] at hadd
      cases e with
      | fault => exact nomatch hadd
      | reject =>
        have hnil := List.self_eq_append_right.mp (Except.ok.inj hadd)
        exact nomatch hnil
    | ok r =>
      rcases r with ⟨⟨k', kl⟩, ⟨v, vl⟩, q⟩
      rcases addHeaders_cons hapi hread (Nat.le_refl _) hadd with
        ⟨hmem, hshort, ⟨name, value, hname, hvalue, heq⟩, hnext⟩
      have hnameEq : cstr name = header.name := congrArg Header.name heq
      have hvalueEq : cstr value = header.value := congrArg Header.value heq
      cases hspan : rdSpan blob (k + header.name.length % 2 ^ 32) with
      | error e =>
        simp only [rdHeader, hk, hspan, bind, Except.bind, reduceCtorEq] at hread
      | ok r =>
        simp only [rdHeader, hk, hspan, bind, Except.bind, pure, Except.pure, Except.ok.injEq,
          Prod.mk.injEq] at hread
        rcases hread with ⟨⟨rfl, rfl⟩, ⟨rfl, rfl⟩, rfl⟩
        rw [hk'.fetch_take (Nat.mod_le _ _)] at hname
        rw [← Except.ok.inj hname] at hnameEq
        have hlt : header.name.length < 2 ^ 32 := length_lt_of_cstr_take hnameEq (by decide)
        rw [Nat.mod_eq_of_lt hlt] at hshort hspan
        rcases rdSpan_restAt hk'.skip with ⟨v, hv, hv'⟩
        rw [hspan, Except.ok.injEq] at hv
        rw [hv] at hvalue hnext
        dsimp only at hvalue hnext
        rw [hv'.fetch_take (Nat.mod_le _ _)] at hvalue
        rw [← Except.ok.inj hvalue] at hvalueEq
        have hlt' : header.value.length < 2 ^ 32 := length_lt_of_cstr_take hvalueEq (by decide)
        rw [Nat.mod_eq_of_lt hlt'] at hnext
        exact ⟨hshort, hlt', hmem, ih _ hv'.skip hnext⟩

/-- Headers whose names fit in `name[256]` are all removed. -/
theorem clearHeaders_eq_nil (hapi : api.Lawful) {fuel : ℕ}
    (hfuel : hs.length ≤ fuel) (hshort : ∀ h ∈ hs, h.name.length < 256) :
    clearHeaders api fuel hs = [] := by
  induction fuel generalizing hs with
  | zero => exact List.length_eq_zero_iff.mp (Nat.le_zero.mp hfuel)
  | succ fuel ih =>
    cases hs with
    | nil => rfl
    | cons h hs =>
      have hname : snprintfS 256 h.name = h.name := by
        have hlen := hshort h List.mem_cons_self
        exact List.take_of_length_le (by omega)
      have hsome := hapi.remove_ne_zero (h :: hs) h List.mem_cons_self
      have hfewer := hapi.remove_lt _ _ hsome
      have hsub := hapi.remove_sublist (h :: hs) h.name
      rw [clearHeaders, hname, if_neg hsome]
      exact ih (by omega) fun x hx => hshort x (hsub.subset hx)

end RoundTrip

/-! ## Round trips -/

theorem engineBdrStore_some {env : Env} {method : Method} {failed : Bool} {key : Bytes}
    {version : UInt64} {now : BitVec 64} {res : Response} {blob : Bytes}
    (h : engineBdrStore env method failed key version now res = some blob) :
    env.enabled = true ∧ res.status = 200 ∧ res.content.length ≤ bdrBodyMax ∧
      blob = writeBlob res key version now := by
  simp only [engineBdrStore, Option.ite_none_left_eq_some] at h
  rcases h with ⟨henabled, -, hstatus, -, -, -, hbody, -, hblob⟩
  rw [Bool.or_eq_true, not_or, Bool.not_eq_true', Bool.not_eq_false] at henabled
  exact ⟨henabled.1, not_not.mp hstatus, Nat.le_of_not_lt hbody, (Option.some.inj hblob).symm⟩

/-- A response as the gate has it before a handler runs. -/
structure Response.Blank (res : Response) : Prop where
  short : ∀ h ∈ res.headers, h.name.length < 256
  ptrBody : res.ptrBody = none

def Served (method : Method) (res : Response) (result : Option (Bool × Response)) : Prop :=
  ∃ out, result = some (true, out) ∧ out.status = res.status ∧
    out.headers = res.headers ++ [hitHeader] ∧
      out.content = if method = .head then [] else res.content

def replyOf (method : Method) (res blank : Response) : Response :=
  { blank with
    status := res.status
    headers := res.headers ++ [hitHeader]
    body := if method = .head then [] else res.content }

section RoundTrips

variable {env : Env} {oom : ℕ → Bool} {method : Method} {key : Bytes} {version : UInt64}
  {created now : BitVec 64} {res blank : Response} {blob : Bytes}

theorem validate_writeBlob (version : UInt64) (hkey : key.length < 2 ^ 32)
    (hstatus : res.status = 200) (hbody : res.content.length ≤ bdrBodyMax)
    (httl : now.toInt - created.toInt ≤ env.ttlSec)
    (hcount : res.headers.length < 2 ^ 32) (hkept : Kept oom 0 res.headers) :
    ∃ l, validate env key version now (writeBlob res key version created) = .ok l ∧
      l.status = 200 ∧ l.count = res.headers.length ∧ l.bodyLen = res.content.length ∧
      RestAt (writeBlob res key version created) l.headersAt
        (wrHeaders res.headers ++ (le 8 res.content.length ++ res.content)) ∧
      RestAt (writeBlob res key version created) l.bodyAt res.content := by
  rcases readHead_writeBlob env version hkey hstatus httl with ⟨p, hhead, hheaders⟩
  rw [Nat.mod_eq_of_lt hcount] at hhead
  rcases skipHeaders_restAt hkept hheaders with ⟨q, hskip, hrest⟩
  rcases rd_le hrest with ⟨hlen, hend⟩
  have hvalue : leValue (le 8 res.content.length) = res.content.length := by
    rw [leValue_le]
    have hmax : bdrBodyMax < 256 ^ 8 := by decide
    exact Nat.mod_eq_of_lt (Nat.lt_of_le_of_lt hbody hmax)
  have hwhole := hend.length
  have hcheck : ((writeBlob res key version created).length - (q + 8) ==
      res.content.length) = true := by
    rw [beq_iff_eq]
    omega
  refine ⟨⟨200, res.headers.length, p, q + 8, res.content.length⟩, ?_, rfl, rfl, rfl, hheaders,
    hend⟩
  simp only [validate, hhead, hskip, hlen, hvalue, hcheck, check, if_true, bind, Except.bind, pure,
    Except.pure]

theorem served_of_kept (hapi : env.api.Lawful) (henabled : env.enabled = true)
    (hkey : key.length < 2 ^ 32) (hstatus : res.status = 200)
    (hbody : res.content.length ≤ bdrBodyMax) (httl : now.toInt - created.toInt ≤ env.ttlSec)
    (hblank : blank.Blank) (hcount : res.headers.length < 2 ^ 32)
    (hkept : Kept oom 0 res.headers) :
    Served method res (engineBdrServe env oom method key version now
      (some (writeBlob res key version created)) blank) := by
  rcases validate_writeBlob version hkey hstatus hbody httl hcount hkept with
    ⟨l, hvalid, hl, hlcount, hlbody, hheaders, hcontent⟩
  have hclear : clearHeaders env.api blank.headers.length blank.headers = [] :=
    clearHeaders_eq_nil hapi (Nat.le_refl _) hblank.short
  have hadd := addHeaders_restAt hapi [] hkept hheaders
  rw [← List.append_nil res.content] at hcontent
  have hfetch := hcontent.fetch_eq
  have hfill : fill env oom method (writeBlob res key version created) blank l =
      .ok (replyOf method res blank) := by
    rw [fill, hclear, hlcount, hadd, hlbody, replyOf, hstatus]
    dsimp only [bind, Except.bind]
    split
    · simp only [pure, Except.pure, hapi.add_eq, hl, List.nil_append]
    · rw [hfetch]
      simp only [pure, Except.pure, hapi.add_eq, hl, List.nil_append]
  refine ⟨replyOf method res blank, ?_, rfl, rfl, ?_⟩
  · rw [engineBdrServe, henabled]
    simp only [Bool.not_true, Bool.false_eq_true, if_false, hvalid, bind, Except.bind, hfill]
  · rw [Response.content, replyOf, hblank.ptrBody]
    rfl

theorem engineBdrServe_true {out : Response}
    (h : engineBdrServe env oom method key version now (some blob) res = some (true, out)) :
    ∃ l, validate env key version now blob = .ok l ∧ fill env oom method blob res l = .ok out := by
  unfold engineBdrServe at h
  split at h
  · exact nomatch h
  · dsimp only at h
    split at h
    · next res' heq =>
      cases hvalid : validate env key version now blob with
      | error e =>
        rw [hvalid] at heq
        exact nomatch heq
      | ok l =>
        rw [hvalid] at heq
        rw [Option.some.injEq, Prod.mk.injEq] at h
        exact ⟨l, rfl, heq.trans (congrArg Except.ok h.2)⟩
    · exact nomatch h
    · exact nomatch h

theorem validate_eq_ok {l : Layout} {status count p : ℕ}
    (hhead : readHead env key version now blob = .ok (status, count, p))
    (h : validate env key version now blob = .ok l) : l.count = count ∧ l.headersAt = p := by
  rw [validate, hhead] at h
  dsimp only [bind, Except.bind] at h
  split at h
  · exact nomatch h
  · split at h
    · exact nomatch h
    · split at h
      · exact nomatch h
      · rw [← Except.ok.inj h]
        exact ⟨rfl, rfl⟩

theorem fill_eq_ok {l : Layout} {out : Response} (h : fill env oom method blob res l = .ok out) :
    ∃ headers, addHeaders env.api oom blob l.count 0 l.headersAt
        (clearHeaders env.api res.headers.length res.headers) = .ok headers ∧
      out.headers = env.api.add headers hitHeader := by
  unfold fill at h
  dsimp only [bind, Except.bind] at h
  split at h
  · exact nomatch h
  · next headers hadd =>
    split at h
    · rw [← Except.ok.inj h]
      exact ⟨headers, hadd, rfl⟩
    · split at h
      · exact nomatch h
      · rw [← Except.ok.inj h]
        exact ⟨headers, hadd, rfl⟩

theorem kept_of_served (hapi : env.api.Lawful) (hkey : key.length < 2 ^ 32)
    (hstatus : res.status = 200) (httl : now.toInt - created.toInt ≤ env.ttlSec)
    (hblank : blank.Blank)
    (h : Served method res (engineBdrServe env oom method key version now
      (some (writeBlob res key version created)) blank)) :
    res.headers.length < 2 ^ 32 ∧ Kept oom 0 res.headers := by
  rcases h with ⟨out, hout, -, hheaders, -⟩
  rcases readHead_writeBlob env version hkey hstatus httl with
    ⟨p, hhead, hrest⟩
  rcases engineBdrServe_true hout with ⟨l, hvalid, hfill⟩
  rcases validate_eq_ok hhead hvalid with ⟨hlcount, hlheaders⟩
  rcases fill_eq_ok hfill with ⟨headers, hadd, hadded⟩
  rw [clearHeaders_eq_nil hapi (Nat.le_refl _) hblank.short, hlcount, hlheaders] at hadd
  rw [hheaders, hapi.add_eq] at hadded
  rw [← List.append_cancel_right hadded] at hadd
  -- as many headers came back as were written, so their number was not cut
  have hcount : res.headers.length < 2 ^ 32 := by
    rcases addHeaders_append hapi hadd with ⟨added, heq, hle⟩
    rw [List.nil_append] at heq
    rw [← heq] at hle
    have hlt := Nat.mod_lt res.headers.length (show 0 < 2 ^ 32 by decide)
    omega
  rw [Nat.mod_eq_of_lt hcount] at hadd
  exact ⟨hcount, kept_of_addHeaders hapi [] hrest hadd⟩

end RoundTrips

/-- A stored reply comes back whole, under its version and within the TTL, exactly when its
headers are kept; and no string in the store makes `engine_bdr_serve` read outside of it or
return false with a changed response. -/
theorem reply_blob_roundtrip_and_bounds {env : Env} (hapi : env.api.Lawful) :
    (∀ failed key version created res blob, key.length < 1024 →
      engineBdrStore env .get failed key version created res = some blob →
      ∀ oom method (now : BitVec 64) blank, now.toInt - created.toInt ≤ env.ttlSec →
        Response.Blank blank →
          (Served method res (engineBdrServe env oom method key version now (some blob) blank) ↔
            res.headers.length < 2 ^ 32 ∧ Kept oom 0 res.headers)) ∧
    ∀ oom method key version now stored res, ∃ ok res',
      engineBdrServe env oom method key version now stored res = some (ok, res') ∧
        (ok = false → res' = res) := by
  refine ⟨?_, engineBdrServe_cases env⟩
  intro failed key version created res blob hkey hstore oom method now blank httl hblank
  rcases engineBdrStore_some hstore with ⟨henabled, hstatus, hbody, rfl⟩
  have hkey' : key.length < 2 ^ 32 := Nat.lt_trans hkey (by decide)
  constructor
  · exact kept_of_served hapi hkey' hstatus httl hblank
  · rintro ⟨hcount, hkept⟩
    exact served_of_kept hapi henabled hkey' hstatus hbody httl hblank hcount hkept

/-! ## A long header name -/

def listApi : HeaderApi where
  add hs h := hs ++ [h]
  remove hs name := (hs.filter fun h => !eqCI h.name name, hs.countP fun h => eqCI h.name name)
  get hs name := (hs.find? fun h => eqCI h.name name).map (·.value)

theorem listApi_lawful : listApi.Lawful where
  add_eq _ _ := rfl
  remove_sublist hs name := List.filter_sublist
  remove_lt hs name h := by
    rcases List.countP_pos_iff.mp (Nat.pos_of_ne_zero h) with ⟨x, hx, hname⟩
    refine List.length_filter_lt_length_iff_exists.mpr ⟨x, hx, ?_⟩
    rw [hname]
    decide
  remove_ne_zero hs h hmem := by
    have hpos : 0 < hs.countP fun x => eqCI x.name h.name :=
      List.countP_pos_iff.mpr ⟨h, hmem, beq_self_eq_true _⟩
    exact Nat.ne_of_gt hpos

def listEnv : Env := ⟨true, 5, listApi⟩

def noOom (_ : ℕ) : Bool := false

/-- Every stored reply comes back whole when there is memory. -/
def RoundTrips (env : Env) : Prop :=
  ∀ key version created res blob, key.length < 1024 →
    engineBdrStore env .get false key version created res = some blob →
    ∀ method (now : BitVec 64) blank, now.toInt - created.toInt ≤ env.ttlSec →
      Response.Blank blank →
        Served method res (engineBdrServe env noOom method key version now (some blob) blank)

def emptyResponse : Response := ⟨0, [], [], false, false, none⟩

theorem emptyResponse_blank : emptyResponse.Blank := ⟨nofun, rfl⟩

def replyWith (h : Header) : Response := ⟨200, [h], bytes "ok", false, false, none⟩

def contentType : Header :=
  ⟨bytes "Content-Type", bytes "text/html", by decide, by decide⟩

def longHeader : Header where
  name := List.replicate 256 120
  value := bytes "1"
  name_cstr := by
    rw [List.mem_replicate]
    decide
  value_cstr := by decide

/-- The reply comes back with its header. -/
theorem contentType_reply_served :
    Served .head (replyWith contentType) (engineBdrServe listEnv noOom .head (bytes "fb|/?") 7 3
      (some (writeBlob (replyWith contentType) (bytes "fb|/?") 7 1)) emptyResponse) :=
  ((reply_blob_roundtrip_and_bounds listApi_lawful).1 false (bytes "fb|/?") 7 1
    (replyWith contentType) _ (by decide) rfl noOom .head 3 emptyResponse (by decide)
    emptyResponse_blank).mpr ⟨by decide, by decide, by decide, rfl, trivial⟩

/-- The long header is written and not read. -/
theorem long_name_lost : ¬ RoundTrips listEnv := by
  intro h
  have hstore : engineBdrStore listEnv .get false (bytes "fb|/?") 7 1 (replyWith longHeader) =
      some (writeBlob (replyWith longHeader) (bytes "fb|/?") 7 1) := rfl
  have hserve : engineBdrServe listEnv noOom .get (bytes "fb|/?") 7 3
      (some (writeBlob (replyWith longHeader) (bytes "fb|/?") 7 1)) emptyResponse =
      some (true, ⟨200, [hitHeader], bytes "ok", false, false, none⟩) := by
    decide +kernel
  rcases h _ 7 1 _ _ (by decide) hstore .get 3 emptyResponse (by decide) emptyResponse_blank with
    ⟨out, hout, -, hheaders, -⟩
  rw [hserve, Option.some.injEq, Prod.mk.injEq] at hout
  have hlen := congrArg List.length hheaders
  rw [← hout.2] at hlen
  exact absurd hlen (by decide)

end FlyBoard.BdrBlob
