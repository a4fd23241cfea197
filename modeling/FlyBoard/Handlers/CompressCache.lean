import FlyBoard.Lib.Bytes
import FlyBoard.Lib.Run

/-!
# The cache of compressed assets (`src/handlers/file.c`)

`ensure_compressed_cache` keeps a compressed copy of a file under a name made of the file's
path and the encoding. The copy is fresh if its modification time is not before the file's,
in whole seconds. Otherwise it is written in place and then gets the file's time.

Every system call is a step, and the steps of all calls interleave with changes of the files.
The state beside the files remembers what a file held since its modification time last
changed, and what stood under the name when a call returned true.
-/

namespace FlyBoard.CompressCache

open Run Bytes

/-! ## Names -/

/-- `COMPRESS_CACHE_DIR` -/
def compressCacheDir : Bytes := bytes "data/.compress"

/-- `compress_cache_path` -/
def compressCachePath (srcPath encoding : Bytes) (outLen : ℕ) : Option Bytes :=
  let prefixLen := compressCacheDir.length
  if outLen < prefixLen + encoding.length + 3 then none
  else
    let safeCap := outLen - prefixLen - encoding.length - 3
    let safe := (srcPath.take safeCap).map fun c => if c = 47 then 95 else c
    let out := compressCacheDir ++ 47 :: safe ++ 46 :: encoding
    if out.length < outLen then some out else none

def InCacheDir (path : Bytes) : Prop := startsWith path (compressCacheDir ++ [47]) = true

instance (path : Bytes) : Decidable (InCacheDir path) := inferInstanceAs (Decidable (_ = true))

/-! ## Steps -/

/-- A regular file; the time is in nanoseconds. -/
structure File where
  data : Bytes
  mtime : ℤ
deriving DecidableEq

/-- `st_mtime` -/
def File.seconds (f : File) : ℤ := f.mtime / 10 ^ 9

def File.write (f : File) (off : ℕ) (chunk : Bytes) (now : ℤ) : File where
  data := f.data.take off ++ List.replicate (off - f.data.length) 0 ++ chunk ++
    f.data.drop (off + chunk.length)
  mtime := if chunk = [] then f.mtime else now

/-- `compress_buffer_zstd`, `compress_buffer_brotli` and `compress_buffer_gzip` -/
structure Codecs where
  zstd : Bytes → Option Bytes
  brotli : Bytes → Option Bytes
  gzip : Bytes → Option Bytes

def Codecs.compress (codecs : Codecs) (encoding data : Bytes) : Option Bytes :=
  if encoding = bytes "zstd" then codecs.zstd data
  else if encoding = bytes "br" then codecs.brotli data
  else if encoding = bytes "gzip" then codecs.gzip data
  else none

/-- The arguments of a call, and `out_path`. -/
structure Target where
  source : Bytes
  encoding : Bytes
  path : Bytes
deriving DecidableEq

/-- What a call does next; the time is the `st_mtime` that it has seen of its source. -/
inductive Phase
  /-- `stat` of the source -/
  | begun
  /-- `stat` of the copy -/
  | checking (time : ℤ)
  /-- `read_file_to_buf` -/
  | reading (time : ℤ)
  /-- `fopen` of the copy -/
  | opening (time : ℤ) (data : Bytes)
  /-- so many bytes of the copy are written -/
  | writing (time : ℤ) (data : Bytes) (off : ℕ)
  /-- `utimensat` -/
  | written (time : ℤ)
  | done
deriving DecidableEq

namespace Phase

def idle : Phase → Bool
  | begun | done => true
  | _ => false

def isWriting : Phase → Bool
  | writing .. => true
  | _ => false

/-- The call has emptied the copy and has not returned. -/
def hasOpened : Phase → Bool
  | writing .. | written _ => true
  | _ => false

end Phase

/-- A call that returned true: what stood under `out_path`, and what the source held since
its modification time last changed. -/
structure Return where
  target : Target
  file : Option Bytes
  contents : List Bytes
deriving DecidableEq

structure State where
  files : (path : Bytes) → Option File
  contents : (path : Bytes) → List Bytes
  targets : List Target
  phases : ℕ → Phase
  returns : List Return

/-- What a step depends on beside the state: the time, whether the system call succeeds, how
many bytes it writes, and whether the call learns of a failed write. -/
structure Choice where
  now : ℤ
  ok : Bool
  wrote : ℕ
  noticed : Bool

inductive Event
  /-- A file is written, or removed. -/
  | store (path : Bytes) (file : Option File)
  | call (source encoding : Bytes) (outLen : ℕ)
  /-- The next step of a call. -/
  | exec (i : ℕ) (c : Choice)

def start : State := ⟨fun _ => none, fun _ => [], [], fun _ => .done, []⟩

namespace State

def put (s : State) (path : Bytes) (f : File) : State :=
  { s with files := Function.update s.files path (some f) }

def answer (s : State) (t : Target) : State :=
  { s with returns := s.returns ++ [⟨t, (s.files t.path).map File.data, s.contents t.source⟩] }

/-- The contents of a file since its time last changed, once it is stored anew. -/
def contentsAfter (s : State) (path : Bytes) (file : Option File) : List Bytes :=
  if (s.files path).map File.mtime = file.map File.mtime then
    s.contents path ++ (file.map File.data).toList
  else (file.map File.data).toList

end State

def exec (codecs : Codecs) (s : State) (t : Target) (c : Choice) : Phase → State × Phase
  | .begun =>
    match s.files t.source with
    | some src => (s, .checking src.seconds)
    | none => (s, .done)
  | .checking time =>
    match s.files t.path with
    | some f => if time ≤ f.seconds then (s.answer t, .done) else (s, .reading time)
    | none => (s, .reading time)
  | .reading time =>
    match s.files t.source with
    | some src =>
      if src.data = [] then (s, .done)
      else
        match codecs.compress t.encoding src.data with
        | some data => (s, .opening time data)
        | none => (s, .done)
    | none => (s, .done)
  | .opening time data =>
    if c.ok then (s.put t.path ⟨[], c.now⟩, .writing time data 0) else (s, .done)
  | .writing time data off =>
    if data.length ≤ off then (s, .written time)
    else if c.ok then
      let chunk := (data.drop off).take c.wrote
      match s.files t.path with
      | some f => (s.put t.path (f.write off chunk c.now), .writing time data (off + chunk.length))
      | none => (s, .writing time data (off + chunk.length))
    else
      -- what `fclose` cannot write is not noticed
      (s, if c.noticed then .done else .written time)
  | .written time =>
    match s.files t.path with
    | some f =>
      ((if c.ok then s.put t.path { f with mtime := time * 10 ^ 9 } else s).answer t, .done)
    | none => (s.answer t, .done)
  | .done => (s, .done)

def step (codecs : Codecs) (s : State) : Event → State
  | .store path file =>
    { s with
      files := Function.update s.files path file
      contents := Function.update s.contents path (s.contentsAfter path file) }
  | .call source encoding outLen =>
    match compressCachePath source encoding outLen with
    | some path =>
      { s with
        targets := s.targets ++ [⟨source, encoding, path⟩]
        phases := Function.update s.phases s.targets.length .begun }
    | none => s
  | .exec i c =>
    match s.targets[i]? with
    | some t =>
      let r := exec codecs s t c (s.phases i)
      { r.1 with phases := Function.update s.phases i r.2 }
    | none => s

/-! ## What must not happen -/

/-- The file is the compression of something that the source held since its modification
time last changed. -/
def Return.Complete (codecs : Codecs) (r : Return) : Prop :=
  ∃ data ∈ r.file, ∃ content ∈ r.contents,
    codecs.compress r.target.encoding content = some data

/-- What was returned is complete, and no two sources share a file. -/
structure ReturnsComplete (codecs : Codecs) (s : State) : Prop where
  complete : ∀ r ∈ s.returns, r.Complete codecs
  unshared : ∀ r ∈ s.returns, ∀ r' ∈ s.returns, r.target.path = r'.target.path →
    r.target.source = r'.target.source

instance (codecs : Codecs) (r : Return) : Decidable (r.Complete codecs) :=
  inferInstanceAs (Decidable (∃ data ∈ r.file, ∃ content ∈ r.contents,
    codecs.compress r.target.encoding content = some data))

instance (codecs : Codecs) (s : State) : Decidable (ReturnsComplete codecs s) :=
  decidable_of_iff
    ((∀ r ∈ s.returns, r.Complete codecs) ∧ ∀ r ∈ s.returns, ∀ r' ∈ s.returns,
      r.target.path = r'.target.path → r.target.source = r'.target.source)
    ⟨fun h => ⟨h.1, h.2⟩, fun h => ⟨h.complete, h.unshared⟩⟩

def Each (s : State) (P : Target → Phase → Prop) : Prop :=
  ∀ j < s.targets.length, ∀ t ∈ s.targets[j]?, P t (s.phases j)

instance (s : State) (P : Target → Phase → Prop) [∀ t ph, Decidable (P t ph)] :
    Decidable (Each s P) := inferInstanceAs (Decidable (∀ j < s.targets.length, _))

/-- A call's step does no harm: it finds no fresh copy that is being written, empties no copy
that another call has emptied and not yet returned, and writes without failure. -/
def StepInOrder (s : State) (t : Target) (c : Choice) : Phase → Prop
  | .checking time => ∀ f ∈ s.files t.path, time ≤ f.seconds →
      Each s fun u ph => u.path = t.path → ph.isWriting = false
  | .opening _ _ => c.ok = true → Each s fun u ph => u.path = t.path → ph.hasOpened = false
  | .writing _ data off => data.length ≤ off ∨ c.ok = true
  | _ => True

/-- Sources are not in the cache directory. The modification time of a source changes only
while no call for it is under way, and to a later second than those of its copies. Calls with
one copy have one source and one encoding. -/
def InOrder (s : State) : Event → Prop
  | .store path file => ¬ InCacheDir path ∧
      ((s.files path).map File.mtime ≠ file.map File.mtime →
        Each s fun t ph => t.source = path → ph.idle = true ∧
          ∀ f ∈ s.files t.path, ∀ new ∈ file, f.seconds < new.seconds)
  | .call source encoding outLen => ¬ InCacheDir source ∧
      ∀ path ∈ compressCachePath source encoding outLen, ∀ t ∈ s.targets, t.path = path →
        t.source = source ∧ t.encoding = encoding
  | .exec i c => ∀ t ∈ s.targets[i]?, StepInOrder s t c (s.phases i)

instance (s : State) (t : Target) (c : Choice) : ∀ ph, Decidable (StepInOrder s t c ph)
  | .checking time => inferInstanceAs (Decidable (∀ f ∈ s.files t.path, time ≤ f.seconds →
      Each s fun u ph => u.path = t.path → ph.isWriting = false))
  | .opening _ _ => inferInstanceAs (Decidable (c.ok = true →
      Each s fun u ph => u.path = t.path → ph.hasOpened = false))
  | .writing _ data off => inferInstanceAs (Decidable (data.length ≤ off ∨ c.ok = true))
  | .begun | .reading _ | .written _ | .done => instDecidableTrue

instance (s : State) : ∀ e, Decidable (InOrder s e)
  | .store path file => inferInstanceAs (Decidable (¬ InCacheDir path ∧
      ((s.files path).map File.mtime ≠ file.map File.mtime →
        Each s fun t ph => t.source = path → ph.idle = true ∧
          ∀ f ∈ s.files t.path, ∀ new ∈ file, f.seconds < new.seconds)))
  | .call source encoding outLen => inferInstanceAs (Decidable (¬ InCacheDir source ∧
      ∀ path ∈ compressCachePath source encoding outLen, ∀ t ∈ s.targets, t.path = path →
        t.source = source ∧ t.encoding = encoding))
  | .exec i c => inferInstanceAs (Decidable (∀ t ∈ s.targets[i]?, StepInOrder s t c (s.phases i)))

/-! ## The invariant -/

section Invariant

variable (codecs : Codecs)

/-- The data are the compression of something that the source held since its time last
changed. -/
def Made (s : State) (t : Target) (data : Bytes) : Prop :=
  ∃ content ∈ s.contents t.source, codecs.compress t.encoding content = some data

/-- The copy is a complete compression, and unless the source's time is later, of something
that the source held since then. -/
def CopyOk (s : State) (t : Target) (f : File) : Prop :=
  ∃ content, codecs.compress t.encoding content = some f.data ∧
    ∀ src ∈ s.files t.source, src.seconds ≤ f.seconds → content ∈ s.contents t.source

def PhaseOk (s : State) (t : Target) : Phase → Prop
  | .checking time => ∃ src ∈ s.files t.source, src.seconds = time
  | .opening _ data => Made codecs s t data
  | .writing _ data off => Made codecs s t data ∧
      ∃ f ∈ s.files t.path, f.data = data.take off ∧ f.data.length = off
  | .written _ => ∃ f ∈ s.files t.path, Made codecs s t f.data
  | _ => True

structure Inv (s : State) : Prop where
  sources : ∀ t ∈ s.targets, ¬ InCacheDir t.source
  paths : ∀ t ∈ s.targets, InCacheDir t.path
  unshared : ∀ t ∈ s.targets, ∀ u ∈ s.targets, t.path = u.path →
    t.source = u.source ∧ t.encoding = u.encoding
  known : ∀ p, InCacheDir p → ∀ f ∈ s.files p, ∃ t ∈ s.targets, t.path = p
  current : ∀ p, ¬ InCacheDir p → ∀ f ∈ s.files p, f.data ∈ s.contents p
  phases : ∀ j t, s.targets[j]? = some t → PhaseOk codecs s t (s.phases j)
  /-- At most one call has opened a copy. -/
  owner : ∀ j k t u, s.targets[j]? = some t → s.targets[k]? = some u → t.path = u.path →
    (s.phases j).hasOpened = true → (s.phases k).hasOpened = true → j = k
  copies : ∀ t ∈ s.targets, ∀ f ∈ s.files t.path, CopyOk codecs s t f ∨
    ∃ k u, s.targets[k]? = some u ∧ u.path = t.path ∧ (s.phases k).isWriting = true
  returns : ReturnsComplete codecs s
  returned : ∀ r ∈ s.returns, r.target ∈ s.targets

end Invariant

variable {codecs : Codecs} {s s' : State} {t u : Target} {ph : Phase} {f : File} {c : Choice}
  {data path : Bytes} {i : ℕ}

theorem inv_start (codecs : Codecs) : Inv codecs start where
  sources := nofun
  paths := nofun
  unshared := nofun
  known := nofun
  current := nofun
  phases := nofun
  owner := nofun
  copies := nofun
  returns := ⟨nofun, nofun⟩
  returned := nofun

theorem Made.copyOk (h : Made codecs s t f.data) : CopyOk codecs s t f := by
  rcases h with ⟨content, hmem, hdata⟩
  exact ⟨content, hdata, fun _ _ _ => hmem⟩

/-- A file that is no call's copy is left alone by all calls. -/
theorem Inv.source_ne_path (h : Inv codecs s) (ht : t ∈ s.targets) (hu : u ∈ s.targets) :
    t.source ≠ u.path := by
  intro heq
  exact h.sources t ht (heq ▸ h.paths u hu)

def Alone (s : State) (i : ℕ) (t : Target) : Prop :=
  ∀ k u, k ≠ i → s.targets[k]? = some u → u.path = t.path → (s.phases k).hasOpened = false

theorem Inv.alone (h : Inv codecs s) (hi : s.targets[i]? = some t)
    (hopened : (s.phases i).hasOpened = true) : Alone s i t := by
  intro k u hk hu hpath
  rw [← Bool.not_eq_true]
  intro hother
  exact hk (h.owner k i u t hu hi hpath hother hopened)

/-- A phase stays as it should be while others go on: it depends on the copy only once the
call has opened it. -/
theorem PhaseOk.mono (h : PhaseOk codecs s t ph)
    (hsource : ∀ src ∈ s.files t.source, ∃ src' ∈ s'.files t.source, src'.seconds = src.seconds)
    (hpath : ph.hasOpened = true → s'.files t.path = s.files t.path)
    (hmade : ∀ data, Made codecs s t data → Made codecs s' t data) :
    PhaseOk codecs s' t ph := by
  cases ph with
  | begun => trivial
  | checking time =>
    rcases h with ⟨src, hsrc, htime⟩
    rcases hsource src hsrc with ⟨src', hsrc', hsame⟩
    exact ⟨src', hsrc', hsame.trans htime⟩
  | reading time => trivial
  | opening time data => exact hmade data h
  | writing time data off =>
    rcases h with ⟨hdata, f, hf, hwritten⟩
    exact ⟨hmade data hdata, f, (hpath rfl).trans hf, hwritten⟩
  | written time =>
    rcases h with ⟨f, hf, hdata⟩
    exact ⟨f, (hpath rfl).trans hf, hmade f.data hdata⟩
  | done => trivial

theorem CopyOk.frame (h : CopyOk codecs s t f) {files : Bytes → Option File}
    (hsource : files u.source = s.files t.source) (hsame : t.source = u.source)
    (hencoding : t.encoding = u.encoding) :
    CopyOk codecs { s with files := files } u f := by
  rcases h with ⟨content, hdata, hmem⟩
  refine ⟨content, hencoding ▸ hdata, ?_⟩
  intro src hsrc htime
  rw [← hsame]
  exact hmem src (hsource ▸ hsrc) htime

/-- A call goes on: it changes at most its copy, which it does alone, and afterwards the copy
is written by somebody or complete. -/
theorem Inv.advance (h : Inv codecs s) (hi : s.targets[i]? = some t)
    {files : Bytes → Option File} {returns : List Return}
    (hfiles : ∀ p, p ≠ t.path → files p = s.files p)
    (halone : files t.path = s.files t.path ∧ ph.hasOpened = false ∨ Alone s i t)
    (hphase : PhaseOk codecs { s with files := files } t ph)
    (hcopy : ∀ f ∈ files t.path, CopyOk codecs s t f ∨ ph.isWriting = true ∨
      ∃ k u, k ≠ i ∧ s.targets[k]? = some u ∧ u.path = t.path ∧ (s.phases k).isWriting = true)
    (hreturns : ReturnsComplete codecs { s with returns := returns })
    (hreturned : ∀ r ∈ returns, r.target ∈ s.targets) :
    Inv codecs { s with
      files := files, phases := Function.update s.phases i ph, returns := returns } := by
  have ht : t ∈ s.targets := List.mem_of_getElem? hi
  have hsource : ∀ u ∈ s.targets, files u.source = s.files u.source := fun u hu =>
    hfiles _ (h.source_ne_path hu ht)
  constructor
  case sources => exact h.sources
  case paths => exact h.paths
  case unshared => exact h.unshared
  case known =>
    intro p hp f hf
    rcases eq_or_ne p t.path with rfl | hne
    · exact ⟨t, ht, rfl⟩
    · exact h.known p hp f (hfiles p hne ▸ hf)
  case current =>
    intro p hp f hf
    have hne : p ≠ t.path := by
      rintro rfl
      exact hp (h.paths t ht)
    exact h.current p hp f (hfiles p hne ▸ hf)
  case phases =>
    intro j u hu
    dsimp only
    rcases eq_or_ne j i with rfl | hj
    · rw [Function.update_self]
      obtain rfl : t = u := Option.some.inj (hi.symm.trans hu)
      exact hphase
    · rw [Function.update_of_ne hj]
      have hsame := hsource u (List.mem_of_getElem? hu)
      refine (h.phases j u hu).mono (fun src hsrc => ⟨src, hsame.trans hsrc, rfl⟩) ?_
        (fun _ hmade => hmade)
      intro hopened
      rcases eq_or_ne u.path t.path with hpath | hne
      · -- the other call has the same copy, and has not opened it if it is changed
        rcases halone with ⟨hsame, -⟩ | halone
        · rw [hpath]
          exact hsame
        · rw [halone j u hj hu hpath] at hopened
          exact nomatch hopened
      · exact hfiles _ hne
  case owner =>
    have hother : ∀ k u, k ≠ i → s.targets[k]? = some u → u.path = t.path →
        ph.hasOpened = true → (s.phases k).hasOpened = true → False := by
      intro k u hk hu hpath hopened hopened'
      rcases halone with ⟨-, hno⟩ | halone
      · exact nomatch hno.symm.trans hopened
      · exact nomatch (halone k u hk hu hpath).symm.trans hopened'
    intro j k a b ha hb hpath hopened hopened'
    dsimp only at hopened hopened' ha hb
    rcases eq_or_ne j i with rfl | hj
    · rcases eq_or_ne k j with rfl | hk
      · rfl
      · obtain rfl : t = a := Option.some.inj (hi.symm.trans ha)
        rw [Function.update_self] at hopened
        rw [Function.update_of_ne hk] at hopened'
        exact (hother k b hk hb hpath.symm hopened hopened').elim
    · rw [Function.update_of_ne hj] at hopened
      rcases eq_or_ne k i with rfl | hk
      · obtain rfl : t = b := Option.some.inj (hi.symm.trans hb)
        rw [Function.update_self] at hopened'
        exact (hother j a hj ha hpath hopened' hopened).elim
      · rw [Function.update_of_ne hk] at hopened'
        exact h.owner j k a b ha hb hpath hopened hopened'
  case copies =>
    intro u hu f hf
    dsimp only at hf ⊢
    rcases eq_or_ne u.path t.path with hpath | hne
    · rcases h.unshared t ht u hu hpath.symm with ⟨hsame, hencoding⟩
      rw [hpath] at hf ⊢
      rcases hcopy f hf with hok | hwriting | ⟨k, v, hk, hv, hvpath, hwriting⟩
      · exact .inl (hok.frame (hsame ▸ hsource t ht) hsame hencoding)
      · refine .inr ⟨i, t, hi, rfl, ?_⟩
        rw [Function.update_self]
        exact hwriting
      · refine .inr ⟨k, v, hv, hvpath, ?_⟩
        rw [Function.update_of_ne hk]
        exact hwriting
    · rw [hfiles _ hne] at hf
      rcases h.copies u hu f hf with hok | ⟨k, v, hv, hvpath, hwriting⟩
      · exact .inl (hok.frame (hsource u hu) rfl rfl)
      · have hk : k ≠ i := by
          rintro rfl
          obtain rfl : t = v := Option.some.inj (hi.symm.trans hv)
          exact hne hvpath.symm
        refine .inr ⟨k, v, hv, hvpath, ?_⟩
        rw [Function.update_of_ne hk]
        exact hwriting
  case returns => exact ⟨hreturns.complete, hreturns.unshared⟩
  case returned => exact hreturned

/-! ## The steps of a call -/

theorem Inv.goOn (h : Inv codecs s) (hi : s.targets[i]? = some t)
    (hopened : ph.hasOpened = false) (hphase : PhaseOk codecs s t ph)
    (hwas : (s.phases i).isWriting = false) :
    Inv codecs { s with phases := Function.update s.phases i ph } := by
  refine h.advance hi (fun _ _ => rfl) (.inl ⟨rfl, hopened⟩) hphase ?_ h.returns h.returned
  intro f hf
  rcases h.copies t (List.mem_of_getElem? hi) f hf with hok | ⟨k, u, hu, hpath, hwriting⟩
  · exact .inl hok
  · refine .inr (.inr ⟨k, u, ?_, hu, hpath, hwriting⟩)
    rintro rfl
    exact nomatch hwas.symm.trans hwriting

theorem Inv.returnsComplete (h : Inv codecs s) (ht : t ∈ s.targets) {r : Return}
    (hr : r.target = t) (hcomplete : r.Complete codecs) :
    ReturnsComplete codecs { s with returns := s.returns ++ [r] } ∧
      ∀ r' ∈ s.returns ++ [r], r'.target ∈ s.targets := by
  have hmem : ∀ r' ∈ s.returns ++ [r], r'.target ∈ s.targets := by
    intro r' hr'
    rcases List.mem_append.mp hr' with hold | hnew
    · exact h.returned r' hold
    · rw [List.mem_singleton.mp hnew, hr]
      exact ht
  refine ⟨⟨?_, ?_⟩, hmem⟩
  · intro r' hr'
    rcases List.mem_append.mp hr' with hold | hnew
    · exact h.returns.complete r' hold
    · rw [List.mem_singleton.mp hnew]
      exact hcomplete
  · intro a ha b hb hpath
    exact (h.unshared _ (hmem a ha) _ (hmem b hb) hpath).1

theorem write_take {off : ℕ} (hf : f.data = data.take off) (hlen : f.data.length = off)
    (n : ℕ) (now : ℤ) :
    (f.write off ((data.drop off).take n) now).data =
        data.take (off + ((data.drop off).take n).length) ∧
      (f.write off ((data.drop off).take n) now).data.length =
        off + ((data.drop off).take n).length := by
  have hchunk : (data.drop off).take ((data.drop off).take n).length = (data.drop off).take n := by
    rw [List.length_take, List.take_eq_take_iff]
    omega
  -- the file ends at the offset, so nothing is overwritten and nothing is skipped
  have hdata : (f.write off ((data.drop off).take n) now).data =
      f.data ++ (data.drop off).take n := by
    have htail : f.data.drop (off + ((data.drop off).take n).length) = [] :=
      List.drop_eq_nil_of_le (by omega)
    unfold File.write
    dsimp only
    rw [htail, List.take_of_length_le (Nat.le_of_eq hlen), hlen, Nat.sub_self,
      List.replicate_zero, List.append_nil, List.append_nil]
  rw [hdata, List.length_append, hlen]
  refine ⟨?_, rfl⟩
  rw [List.take_add, hchunk, hf]

/-- A call finds a fresh copy that nobody writes, and returns. -/
theorem Inv.check (h : Inv codecs s) (hi : s.targets[i]? = some t) {src : File}
    (hsrc : s.files t.source = some src) (hf : s.files t.path = some f)
    (hfresh : src.seconds ≤ f.seconds)
    (hidle : Each s fun u ph => u.path = t.path → ph.isWriting = false) :
    Inv codecs { s.answer t with phases := Function.update s.phases i .done } := by
  have ht : t ∈ s.targets := List.mem_of_getElem? hi
  have hok : CopyOk codecs s t f := by
    rcases h.copies t ht f hf with hok | ⟨k, u, hu, hpath, hwriting⟩
    · exact hok
    · have hlt := (List.getElem?_eq_some_iff.mp hu).1
      exact nomatch (hidle k hlt u hu hpath).symm.trans hwriting
  rcases hok with ⟨content, hdata, hmem⟩
  have hcomplete : Return.Complete codecs
      ⟨t, (s.files t.path).map File.data, s.contents t.source⟩ := by
    rw [hf]
    exact ⟨f.data, rfl, content, hmem src hsrc hfresh, hdata⟩
  rcases h.returnsComplete ht rfl hcomplete with ⟨hreturns, hreturned⟩
  refine h.advance hi (fun _ _ => rfl) (.inl ⟨rfl, rfl⟩) trivial ?_ hreturns hreturned
  intro f' hf'
  obtain rfl : f = f' := Option.some.inj (hf.symm.trans hf')
  exact .inl ⟨content, hdata, hmem⟩

/-- A call changes its copy, which no other call has opened, and writes on. -/
theorem Inv.write (h : Inv codecs s) (hi : s.targets[i]? = some t) (halone : Alone s i t)
    {time : ℤ} {off : ℕ} (hmade : Made codecs s t data) (hdata : f.data = data.take off)
    (hlen : f.data.length = off) :
    Inv codecs { s.put t.path f with
      phases := Function.update s.phases i (.writing time data off) } := by
  refine h.advance hi (fun p hp => Function.update_of_ne hp _ _) (.inr halone) ?_
    (fun _ _ => .inr (.inl rfl)) h.returns h.returned
  exact ⟨hmade, f, Function.update_self _ _ _, hdata, hlen⟩

theorem Inv.wrote (h : Inv codecs s) (hi : s.targets[i]? = some t) {time : ℤ} {off : ℕ}
    (hphase : s.phases i = .writing time data off) (hoff : data.length ≤ off) :
    Inv codecs { s with phases := Function.update s.phases i (.written time) } := by
  have hok := h.phases i t hi
  have hopened : (s.phases i).hasOpened = true := by
    rw [hphase]
    rfl
  rw [hphase] at hok
  rcases hok with ⟨hmade, f, hf, hdata, -⟩
  rw [List.take_of_length_le hoff] at hdata
  rw [← hdata] at hmade
  refine h.advance hi (fun _ _ => rfl) (.inr (h.alone hi hopened)) ⟨f, hf, hmade⟩ ?_ h.returns
    h.returned
  intro f' hf'
  obtain rfl : f = f' := Option.some.inj (hf.symm.trans hf')
  exact .inl hmade.copyOk

theorem Inv.finish (h : Inv codecs s) (hi : s.targets[i]? = some t) {time : ℤ} {f' : File}
    (hphase : s.phases i = .written time) (hf : s.files t.path = some f)
    (hsame : f'.data = f.data) :
    Inv codecs { (s.put t.path f').answer t with
      phases := Function.update s.phases i .done } := by
  have ht : t ∈ s.targets := List.mem_of_getElem? hi
  have hok := h.phases i t hi
  have hopened : (s.phases i).hasOpened = true := by
    rw [hphase]
    rfl
  rw [hphase] at hok
  rcases hok with ⟨g, hg, hmade⟩
  obtain rfl : f = g := Option.some.inj (hf.symm.trans hg)
  rw [← hsame] at hmade
  have hput : (s.put t.path f').files t.path = some f' := Function.update_self _ _ _
  have hcomplete : Return.Complete codecs
      ⟨t, ((s.put t.path f').files t.path).map File.data, s.contents t.source⟩ := by
    rcases hmade with ⟨content, hmem, hdata⟩
    rw [hput]
    exact ⟨f'.data, rfl, content, hmem, hdata⟩
  rcases h.returnsComplete ht rfl hcomplete with ⟨hreturns, hreturned⟩
  refine h.advance hi (fun p hp => Function.update_of_ne hp _ _) (.inr (h.alone hi hopened))
    trivial ?_ hreturns hreturned
  intro g hg
  obtain rfl : f' = g := Option.some.inj (hput.symm.trans hg)
  exact .inl hmade.copyOk

theorem Inv.exec (h : Inv codecs s) (hi : s.targets[i]? = some t)
    (hok : StepInOrder s t c (s.phases i)) :
    Inv codecs { (exec codecs s t c (s.phases i)).1 with
      phases := Function.update s.phases i (exec codecs s t c (s.phases i)).2 } := by
  have ht : t ∈ s.targets := List.mem_of_getElem? hi
  have hphase := h.phases i t hi
  have hgoOn : ∀ ph : Phase, ph.hasOpened = false → PhaseOk codecs s t ph →
      (s.phases i).isWriting = false →
      Inv codecs { s with phases := Function.update s.phases i ph } :=
    fun ph hopened hphase hwas => h.goOn hi hopened hphase hwas
  cases hph : s.phases i with
  | begun =>
    rw [hph] at hgoOn
    unfold CompressCache.exec
    dsimp only
    split
    · next src hsrc => exact hgoOn _ rfl ⟨src, hsrc, rfl⟩ rfl
    · exact hgoOn _ rfl trivial rfl
  | checking time =>
    rw [hph] at hgoOn hok hphase
    unfold CompressCache.exec
    dsimp only
    split
    · next f hf =>
      split
      · next hfresh =>
        rcases hphase with ⟨src, hsrc, rfl⟩
        exact h.check hi hsrc hf hfresh (hok f hf hfresh)
      · exact hgoOn _ rfl trivial rfl
    · exact hgoOn _ rfl trivial rfl
  | reading time =>
    rw [hph] at hgoOn
    unfold CompressCache.exec
    dsimp only
    split
    · next src hsrc =>
      split
      · exact hgoOn _ rfl trivial rfl
      · split
        · next data hdata =>
          have hcurrent := h.current _ (h.sources t ht) src hsrc
          exact hgoOn _ rfl ⟨src.data, hcurrent, hdata⟩ rfl
        · exact hgoOn _ rfl trivial rfl
    · exact hgoOn _ rfl trivial rfl
  | opening time data =>
    rw [hph] at hgoOn hok hphase
    unfold CompressCache.exec
    dsimp only
    split
    · next hc =>
      have halone : Alone s i t := by
        intro k u _ hu hpath
        exact hok hc k (List.getElem?_eq_some_iff.mp hu).1 u hu hpath
      exact h.write hi halone hphase rfl rfl
    · exact hgoOn _ rfl trivial rfl
  | writing time data off =>
    have halone : Alone s i t := h.alone hi (by rw [hph]; rfl)
    rw [hph] at hok hphase
    rcases hphase with ⟨hmade, f, hf, hdata, hlen⟩
    have hread : s.files t.path = some f := hf
    unfold CompressCache.exec
    dsimp only
    split
    · next hoff => exact h.wrote hi hph hoff
    · next hoff =>
      -- a write that fails is out of order
      have hc : c.ok = true := hok.resolve_left hoff
      rw [if_pos hc, hread]
      rcases write_take hdata hlen c.wrote c.now with ⟨htake, hcount⟩
      exact h.write hi halone hmade htake hcount
  | written time =>
    have hwritten := hphase
    rw [hph] at hwritten
    rcases hwritten with ⟨f, hf, -⟩
    have hread : s.files t.path = some f := hf
    unfold CompressCache.exec
    dsimp only
    rw [hread]
    dsimp only
    split
    · exact h.finish hi hph hread rfl
    · have hsame : s.put t.path f = s := by
        unfold State.put
        rw [← hread, Function.update_eq_self]
      have hfinish := h.finish hi hph hread (rfl : f.data = f.data)
      rw [hsame] at hfinish
      exact hfinish
  | done =>
    rw [hph] at hgoOn
    exact hgoOn _ rfl trivial rfl

/-! ## Changes of files and new calls -/

theorem phaseOk_of_idle (h : ph.idle = true) : PhaseOk codecs s t ph := by
  cases ph with
  | begun => trivial
  | done => trivial
  | _ => exact nomatch h

theorem exists_seconds_eq {a b : Option File} (h : a.map File.mtime = b.map File.mtime)
    {f : File} (hf : f ∈ a) : ∃ g ∈ b, g.seconds = f.seconds := by
  rw [Option.mem_def.mp hf] at h
  rcases Option.map_eq_some_iff.mp h.symm with ⟨g, hg, hmtime⟩
  refine ⟨g, hg, ?_⟩
  rw [File.seconds, hmtime]
  rfl

/-- A source is stored: its time stays, or no call for it is under way and its copies are
outdated. -/
theorem Inv.store (h : Inv codecs s) {file : Option File} (hpath : ¬ InCacheDir path)
    (hchange : (s.files path).map File.mtime ≠ file.map File.mtime →
      Each s fun t ph => t.source = path → ph.idle = true ∧
        ∀ f ∈ s.files t.path, ∀ new ∈ file, f.seconds < new.seconds) :
    Inv codecs { s with
      files := Function.update s.files path file
      contents := Function.update s.contents path (s.contentsAfter path file) } := by
  have hcopy : ∀ t ∈ s.targets, Function.update s.files path file t.path = s.files t.path := by
    intro t ht
    refine Function.update_of_ne ?_ _ _
    rintro rfl
    exact hpath (h.paths t ht)
  have hother : ∀ q, q ≠ path → Function.update s.files path file q = s.files q ∧
      Function.update s.contents path (s.contentsAfter path file) q = s.contents q :=
    fun q hq => ⟨Function.update_of_ne hq _ _, Function.update_of_ne hq _ _⟩
  -- what a source that keeps its time has held, it still has
  have hkeep : (s.files path).map File.mtime = file.map File.mtime →
      ∀ content ∈ s.contents path, content ∈ s.contentsAfter path file := by
    intro hsame content hmem
    rw [State.contentsAfter, if_pos hsame]
    exact List.mem_append_left _ hmem
  have hmade : ∀ t data, (t.source = path →
      (s.files path).map File.mtime = file.map File.mtime) → Made codecs s t data →
      Made codecs { s with
        files := Function.update s.files path file
        contents := Function.update s.contents path (s.contentsAfter path file) } t data := by
    rintro t data hsame ⟨content, hmem, hdata⟩
    refine ⟨content, ?_, hdata⟩
    dsimp only
    rcases eq_or_ne t.source path with heq | hne
    · rw [heq, Function.update_self]
      exact hkeep (hsame heq) content (heq ▸ hmem)
    · rw [(hother _ hne).2]
      exact hmem
  have hidle : ∀ j t, s.targets[j]? = some t → t.source = path →
      (s.files path).map File.mtime ≠ file.map File.mtime → (s.phases j).idle = true ∧
        ∀ f ∈ s.files t.path, ∀ new ∈ file, f.seconds < new.seconds := by
    intro j t ht hsource hne
    exact hchange hne j (List.getElem?_eq_some_iff.mp ht).1 t ht hsource
  constructor
  case sources => exact h.sources
  case paths => exact h.paths
  case unshared => exact h.unshared
  case known =>
    intro p hp f hf
    have hne : p ≠ path := by
      rintro rfl
      exact hpath hp
    exact h.known p hp f ((hother p hne).1 ▸ hf)
  case current =>
    intro p hp f hf
    dsimp only at hf ⊢
    rcases eq_or_ne p path with rfl | hne
    · rw [Function.update_self] at hf ⊢
      rw [hf, State.contentsAfter]
      split
      · exact List.mem_append_right _ (List.mem_singleton_self _)
      · exact List.mem_singleton_self _
    · rw [(hother p hne).1] at hf
      rw [(hother p hne).2]
      exact h.current p hp f hf
  case phases =>
    intro j t ht
    have hold := h.phases j t ht
    by_cases hout : t.source = path ∧ (s.files path).map File.mtime ≠ file.map File.mtime
    · have hphase := (hidle j t ht hout.1 hout.2).1
      exact phaseOk_of_idle hphase
    · have hsame : t.source = path → (s.files path).map File.mtime = file.map File.mtime :=
        fun heq => by_contra fun hne => hout ⟨heq, hne⟩
      refine hold.mono ?_ (fun _ => hcopy t (List.mem_of_getElem? ht))
        (fun data => hmade t data hsame)
      intro src hsrc
      dsimp only
      rcases eq_or_ne t.source path with heq | hne
      · rw [heq] at hsrc ⊢
        rw [Function.update_self]
        exact exists_seconds_eq (hsame heq) hsrc
      · exact ⟨src, (hother _ hne).1.trans hsrc, rfl⟩
  case owner => exact h.owner
  case copies =>
    intro t ht f hf
    rcases h.copies t ht f ((hcopy t ht).symm.trans hf) with ⟨content, hdata, hmem⟩ | hwriting
    · refine .inl ⟨content, hdata, ?_⟩
      intro src hsrc hfresh
      dsimp only at hsrc ⊢
      rcases eq_or_ne t.source path with heq | hne
      · rw [heq, Function.update_self] at hsrc
        rw [heq, Function.update_self]
        by_cases hsame : (s.files path).map File.mtime = file.map File.mtime
        · rcases exists_seconds_eq hsame.symm hsrc with ⟨old, hold, hseconds⟩
          rw [heq] at hmem
          exact hkeep hsame content (hmem old hold (hseconds ▸ hfresh))
        · rcases List.getElem?_of_mem ht with ⟨j, hj⟩
          have hlate := (hidle j t hj heq hsame).2 f ((hcopy t ht).symm.trans hf) src hsrc
          omega
      · rw [(hother _ hne).1] at hsrc
        rw [(hother _ hne).2]
        exact hmem src hsrc hfresh
    · exact .inr hwriting
  case returns => exact ⟨h.returns.complete, h.returns.unshared⟩
  case returned => exact h.returned

theorem inCacheDir_compressCachePath {source encoding : Bytes} {outLen : ℕ}
    (h : compressCachePath source encoding outLen = some path) : InCacheDir path := by
  unfold compressCachePath at h
  dsimp only at h
  split at h
  · exact nomatch h
  · split at h
    · rw [← Option.some.inj h]
      rfl
    · exact nomatch h

theorem Inv.call (h : Inv codecs s) (hsource : ¬ InCacheDir t.source) (hpath : InCacheDir t.path)
    (hshared : ∀ u ∈ s.targets, u.path = t.path → u.source = t.source ∧ u.encoding = t.encoding) :
    Inv codecs { s with
      targets := s.targets ++ [t]
      phases := Function.update s.phases s.targets.length .begun } := by
  have hcases : ∀ (j : ℕ) (u : Target), (s.targets ++ [t])[j]? = some u →
      s.targets[j]? = some u ∧ j ≠ s.targets.length ∨ j = s.targets.length ∧ u = t := by
    intro j u hu
    rw [List.getElem?_append] at hu
    split at hu
    · next hlt => exact .inl ⟨hu, Nat.ne_of_lt hlt⟩
    · rcases List.getElem?_eq_some_iff.mp hu with ⟨hlt, hget⟩
      rw [List.length_singleton] at hlt
      refine .inr ⟨by omega, ?_⟩
      rw [← hget, List.getElem_singleton]
  have hmem : ∀ u, u ∈ s.targets ++ [t] → u ∈ s.targets ∨ u = t := by
    intro u hu
    rw [List.mem_append, List.mem_singleton] at hu
    exact hu
  have hkept : ∀ (j : ℕ) (u : Target), s.targets[j]? = some u →
      (s.targets ++ [t])[j]? = some u := by
    intro j u hu
    rw [List.getElem?_append_left (List.getElem?_eq_some_iff.mp hu).1]
    exact hu
  constructor
  case sources =>
    intro u hu
    rcases hmem u hu with hu | rfl
    · exact h.sources u hu
    · exact hsource
  case paths =>
    intro u hu
    rcases hmem u hu with hu | rfl
    · exact h.paths u hu
    · exact hpath
  case unshared =>
    intro a ha b hb hsame
    rcases hmem a ha with hold | rfl
    · rcases hmem b hb with hold' | rfl
      · exact h.unshared a hold b hold' hsame
      · exact hshared a hold hsame
    · rcases hmem b hb with hold' | rfl
      · have hother := hshared b hold' hsame.symm
        exact ⟨hother.1.symm, hother.2.symm⟩
      · exact ⟨rfl, rfl⟩
  case known =>
    intro p hp f hf
    rcases h.known p hp f hf with ⟨u, hu, hsame⟩
    exact ⟨u, List.mem_append_left _ hu, hsame⟩
  case current => exact h.current
  case phases =>
    intro j u hu
    dsimp only
    rcases hcases j u hu with ⟨hu, hj⟩ | ⟨rfl, -⟩
    · rw [Function.update_of_ne hj]
      exact h.phases j u hu
    · rw [Function.update_self]
      trivial
  case owner =>
    intro j k a b ha hb hsame hopened hopened'
    dsimp only at hopened hopened'
    rcases hcases j a ha with ⟨ha, hj⟩ | ⟨rfl, -⟩
    · rcases hcases k b hb with ⟨hb, hk⟩ | ⟨rfl, -⟩
      · rw [Function.update_of_ne hj] at hopened
        rw [Function.update_of_ne hk] at hopened'
        exact h.owner j k a b ha hb hsame hopened hopened'
      · rw [Function.update_self] at hopened'
        exact nomatch hopened'
    · rw [Function.update_self] at hopened
      exact nomatch hopened
  case copies =>
    have hwriting : ∀ u, (∃ k v, s.targets[k]? = some v ∧ v.path = u ∧
        (s.phases k).isWriting = true) → ∃ k v, (s.targets ++ [t])[k]? = some v ∧ v.path = u ∧
        (Function.update s.phases s.targets.length .begun k).isWriting = true := by
      rintro u ⟨k, v, hv, hsame, hwriting⟩
      refine ⟨k, v, hkept k v hv, hsame, ?_⟩
      rw [Function.update_of_ne (Nat.ne_of_lt (List.getElem?_eq_some_iff.mp hv).1)]
      exact hwriting
    intro u hu f hf
    rcases hmem u hu with hu | rfl
    · rcases h.copies u hu f hf with hok | hother
      · exact .inl hok
      · exact .inr (hwriting u.path hother)
    · -- a copy that exists is one of an earlier call
      rcases h.known _ hpath f hf with ⟨v, hv, hsame⟩
      rcases hshared v hv hsame with ⟨hvsource, hvencoding⟩
      rcases h.copies v hv f (hsame ▸ hf) with hok | hother
      · exact .inl (hok.frame (hvsource ▸ rfl) hvsource hvencoding)
      · exact .inr (hwriting u.path (hsame ▸ hother))
  case returns => exact ⟨h.returns.complete, h.returns.unshared⟩
  case returned =>
    intro r hr
    exact List.mem_append_left _ (h.returned r hr)

theorem Inv.step (h : Inv codecs s) {e : Event} (hok : InOrder s e) :
    Inv codecs (step codecs s e) := by
  cases e with
  | store path file => exact h.store hok.1 hok.2
  | call source encoding outLen =>
    unfold CompressCache.step
    dsimp only
    split
    · next path hpath =>
      exact h.call (t := ⟨source, encoding, path⟩) hok.1 (inCacheDir_compressCachePath hpath)
        (hok.2 path hpath)
    · exact h
  | exec i c =>
    unfold CompressCache.step
    dsimp only
    split
    · next t ht => exact h.exec ht (hok t ht)
    · exact h

/-- In every run whose steps are all in order, whenever a call has returned true, its copy was
the complete compression, in its encoding, of something that its source had held since its
modification time last changed, and no two sources share a copy. -/
theorem compressed_cache_complete (codecs : Codecs) (es : List Event)
    (h : AllSteps (step codecs) InOrder start es) (s : State)
    (hs : Reaches (step codecs) start es s) : ReturnsComplete codecs s := by
  have hstep : ∀ s e, Inv codecs s → InOrder s e → Inv codecs (step codecs s e) :=
    fun _ _ hs hok => hs.step hok
  exact (h.invariant_reaches hstep (inv_start codecs) hs).returns

/-! ## Runs -/

def markCodecs : Codecs where
  zstd s := some (122 :: s)
  brotli s := some (98 :: s)
  gzip s := some (103 :: s)

def second (n : ℤ) : ℤ := n * 10 ^ 9

/-- A system call succeeds and writes what there is. -/
def go (i : ℕ) (now : ℤ) : Event := .exec i ⟨second now, true, 100, true⟩

def callBr (source : Bytes) : Event := .call source (bytes "br") 4096

/-- Call `i` goes through all its steps. -/
def wholeCall (i : ℕ) (now : ℤ) : List Event := List.replicate 7 (go i now)

def appJs : Bytes := bytes "public/js/app.js"

/-- A file is compressed, changed a second later, and compressed again. -/
def compressedTwice : List Event :=
  [.store appJs (some ⟨bytes "one", second 100⟩), callBr appJs] ++ wholeCall 0 200 ++
    [.store appJs (some ⟨bytes "two", second 101⟩), callBr appJs] ++ wholeCall 1 300

theorem compressed_twice :
    (run (step markCodecs) start compressedTwice).returns.map Return.file =
        [some (bytes "bone"), some (bytes "btwo")] ∧
      ReturnsComplete markCodecs (run (step markCodecs) start compressedTwice) := by
  have hrun : (run (step markCodecs) start compressedTwice).returns.map Return.file =
        [some (bytes "bone"), some (bytes "btwo")] ∧
      AllSteps (step markCodecs) InOrder start compressedTwice := by
    decide +kernel
  exact ⟨hrun.1, compressed_cache_complete markCodecs compressedTwice hrun.2 _
    (reaches_run start _)⟩

/-- A write fails after two bytes, and the next call finds the copy fresh. -/
def abortedWrite : List Event :=
  [.store appJs (some ⟨bytes "one", second 100⟩), callBr appJs] ++ List.replicate 4 (go 0 200) ++
    [.exec 0 ⟨second 200, true, 2, true⟩, .exec 0 ⟨second 200, false, 0, true⟩, callBr appJs,
      go 1 300, go 1 300]

/-- What `fclose` has still to write is lost, and the call returns true. -/
def lostOnClose : List Event :=
  [.store appJs (some ⟨bytes "one", second 100⟩), callBr appJs] ++ List.replicate 4 (go 0 200) ++
    [.exec 0 ⟨second 200, false, 0, false⟩, go 0 200]

def sameSecond : List Event :=
  [.store appJs (some ⟨bytes "one", second 100⟩), callBr appJs] ++ wholeCall 0 100 ++
    [.store appJs (some ⟨bytes "two", second 100 + 1⟩), callBr appJs, go 1 200, go 1 200]

def emptied : List Event :=
  [.store appJs (some ⟨bytes "one", second 100⟩), callBr appJs, callBr appJs] ++
    List.replicate 4 (go 0 200) ++ [go 1 200, go 1 200]

/-- Two files differ in a slash and an underscore. -/
def oneName : List Event :=
  [.store (bytes "a/b") (some ⟨bytes "one", second 100⟩), callBr (bytes "a/b")] ++
    wholeCall 0 200 ++
    [.store (bytes "a_b") (some ⟨bytes "two", second 100⟩), callBr (bytes "a_b"), go 1 300,
      go 1 300]

/-- In each of these runs a call returns true with a copy that is not what it should be. -/
theorem incomplete_copies :
    ¬ ReturnsComplete markCodecs (run (step markCodecs) start abortedWrite) ∧
      ¬ ReturnsComplete markCodecs (run (step markCodecs) start lostOnClose) ∧
      ¬ ReturnsComplete markCodecs (run (step markCodecs) start sameSecond) ∧
      ¬ ReturnsComplete markCodecs (run (step markCodecs) start emptied) ∧
      ¬ ReturnsComplete markCodecs (run (step markCodecs) start oneName) := by
  decide +kernel

end FlyBoard.CompressCache
