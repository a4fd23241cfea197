import FlyBoard.Lib.Base64
import FlyBoard.Lib.Buffer
import FlyBoard.Tools.MailImport

/-!
# The attachments of an imported message (`src/tools/mail_import.c`)

`parse_part` keeps an attachment as a sanitized name and a base64 text. `db_deliver` writes
each one to a file of that name below the mail's directory and lists the names in a buffer of
2048 bytes. The offset into the buffer goes on by the length of the whole entry, also when
there is no room for it.
-/

namespace FlyBoard.MailImport

open Bytes

/-! ## Names -/

/-- `strrchr(s, c) + 1` -/
def afterLast (c : UInt8) (s : Bytes) : Option Bytes :=
  if c ∈ s then some (s.reverse.takeWhile (· != c)).reverse else none

/-- `if (base && base + 1 > b) b = base + 1;` with both as what follows them. -/
def later (t : Option Bytes) (b : Bytes) : Bytes :=
  match t with
  | some t => if t.length < b.length then t else b
  | none => b

/-- The characters that are replaced; `char` is signed. -/
def isUnsafe (c : UInt8) : Bool := c < 32 || 128 ≤ c || (bytes ":?*\"<>|").contains c

/-- `sanitize_name` -/
def sanitizeName (name : Bytes) : Bytes :=
  let b := later (afterLast 92 name) (later (afterLast 47 name) name)
  let s := b.map fun c => if isUnsafe c then 95 else c
  if s.isEmpty then bytes "attachment.bin" else s

/-- Two slots of `res->attachments`. -/
structure Attachment where
  safe : Bytes
  b64 : Bytes

/-- What `parse_part` keeps of a file. -/
def stash (file : Bytes × Bytes) : Attachment := ⟨sanitizeName file.1, Base64.encode file.2⟩

/-! ## Delivery -/

/-- `dir` -/
def mailDir (id : ℕ) : Bytes := snprintfS 256 (bytes "public/uploads/mail/" ++ decimal id)

/-- `path` -/
def attachmentPath (id : ℕ) (safe : Bytes) : Bytes := snprintfS 512 (mailDir id ++ 47 :: safe)

/-- What `snprintf` writes at an offset, of a text and its terminator, into `n` bytes. -/
def snprintfAt (b : Buffer UInt8) (lo n : ℕ) (s : Bytes) : Buffer UInt8 :=
  if n = 0 then b else b.puts lo (s.take (n - 1) ++ [0])

/-- `sizeof(listing) - lo` -/
def room (lo : ℕ) : ℕ := (2 ^ 64 + 2048 - lo) % 2 ^ 64

/-- The listing with its offset, the files, and the paths that were opened. -/
structure Delivery where
  listing : Buffer UInt8
  lo : ℕ
  files : Bytes → Option Bytes
  opened : List Bytes

/-- `lo += snprintf(listing + lo, sizeof(listing) - lo, ...)` -/
def Delivery.list (d : Delivery) (s : Bytes) : Delivery :=
  { d with
    listing := snprintfAt d.listing d.lo (room d.lo) s
    lo := (d.lo + s.length) % 2 ^ 64 }

def isDots (safe : Bytes) : Bool := safe == bytes "." || safe == bytes ".."

/-- `fopen(path, "wb")`, `fwrite` and `fclose`; `opens` is whether the system opens a path
that is no directory. -/
def Delivery.save (d : Delivery) (opens : Bool) (id : ℕ) (a : Attachment) : Delivery :=
  if opens && !isDots a.safe then
    { d with
      files := Function.update d.files (attachmentPath id a.safe) (some (b64Decode a.b64))
      opened := d.opened ++ [attachmentPath id a.safe] }
  else d

def entry (safe : Bytes) : Bytes := bytes "  " ++ safe ++ [10]

def Delivery.attach (d : Delivery) (opens : Bool) (id : ℕ) (a : Attachment) : Delivery :=
  (d.save opens id a).list (entry a.safe)

/-- The loop over the attachments; `opens i` is about the `i`th. -/
def attachFrom (opens : ℕ → Bool) (id : ℕ) : ℕ → List Attachment → Delivery → Delivery
  | _, [], d => d
  | i, a :: rest, d => attachFrom opens id (i + 1) rest (d.attach (opens i) id a)

def listingHead : Bytes := bytes "\n\n--- Attachments ---\n"

/-- The part of `db_deliver` that keeps the attachments; `dirReady` is whether the directory
of the mail is there. -/
def dbDeliver (dirReady : Bool) (opens : ℕ → Bool) (id : ℕ) (files : Bytes → Option Bytes)
    (attachments : List Attachment) : Delivery :=
  let d : Delivery := ⟨.alloc 2048, 0, files, []⟩
  if attachments.isEmpty || !dirReady then d
  else attachFrom opens id 0 attachments (d.list listingHead)

/-! ## What is wanted -/

def DirectlyIn (id : ℕ) (path : Bytes) : Prop :=
  ∃ name, path = bytes "public/uploads/mail/" ++ decimal id ++ 47 :: name ∧
    name ≠ [] ∧ (47 : UInt8) ∉ name ∧ isDots name = false

/-- Each text is the content of a file of its own, among those that were opened. -/
def OwnFiles (d : Delivery) (contents : List Bytes) : Prop :=
  ∃ paths : List Bytes, paths.Nodup ∧
    List.Forall₂ (fun path content => path ∈ d.opened ∧ d.files path = some content) paths contents

/-- Whatever the system does: no write misses the listing, the files lie in the directory, and
if every file was opened, each attachment has one of its own. -/
def SavedSafely (id : ℕ) (attached : List (Bytes × Bytes)) : Prop :=
  ∀ dirReady opens files,
    let d := dbDeliver dirReady opens id files (attached.map stash)
    d.listing.InBounds ∧ (∀ path ∈ d.opened, DirectlyIn id path) ∧
      (d.opened.length = attached.length → OwnFiles d (attached.map Prod.snd))

/-- Every entry begins inside of the listing, or at its end. -/
def Fits : ℕ → List Bytes → Prop
  | _, [] => True
  | lo, safe :: rest => lo ≤ 2048 ∧ Fits ((lo + (safe.length + 3)) % 2 ^ 64) rest

instance decidableFits : (lo : ℕ) → (names : List Bytes) → Decidable (Fits lo names)
  | _, [] => inferInstanceAs (Decidable True)
  | lo, safe :: rest =>
    @instDecidableAnd _ _ (Nat.decLe lo 2048)
      (decidableFits ((lo + (safe.length + 3)) % 2 ^ 64) rest)

/-! ## The bytes of an attachment -/

variable {s t name : Bytes} {c : UInt8} {id lo : ℕ} {d : Delivery} {a : Attachment}
  {opens : ℕ → Bool} {rest : List Attachment}

theorem b64Val_digit {v : ℕ} (h : v < 64) : b64Val (Base64.digit v) = some v := by
  have hall : ∀ v < 64, b64Val (Base64.digit v) = some v := by decide
  exact hall v h

theorem b64Go_digit {acc nbits v : ℕ} (h : v < 64) (s : Bytes) :
    b64Go acc nbits (Base64.digit v :: s) =
      if 8 ≤ nbits + 6 then
        UInt8.ofNat ((64 * acc + v) / 2 ^ (nbits - 2)) ::
          b64Go ((64 * acc + v) % 2 ^ (nbits - 2)) (nbits - 2) s
      else b64Go (64 * acc + v) (nbits + 6) s := by
  rw [b64Go, b64Val_digit h]

theorem b64Go_pad (acc nbits : ℕ) (s : Bytes) : b64Go acc nbits (61 :: s) = b64Go acc nbits s := by
  rw [b64Go]
  rfl

theorem ofNat_eq {n : ℕ} {c : UInt8} (h : n = c.toNat) : UInt8.ofNat n = c := by
  rw [h, UInt8.ofNat_toNat]

/-- What `parse_part` encodes is decoded again. -/
theorem b64Decode_encode (s : Bytes) : b64Decode (Base64.encode s) = s := by
  unfold b64Decode
  induction s using Base64.encode.induct with
  | case1 => rfl
  | case2 a =>
    have ha := a.toNat_lt
    rw [Base64.encode, b64Go_digit (by omega), if_neg (by decide), b64Go_digit (by omega),
      if_pos (by decide), b64Go_pad, b64Go_pad, b64Go]
    rw [List.cons.injEq]
    exact ⟨ofNat_eq (by omega), rfl⟩
  | case3 a b =>
    have ha := a.toNat_lt
    have hb := b.toNat_lt
    rw [Base64.encode, b64Go_digit (by omega), if_neg (by decide), b64Go_digit (by omega),
      if_pos (by decide), b64Go_digit (by omega), if_pos (by decide), b64Go_pad, b64Go]
    rw [List.cons.injEq, List.cons.injEq]
    exact ⟨ofNat_eq (by omega), ofNat_eq (by omega), rfl⟩
  | case4 a b c s ih =>
    have ha := a.toNat_lt
    have hb := b.toNat_lt
    have hc := c.toNat_lt
    rw [Base64.encode, b64Go_digit (by omega), if_neg (by decide), b64Go_digit (by omega),
      if_pos (by decide), b64Go_digit (by omega), if_pos (by decide), b64Go_digit (by omega),
      if_pos (by decide)]
    simp only [Nat.zero_add, Nat.reduceSub, Nat.pow_zero, Nat.mod_one, ih]
    rw [List.cons.injEq, List.cons.injEq, List.cons.injEq]
    exact ⟨ofNat_eq (by omega), ofNat_eq (by omega), ofNat_eq (by omega), rfl⟩

/-! ## Names and paths -/

theorem afterLast_isSuffix (h : afterLast c s = some t) : t <:+ s ∧ c ∉ t := by
  rw [afterLast, Option.ite_none_right_eq_some, Option.some_inj] at h
  rw [← h.2]
  constructor
  · rw [← List.reverse_prefix, List.reverse_reverse]
    exact List.takeWhile_prefix _
  · intro hmem
    have hne := List.mem_takeWhile_imp (List.mem_reverse.mp hmem)
    simp at hne

theorem slash_not_mem_base (name : Bytes) :
    (47 : UInt8) ∉ later (afterLast 92 name) (later (afterLast 47 name) name) := by
  have hfirst : (47 : UInt8) ∉ later (afterLast 47 name) name ∧
      later (afterLast 47 name) name <:+ name := by
    cases hlast : afterLast 47 name with
    | none =>
      refine ⟨?_, List.suffix_rfl⟩
      intro hmem
      change (47 : UInt8) ∈ name at hmem
      rw [afterLast, if_pos hmem] at hlast
      exact nomatch hlast
    | some t =>
      rcases afterLast_isSuffix hlast with ⟨hsuffix, hslash⟩
      have hmem : (47 : UInt8) ∈ name := by
        by_contra hnot
        rw [afterLast, if_neg hnot] at hlast
        exact nomatch hlast
      have hlt : t.length < name.length := by
        rcases Nat.lt_or_ge t.length name.length with hlt | hge
        · exact hlt
        · rw [hsuffix.eq_of_length_le hge] at hslash
          exact absurd hmem hslash
      rw [later, if_pos hlt]
      exact ⟨hslash, hsuffix⟩
  cases hlast : afterLast 92 name with
  | none => exact hfirst.1
  | some t =>
    rw [later]
    split
    · rename_i hlt
      -- The shorter one of two ends of the name is an end of the other.
      have hsuffix := List.suffix_of_suffix_length_le (afterLast_isSuffix hlast).1 hfirst.2
        (Nat.le_of_lt hlt)
      exact fun hmem => hfirst.1 (hsuffix.subset hmem)
    · exact hfirst.1

theorem sanitizeName_spec (name : Bytes) :
    sanitizeName name ≠ [] ∧ (47 : UInt8) ∉ sanitizeName name := by
  unfold sanitizeName
  dsimp only
  split
  · exact ⟨by decide, by decide⟩
  · rename_i hne
    refine ⟨fun hnil => hne (List.isEmpty_iff.mpr hnil), ?_⟩
    intro hmem
    rcases List.mem_map.mp hmem with ⟨c, hc, hslash⟩
    split at hslash
    · exact absurd hslash (by decide)
    · exact slash_not_mem_base name (hslash ▸ hc)

theorem mailDir_eq (hid : id < 2 ^ 31) :
    mailDir id = bytes "public/uploads/mail/" ++ decimal id ∧ (mailDir id).length ≤ 30 := by
  have hlen : (bytes "public/uploads/mail/" ++ decimal id).length ≤ 30 := by
    have hdecimal : (decimal id).length ≤ 10 := length_decimal_le (by decide) (by omega)
    have hwords : (bytes "public/uploads/mail/").length = 20 := by decide
    rw [List.length_append]
    omega
  have hwhole : mailDir id = bytes "public/uploads/mail/" ++ decimal id :=
    List.take_of_length_le (by omega)
  exact ⟨hwhole, hwhole ▸ hlen⟩

theorem directlyIn_attachmentPath (hid : id < 2 ^ 31) (hne : s ≠ []) (hslash : (47 : UInt8) ∉ s)
    (hdots : isDots s = false) : DirectlyIn id (attachmentPath id s) := by
  rcases mailDir_eq hid with ⟨hdir, hlen⟩
  have hpath : attachmentPath id s = mailDir id ++ 47 :: s.take (510 - (mailDir id).length) := by
    have hroom : 512 - 1 - (mailDir id).length = 510 - (mailDir id).length + 1 := by omega
    rw [attachmentPath, snprintfS, List.take_append, List.take_of_length_le (by omega), hroom,
      List.take_succ_cons]
  refine ⟨s.take (510 - (mailDir id).length), ?_, ?_, ?_, ?_⟩
  · rw [hpath, hdir]
  · rw [ne_eq, List.take_eq_nil_iff]
    rintro (hzero | hnil)
    · omega
    · exact hne hnil
  · exact fun hmem => hslash (List.mem_of_mem_take hmem)
  · rcases Nat.lt_or_ge s.length (510 - (mailDir id).length) with hlt | hge
    · rw [List.take_of_length_le (Nat.le_of_lt hlt)]
      exact hdots
    · -- A name that is cut is longer than two bytes.
      have hcut : (s.take (510 - (mailDir id).length)).length = 510 - (mailDir id).length := by
        rw [List.length_take]
        omega
      rw [isDots, Bool.or_eq_false_iff, beq_eq_false_iff_ne, beq_eq_false_iff_ne]
      constructor
      · intro heq
        rw [heq] at hcut
        have hone : (bytes ".").length = 1 := by decide
        omega
      · intro heq
        rw [heq] at hcut
        have htwo : (bytes "..").length = 2 := by decide
        omega

/-! ## The listing -/

theorem size_snprintfAt (b : Buffer UInt8) (lo n : ℕ) (s : Bytes) :
    (snprintfAt b lo n s).size = b.size := by
  unfold snprintfAt
  split
  · rfl
  · exact Buffer.size_puts

/-- An entry stays inside exactly if it begins inside or at the end. -/
theorem inBounds_list (hsize : d.listing.size = 2048) (hlo : d.lo < 2 ^ 64) (s : Bytes) :
    (d.list s).listing.InBounds ↔ d.listing.InBounds ∧ d.lo ≤ 2048 := by
  change (snprintfAt d.listing d.lo (room d.lo) s).InBounds ↔ _
  unfold snprintfAt
  split
  · rename_i hzero
    rw [room] at hzero
    exact ⟨fun h => ⟨h, by omega⟩, fun h => h.1⟩
  · rename_i hroom
    rw [Buffer.inBounds_iff, Buffer.inBounds_iff, Buffer.size_puts, Buffer.offsets_puts, hsize,
      List.length_append, List.length_take, List.length_singleton]
    constructor
    · intro h
      refine ⟨fun i hi => h i (List.mem_append_left _ hi), ?_⟩
      have hfirst := h d.lo (List.mem_append_right _ (List.mem_range'_1.mpr ⟨le_rfl, by omega⟩))
      omega
    · rintro ⟨h, hle⟩ i hi
      rw [List.mem_append, List.mem_range'_1] at hi
      rcases hi with hi | hi
      · exact h i hi
      · have hrest : room d.lo = 2048 - d.lo := by
          rw [room]
          omega
        omega

theorem listing_save (d : Delivery) (opens : Bool) (id : ℕ) (a : Attachment) :
    (d.save opens id a).listing = d.listing ∧ (d.save opens id a).lo = d.lo := by
  unfold Delivery.save
  split
  · exact ⟨rfl, rfl⟩
  · exact ⟨rfl, rfl⟩

theorem length_entry (s : Bytes) : (entry s).length = s.length + 3 := by
  have hblanks : (bytes "  ").length = 2 := by decide
  rw [entry, List.length_append, List.length_append, hblanks, List.length_singleton]
  omega

theorem inBounds_attachFrom (opens : ℕ → Bool) (id i : ℕ) (as : List Attachment)
    (hsize : d.listing.size = 2048) (hlo : d.lo < 2 ^ 64) :
    (attachFrom opens id i as d).listing.InBounds ↔
      d.listing.InBounds ∧ Fits d.lo (as.map Attachment.safe) := by
  induction as generalizing i d with
  | nil => exact (and_iff_left trivial).symm
  | cons a as ih =>
    rcases listing_save d (opens i) id a with ⟨hlisting, hoffset⟩
    have hsize' : (d.save (opens i) id a).listing.size = 2048 := by rw [hlisting, hsize]
    have hlo' : (d.save (opens i) id a).lo < 2 ^ 64 := by rw [hoffset]; exact hlo
    have hnext : (d.attach (opens i) id a).listing.size = 2048 :=
      (size_snprintfAt _ _ _ _).trans hsize'
    have hnextLo : (d.attach (opens i) id a).lo = (d.lo + (a.safe.length + 3)) % 2 ^ 64 := by
      change ((d.save (opens i) id a).lo + (entry a.safe).length) % 2 ^ 64 = _
      rw [hoffset, length_entry]
    rw [attachFrom, ih (i + 1) hnext (by rw [hnextLo]; omega), hnextLo, List.map_cons, Fits,
      ← and_assoc, Delivery.attach, inBounds_list hsize' hlo', hlisting, hoffset]

/-! ## The files -/

theorem attach_files (d : Delivery) (opens : Bool) (id : ℕ) (a : Attachment) :
    (d.attach opens id a).files = (d.save opens id a).files ∧
      (d.attach opens id a).opened = (d.save opens id a).opened := ⟨rfl, rfl⟩

theorem save_cases (d : Delivery) (o : Bool) (id : ℕ) (a : Attachment) :
    (o = true ∧ isDots a.safe = false ∧ (d.attach o id a).opened =
        d.opened ++ [attachmentPath id a.safe] ∧ (d.attach o id a).files =
        Function.update d.files (attachmentPath id a.safe) (some (b64Decode a.b64))) ∨
      (¬ (o = true ∧ isDots a.safe = false) ∧ (d.attach o id a).opened = d.opened ∧
        (d.attach o id a).files = d.files) := by
  rcases attach_files d o id a with ⟨hfiles, hopened⟩
  rw [hfiles, hopened]
  unfold Delivery.save
  split
  · rename_i hsaved
    rw [Bool.and_eq_true, Bool.not_eq_true'] at hsaved
    exact .inl ⟨hsaved.1, hsaved.2, rfl, rfl⟩
  · rename_i hnot
    rw [Bool.and_eq_true, Bool.not_eq_true'] at hnot
    exact .inr ⟨hnot, rfl, rfl⟩

theorem mem_opened (opens : ℕ → Bool) (id i : ℕ) (as : List Attachment) {path : Bytes}
    (h : path ∈ (attachFrom opens id i as d).opened) :
    path ∈ d.opened ∨ ∃ a ∈ as, isDots a.safe = false ∧ path = attachmentPath id a.safe := by
  induction as generalizing i d with
  | nil => exact .inl h
  | cons a as ih =>
    rw [attachFrom] at h
    rcases ih (i + 1) h with hmem | ⟨b, hb, hdots, rfl⟩
    · rcases save_cases d (opens i) id a with ⟨-, hdots, hopened, -⟩ | ⟨-, hopened, -⟩
      · rw [hopened, List.mem_append, List.mem_singleton] at hmem
        rcases hmem with hmem | rfl
        · exact .inl hmem
        · exact .inr ⟨a, List.mem_cons_self, hdots, rfl⟩
      · exact .inl (hopened ▸ hmem)
    · exact .inr ⟨b, List.mem_cons_of_mem a hb, hdots, rfl⟩

theorem length_opened_le (opens : ℕ → Bool) (id i : ℕ) (as : List Attachment) (d : Delivery) :
    (attachFrom opens id i as d).opened.length ≤ d.opened.length + as.length := by
  induction as generalizing i d with
  | nil => exact le_rfl
  | cons a as ih =>
    have hrest := ih (i + 1) (d.attach (opens i) id a)
    rw [attachFrom, List.length_cons]
    rcases save_cases d (opens i) id a with ⟨-, -, hopened, -⟩ | ⟨-, hopened, -⟩
    · rw [hopened, List.length_append, List.length_singleton] at hrest
      omega
    · rw [hopened] at hrest
      omega

theorem attachFrom_frame (opens : ℕ → Bool) (id i : ℕ) (as : List Attachment) (d : Delivery)
    {path : Bytes} (h : ∀ a ∈ as, path ≠ attachmentPath id a.safe) :
    (attachFrom opens id i as d).files path = d.files path := by
  induction as generalizing i d with
  | nil => rfl
  | cons a as ih =>
    rw [List.forall_mem_cons] at h
    rw [attachFrom, ih (i + 1) _ h.2]
    rcases save_cases d (opens i) id a with ⟨-, -, -, hfiles⟩ | ⟨-, -, hfiles⟩
    · rw [hfiles, Function.update_of_ne h.1]
    · rw [hfiles]

/-- If every file was opened, the paths are those of the attachments, and an attachment whose
path no other one has is found under it. -/
theorem attachFrom_full (opens : ℕ → Bool) (id i : ℕ) (as : List Attachment) (d : Delivery)
    (h : (attachFrom opens id i as d).opened.length = d.opened.length + as.length) :
    (attachFrom opens id i as d).opened =
        d.opened ++ as.map (fun a => attachmentPath id a.safe) ∧
      (∀ a ∈ as, isDots a.safe = false) ∧
      ((as.map fun a => attachmentPath id a.safe).Nodup → ∀ a ∈ as,
        (attachFrom opens id i as d).files (attachmentPath id a.safe) =
          some (b64Decode a.b64)) := by
  induction as generalizing i d with
  | nil => exact ⟨(List.append_nil _).symm, List.forall_mem_nil _, fun _ => List.forall_mem_nil _⟩
  | cons a as ih =>
    have hrest := length_opened_le opens id (i + 1) as (d.attach (opens i) id a)
    rw [attachFrom] at h ⊢
    rw [List.length_cons] at h
    rcases save_cases d (opens i) id a with ⟨-, hdots, hopened, hfiles⟩ | ⟨-, hopened, -⟩
    · have hlen : (d.attach (opens i) id a).opened.length = d.opened.length + 1 := by
        rw [hopened, List.length_append, List.length_singleton]
      rcases ih (i + 1) (d.attach (opens i) id a) (by omega) with ⟨hall, hnames, hfound⟩
      refine ⟨?_, ?_, ?_⟩
      · rw [hall, hopened, List.map_cons, List.append_assoc, List.singleton_append]
      · exact List.forall_mem_cons.mpr ⟨hdots, hnames⟩
      · intro hnodup
        rw [List.map_cons, List.nodup_cons] at hnodup
        refine List.forall_mem_cons.mpr ⟨?_, hfound hnodup.2⟩
        rw [attachFrom_frame, hfiles, Function.update_self]
        intro b hb heq
        exact hnodup.1 (heq ▸ List.mem_map_of_mem hb)
    · rw [hopened] at hrest
      omega

/-- Where the system opens everything, a list without directory names is opened as a whole. -/
theorem attachFrom_opens (id i : ℕ) (as : List Attachment) (d : Delivery)
    (h : ∀ a ∈ as, isDots a.safe = false) :
    (attachFrom (fun _ => true) id i as d).opened.length = d.opened.length + as.length := by
  induction as generalizing i d with
  | nil => rfl
  | cons a as ih =>
    rw [List.forall_mem_cons] at h
    rw [attachFrom, ih (i + 1) _ h.2, List.length_cons]
    rcases save_cases d true id a with ⟨-, -, hopened, -⟩ | ⟨hnot, -⟩
    · rw [hopened, List.length_append, List.length_singleton]
      omega
    · exact absurd ⟨rfl, h.1⟩ hnot

/-! ## All attachments -/

section

variable {attached : List (Bytes × Bytes)}

def pathsOf (id : ℕ) (attached : List (Bytes × Bytes)) : List Bytes :=
  attached.map fun file => attachmentPath id (sanitizeName file.1)

theorem pathsOf_eq (id : ℕ) (attached : List (Bytes × Bytes)) :
    (attached.map stash).map (fun a => attachmentPath id a.safe) = pathsOf id attached := by
  rw [List.map_map]
  rfl

theorem nodup_of_ownFiles {contents : List Bytes} (h : OwnFiles d contents)
    (hlen : d.opened.length = contents.length) : d.opened.Nodup := by
  rcases h with ⟨paths, hnodup, hfiles⟩
  have hsubset : paths ⊆ d.opened := by
    intro path hpath
    rcases List.mem_iff_getElem.mp hpath with ⟨i, hi, rfl⟩
    have hi' : i < contents.length := hfiles.length_eq ▸ hi
    exact (List.Forall₂.get hfiles hi hi').1
  have hperm := (List.subperm_of_subset hnodup hsubset).perm_of_length_le
    (by rw [hlen, hfiles.length_eq])
  exact hperm.nodup_iff.mp hnodup

theorem list_listingHead (files : Bytes → Option Bytes) :
    let d := (⟨.alloc 2048, 0, files, []⟩ : Delivery).list listingHead
    d.listing.size = 2048 ∧ d.lo = 22 ∧ d.listing.InBounds ∧ d.opened = [] ∧ d.files = files := by
  have hhead : listingHead.length = 22 := by decide
  refine ⟨size_snprintfAt _ _ _ _, ?_, ?_, rfl, rfl⟩
  · show (0 + listingHead.length) % 2 ^ 64 = 22
    omega
  · exact (inBounds_list rfl (Nat.two_pow_pos 64) _).mpr
      ⟨Buffer.inBounds_alloc 2048, Nat.zero_le 2048⟩

/-- A delivery does nothing without a directory or an attachment, and goes over the
attachments otherwise. -/
theorem dbDeliver_cases (dirReady : Bool) (opens : ℕ → Bool) (id : ℕ)
    (files : Bytes → Option Bytes) (attached : List (Bytes × Bytes)) :
    (dbDeliver dirReady opens id files (attached.map stash) = ⟨.alloc 2048, 0, files, []⟩ ∧
        (attached = [] ∨ dirReady = false)) ∨
      dbDeliver dirReady opens id files (attached.map stash) =
        attachFrom opens id 0 (attached.map stash)
          ((⟨.alloc 2048, 0, files, []⟩ : Delivery).list listingHead) := by
  unfold dbDeliver
  dsimp only
  split
  · rename_i hidle
    rw [Bool.or_eq_true, List.isEmpty_iff, List.map_eq_nil_iff, Bool.not_eq_true'] at hidle
    exact .inl ⟨rfl, hidle⟩
  · exact .inr rfl

theorem names_stash (attached : List (Bytes × Bytes)) :
    (attached.map stash).map Attachment.safe = attached.map fun file => sanitizeName file.1 := by
  rw [List.map_map]
  rfl

theorem needed_of_savedSafely (h : SavedSafely id attached) :
    Fits 22 (attached.map fun file => sanitizeName file.1) ∧
      ((∃ file ∈ attached, isDots (sanitizeName file.1) = true) ∨
        (pathsOf id attached).Nodup) := by
  rcases h true (fun _ => true) (fun _ => none) with ⟨hbounds, -, hown⟩
  rcases list_listingHead (fun _ => none) with ⟨hsize, hlo, -, hopened, -⟩
  rcases dbDeliver_cases true (fun _ => true) id (fun _ => none) attached with
    ⟨-, rfl | htrue⟩ | hrun
  · exact ⟨trivial, .inr List.nodup_nil⟩
  · exact nomatch htrue
  · rw [hrun] at hbounds hown
    rw [inBounds_attachFrom _ _ _ _ hsize (by rw [hlo]; decide), hlo, names_stash] at hbounds
    refine ⟨hbounds.2, ?_⟩
    by_cases hdots : ∃ file ∈ attached, isDots (sanitizeName file.1) = true
    · exact .inl hdots
    · right
      have hplain : ∀ a ∈ attached.map stash, isDots a.safe = false := by
        intro a ha
        rcases List.mem_map.mp ha with ⟨file, hfile, rfl⟩
        exact Bool.eq_false_iff.mpr fun hname => hdots ⟨file, hfile, hname⟩
      have hlen := attachFrom_opens id 0 (attached.map stash) ((⟨.alloc 2048, 0, fun _ => none,
        []⟩ : Delivery).list listingHead) hplain
      have hfull := (attachFrom_full _ _ _ _ _ hlen).1
      rw [hopened, List.length_nil, Nat.zero_add, List.length_map] at hlen
      have hnodup := nodup_of_ownFiles (hown hlen) (by rw [hlen, List.length_map])
      rwa [hfull, hopened, List.nil_append, pathsOf_eq] at hnodup

/-- The attachments are saved safely exactly if every entry of the listing begins within 2048
bytes and no two attachments have one path, unless a name is a directory. -/
theorem savedSafely_iff (hid : id < 2 ^ 31) :
    SavedSafely id attached ↔
      Fits 22 (attached.map fun file => sanitizeName file.1) ∧
        ((∃ file ∈ attached, isDots (sanitizeName file.1) = true) ∨
          (pathsOf id attached).Nodup) := by
  refine ⟨needed_of_savedSafely, ?_⟩
  rintro ⟨hfits, hpaths⟩ dirReady opens files
  rcases dbDeliver_cases dirReady opens id files attached with ⟨hidle, -⟩ | hrun
  · rw [hidle]
    refine ⟨Buffer.inBounds_alloc 2048, List.forall_mem_nil _, ?_⟩
    intro hlen
    have hnil : attached = [] := List.length_eq_zero_iff.mp hlen.symm
    rw [hnil]
    exact ⟨[], List.nodup_nil, .nil⟩
  · rw [hrun]
    rcases list_listingHead files with ⟨hsize, hlo, hbounds, hopened, -⟩
    refine ⟨?_, ?_, ?_⟩
    · rw [inBounds_attachFrom _ _ _ _ hsize (by rw [hlo]; decide), hlo, names_stash]
      exact ⟨hbounds, hfits⟩
    · intro path hpath
      rcases mem_opened _ _ _ _ hpath with hmem | ⟨a, ha, hdots, rfl⟩
      · rw [hopened] at hmem
        exact absurd hmem List.not_mem_nil
      · rcases List.mem_map.mp ha with ⟨file, -, rfl⟩
        rcases sanitizeName_spec file.1 with ⟨hne, hslash⟩
        exact directlyIn_attachmentPath hid hne hslash hdots
    · intro hlen
      rcases attachFrom_full opens id 0 (attached.map stash) _
        (by rw [hlen, hopened, List.length_map, List.length_nil, Nat.zero_add]) with
        ⟨hall, hplain, hfound⟩
      have hnodup : (pathsOf id attached).Nodup := by
        rcases hpaths with ⟨file, hfile, hdots⟩ | hnodup
        · have hname := hplain (stash file) (List.mem_map_of_mem hfile)
          change isDots (sanitizeName file.1) = false at hname
          rw [hdots] at hname
          exact nomatch hname
        · exact hnodup
      refine ⟨pathsOf id attached, hnodup, ?_⟩
      rw [pathsOf, List.forall₂_map_left_iff, List.forall₂_map_right_iff, List.forall₂_same]
      intro file hfile
      have hmem : stash file ∈ attached.map stash := List.mem_map_of_mem hfile
      constructor
      · rw [hall, hopened, List.nil_append]
        exact List.mem_map_of_mem hmem
      · have hcontent := hfound ((pathsOf_eq id attached).symm ▸ hnodup) _ hmem
        rw [stash, b64Decode_encode] at hcontent
        exact hcontent

end

/-- Two photos. -/
theorem photos_saved : SavedSafely 7 [(bytes "a.jpg", [1, 2, 3, 4]), (bytes "C:\\b.jpg", [5])] :=
  (savedSafely_iff (by decide)).mpr ⟨by decide, .inr (by decide)⟩

def longNames : List (Bytes × Bytes) :=
  (List.range 10).map fun i => (List.replicate 249 97 ++ [UInt8.ofNat (48 + i)], [1])

/-- Ten long names run out of the listing, and two files of one name share a file. -/
theorem long_names_overflow :
    ¬ SavedSafely 7 longNames ∧ ¬ SavedSafely 7 [(bytes "a.jpg", [1]), (bytes "a.jpg", [2])] := by
  constructor
  · intro h
    exact absurd (needed_of_savedSafely h).1 (by decide +kernel)
  · intro h
    exact absurd (needed_of_savedSafely h).2 (by decide)

end FlyBoard.MailImport
