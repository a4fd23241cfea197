import FlyBoard.Tools.Archive

/-!
# The members of an archive

A backup writes its files as blobs with the numbers from 1 on, then the sealed secrets, if there
are any, the manifest and its signature. Such a stream is read as what it is, or it is refused
because one of the last three is too large; the reader has no other reason.
-/

namespace FlyBoard.Archive

open Bytes

theorem checkArchive_of_parse {x : Codecs} {a : ArchiveRead} {manifest signature pk kid : Bytes}
    {m key : Doc} (hmanifest : a.manifest = some manifest)
    (hsignature : a.signature = some signature) (hparse : x.parse manifest = some m)
    (hkey : m.item (bytes "signing_key") = some key) (hpk : key.text "public_key" = some pk)
    (hkid : x.keyIdOf pk = some kid) :
    checkArchive x a =
      if m.text "format" = some (bytes "fly.board-backup") ∧ m.jint "version" 0 = 1 ∧
          x.verifyManifest pk manifest signature = true ∧
          (entries m).all (entryOk a) = true ∧ secretsOk a m = true
      then some m else none := by
  rw [checkArchive, hmanifest, hsignature]
  simp only [Option.bind_eq_bind, Option.bind_some, hparse, hkey, hpk, hkid, Bool.and_eq_true,
    beq_iff_eq, and_assoc]

/-! ## Numbered blobs -/

/-- The last `w` decimal digits: `%0wd` of a number that has no more. -/
def digits : ℕ → ℕ → Bytes
  | 0, _ => []
  | w + 1, n => digits w (n / 10) ++ [UInt8.ofNat (48 + n % 10)]

/-- `b/%06d` -/
def blobName (n : ℕ) : Bytes := bytes "b/" ++ digits 6 n

/-- Files, each with its bytes and its time, as members with the numbers from `n` on. -/
def blobMembers : ℕ → List (Bytes × ℕ) → List Member
  | _, [] => []
  | n, (data, mtime) :: files => ⟨blobName n, data, mtime⟩ :: blobMembers (n + 1) files

def blobsFrom : ℕ → List Bytes → List Blob
  | _, [] => []
  | n, data :: rest =>
    ⟨blobName n, Sha256.hexDigest data, data.length, data⟩ :: blobsFrom (n + 1) rest

theorem length_digits (w n : ℕ) : (digits w n).length = w := by
  induction w generalizing n with
  | zero => rfl
  | succ w ih => rw [digits, List.length_append, ih, List.length_singleton]

theorem toNat_decimalDigit (n : ℕ) : (UInt8.ofNat (48 + n % 10)).toNat = 48 + n % 10 := by
  rw [UInt8.toNat_ofNat']
  omega

theorem isDigit_of_mem_digits {w n : ℕ} {c : UInt8} (h : c ∈ digits w n) : isDigit c = true := by
  induction w generalizing n with
  | zero => exact absurd h List.not_mem_nil
  | succ w ih =>
    rw [digits, List.mem_append, List.mem_singleton] at h
    rcases h with h | rfl
    · exact ih h
    · have hlt := Nat.mod_lt n (by decide : 10 > 0)
      rw [isDigit, Bool.and_eq_true, decide_eq_true_eq, decide_eq_true_eq, UInt8.le_iff_toNat_le,
        UInt8.le_iff_toNat_le, toNat_decimalDigit]
      constructor
      · exact Nat.le_add_right 48 _
      · show 48 + n % 10 ≤ 57
        omega

theorem digitsValue_digits (w n : ℕ) : digitsValue (digits w n) = n % 10 ^ w := by
  induction w generalizing n with
  | zero =>
    rw [Nat.pow_zero, Nat.mod_one]
    rfl
  | succ w ih =>
    simp only [digitsValue] at ih ⊢
    rw [digits, List.foldl_append, ih, List.foldl_cons, List.foldl_nil,
      toNat_decimalDigit, Nat.add_sub_cancel_left, Nat.pow_succ, Nat.mul_comm (10 ^ w) 10,
      Nat.mod_mul]
    omega

theorem toLower_of_isDigit {c : UInt8} (h : isDigit c = true) : toLower c = c := by
  rw [isDigit, Bool.and_eq_true, decide_eq_true_eq, decide_eq_true_eq] at h
  rw [toLower, if_neg]
  intro hupper
  exact absurd (UInt8.le_trans hupper.1 h.2) (by decide)

theorem blobNameOk_blobName (n : ℕ) : blobNameOk (blobName n) = true := by
  have htake : (bytes "b/" ++ digits 6 n).take 2 = bytes "b/" := List.take_left' (by decide)
  have hdrop : (bytes "b/" ++ digits 6 n).drop 2 = digits 6 n := List.drop_left' (by decide)
  rw [blobNameOk, blobName, htake, hdrop, List.length_append, length_digits, Bool.and_eq_true,
    List.all_eq_true]
  exact ⟨rfl, fun c hc => isDigit_of_mem_digits hc⟩

/-- Numbers are told apart by their names, also where the case does not matter. -/
theorem eq_of_eqCI_blobName {n k : ℕ} (hn : n < 10 ^ 6) (hk : k < 10 ^ 6)
    (h : eqCI (blobName n) (blobName k) = true) : n = k := by
  have hlower (n : ℕ) : (blobName n).map toLower = bytes "b/" ++ digits 6 n := by
    rw [blobName, List.map_append,
      List.map_congr_left fun c hc => toLower_of_isDigit (isDigit_of_mem_digits hc), List.map_id']
    rfl
  rw [eqCI_iff, hlower, hlower, List.append_cancel_left_eq] at h
  have hvalue := congrArg digitsValue h
  rw [digitsValue_digits, digitsValue_digits, Nat.mod_eq_of_lt hn, Nat.mod_eq_of_lt hk] at hvalue
  exact hvalue

theorem headerName_blobName (n : ℕ) : HeaderName (blobName n) := by
  constructor
  · rw [blobName, List.length_append, length_digits]
    decide
  · intro h
    rcases List.mem_append.mp h with hpre | hdigits
    · exact absurd hpre (by decide)
    · exact absurd (isDigit_of_mem_digits hdigits) (by decide)

theorem foldlM_blobMembers {staged : Bytes → Bool} (hstaged : ∀ name, staged name = true)
    (files : List (Bytes × ℕ)) {n : ℕ} (hn : n + files.length ≤ 10 ^ 6) (a : ArchiveRead)
    (hfree : ∀ k, n ≤ k → k < 10 ^ 6 → a.blob? (blobName k) = none) :
    (blobMembers n files).foldlM (ArchiveRead.next staged) a =
      some { a with blobs := a.blobs ++ blobsFrom n (files.map Prod.fst) } := by
  induction files generalizing n a with
  | nil =>
    rw [blobMembers, List.map_nil, blobsFrom, List.append_nil]
    rfl
  | cons file files ih =>
    rcases file with ⟨data, mtime⟩
    rw [List.length_cons] at hn
    have hnext : a.next staged ⟨blobName n, data, mtime⟩ =
        some { a with blobs := a.blobs ++
          [⟨blobName n, Sha256.hexDigest data, data.length, data⟩] } := by
      rw [ArchiveRead.next, if_pos, ArchiveRead.add, if_pos (blobNameOk_blobName n)]
      rw [ArchiveRead.admits, hfree n (Nat.le_refl n) (by omega), blobNameOk_blobName, hstaged]
      rfl
    rw [blobMembers, List.foldlM_cons, hnext]
    show (blobMembers (n + 1) files).foldlM (ArchiveRead.next staged) _ = _
    rw [ih (by omega), List.map_cons, blobsFrom, List.append_assoc]
    · rfl
    · intro k hk hlt
      have hold := hfree k (by omega) hlt
      rw [ArchiveRead.blob?] at hold ⊢
      rw [List.find?_append, hold, Option.none_or, List.find?_cons_of_neg, List.find?_nil]
      intro heq
      have hsame := eq_of_eqCI_blobName (by omega) hlt heq
      omega

/-! ## The whole stream -/

/-- What a backup writes: its files with their times, the sealed secrets, the manifest and its
signature, and the time at which each of these is written. -/
structure Contents where
  files : List (Bytes × ℕ)
  secrets : Option Bytes
  manifest : Bytes
  signature : Bytes
  times : Bytes → ℕ

namespace Contents

variable (c : Contents)

def fromMemory (name : String) (data : Bytes) : Member := ⟨bytes name, data, c.times (bytes name)⟩

def members : List Member :=
  blobMembers 1 c.files ++ (c.secrets.toList.map (c.fromMemory "secrets.enc") ++
    [c.fromMemory "manifest.json" c.manifest, c.fromMemory "manifest.sig" c.signature])

/-- The headers can hold the numbers and the sizes. -/
structure Writable : Prop where
  count : c.files.length < 10 ^ 6
  files : ∀ f ∈ c.files, f.1.length < 8 ^ 11
  secrets : ∀ s ∈ c.secrets, s.length < 8 ^ 11
  manifest : c.manifest.length < 8 ^ 11
  signature : c.signature.length < 8 ^ 11

def Fits : Prop :=
  (∀ s ∈ c.secrets, s.length ≤ maxSecrets) ∧ c.manifest.length ≤ maxManifest ∧
    c.signature.length ≤ 16384

instance : Decidable c.Fits := inferInstanceAs (Decidable (_ ∧ _ ∧ _))

def read : ArchiveRead :=
  ⟨blobsFrom 1 (c.files.map Prod.fst), some c.manifest, some (firstLine (cstr c.signature)),
    c.secrets⟩

variable {c}

theorem mem_blobMembers {n : ℕ} {files : List (Bytes × ℕ)} {m : Member}
    (h : m ∈ blobMembers n files) : (∃ k, m.name = blobName k) ∧ ∃ f ∈ files, m.data = f.1 := by
  induction files generalizing n with
  | nil => exact absurd h List.not_mem_nil
  | cons file files ih =>
    rcases List.mem_cons.mp h with rfl | h
    · exact ⟨⟨n, rfl⟩, file, List.mem_cons_self, rfl⟩
    · rcases ih h with ⟨hname, f, hf, hdata⟩
      exact ⟨hname, f, List.mem_cons_of_mem _ hf, hdata⟩

theorem Writable.headers (h : c.Writable) :
    ∀ m ∈ c.members, HeaderName m.name ∧ m.data.length < 8 ^ 11 := by
  intro m hm
  have hfixed : HeaderName (bytes "secrets.enc") ∧ HeaderName (bytes "manifest.json") ∧
      HeaderName (bytes "manifest.sig") :=
    ⟨⟨by decide, by decide⟩, ⟨by decide, by decide⟩, ⟨by decide, by decide⟩⟩
  rw [members, List.mem_append, List.mem_append] at hm
  rcases hm with hblob | hsecret | hlast
  · rcases mem_blobMembers hblob with ⟨⟨k, hname⟩, f, hf, hdata⟩
    rw [hname, hdata]
    exact ⟨headerName_blobName k, h.files f hf⟩
  · rcases List.mem_map.mp hsecret with ⟨s, hs, rfl⟩
    exact ⟨hfixed.1, h.secrets s (Option.mem_toList.mp hs)⟩
  · rcases List.mem_pair.mp hlast with rfl | rfl
    · exact ⟨hfixed.2.1, h.manifest⟩
    · exact ⟨hfixed.2.2, h.signature⟩

theorem blob?_eq_none {a : ArchiveRead} (h : ∀ b ∈ a.blobs, blobNameOk b.name = true)
    {name : Bytes} (hname : name.length ≠ 8) : a.blob? name = none := by
  rw [ArchiveRead.blob?, List.find?_eq_none]
  intro b hb heq
  have hlen := congrArg List.length (eqCI_iff.mp heq)
  have hok := h b hb
  rw [blobNameOk, Bool.and_eq_true, Bool.and_eq_true, beq_iff_eq, beq_iff_eq] at hok
  rw [List.length_map, List.length_map, hok.1.2] at hlen
  exact hname hlen.symm

theorem blobNameOk_of_mem_blobsFrom {n : ℕ} {rest : List Bytes} {b : Blob}
    (h : b ∈ blobsFrom n rest) : blobNameOk b.name = true := by
  induction rest generalizing n with
  | nil => exact absurd h List.not_mem_nil
  | cons data rest ih =>
    rcases List.mem_cons.mp h with rfl | h
    · exact blobNameOk_blobName n
    · exact ih h

section Last

variable {a : ArchiveRead} (staged : Bytes → Bool)
    (hblobs : ∀ b ∈ a.blobs, blobNameOk b.name = true)
include hblobs

theorem next_fromMemory {name : String} {s : Bytes} {limit : ℕ} {a' : ArchiveRead}
    (hname : (bytes name).length ≠ 8) (hadd : a.add (bytes name) s = a')
    (hadmits : a.blob? (bytes name) = none →
      a.admits (bytes name) s.length = decide (s.length ≤ limit)) :
    a.next staged (c.fromMemory name s) = if s.length ≤ limit then some a' else none := by
  have hblob : blobNameOk (bytes name) = false := by
    rw [blobNameOk, beq_eq_false_iff_ne.mpr hname, Bool.and_false, Bool.false_and]
  rw [ArchiveRead.next, fromMemory, hadmits (blob?_eq_none hblobs hname), hblob, hadd]
  simp

theorem next_secrets (ha : a.secrets = none) (s : Bytes) :
    a.next staged (c.fromMemory "secrets.enc" s) =
      if s.length ≤ maxSecrets then some { a with secrets := some s } else none := by
  refine next_fromMemory staged hblobs (by decide) ?_ fun hfree => ?_
  · rw [ArchiveRead.add, if_neg (by decide), if_neg (by decide), if_neg (by decide)]
  · rw [ArchiveRead.admits, hfree, ha]
    simp [show blobNameOk (bytes "secrets.enc") = false by decide,
      show (bytes "secrets.enc" == bytes "manifest.json") = false by decide,
      show (bytes "secrets.enc" == bytes "manifest.sig") = false by decide]

theorem next_manifest (ha : a.manifest = none) (s : Bytes) :
    a.next staged (c.fromMemory "manifest.json" s) =
      if s.length ≤ maxManifest then some { a with manifest := some s } else none := by
  refine next_fromMemory staged hblobs (by decide) ?_ fun hfree => ?_
  · rw [ArchiveRead.add, if_neg (by decide), if_pos rfl]
  · rw [ArchiveRead.admits, hfree, ha]
    simp [show blobNameOk (bytes "manifest.json") = false by decide,
      show (bytes "manifest.json" == bytes "secrets.enc") = false by decide,
      show (bytes "manifest.json" == bytes "manifest.sig") = false by decide]

theorem next_signature (ha : a.signature = none) (s : Bytes) :
    a.next staged (c.fromMemory "manifest.sig" s) =
      if s.length ≤ 16384 then some { a with signature := some (firstLine (cstr s)) }
      else none := by
  refine next_fromMemory staged hblobs (by decide) ?_ fun hfree => ?_
  · rw [ArchiveRead.add, if_neg (by decide), if_neg (by decide), if_pos rfl]
  · rw [ArchiveRead.admits, hfree, ha]
    simp [show blobNameOk (bytes "manifest.sig") = false by decide,
      show (bytes "manifest.sig" == bytes "secrets.enc") = false by decide,
      show (bytes "manifest.sig" == bytes "manifest.json") = false by decide]

end Last

section Members

variable (staged : Bytes → Bool) {blobs : List Blob}
    (hblobs : ∀ b ∈ blobs, blobNameOk b.name = true)
include hblobs

theorem foldlM_signed (s : Option Bytes) :
    (([c.fromMemory "manifest.json" c.manifest,
        c.fromMemory "manifest.sig" c.signature].foldlM (ArchiveRead.next staged)
        ⟨blobs, none, none, s⟩).bind fun a =>
      if a.manifest.isSome && a.signature.isSome then some a else none) =
    if c.manifest.length ≤ maxManifest ∧ c.signature.length ≤ 16384 then
      some ⟨blobs, some c.manifest, some (firstLine (cstr c.signature)), s⟩
    else none := by
  rw [List.foldlM_cons, next_manifest staged hblobs rfl]
  by_cases hm : c.manifest.length ≤ maxManifest
  · rw [if_pos hm, Option.bind_eq_bind, Option.bind_some, List.foldlM_cons,
      next_signature staged hblobs rfl]
    by_cases hs : c.signature.length ≤ 16384
    · rw [if_pos hs, if_pos ⟨hm, hs⟩]
      rfl
    · rw [if_neg hs, if_neg fun hboth => hs hboth.2]
      rfl
  · rw [if_neg hm, if_neg fun hboth => hm hboth.1]
    rfl

theorem foldlM_lastMembers (s : Option Bytes) :
    (((s.toList.map (c.fromMemory "secrets.enc") ++
        [c.fromMemory "manifest.json" c.manifest,
          c.fromMemory "manifest.sig" c.signature]).foldlM (ArchiveRead.next staged)
        ⟨blobs, none, none, none⟩).bind fun a =>
      if a.manifest.isSome && a.signature.isSome then some a else none) =
    if (∀ s' ∈ s, s'.length ≤ maxSecrets) ∧ c.manifest.length ≤ maxManifest ∧
        c.signature.length ≤ 16384 then
      some ⟨blobs, some c.manifest, some (firstLine (cstr c.signature)), s⟩
    else none := by
  cases s with
  | none =>
    rw [Option.toList_none, List.map_nil, List.nil_append, foldlM_signed staged hblobs]
    simp
  | some s =>
    rw [Option.toList_some, List.map_singleton, List.singleton_append, List.foldlM_cons,
      next_secrets staged hblobs rfl]
    by_cases hs : s.length ≤ maxSecrets
    · rw [if_pos hs, Option.bind_eq_bind, Option.bind_some, foldlM_signed staged hblobs]
      simp [hs]
    · rw [if_neg hs, if_neg fun hboth => hs (hboth.1 s rfl)]
      rfl

end Members

/-- What is written is read, if it is within the reader's limits, and refused otherwise. -/
theorem readArchive_members (x : Codecs) {staged : Bytes → Bool}
    (hstaged : ∀ name, staged name = true) (h : c.Writable) {file : Bytes}
    (hfile : x.decompress file = tarStream c.members) :
    readArchive x staged file = if c.Fits then some c.read else none := by
  have hblobs : ∀ b ∈ blobsFrom 1 (c.files.map Prod.fst), blobNameOk b.name = true :=
    fun b hb => blobNameOk_of_mem_blobsFrom hb
  have hcount := h.count
  rw [readArchive_tarStream x staged hfile h.headers, members, List.foldlM_append,
    foldlM_blobMembers hstaged c.files (by omega) .empty fun _ _ _ => rfl]
  exact foldlM_lastMembers staged hblobs c.secrets

end Contents

end FlyBoard.Archive
