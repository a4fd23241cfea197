import FlyBoard.Tools.BackupWalk
import Mathlib.Algebra.Order.BigOperators.Group.List
import Mathlib.Algebra.Order.Ring.Nat

/-!
# What is written is checked (`src/tools/backup.c`)

The reader finds every blob of a backup as the manifest has it, so the only entries that it
refuses are those whose paths it does not accept; and it opens the secrets with the passphrase that
they were sealed with.
-/

namespace FlyBoard.Backup

open Bytes Archive FileTree Restore

/-! ## Secrets in Base64 -/

theorem dropWhile_of_forall_not {p : UInt8 → Bool} {s : Bytes} (h : ∀ c ∈ s, p c = false) :
    s.dropWhile p = s := by
  cases s with
  | nil => rfl
  | cons c s => rw [List.dropWhile_cons_of_neg (by rw [h c List.mem_cons_self]; decide)]

theorem b64Decode_encode (s : Bytes) :
    b64Decode (Base64.encode s) = if s = [] then none else some s := by
  by_cases hs : s = []
  · rw [if_pos hs, hs]
    rfl
  · rw [if_neg hs]
    have hlen : ¬ ((Base64.encode s).length = 0 ∨ (Base64.encode s).length % 4 ≠ 0) := by
      have hpos := List.length_pos_of_ne_nil hs
      rw [Base64.length_encode]
      omega
    have hblank : ∀ c ∈ Base64.encode s, isBlank c = false :=
      fun c hc => Base64.of_mem_encode (by decide) (by decide) hc
    have hend : ∀ c ∈ (Base64.encode s).reverse, (isBlank c || c == 13 || c == 10) = false :=
      fun c hc => Base64.of_mem_encode (p := fun c => isBlank c || c == 13 || c == 10) (by decide)
        (by decide) (List.mem_reverse.mp hc)
    rw [b64Decode, if_neg hlen, trimLeft, dropWhile_of_forall_not hblank, trimRight,
      dropWhile_of_forall_not hend, List.reverse_reverse, Base64.decode_encode, Option.map_some,
      Base64.padding_encode hs, Base64.take_padded]

/-! ## The blobs of the manifest -/

variable {n k : ℕ}

theorem find_blobsFrom {datas : List Bytes} (hbound : n + datas.length ≤ 10 ^ 6)
    (hk : k < datas.length) :
    (blobsFrom n datas).find? (fun b => eqCI b.name (blobName (n + k))) =
      (datas[k]?).map fun data =>
        ⟨blobName (n + k), Sha256.hexDigest data, data.length, data⟩ := by
  induction datas generalizing n k with
  | nil => exact absurd hk (Nat.not_lt_zero k)
  | cons data datas ih =>
    rw [List.length_cons] at hbound hk
    cases k with
    | zero =>
      rw [blobsFrom, List.find?_cons_of_pos]
      · rfl
      · exact eqCI_iff.mpr rfl
    | succ k =>
      have hshift : n + (k + 1) = n + 1 + k := by omega
      rw [blobsFrom, List.find?_cons_of_neg, List.getElem?_cons_succ, hshift]
      · exact ih (by omega) (by omega)
      · intro heq
        have hsame := eq_of_eqCI_blobName (by omega) (by omega) heq
        omega

variable {a : ArchiveRead} {e : Entry}

theorem entryOk_entryDoc {n : ℕ} (hblob : a.blob? (blobName n) =
      some ⟨blobName n, Sha256.hexDigest e.data, e.data.length, e.data⟩) :
    entryOk a (entryDoc n e) = (restorePathOk e.path && !secretPathOk e.path) := by
  have hpath : (entryDoc n e).text "path" = some e.path := rfl
  have hname : (entryDoc n e).text "blob" = some (blobName n) := rfl
  have hsha : (entryDoc n e).text "sha256" = some (Sha256.hexDigest e.data) := rfl
  have hsize : (entryDoc n e).jint "size" (-2) = Doc.toInt e.data.length := rfl
  rw [entryOk, hpath, hname, Option.bind_some, hblob, hsha, hsize]
  simp

variable {es : List Entry}

theorem mem_entryDocs {d : Doc} {n : ℕ} (h : d ∈ entryDocs n es) :
    ∃ k e, es[k]? = some e ∧ d = entryDoc (n + k) e := by
  induction es generalizing n with
  | nil => exact absurd h List.not_mem_nil
  | cons e es ih =>
    rcases List.mem_cons.mp h with rfl | hrest
    · exact ⟨0, e, rfl, rfl⟩
    · obtain ⟨k, e', hk, rfl⟩ := ih hrest
      refine ⟨k + 1, e', hk, ?_⟩
      rw [Nat.add_assoc, Nat.add_comm 1 k]

theorem entryDoc_mem (h : es[k]? = some e) :
    entryDoc (n + k) e ∈ entryDocs n es := by
  induction es generalizing n k with
  | nil => exact nomatch h
  | cons e' es ih =>
    cases k with
    | zero =>
      rw [List.getElem?_cons_zero, Option.some.injEq] at h
      rw [h]
      exact List.mem_cons_self
    | succ k =>
      rw [List.getElem?_cons_succ] at h
      have hrest := ih (n := n + 1) h
      rw [Nat.add_assoc, Nat.add_comm 1 k] at hrest
      exact List.mem_cons_of_mem _ hrest

/-- The entries that the reader accepts are those with a path that it accepts. -/
theorem all_entryOk (hcount : es.length ≤ 999999)
    (hblobs : a.blobs = blobsFrom 1 (es.map Entry.data)) :
    (entryDocs 1 es).all (entryOk a) = true ↔
      ∀ e ∈ es, restorePathOk e.path = true ∧ secretPathOk e.path = false := by
  have hok : ∀ k e, es[k]? = some e →
      entryOk a (entryDoc (1 + k) e) = (restorePathOk e.path && !secretPathOk e.path) := by
    intro k e hk
    have hlt := (List.getElem?_eq_some_iff.mp hk).1
    apply entryOk_entryDoc
    rw [ArchiveRead.blob?, hblobs, find_blobsFrom (by rw [List.length_map]; omega)
      (by rw [List.length_map]; exact hlt), List.getElem?_map, hk]
    rfl
  rw [List.all_eq_true]
  constructor
  · intro hall e he
    obtain ⟨k, hk⟩ := List.mem_iff_getElem?.mp he
    have hentry := hall _ (entryDoc_mem (n := 1) hk)
    rw [hok k e hk, Bool.and_eq_true, Bool.not_eq_true'] at hentry
    exact hentry
  · intro hall d hd
    obtain ⟨k, e, hk, rfl⟩ := mem_entryDocs hd
    rw [hok k e hk, Bool.and_eq_true, Bool.not_eq_true']
    exact hall e (List.mem_of_getElem? hk)

/-! ## Documents that are read as they are printed -/

open Doc in
theorem printable_obj {members : List (Bytes × Doc)}
    (hkeys : (members.map Prod.fst).all (fun key => !key.contains 0) = true)
    (hdocs : ∀ d ∈ members.map Prod.snd, Printable d) : Printable (obj members) := by
  refine .obj (fun m hm => ?_) fun m hm => hdocs m.2 (List.mem_map_of_mem hm)
  have hkey := List.all_eq_true.mp hkeys m.1 (List.mem_map_of_mem hm)
  simpa using hkey

theorem no_nul_encode (s : Bytes) : 0 ∉ Base64.encode s := by
  intro hmem
  exact absurd (Base64.of_mem_encode (p := fun c => c == 0) (by decide) (by decide) hmem)
    (by decide)

theorem no_nul_hexDigest (s : Bytes) : 0 ∉ Sha256.hexDigest s := by
  intro hmem
  obtain ⟨d, hd, heq⟩ := Sha256.mem_hexDigest hmem
  exact absurd heq (by revert d; decide)

theorem no_nul_blobName (n : ℕ) : 0 ∉ blobName n := (headerName_blobName n).2

variable {s : Site}

theorem Site.Has.no_nul (h : s.Has e) : 0 ∉ e.path ∧ 0 ∉ e.kind := by
  have hfixed : ∀ path ∈ dbPaths ++ Archive.settings, 0 ∉ path := by decide
  cases h with
  | db hpath hkind hdata hsize =>
    rw [hkind]
    exact ⟨hfixed _ (List.mem_append_left _ hpath), by decide⟩
  | settings hpath hkind hdata =>
    rw [hkind]
    exact ⟨hfixed _ (List.mem_append_right _ hpath), by decide⟩
  | file hpath hshort hkind hdata =>
    obtain ⟨dir, hdir, q, -, hq, heq⟩ := hpath
    rw [hkind, heq]
    refine ⟨fun hmem => ?_, by decide⟩
    rcases List.mem_append.mp hmem with hbase | hname
    · have hall : ∀ d ∈ fileDirs, 0 ∉ d := by decide
      exact hall dir hdir hbase
    · obtain ⟨name, hname, hnul⟩ := List.mem_flatMap.mp hname
      rcases List.mem_cons.mp hnul with hslash | hnul
      · exact absurd hslash (by decide)
      · exact (hq name hname).no_nul hnul

theorem printable_entryDoc (n : ℕ) (h : s.Has e) :
    (entryDoc n e).Printable := by
  have hsize : Doc.Exact e.data.length :=
    Doc.exact_natCast (h.length.trans (by decide))
  refine printable_obj rfl ?_
  simp only [List.map_cons, List.map_nil, List.forall_mem_cons]
  exact ⟨.str h.no_nul.1, .str (no_nul_blobName n), .num hsize, .str (no_nul_hexDigest _),
    .str h.no_nul.2, fun d hd => absurd hd List.not_mem_nil⟩

theorem printable_secretsDoc (s : Site) : (secretsDoc s.sealedFiles).Printable := by
  have hfixed : ∀ path ∈ secretPaths, 0 ∉ path := by decide
  refine printable_obj rfl ?_
  simp only [List.map_cons, List.map_nil, List.forall_mem_cons]
  refine ⟨.arr fun d hd => ?_, fun d hd => absurd hd List.not_mem_nil⟩
  obtain ⟨f, hf, rfl⟩ := List.mem_map.mp hd
  refine printable_obj rfl ?_
  simp only [List.map_cons, List.map_nil, List.forall_mem_cons]
  exact ⟨.str (hfixed _ (mem_sealedFiles hf).1), .str (no_nul_encode _),
    fun d hd => absurd hd List.not_mem_nil⟩

theorem printable_sealDoc (env : Env) (s : Site) (block : Bytes) :
    (sealDoc env s.sealedFiles block).Printable := by
  have hsmall : ∀ n : ℕ, n < 2 ^ 53 → (Doc.num n).Printable :=
    fun n hn => .num (Doc.exact_natCast hn)
  have hcount : s.sealedFiles.length ≤ 5 := List.length_filterMap_le _ secretPaths
  refine printable_obj rfl ?_
  simp only [List.map_cons, List.map_nil, List.forall_mem_cons]
  exact ⟨.str (by decide), .str (by decide), hsmall 131072 (by decide), hsmall 8 (by decide),
    hsmall 1 (by decide), .str (no_nul_encode _), .str (no_nul_encode _),
    .str (no_nul_hexDigest _), hsmall _ (hcount.trans_lt (by decide)),
    fun d hd => absurd hd List.not_mem_nil⟩

theorem printable_manifestDoc (env : Env) (h : s.BackedUp es)
    {secrets : Doc} (hsecrets : secrets.Printable) :
    (manifestDoc env es (some secrets)).Printable := by
  have hnone : ∀ d ∈ ([] : List Doc), d.Printable := fun d hd => absurd hd List.not_mem_nil
  have htext : ∀ text ∈ [env.keyId, env.publicKey, env.createdAt, env.sourceHost],
      (Doc.str text).Printable := fun text ht => .str (env.no_nul text ht)
  have hbytes : (es.map fun e => e.data.length).sum < 2 ^ 53 := by
    have hle := List.sum_le_card_nsmul (es.map fun e => e.data.length) (8 ^ 11) fun n hn => by
      obtain ⟨e, he, rfl⟩ := List.mem_map.mp hn
      exact (h.has e he).length.le
    rw [List.length_map, Nat.nsmul_eq_mul] at hle
    have hcount := h.count
    omega
  have hcount : es.length < 2 ^ 53 := h.count.trans_lt (by decide)
  have hentries : ∀ d ∈ entryDocs 1 es, d.Printable := by
    intro d hd
    obtain ⟨k, e, hk, rfl⟩ := mem_entryDocs hd
    exact printable_entryDoc _ (h.has e (List.mem_of_getElem? hk))
  have hkey : (Doc.obj [(bytes "key_id", .str env.keyId),
      (bytes "public_key", .str env.publicKey)]).Printable := by
    refine printable_obj rfl ?_
    simp only [List.map_cons, List.map_nil, List.forall_mem_cons]
    exact ⟨htext _ (by simp), htext _ (by simp), hnone⟩
  have hcounts : (Doc.obj [(bytes "posts", .num env.posts),
      (bytes "signed_posts", .num env.signedPosts), (bytes "files", .num es.length),
      (bytes "bytes", .num ((es.map fun e => e.data.length).sum : ℕ))]).Printable := by
    refine printable_obj rfl ?_
    simp only [List.map_cons, List.map_nil, List.forall_mem_cons]
    exact ⟨.num (Doc.exact_natCast (env.posts_int.trans (by decide))),
      .num (Doc.exact_natCast (env.signedPosts_int.trans (by decide))),
      .num (Doc.exact_natCast hcount), .num (Doc.exact_natCast hbytes), hnone⟩
  refine printable_obj rfl ?_
  simp only [Option.toList_some, List.map_cons, List.map_nil, List.cons_append, List.nil_append,
    List.forall_mem_cons]
  exact ⟨.str (by decide), .num (Doc.exact_natCast (n := 1) (by decide)), htext _ (by simp),
    htext _ (by simp), hkey, hcounts, .num env.checkpoint_exact, hsecrets, .arr hentries, hnone⟩

/-! ## An archive that is written -/

/-- zstd, cJSON, the seal and the signature do what they are for. -/
structure Faithful (x : Codecs) (env : Env) : Prop where
  decompress : ∀ s, x.decompress (env.compress s) = s
  parse_print : ∀ d text, d.Printable → env.print d = some text → x.parse text = some d
  parse_unformatted : ∀ d text, d.Printable → env.printUnformatted d = some text →
    x.parse text = some d
  /-- cJSON prints no text that an `int` cannot count. -/
  print_length : ∀ d text, env.print d = some text → text.length < 2 ^ 31
  unformatted_length : ∀ d text, env.printUnformatted d = some text → text.length < 2 ^ 31
  keyIdOf : ∃ kid, x.keyIdOf env.publicKey = some kid
  verify : ∀ m sig, env.sign m = some sig → x.verifyManifest env.publicKey m sig = true
  /-- A signature is a line of text. -/
  sign_line : ∀ m sig, env.sign m = some sig →
    sig.length ≤ 16384 ∧ ∀ c ∈ sig, c ≠ 0 ∧ c ≠ 13 ∧ c ≠ 10
  /-- The tag has 16 bytes. -/
  seal_open : ∀ key nonce plain block, env.aeadSeal key nonce plain = some block →
    x.aeadOpen key nonce block = some plain ∧ block.length = plain.length + 16

structure Writes (x : Codecs) (env : Env) (s : Site) (pass archive : Bytes) (es : List Entry)
    (plain block manifest signature : Bytes) : Prop where
  database : s.readable (bytes "data/blog.db") = true
  entries : s.backupEntries = some es
  unformatted : env.printUnformatted (secretsDoc s.sealedFiles) = some plain
  sealing : ∃ key, x.deriveKey pass env.salt = some key ∧
    env.aeadSeal key env.nonce plain = some block
  print : env.print (manifestDoc env es (some (sealDoc env s.sealedFiles block))) = some manifest
  sign : env.sign manifest = some signature
  stream : archive =
    env.compress (tarStream (contents env es (some block) manifest signature).members)

def Accepts (es : List Entry) (block manifest : Bytes) : Prop :=
  (block.length ≤ maxSecrets ∧ manifest.length ≤ maxManifest) ∧
    ∀ e ∈ es, restorePathOk e.path = true ∧ secretPathOk e.path = false

instance (es : List Entry) (block manifest : Bytes) : Decidable (Accepts es block manifest) :=
  inferInstanceAs (Decidable (_ ∧ _))

/-- `cmd_verify` accepts what `cmd_restore` can read. -/
theorem cmdVerify_eq (x : Codecs) {w : World} (hw : ∀ name, w.staged name = true)
    (archive : Bytes) (pass : Option Bytes) :
    cmdVerify x archive pass = (readAll x w archive pass).isSome := by
  have hstaged : w.staged = fun _ => true := funext hw
  rw [cmdVerify, readAll, hstaged]
  cases readArchive x (fun _ => true) archive with
  | none => rfl
  | some a =>
    simp only [Option.bind_eq_bind, Option.bind_some]
    cases checkArchive x a with
    | none => rfl
    | some m =>
      simp only [Option.bind_some]
      cases secretFiles x m a pass with
      | none => rfl
      | some secrets => rfl

section Written

variable {x : Codecs} {env : Env} {pass archive : Bytes}

theorem secretBlock_eq (hpass : pass ≠ []) :
    secretBlock x env s (some pass) = (sealSecrets x env pass s.sealedFiles).map some := by
  obtain ⟨c, cs, rfl⟩ := List.exists_cons_of_ne_nil hpass
  rfl

theorem flyBackupWrite_cases (hpass : pass ≠ [])
    (h : flyBackupWrite x env s (some pass) = some archive) :
    ∃ es plain block manifest signature,
      Writes x env s pass archive es plain block manifest signature := by
  rw [flyBackupWrite, secretBlock_eq hpass] at h
  by_cases hready : (env.ready && s.readable (bytes "data/blog.db")) = true
  swap
  · rw [if_neg hready] at h
    exact nomatch h
  rw [if_pos hready] at h
  simp only [Option.bind_eq_bind, Option.bind_eq_some_iff, Option.map_eq_some_iff, sealSecrets] at h
  obtain ⟨es, hes, -, ⟨block, ⟨plain, hplain, key, hkey, hblock⟩, rfl⟩, manifest, hmanifest,
    signature, hsignature, hif⟩ := h
  split_ifs at hif
  cases hif
  rw [Bool.and_eq_true] at hready
  exact ⟨es, plain, block, manifest, signature, hready.2, hes, hplain, ⟨key, hkey, hblock⟩,
    hmanifest, hsignature, rfl⟩

variable (hf : Faithful x env) {plain block manifest signature : Bytes}
  (h : Writes x env s pass archive es plain block manifest signature)
include hf h

theorem Writes.writable : (contents env es (some block) manifest signature).Writable := by
  have hes := backedUp h.entries
  obtain ⟨key, -, hseal⟩ := h.sealing
  constructor
  · show (es.map fun e => (e.data, e.mtime)).length < 10 ^ 6
    rw [List.length_map]
    exact hes.count.trans_lt (by decide)
  · intro f hfile
    obtain ⟨e, he, rfl⟩ := List.mem_map.mp hfile
    exact (hes.has e he).length
  · rintro s' hs'
    cases hs'
    rw [(hf.seal_open _ _ _ _ hseal).2]
    have hplain := hf.unformatted_length _ _ h.unformatted
    omega
  · exact (hf.print_length _ _ h.print).trans (by decide)
  · exact (hf.sign_line _ _ h.sign).1.trans_lt (by decide)

theorem Writes.readArchive {staged : Bytes → Bool} (hstaged : ∀ name, staged name = true) :
    readArchive x staged archive =
      if block.length ≤ maxSecrets ∧ manifest.length ≤ maxManifest then
        some (contents env es (some block) manifest signature).read
      else none := by
  have hsig := (hf.sign_line _ _ h.sign).1
  have hfits : (contents env es (some block) manifest signature).Fits ↔
      block.length ≤ maxSecrets ∧ manifest.length ≤ maxManifest := by
    simp [Contents.Fits, contents, hsig]
  rw [Contents.readArchive_members x hstaged (h.writable hf) (by rw [h.stream, hf.decompress])]
  simp only [hfits]

theorem Writes.firstLine_signature : firstLine (cstr signature) = signature := by
  have hline := (hf.sign_line _ _ h.sign).2
  rw [cstr, List.takeWhile_eq_self_iff.mpr fun c hc => by
      rw [bne_iff_ne]
      exact (hline c hc).1,
    firstLine, List.takeWhile_eq_self_iff]
  intro c hc
  rw [Bool.and_eq_true, bne_iff_ne, bne_iff_ne]
  exact (hline c hc).2

theorem Writes.checkArchive :
    checkArchive x (contents env es (some block) manifest signature).read =
      if ∀ e ∈ es, restorePathOk e.path = true ∧ secretPathOk e.path = false then
        some (manifestDoc env es (some (sealDoc env s.sealedFiles block)))
      else none := by
  have hes := backedUp h.entries
  have hprint := printable_manifestDoc env hes (printable_sealDoc env s block)
  have hparse := hf.parse_print _ _ hprint h.print
  obtain ⟨kid, hkid⟩ := hf.keyIdOf
  have hsig : (contents env es (some block) manifest signature).read.signature =
      some signature := congrArg some (h.firstLine_signature hf)
  have hblobs : (contents env es (some block) manifest signature).read.blobs =
      blobsFrom 1 (es.map Entry.data) := by
    show blobsFrom 1 ((es.map fun e => (e.data, e.mtime)).map Prod.fst) = _
    rw [List.map_map]
    rfl
  have hsecrets : secretsOk (contents env es (some block) manifest signature).read
      (manifestDoc env es (some (sealDoc env s.sealedFiles block))) = true := by
    show (Sha256.hexDigest block == Sha256.hexDigest block) = true
    exact beq_self_eq_true _
  have hentries : Archive.entries (manifestDoc env es (some (sealDoc env s.sealedFiles block))) =
      entryDocs 1 es := rfl
  rw [checkArchive_of_parse rfl hsig hparse rfl rfl hkid, hentries,
    hf.verify _ _ h.sign, hsecrets]
  refine if_congr ?_ rfl rfl
  constructor
  · exact fun hall => (all_entryOk hes.count hblobs).mp hall.2.2.2.1
  · exact fun hall => ⟨rfl, rfl, rfl, (all_entryOk hes.count hblobs).mpr hall, rfl⟩

theorem Writes.secretFiles :
    secretFiles x (manifestDoc env es (some (sealDoc env s.sealedFiles block)))
      (contents env es (some block) manifest signature).read (some pass) =
        some (s.sealedFiles.map secretDoc) := by
  obtain ⟨key, hkey, hseal⟩ := h.sealing
  have hsalt : b64Decode (Base64.encode env.salt) = some env.salt := by
    rw [b64Decode_encode, if_neg]
    intro hnil
    have hlen := env.salt_length
    rw [hnil] at hlen
    exact absurd hlen (by decide)
  have hnonce : b64Decode (Base64.encode env.nonce) = some env.nonce := by
    rw [b64Decode_encode, if_neg]
    intro hnil
    have hlen := env.nonce_length
    rw [hnil] at hlen
    exact absurd hlen (by decide)
  have hparse := hf.parse_unformatted _ _ (printable_secretsDoc s) h.unformatted
  have hopen : openSecrets x pass (sealDoc env s.sealedFiles block) block =
      some (secretsDoc s.sealedFiles) := by
    have htexts : ((sealDoc env s.sealedFiles block).text "salt").bind b64Decode =
          some env.salt ∧
        ((sealDoc env s.sealedFiles block).text "nonce").bind b64Decode = some env.nonce :=
      ⟨hsalt, hnonce⟩
    rw [openSecrets, htexts.1, htexts.2, if_pos (by rfl)]
    simp only [Option.bind_eq_bind, Option.bind_some, env.nonce_length, if_true, hkey,
      (hf.seal_open _ _ _ _ hseal).1, hparse]
  show (openSecrets x pass (sealDoc env s.sealedFiles block) block).map _ = _
  rw [hopen]
  rfl

theorem Writes.readAll {w : World} (hw : ∀ name, w.staged name = true) :
    readAll x w archive (some pass) =
      if Accepts es block manifest then
        some ((contents env es (some block) manifest signature).read,
          manifestDoc env es (some (sealDoc env s.sealedFiles block)),
          s.sealedFiles.map secretDoc)
      else none := by
  rw [Restore.readAll, h.readArchive hf hw]
  by_cases hfits : block.length ≤ maxSecrets ∧ manifest.length ≤ maxManifest
  · rw [if_pos hfits, Option.bind_eq_bind, Option.bind_some, h.checkArchive hf]
    by_cases hpaths : ∀ e ∈ es, restorePathOk e.path = true ∧ secretPathOk e.path = false
    · rw [if_pos hpaths, Option.bind_eq_bind, Option.bind_some, h.secretFiles hf,
        if_pos ⟨hfits, hpaths⟩]
      rfl
    · rw [if_neg hpaths, if_neg fun hboth : Accepts es block manifest => hpaths hboth.2]
      rfl
  · rw [if_neg hfits, if_neg fun hboth : Accepts es block manifest => hfits hboth.1]
    rfl

end Written

end FlyBoard.Backup
