import FlyBoard.Tools.BackupChecks
import FlyBoard.Tools.RestoreSafety

/-!
# A backup is restored (`fly_backup_write`, `cmd_verify` and `cmd_restore` in
`src/tools/backup.c`)

An archive that is written is accepted, and an empty directory gets everything in it, exactly if
the reader accepts every path that the writer found, no secret is empty, and the manifest and the
sealed block are within the reader's limits. The writer looks at none of these.
-/

namespace FlyBoard.Backup

open Bytes Archive FileTree Restore

/-! ## Placing a file -/

/-- Nothing is refused, and everything fits. -/
structure Allows (f : Faults) : Prop where
  mkdir : ∀ p, f.mkdir p = true
  placing : f.placing = .renamed ∨ ∃ n, 8 ^ 11 ≤ n ∧ f.placing = .copied n
  write : ∃ n, 8 ^ 11 ≤ n ∧ f.write = some (n, true)

structure Restored (s : Site) (done : List Bytes) (t : Files) : Prop where
  laid : s.files.LaidOut t
  placed : ∀ path ∈ done, ∀ data, s.Backs path data → t.file? (resolve path) = some data

/-- The directories above a place are made, from the outermost one on. -/
theorem makeDirs_below {f : Faults} (hf : ∀ p, f.mkdir p = true) {u t : Files} (h : u.LaidOut t)
    {base parts : List Bytes} (hdir : u.IsDir (base ++ parts)) (hbase : t.IsDir base) :
    ∃ t', makeDirs f ((parts.inits.drop 1).map (base ++ ·)) t = (true, t') ∧ u.LaidOut t' ∧
      t'.IsDir (base ++ parts) := by
  induction parts generalizing base t with
  | nil =>
    rw [List.append_nil]
    exact ⟨t, rfl, h, hbase⟩
  | cons name parts ih =>
    have hinits : ((name :: parts).inits.drop 1).map (base ++ ·) =
        (base ++ [name]) :: (parts.inits.drop 1).map (base ++ [name] ++ ·) := by
      have hfirst : parts.inits = [] :: parts.inits.drop 1 := by
        cases parts with
        | nil => rfl
        | cons part parts => rfl
      rw [List.inits_cons, List.drop_succ_cons, List.drop_zero, hfirst]
      simp only [List.map_cons, List.drop_succ_cons, List.drop_zero, List.map_map,
        Function.comp_def, List.append_assoc, List.singleton_append]
    rw [List.append_cons] at hdir ⊢
    have hne : base ++ [name] ≠ [] :=
      List.append_ne_nil_of_right_ne_nil base (List.cons_ne_nil name [])
    have hlast : t.IsDir (base ++ [name]).dropLast := by
      rw [List.dropLast_concat]
      exact hbase
    obtain ⟨t₁, hmade, hlaid, hdir₁⟩ :=
      h.mkdir hne (Tree.isDir_of_below hdir (List.prefix_append _ _)) hlast
    obtain ⟨t', hrest, hlaid', hdir'⟩ := ih hlaid hdir hdir₁
    refine ⟨t', ?_, hlaid', hdir'⟩
    rw [hinits, makeDirs, hf, Bool.or_true, if_pos rfl, hmade]
    exact hrest

section Place

variable {s : Site} {path data : Bytes} (hb : s.Backs path data) {f : Faults} {t : Files}
include hb

theorem mkdirsFor_backs (hf : ∀ p, f.mkdir p = true) (h : s.files.LaidOut t) :
    ∃ t', mkdirsFor f t path = (true, t') ∧ s.files.LaidOut t' ∧
      t'.IsDir (resolve path).dropLast := by
  obtain ⟨content, hcontent⟩ := Option.isSome_iff_exists.mp hb.file
  have hne : (resolve path).dropLast ≠ resolve path := by
    intro heq
    have hpos := List.length_pos_of_ne_nil (resolve_ne_nil hb.tidy.plain)
    have hlen := congrArg List.length heq
    rw [List.length_dropLast] at hlen
    omega
  have hdir : s.files.IsDir ([] ++ (resolve path).dropLast) :=
    Tree.isDir_above (Tree.exists_of_file? hcontent) (List.dropLast_prefix _) hne
  obtain ⟨t', hmade, hlaid, hdir'⟩ := makeDirs_below hf h hdir t.root
  refine ⟨t', ?_, hlaid, hdir'⟩
  simp only [List.nil_append, List.map_id'] at hmade
  rw [mkdirsFor, if_pos hb.short, hb.tidy.dirsOf_eq, hmade]

theorem Restored.place (hf : ∀ p, f.mkdir p = true) {done : List Bytes} (h : Restored s done t) :
    ∃ t' u, mkdirsFor f t path = (true, t') ∧ writePath t' path data = some u ∧
      Restored s (path :: done) u := by
  obtain ⟨t', hdirs, hlaid, hparent⟩ := mkdirsFor_backs hb hf h.laid
  obtain ⟨u, hwrite, hlaid'⟩ := hlaid.write hb.file hparent data
  have hsame (q : List Bytes) : t'.file? q = t.file? q := by
    have hq := file?_mkdirsFor f t path q
    rw [hdirs] at hq
    exact hq
  refine ⟨t', u, hdirs, by rw [writePath, if_pos hb.tidy.plain, hwrite], hlaid', ?_⟩
  intro path' hpath' data' hb'
  rw [Tree.file?_write hwrite]
  by_cases heq : resolve path' = resolve path
  · rw [if_pos heq, hb.unique hb' heq.symm]
  · rw [if_neg heq, hsame]
    rcases List.mem_cons.mp hpath' with rfl | hold
    · exact absurd rfl heq
    · exact h.placed path' hold data' hb'

end Place

variable {p : List Bytes} {s : Site} {t : Files}

theorem Restored.unlink {done : List Bytes} (h : Restored s done t)
    (hp : p ∈ passing) : Restored s done (t.unlink p) := by
  refine ⟨h.laid.unlink p, fun path hpath data hb => ?_⟩
  rw [Tree.file?_unlink_of_ne]
  · exact h.placed path hpath data hb
  · intro heq
    exact hb.lasting (heq ▸ hp)

/-! ## The entries -/

/-- What is in the staging directory for blobs with the numbers from `n` on. -/
def staged (n : ℕ) (datas : List Bytes) : List (Bytes × Bytes) :=
  (blobsFrom n datas).map fun b => (b.name.drop 2, b.content)

theorem drop_blobName (n : ℕ) : (blobName n).drop 2 = digits 6 n := List.drop_left' (by decide)

variable {datas : List Bytes} {n : ℕ}

theorem mem_blobsFrom {b : Blob} (h : b ∈ blobsFrom n datas) :
    ∃ k, n ≤ k ∧ k < n + datas.length ∧ b.name = blobName k := by
  induction datas generalizing n with
  | nil => exact absurd h List.not_mem_nil
  | cons data datas ih =>
    rw [List.length_cons]
    rcases List.mem_cons.mp h with rfl | hrest
    · exact ⟨n, Nat.le_refl n, by omega, rfl⟩
    · obtain ⟨k, hlow, hhigh, hname⟩ := ih hrest
      exact ⟨k, by omega, by omega, hname⟩

theorem staged_filter {data : Bytes} (hbound : n + (data :: datas).length ≤ 10 ^ 6) :
    (staged n (data :: datas)).filter (fun b => b.1 ≠ (blobName n).drop 2) =
      staged (n + 1) datas := by
  rw [List.length_cons] at hbound
  have hlater : ∀ b ∈ staged (n + 1) datas, decide (b.1 ≠ (blobName n).drop 2) = true := by
    intro b hb
    obtain ⟨blob, hblob, rfl⟩ := List.mem_map.mp hb
    obtain ⟨k, hlow, hhigh, hname⟩ := mem_blobsFrom hblob
    rw [decide_eq_true_eq, hname, drop_blobName, drop_blobName]
    intro heq
    have hvalue := congrArg digitsValue heq
    rw [digitsValue_digits, digitsValue_digits, Nat.mod_eq_of_lt (by omega),
      Nat.mod_eq_of_lt (by omega)] at hvalue
    omega
  have hfirst : staged n (data :: datas) =
      ((blobName n).drop 2, data) :: staged (n + 1) datas := rfl
  rw [hfirst, List.filter_cons_of_neg (by simp), List.filter_eq_self.mpr hlater]

section Entries

variable {e : Entry}

theorem isDb_entryDoc (he : s.Has e) (h : isDb (entryDoc n e) = true) :
    e.path ∈ dbPaths := by
  have hkind : e.kind = bytes "db" := by
    have htext : (entryDoc n e).text "kind" = some e.kind := rfl
    rw [isDb, htext, beq_iff_eq, Option.some.injEq] at h
    exact h
  cases he with
  | db hpath => exact hpath
  | settings _ hother => exact absurd (hkind.symm.trans hother) (by decide)
  | file _ _ hother => exact absurd (hkind.symm.trans hother) (by decide)

theorem Restored.unlinkSides {done : List Bytes} {t : Files} (h : Restored s done t)
    (he : s.Has e) : Restored s done (unlinkSides (entryDoc n e) e.path t) := by
  have hsides : ∀ db ∈ dbPaths,
      resolve (sidePath db "-wal") ∈ passing ∧ resolve (sidePath db "-shm") ∈ passing := by
    decide +kernel
  rw [Restore.unlinkSides]
  split_ifs with hdb
  · obtain ⟨hwal, hshm⟩ := hsides e.path (isDb_entryDoc he hdb)
    exact (h.unlink hwal).unlink hshm
  · exact h

variable {f : Faults} (hf : Allows f) {done : List Bytes} {r : Progress}
include hf

theorem restoreEntry_has (suffix : Bytes) (hr : Restored s done r.files)
    (he : s.Has e) {rest : List (Bytes × Bytes)}
    (hstage : r.stage = ((blobName n).drop 2, e.data) :: rest) :
    ∃ t, restoreEntry false suffix f r (entryDoc n e) =
        { r with files := t, stage := r.unstage ((blobName n).drop 2), placed := r.placed + 1 } ∧
      Restored s (e.path :: done) t := by
  have hpath : (entryDoc n e).text "path" = some e.path := rfl
  have hblob : (entryDoc n e).text "blob" = some (blobName n) := rfl
  obtain ⟨t', u, hdirs, hwrite, hplaced⟩ :=
    Restored.place he.backs hf.mkdir (hr.unlinkSides (n := n) he)
  have hlookup : r.stage.lookup ((blobName n).drop 2) = some e.data := by
    rw [hstage, List.lookup_cons_self]
  refine ⟨u, ?_, hplaced⟩
  have hput : placeFile f { r with files := Restore.unlinkSides (entryDoc n e) e.path r.files }
      ((blobName n).drop 2) e.path = (true, u, r.unstage ((blobName n).drop 2)) := by
    simp only [placeFile, hdirs, if_true, hlookup]
    rcases hf.placing with hplacing | ⟨k, hk, hplacing⟩
    · simp only [hplacing, hwrite]
      rfl
    · have hfits := he.length.le.trans hk
      simp only [hplacing, List.take_of_length_le hfits, hwrite, decide_eq_true hfits]
      rfl
  simp only [restoreEntry, hpath, hblob, Option.getD_some, if_true, hput, Bool.false_eq_true,
    if_false]

omit hf in
theorem loop_restoreEntry (suffix : Bytes) {fs : ℕ → Faults} (hfs : ∀ k, Allows (fs k))
    {es : List Entry} (hes : ∀ e ∈ es, s.Has e) (hbound : n + es.length ≤ 10 ^ 6)
    (hr : Restored s done r.files) (hstage : r.stage = staged n (es.map Entry.data)) :
    let r' := loop (restoreEntry false suffix) fs r (entryDocs n es)
    r'.failed = r.failed ∧ Restored s ((es.map Entry.path).reverse ++ done) r'.files := by
  induction es generalizing n fs r done with
  | nil => exact ⟨rfl, hr⟩
  | cons e es ih =>
    have hhas := hes e List.mem_cons_self
    obtain ⟨t, hstep, hplaced⟩ := restoreEntry_has (hfs 0) suffix hr hhas hstage
    have hnext : r.unstage ((blobName n).drop 2) = staged (n + 1) (es.map Entry.data) := by
      rw [Progress.unstage, hstage, List.map_cons, staged_filter]
      rw [List.length_cons, List.length_map]
      exact hbound
    rw [List.length_cons] at hbound
    have hr' : Restored s (e.path :: done)
        (restoreEntry false suffix (fs 0) r (entryDoc n e)).files := by
      rw [hstep]
      exact hplaced
    have hrest := ih (fun k => hfs (k + 1)) (fun e' he' => hes e' (List.mem_cons_of_mem e he'))
      (n := n + 1) (by omega) hr' (by rw [hstep]; exact hnext)
    rw [List.map_cons, List.reverse_cons, List.append_assoc]
    refine ⟨hrest.1.trans ?_, hrest.2⟩
    rw [hstep]

end Entries

/-! ## The secrets -/

theorem secretOf_secretDoc {f : Bytes × Bytes} (hf : f.1 ∈ secretPaths) :
    secretOf (secretDoc f) = if f.2 = [] then none else some f := by
  have hpath : (secretDoc f).text "path" = some f.1 := rfl
  have hdata : (secretDoc f).text "data" = some (Base64.encode f.2) := rfl
  rw [secretOf, hpath, hdata, Option.bind_some, b64Decode_encode]
  split_ifs with hnil
  · rfl
  · simp only [Option.bind_eq_bind, Option.bind_some, secretPathOk, List.contains_iff_mem.mpr hf,
      if_true]

section Secrets

variable {done : List Bytes} {r : Progress}

theorem restoreSecret_mem (suffix : Bytes) {f : Faults} (hf : Allows f)
    (hr : Restored s done r.files) {secret : Bytes × Bytes} (hsecret : secret ∈ s.sealedFiles) :
    if secret.2 = [] then
      restoreSecret false suffix f r (secretDoc secret) = { r with failed := r.failed + 1 }
    else
      ∃ t, restoreSecret false suffix f r (secretDoc secret) =
          { r with files := t, secrets := r.secrets + 1 } ∧
        Restored s (secret.1 :: done) t := by
  obtain ⟨hpath, hsize, hb⟩ := mem_sealedFiles hsecret
  have hsecretOf := secretOf_secretDoc hpath
  split_ifs at hsecretOf ⊢ with hnil
  · rw [restoreSecret, hsecretOf]
  · obtain ⟨t', u, hdirs, hwrite, hplaced⟩ := Restored.place hb hf.mkdir hr
    obtain ⟨n, hn, hout⟩ := hf.write
    have hfits : secret.2.length ≤ n := (hsize.trans (by decide)).trans hn
    have hput : writeSecret f r.files secret.1 secret.2 = (true, u) := by
      simp only [writeSecret, hdirs, if_true, hout, List.take_of_length_le hfits, hwrite,
        decide_eq_true hfits, Bool.and_self]
    refine ⟨u, ?_, hplaced⟩
    simp only [restoreSecret, hsecretOf, Bool.false_eq_true, if_false, if_true, hput]

theorem loop_restoreSecret (suffix : Bytes) {fs : ℕ → Faults} (hfs : ∀ k, Allows (fs k))
    {files : List (Bytes × Bytes)} (hfiles : ∀ f ∈ files, f ∈ s.sealedFiles)
    (hr : Restored s done r.files) :
    let r' := loop (restoreSecret false suffix) fs r (files.map secretDoc)
    r'.failed = r.failed + files.countP (fun f => f.2 = []) ∧
      Restored s (((files.filter fun f => f.2 ≠ []).map Prod.fst).reverse ++ done) r'.files := by
  induction files generalizing fs r done with
  | nil => exact ⟨rfl, hr⟩
  | cons f files ih =>
    have hrest : ∀ g ∈ files, g ∈ s.sealedFiles :=
      fun g hg => hfiles g (List.mem_cons_of_mem f hg)
    have hstep := restoreSecret_mem suffix (hfs 0) hr (hfiles f List.mem_cons_self)
    split_ifs at hstep with hnil
    · have hr' : Restored s done (restoreSecret false suffix (fs 0) r (secretDoc f)).files := by
        rw [hstep]
        exact hr
      have hnext := ih (fun k => hfs (k + 1)) hrest hr'
      rw [List.countP_cons_of_pos (by simpa using hnil),
        List.filter_cons_of_neg (by simpa using hnil)]
      refine ⟨hnext.1.trans ?_, hnext.2⟩
      rw [hstep, Nat.add_right_comm]
      rfl
    · obtain ⟨t, hstep, hplaced⟩ := hstep
      have hr' : Restored s (f.1 :: done)
          (restoreSecret false suffix (fs 0) r (secretDoc f)).files := by
        rw [hstep]
        exact hplaced
      have hnext := ih (fun k => hfs (k + 1)) hrest hr'
      rw [List.countP_cons_of_neg (by simpa using hnil),
        List.filter_cons_of_pos (by simpa using hnil), List.map_cons, List.map_cons,
        List.reverse_cons, List.append_assoc]
      refine ⟨hnext.1.trans ?_, hnext.2⟩
      rw [hstep]

end Secrets

/-! ## The whole run -/

/-- The system lets a restore do everything, and SQLite leaves the database as it is. -/
structure Permits (w : World) : Prop where
  staging : w.staging = true
  staged : ∀ name, w.staged name = true
  entries : ∀ n, Allows (w.entries n)
  secrets : ∀ n, Allows (w.secrets n)
  sqlite : ∀ t p, p ∉ passing → (w.sqlite t).2.file? p = t.file? p

/-- Every file of the backup, and every secret that is sealed, is there. -/
structure Site.Recreated (s : Site) (t : Files) : Prop where
  databases : ∀ path ∈ dbPaths, s.readable path = true →
    ∃ data, s.snapshot path = some data ∧ t.file? (resolve path) = some data
  settings : ∀ path ∈ settings, s.readable path = true →
    ∃ data, s.files.file? (resolve path) = some data ∧ t.file? (resolve path) = some data
  files : ∀ dir ∈ fileDirs, ∀ q, q ≠ [] → ∀ data,
    s.files.file? (resolve dir ++ q) = some data → t.file? (resolve dir ++ q) = some data
  secrets : ∀ f ∈ s.sealedFiles, t.file? (resolve f.1) = some f.2

section Run

variable {x : Codecs} {env : Env} {pass archive : Bytes} {es : List Entry}
  {plain block manifest signature : Bytes} {w : World}

theorem notMarker {p : List Bytes} (hp : p ∉ passing) : ¬ IsMarker p := by
  have hmarkers : resolve markerPath ∈ passing ∧ resolve markerTmp ∈ passing := by decide +kernel
  rintro (rfl | rfl)
  · exact hp hmarkers.1
  · exact hp hmarkers.2

theorem Restored.finish (hw : Permits w) {done : List Bytes} {t : Files} (h : Restored s done t)
    (m : Doc) {path data : Bytes} (hpath : path ∈ done) (hb : s.Backs path data) :
    (writeMarker w m (w.sqlite t).2).file? (resolve path) = some data := by
  rw [file?_writeMarker w m _ (notMarker hb.lasting), hw.sqlite t _ hb.lasting,
    h.placed path hpath data hb]

theorem mkdir_data (h : s.readable (bytes "data/blog.db") = true) :
    ∃ t, Tree.empty.mkdir (resolve (bytes "data")) = some t ∧ s.files.LaidOut t := by
  have hexists : s.files.Exists (resolve (bytes "data/blog.db")) := by
    rw [Site.readable, Bool.and_eq_true, decide_eq_true_eq] at h
    exact h.1
  have hdir : s.files.IsDir (resolve (bytes "data")) :=
    Tree.isDir_above hexists (by decide +kernel) (by decide +kernel)
  have hroot : (Tree.empty : Files).IsDir (resolve (bytes "data")).dropLast := by decide +kernel
  obtain ⟨t, hmade, hlaid, -⟩ := (Tree.laidOut_empty s.files).mkdir (by decide +kernel) hdir hroot
  exact ⟨t, hmade, hlaid⟩

/-- A restore into an empty directory fails for the empty secrets and for nothing else, if the
archive is accepted; if it is not, nothing is restored. -/
theorem Writes.cmdRestore (hf : Faithful x env)
    (h : Writes x env s pass archive es plain block manifest signature) (hw : Permits w)
    (force : Bool) :
    if Accepts es block manifest then
      ∃ placed secrets dbOk t,
        cmdRestore x w .empty archive force (some pass) =
          (.finished placed (s.sealedFiles.countP fun f => f.2 = []) secrets dbOk, t) ∧
        ∀ path data, s.Backs path data →
          path ∈ es.map Entry.path ∨ path ∈ (s.sealedFiles.filter fun f => f.2 ≠ []).map Prod.fst →
            t.file? (resolve path) = some data
    else ∃ t, cmdRestore x w .empty archive force (some pass) = (.aborted, t) := by
  have hfresh : access (Tree.empty : Files) (bytes "data/blog.db") = false := by decide +kernel
  obtain ⟨t₀, hdata, hlaid⟩ := mkdir_data h.database
  have hrun : Restore.cmdRestore x w .empty archive force (some pass) =
      (Restore.readAll x w archive (some pass)).elim (.aborted, t₀) fun read =>
        placeAll w false t₀ read.1 read.2.1 read.2.2 := by
    rw [Restore.cmdRestore, hfresh, hdata, hw.staging]
    cases Restore.readAll x w archive (some pass) <;> rfl
  rw [hrun, h.readAll hf hw.staged]
  split_ifs with haccepts
  · have hes := backedUp h.entries
    have hstart : Restored s [] t₀ := ⟨hlaid, fun path hpath => absurd hpath List.not_mem_nil⟩
    have hstage : (contents env es (some block) manifest signature).read.blobs.map
        (fun b => (b.name.drop 2, b.content)) = staged 1 (es.map Entry.data) := by
      show (blobsFrom 1 ((es.map fun e => (e.data, e.mtime)).map Prod.fst)).map _ = _
      rw [List.map_map]
      rfl
    have hcount := hes.count
    have hentries := loop_restoreEntry w.suffix hw.entries hes.has (n := 1) (by omega)
      (r := ⟨t₀, staged 1 (es.map Entry.data), 0, 0, 0⟩) hstart rfl
    have hsecrets := loop_restoreSecret w.suffix hw.secrets (fun f hf => hf) hentries.2
    generalize hr : loop (restoreSecret false w.suffix) w.secrets
      (loop (restoreEntry false w.suffix) w.entries
        ⟨t₀, staged 1 (es.map Entry.data), 0, 0, 0⟩ (entryDocs 1 es))
      (s.sealedFiles.map secretDoc) = r at hsecrets
    have hplace : placeFiles w false t₀ (contents env es (some block) manifest signature).read
        (manifestDoc env es (some (sealDoc env s.sealedFiles block)))
        (s.sealedFiles.map secretDoc) = r := by
      rw [placeFiles, hstage, ← hr]
      rfl
    have hfailed : r.failed = s.sealedFiles.countP fun f => f.2 = [] := by
      rw [hsecrets.1, hentries.1, Nat.zero_add]
    refine ⟨r.placed, r.secrets, (w.sqlite r.files).1,
      writeMarker w (manifestDoc env es (some (sealDoc env s.sealedFiles block)))
        (w.sqlite r.files).2, ?_, fun path data hb hpath => ?_⟩
    · rw [Option.elim_some, placeAll, hplace, ← hfailed]
    · refine hsecrets.2.finish hw _ ?_ hb
      rw [List.mem_append, List.mem_reverse, List.append_nil, List.mem_reverse]
      exact hpath.symm
  · exact ⟨t₀, rfl⟩

end Run

/-! ## When it is the same -/

/-- The archive is accepted, and an empty directory gets everything in it. -/
def RoundTrip (x : Codecs) (w : World) (s : Site) (archive pass : Bytes) (force : Bool) : Prop :=
  cmdVerify x archive (some pass) = true ∧
    ∃ placed secrets dbOk t,
      cmdRestore x w .empty archive force (some pass) = (.finished placed 0 secrets dbOk, t) ∧
        s.Recreated t

/-- The site has nothing that the reader refuses. -/
structure Restorable (x : Codecs) (env : Env) (s : Site) (pass : Bytes) : Prop where
  names : ∀ dir ∈ fileDirs, ∀ q, q ≠ [] → (s.files.file? (resolve dir ++ q)).isSome →
    hasSub (pathOf (resolve dir ++ q)) (bytes "..") = false ∧ 92 ∉ pathOf (resolve dir ++ q)
  nonempty : ∀ f ∈ s.sealedFiles, f.2 ≠ []
  block : ∀ plain, env.printUnformatted (secretsDoc s.sealedFiles) = some plain →
    plain.length + 16 ≤ maxSecrets
  manifest : ∀ text, manifestText x env s (some pass) = some text → text.length ≤ maxManifest

section Same

variable {x : Codecs} {env : Env} {pass archive : Bytes} {es : List Entry}
  {plain block manifest signature : Bytes} {w : World}

/-- The paths of a backup are accepted unless a file below the directories has a bad one. -/
theorem paths_accepted (hes : s.BackedUp es) :
    (∀ e ∈ es, restorePathOk e.path = true ∧ secretPathOk e.path = false) ↔
      ∀ dir ∈ fileDirs, ∀ q, q ≠ [] → (s.files.file? (resolve dir ++ q)).isSome →
        hasSub (pathOf (resolve dir ++ q)) (bytes "..") = false ∧
          92 ∉ pathOf (resolve dir ++ q) := by
  constructor
  · intro hall dir hdir q hne hfile
    obtain ⟨hq, e, he, hpath⟩ := hes.below dir hdir q hne hfile
    rw [pathOf_behind hdir hq, ← restorePathOk_behind hdir hne hq, ← hpath]
    exact hall e he
  · intro hall e he
    have hfixed : ∀ path ∈ dbPaths ++ settings,
        restorePathOk path = true ∧ secretPathOk path = false := by decide +kernel
    cases hes.has e he with
    | db hpath => exact hfixed _ (List.mem_append_left _ hpath)
    | settings hpath => exact hfixed _ (List.mem_append_right _ hpath)
    | file hpath hshort hkind hdata =>
      obtain ⟨dir, hdir, q, hne, hq, heq⟩ := hpath
      have hfile := (putFile_eq_some hdata).1
      rw [heq, resolve_behind dir hq] at hfile
      rw [heq, restorePathOk_behind hdir hne hq, ← pathOf_behind hdir hq]
      exact hall dir hdir q hne (by rw [hfile]; rfl)

theorem Writes.manifestText (hpass : pass ≠ [])
    (h : Writes x env s pass archive es plain block manifest signature) :
    manifestText x env s (some pass) = some manifest := by
  obtain ⟨key, hkey, hseal⟩ := h.sealing
  have hblock : sealSecrets x env pass s.sealedFiles = some block := by
    rw [sealSecrets, h.unformatted, Option.bind_eq_bind, Option.bind_some, hkey,
      Option.bind_some, hseal]
  rw [Backup.manifestText, h.entries, secretBlock_eq hpass, hblock]
  exact h.print

theorem Writes.accepts_iff (hf : Faithful x env) (hpass : pass ≠ [])
    (h : Writes x env s pass archive es plain block manifest signature) :
    Accepts es block manifest ∧ (∀ f ∈ s.sealedFiles, f.2 ≠ []) ↔ Restorable x env s pass := by
  obtain ⟨key, -, hseal⟩ := h.sealing
  have hlen := (hf.seal_open _ _ _ _ hseal).2
  have hpaths := paths_accepted (backedUp h.entries)
  constructor
  · rintro ⟨⟨⟨hblock, hmanifest⟩, hall⟩, hnonempty⟩
    refine ⟨hpaths.mp hall, hnonempty, fun plain' hplain => ?_, fun text htext => ?_⟩
    · rw [h.unformatted, Option.some.injEq] at hplain
      rw [← hplain, ← hlen]
      exact hblock
    · rw [h.manifestText hpass, Option.some.injEq] at htext
      rw [← htext]
      exact hmanifest
  · intro hr
    have hblock := hr.block plain h.unformatted
    rw [← hlen] at hblock
    exact ⟨⟨⟨hblock, hr.manifest manifest (h.manifestText hpass)⟩, hpaths.mpr hr.names⟩,
      hr.nonempty⟩

theorem recreated_of_backs (hes : s.BackedUp es) {t : Files}
    (hentries : ∀ path data, s.Backs path data → path ∈ es.map Entry.path →
      t.file? (resolve path) = some data)
    (hsecrets : ∀ f ∈ s.sealedFiles, t.file? (resolve f.1) = some f.2) : s.Recreated t := by
  have hmem : ∀ e ∈ es, s.content e.path = some e.data ∧
      t.file? (resolve e.path) = some e.data := by
    intro e he
    have hb := (hes.has e he).backs
    exact ⟨hb.content, hentries _ _ hb (List.mem_map_of_mem he)⟩
  refine ⟨fun path hpath hreadable => ?_, fun path hpath hreadable => ?_,
    fun dir hdir q hne data hdata => ?_, hsecrets⟩
  · obtain ⟨e, he, rfl⟩ := hes.named path (List.mem_append_left _ hpath) hreadable
    obtain ⟨hcontent, hfile⟩ := hmem e he
    rw [Site.content, if_pos hpath] at hcontent
    exact ⟨e.data, hcontent, hfile⟩
  · obtain ⟨e, he, rfl⟩ := hes.named path (List.mem_append_right _ hpath) hreadable
    obtain ⟨hcontent, hfile⟩ := hmem e he
    have hother : ∀ path ∈ settings, path ∉ dbPaths := by decide
    rw [Site.content, if_neg (hother _ hpath)] at hcontent
    exact ⟨e.data, hcontent, hfile⟩
  · obtain ⟨hq, e, he, hpath⟩ := hes.below dir hdir q hne (by rw [hdata]; rfl)
    obtain ⟨hcontent, hfile⟩ := hmem e he
    have hbelow : Below e.path := ⟨dir, hdir, q, hne, hq, hpath⟩
    have hother : ∀ path ∈ dbPaths, path.head? ≠ some 112 := by decide
    rw [Site.content, if_neg fun hdb => hother _ hdb hbelow.head?] at hcontent
    rw [hpath, resolve_behind dir hq] at hcontent hfile
    rw [hfile, ← hcontent, hdata]

end Same

/-- An archive that is written makes the round trip exactly if the site is restorable. -/
theorem roundTrip_iff {x : Codecs} {env : Env} (hf : Faithful x env) {w : World} (hw : Permits w)
    {s : Site} {pass archive : Bytes} (hpass : 12 ≤ pass.length)
    (hwritten : flyBackupWrite x env s (some pass) = some archive) (force : Bool) :
    RoundTrip x w s archive pass force ↔ Restorable x env s pass := by
  have hne : pass ≠ [] := by
    rintro rfl
    exact absurd hpass (by decide)
  obtain ⟨es, plain, block, manifest, signature, h⟩ := flyBackupWrite_cases hne hwritten
  have hrun := h.cmdRestore hf hw force
  rw [← h.accepts_iff hf hne]
  constructor
  · rintro ⟨hverify, placed, secrets, dbOk, t, hrestore, -⟩
    split_ifs at hrun with haccepts
    · obtain ⟨placed', secrets', dbOk', t', hrestore', -⟩ := hrun
      rw [hrestore, Prod.mk.injEq, Outcome.finished.injEq] at hrestore'
      refine ⟨haccepts, fun f hfile hnil => ?_⟩
      have hzero := List.countP_eq_zero.mp hrestore'.1.2.1.symm f hfile
      exact hzero (decide_eq_true hnil)
    · obtain ⟨t', hrestore'⟩ := hrun
      rw [hrestore, Prod.mk.injEq] at hrestore'
      exact nomatch hrestore'.1
  · rintro ⟨haccepts, hnonempty⟩
    rw [if_pos haccepts] at hrun
    obtain ⟨placed, secrets, dbOk, t, hrestore, hplaced⟩ := hrun
    have hzero : (s.sealedFiles.countP fun f => f.2 = []) = 0 :=
      List.countP_eq_zero.mpr fun f hfile hnil => hnonempty f hfile (of_decide_eq_true hnil)
    rw [hzero] at hrestore
    refine ⟨?_, placed, secrets, dbOk, t, hrestore, ?_⟩
    · rw [cmdVerify_eq x hw.staged, h.readAll hf hw.staged, if_pos haccepts]
      rfl
    · refine recreated_of_backs (backedUp h.entries)
        (fun path data hb hpath => hplaced path data hb (.inl hpath)) fun f hfile => ?_
      refine hplaced f.1 f.2 (mem_sealedFiles hfile).2.2 (.inr ?_)
      exact List.mem_map_of_mem (List.mem_filter.mpr ⟨hfile, by simpa using hnonempty f hfile⟩)

/-! ## Two runs -/

instance (name : Bytes) : Decidable (FileName name) :=
  decidable_of_iff (name ≠ [] ∧ name ≠ bytes "." ∧ name ≠ bytes ".." ∧ 47 ∉ name ∧ 0 ∉ name)
    ⟨fun h => ⟨h.1, h.2.1, h.2.2.1, h.2.2.2.1, h.2.2.2.2⟩,
      fun h => ⟨h.ne_nil, h.ne_dot, h.ne_dots, h.no_slash, h.no_nul⟩⟩

def namesIn (t : Files) (p : List Bytes) : List Bytes :=
  t.names.filterMap fun q => if q.dropLast = p then q.getLast? else none

theorem mem_namesIn {name : Bytes} (h : name ∈ namesIn t p) :
    p ++ [name] ∈ t.names := by
  obtain ⟨q, hq, hname⟩ := List.mem_filterMap.mp h
  split_ifs at hname with hp
  have hlast := List.dropLast_append_getLast? name hname
  rw [← hp, hlast]
  exact hq

def siteOf (t : Files) (hnames : ∀ q ∈ t.names, ∀ name ∈ q, FileName name)
    (hshort : ∀ q ∈ t.names, (pathOf q).length < pathMax) : Site where
  files := t
  names := namesIn t
  opens := fun _ => true
  mtime := fun _ => 0
  snapshot := fun path => t.file? (resolve path)
  snapshot_file := by
    intro path data h
    rw [h]
    rfl
  names_ok := by
    intro p name h
    exact hnames _ (mem_namesIn h) name (List.mem_append_right p (List.mem_singleton_self name))
  names_all := by
    intro p name h
    refine List.mem_filterMap.mpr ⟨p ++ [name], t.finite _ h, ?_⟩
    rw [if_pos List.dropLast_concat, List.getLast?_concat]
  short := fun p name h => hshort _ (mem_namesIn h)

def albumTree (name : Bytes) : Files :=
  (do
    let t ← (Tree.empty : Files).mkdir [bytes "data"]
    let t ← t.write [bytes "data", bytes "blog.db"] (bytes "SQLite format 3")
    let t ← t.write [bytes "data", bytes ".jwt_secret"] (bytes "key")
    let t ← t.mkdir [bytes "public"]
    let t ← t.mkdir [bytes "public", bytes "img"]
    t.write [bytes "public", bytes "img", name] (bytes "GIF89a")).getD Tree.empty

def album : Site := siteOf (albumTree (bytes "a.gif")) (by decide +kernel) (by decide +kernel)

def dotted : Site := siteOf (albumTree (bytes "a..gif")) (by decide +kernel) (by decide +kernel)

def albumEntries (name : Bytes) : List Entry :=
  [⟨bytes "data/blog.db", bytes "db", bytes "SQLite format 3", 0⟩,
    ⟨bytes "public/img/" ++ name, bytes "file", bytes "GIF89a", 0⟩]

def albumSecrets : List (Bytes × Bytes) := [(bytes "data/.jwt_secret", bytes "key")]

theorem album_backup : album.backupEntries = some (albumEntries (bytes "a.gif")) ∧
    album.sealedFiles = albumSecrets ∧ album.readable (bytes "data/blog.db") = true :=
  ⟨rfl, by decide +kernel, by decide +kernel⟩

theorem dotted_backup : dotted.backupEntries = some (albumEntries (bytes "a..gif")) ∧
    dotted.sealedFiles = albumSecrets ∧ dotted.readable (bytes "data/blog.db") = true :=
  ⟨rfl, by decide +kernel, by decide +kernel⟩

mutual

/-- A document as cJSON prints it, if no text in it needs escapes. -/
def printed (formatted : Bool) (depth : ℕ) : Doc → Bytes
  | .null => bytes "null"
  | .bool b => bytes (if b then "true" else "false")
  | .num n => decimalInt n
  | .str s => 34 :: s ++ [34]
  | .arr items => 91 :: printedItems formatted (depth + 1) items ++ [93]
  | .obj members =>
    123 :: (if formatted then [10] else []) ++ printedMembers formatted (depth + 1) members ++
      List.replicate (if formatted then depth else 0) 9 ++ [125]

def printedItems (formatted : Bool) (depth : ℕ) : List Doc → Bytes
  | [] => []
  | [d] => printed formatted depth d
  | d :: ds =>
    printed formatted depth d ++ (if formatted then [44, 32] else [44]) ++
      printedItems formatted depth ds

def printedMembers (formatted : Bool) (depth : ℕ) : List (Bytes × Doc) → Bytes
  | [] => []
  | (key, d) :: members =>
    List.replicate (if formatted then depth else 0) 9 ++ 34 :: key ++
      (if formatted then [34, 58, 9] else [34, 58]) ++ printed formatted depth d ++
      (if members.isEmpty then [] else [44]) ++ (if formatted then [10] else []) ++
      printedMembers formatted depth members

end

def albumBase : Env where
  ready := true
  compress := rawFrame
  print := fun _ => none
  printUnformatted := fun _ => none
  keyId := bytes "0"
  publicKey := bytes "k"
  sign := fun _ => some (bytes "s")
  salt := List.replicate 16 1
  nonce := List.replicate 12 2
  aeadSeal := fun _ _ plain => some (plain ++ zeros 16)
  createdAt := bytes "2026-01-01T00:00:00Z"
  sourceHost := bytes "site"
  posts := 1
  signedPosts := 1
  checkpoint := 0
  times := fun _ => 0
  stored := true
  salt_length := rfl
  nonce_length := rfl
  no_nul := by decide
  posts_int := by decide
  signedPosts_int := by decide
  checkpoint_exact := Doc.exact_natCast (n := 0) (by decide)

def albumPlain : Bytes := printed false 0 (secretsDoc albumSecrets)

def albumDoc (name : Bytes) : Doc :=
  manifestDoc albumBase (albumEntries name)
    (some (sealDoc albumBase albumSecrets (albumPlain ++ zeros 16)))

def albumText (name : Bytes) : Bytes := printed true 0 (albumDoc name)

def albumEnv (name : Bytes) : Env :=
  { albumBase with
    print := fun d => if d = albumDoc name then some (albumText name) else none
    printUnformatted := fun d => if d = secretsDoc albumSecrets then some albumPlain else none }

def albumCodecs (name : Bytes) : Codecs where
  decompress := fun file => file.drop 9
  parse := fun text =>
    if text = albumText name then some (albumDoc name)
    else if text = albumPlain then some (secretsDoc albumSecrets)
    else none
  keyIdOf := fun _ => some (bytes "0")
  verifyManifest := fun _ _ _ => true
  deriveKey := fun _ _ => some (List.replicate 32 7)
  aeadOpen := fun _ _ block => some (block.take (block.length - 16))

theorem album_print (name : Bytes) (d : Doc) :
    (albumEnv name).print d = if d = albumDoc name then some (albumText name) else none := rfl

theorem album_printUnformatted (name : Bytes) (d : Doc) :
    (albumEnv name).printUnformatted d =
      if d = secretsDoc albumSecrets then some albumPlain else none := rfl

theorem album_parse (name text : Bytes) :
    (albumCodecs name).parse text =
      if text = albumText name then some (albumDoc name)
      else if text = albumPlain then some (secretsDoc albumSecrets)
      else none := rfl

theorem albumPlain_ne (name : Bytes) : albumPlain ≠ albumText name := by
  intro heq
  have hplain : albumPlain.take 2 = [123, 34] := rfl
  have htext : (albumText name).take 2 = [123, 10] := rfl
  rw [heq, htext] at hplain
  exact absurd hplain (by decide)

theorem album_faithful {name : Bytes} (hlen : (albumText name).length < 2 ^ 31) :
    Faithful (albumCodecs name) (albumEnv name) where
  decompress := fun s => List.drop_left' rfl
  parse_print := by
    intro d text _ h
    rw [album_print, Option.ite_none_right_eq_some, Option.some.injEq] at h
    rw [h.1, ← h.2, album_parse, if_pos rfl]
  parse_unformatted := by
    intro d text _ h
    rw [album_printUnformatted, Option.ite_none_right_eq_some, Option.some.injEq] at h
    rw [h.1, ← h.2, album_parse, if_neg (albumPlain_ne name), if_pos rfl]
  print_length := by
    intro d text h
    rw [album_print, Option.ite_none_right_eq_some, Option.some.injEq] at h
    rw [← h.2]
    exact hlen
  unformatted_length := by
    intro d text h
    rw [album_printUnformatted, Option.ite_none_right_eq_some, Option.some.injEq] at h
    rw [← h.2]
    decide +kernel
  keyIdOf := ⟨bytes "0", rfl⟩
  verify := fun _ _ _ => rfl
  sign_line := by
    intro m sig h
    cases h
    decide +kernel
  seal_open := by
    intro key nonce plain block h
    cases h
    constructor
    · show some ((plain ++ zeros 16).take ((plain ++ zeros 16).length - 16)) = some plain
      rw [List.length_append, zeros, List.length_replicate, Nat.add_sub_cancel, List.take_left]
    · rw [List.length_append, zeros, List.length_replicate]

def albumArchive (name : Bytes) : Bytes :=
  rawFrame (tarStream (contents (albumEnv name) (albumEntries name)
    (some (albumPlain ++ zeros 16)) (albumText name) (bytes "s")).members)

def passphrase : Bytes := bytes "correct horse"

theorem album_sealed (name : Bytes) :
    sealSecrets (albumCodecs name) (albumEnv name) passphrase albumSecrets =
      some (albumPlain ++ zeros 16) := by
  rw [sealSecrets, album_printUnformatted, if_pos rfl, Option.bind_eq_bind, Option.bind_some]
  exact Option.bind_some ..

theorem album_manifest (name : Bytes) :
    (albumEnv name).print (manifestDoc (albumEnv name) (albumEntries name)
      (some (sealDoc (albumEnv name) albumSecrets (albumPlain ++ zeros 16)))) =
        some (albumText name) := by
  rw [album_print]
  exact if_pos rfl

theorem album_written {name : Bytes} (hes : s.backupEntries = some (albumEntries name))
    (hsecrets : s.sealedFiles = albumSecrets) (hdb : s.readable (bytes "data/blog.db") = true) :
    flyBackupWrite (albumCodecs name) (albumEnv name) s (some passphrase) =
      some (albumArchive name) := by
  have hready : (albumEnv name).ready = true := rfl
  have hstored : (albumEnv name).stored = true := rfl
  have hsign : (albumEnv name).sign (albumText name) = some (bytes "s") := rfl
  have hcompress : (albumEnv name).compress = rawFrame := rfl
  rw [flyBackupWrite, hes, hdb, hready, secretBlock_eq (by decide), hsecrets, album_sealed,
    Bool.and_self, if_pos rfl]
  rw [Option.bind_eq_bind, Option.bind_some, Option.map_some, Option.bind_eq_bind,
    Option.bind_some, Option.map_some]
  rw [album_manifest, Option.bind_eq_bind, Option.bind_some, hsign, Option.bind_some]
  rw [if_pos hstored, hcompress, albumArchive]

def allowed : World :=
  { newYear with
    entries := fun _ => { fine with write := some (8 ^ 11, true) }
    secrets := fun _ => { fine with write := some (8 ^ 11, true) } }

theorem allowed_permits : Permits allowed := by
  have hallows : Allows { fine with write := some (8 ^ 11, true) } :=
    ⟨fun _ => rfl, .inl rfl, 8 ^ 11, Nat.le_refl _, rfl⟩
  exact ⟨rfl, fun _ => rfl, fun _ => hallows, fun _ => hallows, fun _ _ _ => rfl⟩

theorem album_restored :
    RoundTrip (albumCodecs (bytes "a.gif")) allowed album (albumArchive (bytes "a.gif")) passphrase
      false := by
  obtain ⟨hes, hsecrets, hdb⟩ := album_backup
  have hlen : (albumText (bytes "a.gif")).length ≤ maxManifest := by decide +kernel
  have hfaithful := album_faithful (hlen.trans_lt (by decide))
  have hwritten := album_written hes hsecrets hdb
  refine (roundTrip_iff hfaithful allowed_permits (by decide) hwritten false).mpr ?_
  constructor
  · intro dir hdir q hne hfile
    have hall : ∀ p ∈ album.files.names,
        hasSub (pathOf p) (bytes "..") = false ∧ 92 ∉ pathOf p := by decide +kernel
    obtain ⟨data, hdata⟩ := Option.isSome_iff_exists.mp hfile
    exact hall _ (album.files.finite _ (Tree.exists_of_file? hdata))
  · rw [hsecrets]
    decide
  · intro plain hplain
    rw [hsecrets, album_printUnformatted, if_pos rfl, Option.some.injEq] at hplain
    rw [← hplain]
    decide +kernel
  · intro text htext
    obtain ⟨es, plain, block, manifest, signature, h⟩ := flyBackupWrite_cases (by decide) hwritten
    rw [h.manifestText (by decide), Option.some.injEq] at htext
    have hprint := h.print
    rw [album_print, Option.ite_none_right_eq_some, Option.some.injEq] at hprint
    rw [← htext, ← hprint.2]
    exact hlen

/-- An image with two dots in its name: the archive is written, but never accepted. -/
theorem dotted_refused :
    Faithful (albumCodecs (bytes "a..gif")) (albumEnv (bytes "a..gif")) ∧ Permits allowed ∧
      12 ≤ passphrase.length ∧
      flyBackupWrite (albumCodecs (bytes "a..gif")) (albumEnv (bytes "a..gif")) dotted
        (some passphrase) = some (albumArchive (bytes "a..gif")) ∧
      ∀ force, ¬ RoundTrip (albumCodecs (bytes "a..gif")) allowed dotted
        (albumArchive (bytes "a..gif")) passphrase force := by
  obtain ⟨hes, hsecrets, hdb⟩ := dotted_backup
  have hlen : (albumText (bytes "a..gif")).length < 2 ^ 31 := by decide +kernel
  have hfaithful := album_faithful hlen
  have hwritten := album_written hes hsecrets hdb
  refine ⟨hfaithful, allowed_permits, by decide, hwritten, fun force hround => ?_⟩
  obtain ⟨es, plain, block, manifest, signature, h⟩ := flyBackupWrite_cases (by decide) hwritten
  have hentries := h.entries
  rw [hes, Option.some.injEq] at hentries
  have hrefused : ¬ Accepts es block manifest := by
    rintro ⟨-, hall⟩
    rw [← hentries] at hall
    have himage := hall ⟨bytes "public/img/" ++ bytes "a..gif", bytes "file", bytes "GIF89a", 0⟩
      (List.mem_cons_of_mem _ (List.mem_singleton_self _))
    exact absurd himage.1 (by decide +kernel)
  have hverify := hround.1
  rw [cmdVerify_eq _ allowed_permits.staged, h.readAll hfaithful allowed_permits.staged,
    if_neg hrefused] at hverify
  exact nomatch hverify

end FlyBoard.Backup
