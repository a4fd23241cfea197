import FlyBoard.Tools.ArchiveContents
import FlyBoard.Tools.Restore

/-!
# What a restore touches (`src/tools/backup.c`)

Whatever the archive is, a restore over an existing site keeps to the paths that a backup has,
the siblings of databases, the names that these are moved to, and its marker; and it loses
nothing, as long as no two paths that it moves are the same file, none is a directory, and no
name that it moves one to is taken.
-/

namespace FlyBoard.Restore

open Bytes Archive FileTree

/-! ## Paths -/

/-- A path up to its last slash, with anything that has no slash put at its end. -/
theorem exists_last (path : Bytes) :
    ∃ dir last, ∀ ext : Bytes, 47 ∉ ext → (path ++ ext).splitOn 47 = dir ++ [last ++ ext] := by
  induction path with
  | nil => exact ⟨[], [], fun ext hext => List.splitOn_eq_singleton hext⟩
  | cons c path ih =>
    rcases ih with ⟨dir, last, h⟩
    by_cases hc : c = 47
    · refine ⟨[] :: dir, last, fun ext hext => ?_⟩
      rw [hc, List.cons_append, List.splitOn_cons_eq_if_modifyHead, beq_self_eq_true, h ext hext]
      rfl
    · have hne : (c == 47) = false := beq_false_of_ne hc
      cases dir with
      | nil =>
        refine ⟨[], c :: last, fun ext hext => ?_⟩
        rw [List.cons_append, List.splitOn_cons_eq_if_modifyHead, hne, h ext hext]
        rfl
      | cons part dir =>
        refine ⟨(c :: part) :: dir, last, fun ext hext => ?_⟩
        rw [List.cons_append, List.splitOn_cons_eq_if_modifyHead, hne, h ext hext]
        rfl

theorem isName_append {part : Bytes} (h : isName part = true) (ext : Bytes) :
    isName (part ++ ext) = true := by
  rw [isName, Bool.and_eq_true, bne_iff_ne, bne_iff_ne] at h ⊢
  rcases h with ⟨hne, hdot⟩
  constructor
  · exact List.append_ne_nil_of_left_ne_nil hne ext
  · intro heq
    cases ext with
    | nil => exact hdot ((List.append_nil part).symm.trans heq)
    | cons c ext =>
      have hlen := congrArg List.length heq
      have hpos := List.length_pos_of_ne_nil hne
      have hone : (bytes ".").length = 1 := by decide
      rw [List.length_append, List.length_cons, hone] at hlen
      omega

variable {path : Bytes}

theorem resolve_of_plain (h : plain path = true) :
    ∃ dir last, isName last = true ∧ ∀ ext : Bytes, 47 ∉ ext →
      resolve (path ++ ext) = dir ++ [last ++ ext] ∧ plain (path ++ ext) = true := by
  rcases exists_last path with ⟨dir, last, hsplit⟩
  have hself := hsplit [] List.not_mem_nil
  rw [List.append_nil, List.append_nil] at hself
  have hlast : isName last = true := by
    rw [plain, hself, List.getLast?_concat] at h
    exact h
  refine ⟨dir.filter isName, last, hlast, fun ext hext => ?_⟩
  have hname := isName_append hlast ext
  constructor
  · rw [resolve, hsplit ext hext, List.filter_append, List.filter_cons_of_pos hname,
      List.filter_nil]
  · rw [plain, hsplit ext hext, List.getLast?_concat]
    exact hname

theorem resolve_slash (a b : Bytes) : resolve (a ++ 47 :: b) = resolve a ++ resolve b := by
  rw [resolve, List.splitOn_append_cons_self, List.filter_append]
  rfl

theorem plain_slash (a b : Bytes) : plain (a ++ 47 :: b) = plain b := by
  rw [plain, List.splitOn_append_cons_self,
    List.getLast?_append_of_ne_nil _ (List.splitOn_ne_nil 47 b), plain]

def aside (suffix : Bytes) (p : List Bytes) : List Bytes :=
  p.dropLast ++ [p.getLast?.getD [] ++ (bytes ".pre-restore-" ++ suffix)]

theorem aside_concat (suffix : Bytes) (dir : List Bytes) (last : Bytes) :
    aside suffix (dir ++ [last]) = dir ++ [last ++ (bytes ".pre-restore-" ++ suffix)] := by
  rw [aside, List.dropLast_concat, List.getLast?_concat]
  rfl

theorem not_mem_suffix (w : World) : 47 ∉ bytes ".pre-restore-" ++ w.suffix := by
  intro h
  rcases List.mem_append.mp h with hpre | hsuffix
  · exact absurd hpre (by decide)
  · exact absurd (w.digits 47 hsuffix) (by decide)

theorem resolve_asidePath (w : World) (h : plain path = true) :
    resolve (asidePath w.suffix path) = aside w.suffix (resolve path) := by
  rcases resolve_of_plain h with ⟨dir, last, -, hext⟩
  have hself := (hext [] List.not_mem_nil).1
  rw [List.append_nil, List.append_nil] at hself
  rw [asidePath, (hext _ (not_mem_suffix w)).1, hself, aside_concat]

theorem resolve_ne_nil (h : plain path = true) : resolve path ≠ [] := by
  rcases resolve_of_plain h with ⟨dir, last, -, hext⟩
  have hself := (hext [] List.not_mem_nil).1
  rw [List.append_nil] at hself
  rw [hself]
  exact List.append_ne_nil_of_right_ne_nil dir (List.cons_ne_nil _ [])

/-! ## The paths that may be touched -/

/-- What SQLite keeps next to a database. -/
def siblings : List Bytes := ["", "-wal", "-shm"].map bytes

/-- At or below a path of the backup, a sibling of it, or where one of these is moved. -/
def Covered (suffix : Bytes) (p : List Bytes) : Prop :=
  (∃ dir ∈ fileDirs, resolve dir <+: p ∧ p ≠ resolve dir) ∨
    ∃ path ∈ dbPaths ++ settings ++ secretPaths, ∃ ext ∈ siblings,
      resolve (path ++ ext) <+: p ∨ resolve (asidePath suffix (path ++ ext)) <+: p

def IsMarker (p : List Bytes) : Prop := p = resolve markerPath ∨ p = resolve markerTmp

def IsDatabase (p : List Bytes) : Prop :=
  ∃ ext ∈ ["", "-wal", "-shm", "-journal"].map bytes, p = resolve (bytes "data/blog.db" ++ ext)

/-- Everything at and below the path, and where it is moved, may be touched. -/
def MayMove (suffix path : Bytes) : Prop :=
  ∀ p, resolve path <+: p ∨ resolve (asidePath suffix path) <+: p → Covered suffix p

theorem covered_of_longer {suffix d rest : Bytes} {p : List Bytes} (hd : d ∈ fileDirs)
    (hrest : plain rest = true) (hp : resolve (d ++ 47 :: rest) <+: p) : Covered suffix p := by
  rw [resolve_slash] at hp
  refine .inl ⟨d, hd, (List.prefix_append _ _).trans hp, ?_⟩
  rintro rfl
  have hle := hp.length_le
  have hpos := List.length_pos_of_ne_nil (resolve_ne_nil hrest)
  rw [List.length_append] at hle
  omega

/-- What `restore_path_ok` lets through may be moved, and so may its siblings. -/
theorem mayMove_of_ok (w : World) (hok : restorePathOk path = true) {ext : Bytes}
    (hext : ext ∈ siblings) (hplain : plain (path ++ ext) = true) :
    MayMove w.suffix (path ++ ext) := by
  simp only [restorePathOk, Bool.and_eq_true, Bool.or_eq_true, List.any_eq_true] at hok
  rcases hok.2 with hconst | ⟨d, hd, hbelow⟩
  · -- one of the fixed paths
    have hmem : path ∈ dbPaths ++ settings ++ secretPaths := by
      simp only [List.contains_iff_mem] at hconst
      rw [List.mem_append, List.mem_append]
      exact hconst
    exact fun p hp => .inr ⟨path, hmem, ext, hext, hp⟩
  · rw [belowDir, Bool.and_eq_true, startsWith, beq_iff_eq] at hbelow
    have hpath : path = d ++ 47 :: path.drop (d ++ [47]).length := by
      have hsplit := List.take_append_drop (d ++ [47]).length path
      rw [hbelow.1, List.append_assoc] at hsplit
      exact hsplit.symm
    generalize path.drop (d ++ [47]).length = rest at hpath
    subst hpath
    rw [List.append_assoc, List.cons_append] at hplain ⊢
    rw [plain_slash] at hplain
    rcases resolve_of_plain hplain with ⟨dir, last, -, hends⟩
    rintro p (hp | hp)
    · exact covered_of_longer hd hplain hp
    · rw [asidePath, List.append_assoc, List.cons_append] at hp
      exact covered_of_longer hd (hends _ (not_mem_suffix w)).2 hp

/-! ## What a job does -/

theorem moveAside_cases (f : Faults) (suffix : Bytes) (t : Files) (path : Bytes) :
    moveAside f suffix t path = (true, t) ∧ access t path = false ∨
      moveAside f suffix t path = (false, t) ∨
      ∃ t', moveAside f suffix t path = (true, t') ∧ plain path = true ∧
        (asidePath suffix path).length < pathMax ∧
        t.rename (resolve path) (resolve (asidePath suffix path)) = some t' := by
  rw [moveAside]
  split
  · right
    cases f.rename path with
    | false => exact .inl rfl
    | true =>
      rw [if_pos rfl]
      cases hren : renamePath t path (asidePath suffix path) with
      | none => exact .inl rfl
      | some t' =>
        rw [renamePath] at hren
        split at hren
        · rename_i hcond
          exact .inr ⟨t', rfl, hcond.2.2, hcond.2.1, hren⟩
        · exact nomatch hren
  · rename_i hno
    exact .inl ⟨rfl, Bool.not_eq_true _ |>.mp hno⟩

theorem file?_makeDirs (f : Faults) (dirs : List (List Bytes)) (t : Files) (q : List Bytes) :
    (makeDirs f dirs t).2.file? q = t.file? q := by
  induction dirs generalizing t with
  | nil => rfl
  | cons p dirs ih =>
    rw [makeDirs]
    split
    · rename_i t' hmade
      rw [ih t']
      split at hmade
      · exact Tree.file?_mkdir hmade q
      · exact nomatch hmade
    · rfl

theorem file?_mkdirsFor (f : Faults) (t : Files) (path : Bytes) (q : List Bytes) :
    (mkdirsFor f t path).2.file? q = t.file? q := by
  rw [mkdirsFor]
  split
  · exact file?_makeDirs ..
  · rfl

/-- Nothing but the file of a path may change, and that only if the path is short enough. -/
def WritesAt (path : Bytes) (t u : Files) : Prop :=
  (∀ q, u.file? q = t.file? q) ∨
    plain path = true ∧ path.length < pathMax ∧
      ∃ c, ∀ q, u.file? q = if q = resolve path then some c else t.file? q

theorem writesAt_of_writePath {t t' u : Files} {path data : Bytes}
    (ht : ∀ q, t'.file? q = t.file? q) (hlen : path.length < pathMax)
    (h : writePath t' path data = some u) : WritesAt path t u := by
  rw [writePath] at h
  split at h
  · rename_i hplain
    refine .inr ⟨hplain, hlen, data, fun q => ?_⟩
    rw [Tree.file?_write h, ht]
  · exact nomatch h

theorem length_lt_of_mkdirsFor {f : Faults} {t : Files}
    (h : (mkdirsFor f t path).1 = true) : path.length < pathMax := by
  rw [mkdirsFor] at h
  split at h
  · assumption
  · exact nomatch h

theorem writesAt_placeFile (f : Faults) (r : Progress) (name path : Bytes) :
    WritesAt path r.files (placeFile f r name path).2.1 := by
  have hdirs := file?_mkdirsFor f r.files path
  have hlen : (mkdirsFor f r.files path).1 = true → path.length < pathMax :=
    length_lt_of_mkdirsFor
  rw [placeFile]
  rcases hmk : mkdirsFor f r.files path with ⟨ok, t⟩
  rw [hmk] at hdirs hlen
  cases ok with
  | false => exact .inl hdirs
  | true =>
    cases hplacing : f.placing with
    | refused => exact .inl hdirs
    | renamed =>
      cases r.stage.lookup name with
      | none => exact .inl hdirs
      | some data =>
        cases hwrite : writePath t path data with
        | none =>
          simp only [hwrite]
          exact .inl hdirs
        | some t' =>
          simp only [hwrite]
          exact writesAt_of_writePath hdirs (hlen rfl) hwrite
    | copied n =>
      cases r.stage.lookup name with
      | none =>
        cases hwrite : writePath t path [] with
        | none =>
          simp only [hwrite]
          exact .inl hdirs
        | some t' =>
          simp only [hwrite]
          exact writesAt_of_writePath hdirs (hlen rfl) hwrite
      | some data =>
        cases hwrite : writePath t path (data.take n) with
        | none =>
          simp only [hwrite]
          exact .inl hdirs
        | some t' =>
          simp only [hwrite]
          exact writesAt_of_writePath hdirs (hlen rfl) hwrite

theorem writesAt_writeSecret (f : Faults) (t : Files) (path data : Bytes) :
    WritesAt path t (writeSecret f t path data).2 := by
  have hdirs := file?_mkdirsFor f t path
  have hlen : (mkdirsFor f t path).1 = true → path.length < pathMax := length_lt_of_mkdirsFor
  rw [writeSecret]
  rcases hmk : mkdirsFor f t path with ⟨ok, t'⟩
  rw [hmk] at hdirs hlen
  cases ok with
  | false => exact .inl hdirs
  | true =>
    cases hout : f.write with
    | none => exact .inl hdirs
    | some out =>
      cases hwrite : writePath t' path (data.take out.1) with
      | none =>
        simp only [hwrite]
        exact .inl hdirs
      | some u =>
        simp only [hwrite]
        exact writesAt_of_writePath hdirs (hlen rfl) hwrite

/-- What is in the way is moved, the file itself first, and if that goes well it is written. -/
def Handles (suffix target : Bytes) (sides : List Bytes) (t u : Files) : Prop :=
  ∃ f t', moveAll f suffix (target :: sides) t = (false, t') ∧ u = t' ∨
    moveAll f suffix (target :: sides) t = (true, t') ∧ WritesAt target t' u

def entryJob (e : Doc) : Bytes × List Bytes :=
  ((e.text "path").getD [], (inTheWay e ((e.text "path").getD [])).tail)

theorem handles_restoreEntry (suffix : Bytes) (f : Faults) (r : Progress) (e : Doc) :
    Handles suffix (entryJob e).1 (entryJob e).2 r.files
      (restoreEntry true suffix f r e).files := by
  refine ⟨f, (moveAll f suffix (inTheWay e ((e.text "path").getD [])) r.files).2, ?_⟩
  rw [restoreEntry]
  rcases hmove : moveAll f suffix (inTheWay e ((e.text "path").getD [])) r.files with ⟨ok, t⟩
  cases ok with
  | false => exact .inl ⟨hmove, by simp⟩
  | true =>
    refine .inr ⟨hmove, ?_⟩
    have hwrites := writesAt_placeFile f { r with files := t } (((e.text "blob").getD []).drop 2)
      ((e.text "path").getD [])
    simp only [if_true]
    split
    · exact hwrites
    · exact hwrites

theorem handles_restoreSecret (suffix : Bytes) (f : Faults) (r : Progress) (d : Doc) :
    match secretOf d with
    | none => (restoreSecret true suffix f r d).files = r.files
    | some (path, _) => Handles suffix path [] r.files (restoreSecret true suffix f r d).files := by
  rw [restoreSecret]
  cases secretOf d with
  | none => rfl
  | some s =>
    refine ⟨f, (moveAll f suffix [s.1] r.files).2, ?_⟩
    have hone : moveAll f suffix [s.1] r.files = moveAside f suffix r.files s.1 := by
      rw [moveAll]
      rcases moveAside f suffix r.files s.1 with ⟨ok, t⟩
      cases ok with
      | true => rfl
      | false => rfl
    rw [hone]
    rcases hmove : moveAside f suffix r.files s.1 with ⟨ok, t⟩
    cases ok with
    | false => exact .inl ⟨rfl, by simp [hmove]⟩
    | true =>
      refine .inr ⟨rfl, ?_⟩
      have hwrites := writesAt_writeSecret f t s.1 s.2
      simp only [hmove, if_true]
      split
      · exact hwrites
      · exact hwrites

def HandlesAll (suffix : Bytes) : List (Bytes × List Bytes) → Files → Files → Prop
  | [], t, u => u = t
  | job :: jobs, t, u => ∃ t', Handles suffix job.1 job.2 t t' ∧ HandlesAll suffix jobs t' u

theorem HandlesAll.append {suffix : Bytes} {jobs jobs' : List (Bytes × List Bytes)}
    {t t' u : Files} (h : HandlesAll suffix jobs t t') (h' : HandlesAll suffix jobs' t' u) :
    HandlesAll suffix (jobs ++ jobs') t u := by
  induction jobs generalizing t with
  | nil =>
    cases h
    exact h'
  | cons job jobs ih =>
    rcases h with ⟨t₁, hjob, hjobs⟩
    exact ⟨t₁, hjob, ih hjobs⟩

def secretJobs (secrets : List Doc) : List (Bytes × List Bytes) :=
  (secrets.filterMap secretOf).map fun s => (s.1, [])

theorem handlesAll_entries (suffix : Bytes) (es : List Doc) (fs : ℕ → Faults) (r : Progress) :
    HandlesAll suffix (es.map entryJob) r.files
      (loop (restoreEntry true suffix) fs r es).files := by
  induction es generalizing fs r with
  | nil => rfl
  | cons e es ih =>
    exact ⟨_, handles_restoreEntry suffix (fs 0) r e, ih _ _⟩

theorem handlesAll_secrets (suffix : Bytes) (ds : List Doc) (fs : ℕ → Faults) (r : Progress) :
    HandlesAll suffix (secretJobs ds) r.files
      (loop (restoreSecret true suffix) fs r ds).files := by
  induction ds generalizing fs r with
  | nil => rfl
  | cons d ds ih =>
    have hfirst := handles_restoreSecret suffix (fs 0) r d
    have hrest := ih (fun n => fs (n + 1)) (restoreSecret true suffix (fs 0) r d)
    rw [secretJobs, List.filterMap_cons]
    cases hs : secretOf d with
    | none =>
      rw [hs] at hfirst
      rw [hfirst] at hrest
      exact hrest
    | some s =>
      rw [hs] at hfirst
      exact ⟨_, hfirst, hrest⟩

/-! ## Other files -/

def SameOutside (suffix : Bytes) (t u : Files) : Prop :=
  ∀ p, ¬ Covered suffix p → u.file? p = t.file? p

theorem SameOutside.trans {suffix : Bytes} {t t' u : Files} (h : SameOutside suffix t t')
    (h' : SameOutside suffix t' u) : SameOutside suffix t u :=
  fun p hp => (h' p hp).trans (h p hp)

def Admitted (suffix : Bytes) (job : Bytes × List Bytes) : Prop :=
  (plain job.1 = true → MayMove suffix job.1) ∧
    ∀ q ∈ job.2, plain q = true → (asidePath suffix q).length < pathMax → MayMove suffix q

theorem moveAside_outside (f : Faults) {suffix : Bytes} (t : Files)
    (h : plain path = true → (asidePath suffix path).length < pathMax → MayMove suffix path) :
    SameOutside suffix t (moveAside f suffix t path).2 := by
  rcases moveAside_cases f suffix t path with ⟨heq, -⟩ | heq | ⟨t', heq, hplain, hlen, hren⟩
  · rw [heq]
    exact fun _ _ => rfl
  · rw [heq]
    exact fun _ _ => rfl
  · rw [heq]
    intro p hp
    have hmay := h hplain hlen p
    rw [Tree.file?, Tree.node_rename_outside hren (fun hpre => hp (hmay (.inl hpre)))
      (fun hpre => hp (hmay (.inr hpre))), Tree.file?]

theorem moveAll_outside (f : Faults) {suffix : Bytes} {paths : List Bytes} (t : Files)
    (h : ∀ q ∈ paths, plain q = true → (asidePath suffix q).length < pathMax →
      MayMove suffix q) : SameOutside suffix t (moveAll f suffix paths t).2 := by
  induction paths generalizing t with
  | nil => exact fun _ _ => rfl
  | cons path paths ih =>
    have hfirst := moveAside_outside f t (h path List.mem_cons_self)
    rw [moveAll]
    rcases hmove : moveAside f suffix t path with ⟨ok, t'⟩
    rw [hmove] at hfirst
    cases ok with
    | true => exact hfirst.trans (ih t' fun q hq => h q (List.mem_cons_of_mem _ hq))
    | false => exact hfirst

theorem writesAt_outside {suffix path : Bytes} {t u : Files} (h : WritesAt path t u)
    (hmay : plain path = true → MayMove suffix path) : SameOutside suffix t u := by
  rcases h with hsame | ⟨hplain, -, c, hfile⟩
  · exact fun p _ => hsame p
  · intro p hp
    rw [hfile, if_neg]
    rintro rfl
    exact hp (hmay hplain _ (.inl List.prefix_rfl))

theorem Handles.outside {suffix : Bytes} {job : Bytes × List Bytes} {t u : Files}
    (h : Handles suffix job.1 job.2 t u) (hadm : Admitted suffix job) : SameOutside suffix t u := by
  rcases h with ⟨f, t', hcases⟩
  have hpaths : ∀ q ∈ job.1 :: job.2, plain q = true →
      (asidePath suffix q).length < pathMax → MayMove suffix q := by
    intro q hq hplain hlen
    rcases List.mem_cons.mp hq with rfl | hside
    · exact hadm.1 hplain
    · exact hadm.2 q hside hplain hlen
  have hmoved := moveAll_outside f t hpaths
  rcases hcases with ⟨heq, rfl⟩ | ⟨heq, hwrites⟩
  · rw [heq] at hmoved
    exact hmoved
  · rw [heq] at hmoved
    exact hmoved.trans (writesAt_outside hwrites hadm.1)

variable {jobs : List (Bytes × List Bytes)}

theorem HandlesAll.outside {suffix : Bytes} {t u : Files}
    (h : HandlesAll suffix jobs t u) (hadm : ∀ job ∈ jobs, Admitted suffix job) :
    SameOutside suffix t u := by
  induction jobs generalizing t with
  | nil =>
    cases h
    exact fun _ _ => rfl
  | cons job jobs ih =>
    rcases h with ⟨t', hjob, hjobs⟩
    have hfirst := hjob.outside (hadm job List.mem_cons_self)
    exact hfirst.trans (ih hjobs fun j hj => hadm j (List.mem_cons_of_mem _ hj))

theorem sidePath_eq {suffix path : Bytes} {ext : String}
    (h : (asidePath suffix (sidePath path ext)).length < pathMax) :
    sidePath path ext = path ++ bytes ext := by
  have hpre : (bytes ".pre-restore-").length = 13 := by decide
  rw [asidePath, List.length_append, List.length_append, hpre, sidePath, snprintfS,
    List.length_take] at h
  rw [sidePath, snprintfS, List.take_of_length_le]
  rw [pathMax] at h ⊢
  omega

variable {a : ArchiveRead}

theorem admitted_entryJob (w : World) {e : Doc} (h : entryOk a e = true) :
    Admitted w.suffix (entryJob e) := by
  have hok : restorePathOk ((e.text "path").getD []) = true := by
    rw [entryOk] at h
    split at h
    · rename_i path seen hpath _
      simp only [Bool.and_eq_true] at h
      rw [hpath]
      exact h.1.1.1
    · exact nomatch h
  constructor
  · intro hplain
    have hmay := mayMove_of_ok w hok (by decide : [] ∈ siblings)
    rw [List.append_nil] at hmay
    exact hmay hplain
  · intro q hq hplain hlen
    rw [entryJob, inTheWay, List.tail_cons] at hq
    split at hq
    · rcases List.mem_pair.mp hq with rfl | rfl
      · rw [sidePath_eq hlen] at hplain ⊢
        exact mayMove_of_ok w hok (by decide) hplain
      · rw [sidePath_eq hlen] at hplain ⊢
        exact mayMove_of_ok w hok (by decide) hplain
    · exact absurd hq List.not_mem_nil

theorem admitted_secretJob (w : World) {ds : List Doc} {job : Bytes × List Bytes}
    (h : job ∈ secretJobs ds) : Admitted w.suffix job := by
  rcases List.mem_map.mp h with ⟨s, hs, rfl⟩
  rcases List.mem_filterMap.mp hs with ⟨d, -, hd⟩
  have hpath : s.1 ∈ secretPaths := by
    simp only [secretOf, Option.bind_eq_bind, Option.bind_eq_some_iff] at hd
    rcases hd with ⟨path, -, raw, -, hif⟩
    split at hif
    · rename_i hok
      cases hif
      exact List.contains_iff_mem.mp hok
    · exact nomatch hif
  refine ⟨fun _ p hp => .inr ⟨s.1, ?_, [], by decide, ?_⟩, fun q hq => absurd hq List.not_mem_nil⟩
  · exact List.mem_append_right _ hpath
  · rw [List.append_nil]
    exact hp

/-! ## Nothing is lost -/

def names (paths : List Bytes) : List (List Bytes) :=
  (paths.filter fun path => plain path).map resolve

/-- Names that are different files of the site, none of them a directory or the name that
another one is moved to, and for which these names are free. -/
structure Orderly (suffix : Bytes) (t : Files) (ps : List (List Bytes)) : Prop where
  nodup : ps.Nodup
  not_dir : ∀ p ∈ ps, ¬ t.IsDir p
  free : ∀ p ∈ ps, ¬ t.Exists (aside suffix p)
  apart : ∀ p ∈ ps, aside suffix p ∉ ps

/-- The files of `t` are still there in `u`: where they were, or, of the names that are `done`,
aside. -/
def Safe (suffix : Bytes) (done : List (List Bytes)) (t u : Files) : Prop :=
  ∀ p c, t.file? p = some c →
    u.file? p = some c ∨ p ∈ done ∧ u.file? (aside suffix p) = some c

/-- What was at `p` is aside. -/
def Away (suffix : Bytes) (p : List Bytes) (t u : Files) : Prop :=
  ∀ c, t.file? p = some c → u.file? (aside suffix p) = some c

theorem Safe.mono {suffix : Bytes} {done done' : List (List Bytes)} {t u : Files}
    (h : Safe suffix done t u) (hsub : ∀ p ∈ done, p ∈ done') : Safe suffix done' t u :=
  fun p c hp => (h p c hp).imp_right fun hmoved => ⟨hsub p hmoved.1, hmoved.2⟩

theorem aside_injective (suffix : Bytes) {p q : List Bytes} (hp : p ≠ []) (hq : q ≠ [])
    (h : aside suffix p = aside suffix q) : p = q := by
  have hdir := congrArg List.dropLast h
  have hlast := congrArg List.getLast? h
  rw [aside, aside, List.dropLast_concat, List.dropLast_concat] at hdir
  rw [aside, aside, List.getLast?_concat, List.getLast?_concat, Option.some_inj] at hlast
  have hname := List.append_cancel_right hlast
  rw [List.getLast?_eq_some_getLast hp, List.getLast?_eq_some_getLast hq] at hname
  rw [← List.dropLast_append_getLast hp, ← List.dropLast_append_getLast hq, hdir]
  exact congrArg _ (congrArg (fun x => [x]) hname)

/-- A name above the new name of a file is above the file, or is that new name. -/
theorem above_of_above_aside {suffix : Bytes} {p q : List Bytes} (hp : p ≠ [])
    (h : q <+: aside suffix p) : q = aside suffix p ∨ q <+: p ∧ q ≠ p := by
  rw [aside] at h
  rcases List.prefix_concat_iff.mp h with heq | hdir
  · exact .inl heq
  · refine .inr ⟨hdir.trans (List.dropLast_prefix p), ?_⟩
    rintro rfl
    have hle := hdir.length_le
    have hpos := List.length_pos_of_ne_nil hp
    rw [List.length_dropLast] at hle
    omega

variable {suffix : Bytes} {t u u' : Files} {ps done : List (List Bytes)} {p q : List Bytes}
  {m : Doc} {n : ℕ}

theorem Orderly.ne_nil (h : Orderly suffix t ps) (hp : p ∈ ps) : p ≠ [] := by
  rintro rfl
  exact h.not_dir [] hp t.root

/-- A name that is moved is above no other file of the site, and neither is its new name. -/
theorem Orderly.not_above (h : Orderly suffix t ps) (hq : q ∈ ps) (hp : t.Exists p) (hne : p ≠ q) :
    ¬ q <+: p ∧ ¬ aside suffix q <+: p := by
  constructor
  · intro hpre
    exact h.not_dir q hq (Tree.isDir_above hp hpre (Ne.symm hne))
  · intro hpre
    refine h.free q hq ?_
    by_cases heq : aside suffix q = p
    · rw [heq]
      exact hp
    · rw [Tree.Exists, Tree.isDir_above hp hpre heq]
      exact Option.some_ne_none _

/-- Moving one name away leaves the others alone, and what is aside. -/
theorem Orderly.frame (h : Orderly suffix t ps) (hq : q ∈ ps)
    (hren : u.rename q (aside suffix q) = some u') (hp : t.Exists p) (hne : p ≠ q) :
    u'.file? p = u.file? p ∧
      (p ∈ ps → u'.file? (aside suffix p) = u.file? (aside suffix p)) := by
  rcases h.not_above hq hp hne with ⟨hover, hunder⟩
  constructor
  · rw [Tree.file?, Tree.node_rename_outside hren hover hunder, Tree.file?]
  · intro hmem
    have hpne := h.ne_nil hmem
    have hover' : ¬ q <+: aside suffix p := by
      intro hpre
      rcases above_of_above_aside hpne hpre with heq | ⟨habove, -⟩
      · exact h.apart p hmem (heq ▸ hq)
      · exact hover habove
    have hunder' : ¬ aside suffix q <+: aside suffix p := by
      intro hpre
      rcases above_of_above_aside hpne hpre with heq | ⟨habove, -⟩
      · exact hne (aside_injective suffix (h.ne_nil hq) hpne heq).symm
      · exact hunder habove
    rw [Tree.file?, Tree.node_rename_outside hren hover' hunder', Tree.file?]

theorem moveAside_safe (w : World) (ho : Orderly w.suffix t ps) (hdone : ∀ p ∈ done, p ∈ ps)
    (h : Safe w.suffix done t u) (f : Faults) (path : Bytes)
    (hnew : ∀ p ∈ names [path], p ∈ ps ∧ p ∉ done) :
    let r := moveAside f w.suffix u path
    Safe w.suffix (done ++ names [path]) t r.2 ∧
      (∀ p ∈ done, Away w.suffix p t u → Away w.suffix p t r.2) ∧
      (r.1 = true → plain path = true → path.length < pathMax →
        Away w.suffix (resolve path) t r.2) := by
  have hweak : Safe w.suffix (done ++ names [path]) t u :=
    h.mono fun p hp => List.mem_append_left _ hp
  have hin : plain path = true → resolve path ∈ names [path] := by
    intro hplain
    rw [names, List.filter_cons_of_pos hplain]
    exact List.mem_singleton_self _
  intro r
  rcases moveAside_cases f w.suffix u path with ⟨heq, hno⟩ | heq | ⟨u', heq, hplain, -, hren⟩
  · -- there is nothing in the way
    rw [show r = (true, u) from heq]
    refine ⟨hweak, fun p _ haway => haway, fun _ hplain hlen c hc => ?_⟩
    rw [access, decide_eq_true hlen, Bool.true_and, if_pos hplain, decide_eq_false_iff_not] at hno
    rcases h (resolve path) c hc with hhere | ⟨hbefore, -⟩
    · exact absurd (Tree.exists_of_file? hhere) hno
    · exact absurd hbefore (hnew _ (hin hplain)).2
  · rw [show r = (false, u) from heq]
    exact ⟨hweak, fun p _ haway => haway, fun hok => nomatch hok⟩
  · rw [show r = (true, u') from heq]
    rw [resolve_asidePath w hplain] at hren
    rcases hnew _ (hin hplain) with ⟨hmem, hfresh⟩
    have hmoved : Away w.suffix (resolve path) t u' := by
      intro c hc
      rcases h (resolve path) c hc with hhere | ⟨hbefore, -⟩
      · have hnode := Tree.node_rename_append hren []
        rw [List.append_nil, List.append_nil] at hnode
        rw [Tree.file?, hnode]
        exact hhere
      · exact absurd hbefore hfresh
    refine ⟨fun p c hp => ?_, fun p hp haway c hc => ?_, fun _ _ _ => hmoved⟩
    · by_cases hpath : p = resolve path
      · subst hpath
        exact .inr ⟨List.mem_append_right _ (hin hplain), hmoved c hp⟩
      · have hframe := ho.frame hmem hren (Tree.exists_of_file? hp) hpath
        rcases h p c hp with hhere | ⟨hbefore, haside⟩
        · exact .inl (hframe.1.trans hhere)
        · refine .inr ⟨List.mem_append_left _ hbefore, ?_⟩
          exact (hframe.2 (hdone p hbefore)).trans haside
    · have hpath : p ≠ resolve path := by
        rintro rfl
        exact hfresh hp
      have hframe := ho.frame hmem hren (Tree.exists_of_file? hc) hpath
      exact (hframe.2 (hdone p hp)).trans (haway c hc)

theorem names_cons (path : Bytes) (paths : List Bytes) :
    names (path :: paths) = names [path] ++ names paths := by
  rw [names, names, names, ← List.map_append, ← List.filter_append]
  rfl

theorem moveAll_safe (w : World) (ho : Orderly w.suffix t ps) (f : Faults) (paths : List Bytes)
    {done : List (List Bytes)} {u : Files} (hnodup : (done ++ names paths).Nodup)
    (hsub : ∀ p ∈ done ++ names paths, p ∈ ps) (h : Safe w.suffix done t u) :
    Safe w.suffix (done ++ names paths) t (moveAll f w.suffix paths u).2 ∧
      ∀ p ∈ done, Away w.suffix p t u → Away w.suffix p t (moveAll f w.suffix paths u).2 := by
  induction paths generalizing done u with
  | nil => exact ⟨h.mono fun p hp => List.mem_append_left _ hp, fun _ _ haway => haway⟩
  | cons path paths ih =>
    rw [names_cons, ← List.append_assoc] at hnodup hsub ⊢
    have hleft := (List.nodup_append.mp hnodup).1
    have hnew : ∀ p ∈ names [path], p ∈ ps ∧ p ∉ done := by
      intro p hp
      refine ⟨hsub p (List.mem_append_left _ (List.mem_append_right _ hp)), fun hbefore => ?_⟩
      exact (List.nodup_append.mp hleft).2.2 p hbefore p hp rfl
    have hfirst := moveAside_safe w ho (fun p hp => hsub p (List.mem_append_left _
      (List.mem_append_left _ hp))) h f path hnew
    rw [moveAll]
    rcases hmove : moveAside f w.suffix u path with ⟨ok, u'⟩
    rw [hmove] at hfirst
    cases ok with
    | false =>
      exact ⟨hfirst.1.mono fun p hp => List.mem_append_left _ hp, hfirst.2.1⟩
    | true =>
      have hrest := ih hnodup hsub hfirst.1
      refine ⟨hrest.1, fun p hp haway => ?_⟩
      exact hrest.2 p (List.mem_append_left _ hp) (hfirst.2.1 p hp haway)

def jobPaths (job : Bytes × List Bytes) : List Bytes := job.1 :: job.2

theorem Handles.safe (w : World) (ho : Orderly w.suffix t ps) {job : Bytes × List Bytes}
    {done : List (List Bytes)} {u u' : Files} (hnodup : (done ++ names (jobPaths job)).Nodup)
    (hsub : ∀ p ∈ done ++ names (jobPaths job), p ∈ ps) (hsafe : Safe w.suffix done t u)
    (h : Handles w.suffix job.1 job.2 u u') :
    Safe w.suffix (done ++ names (jobPaths job)) t u' := by
  rcases h with ⟨f, t', hcases⟩
  have hall := moveAll_safe w ho f (jobPaths job) hnodup hsub hsafe
  rcases hcases with ⟨heq, rfl⟩ | ⟨heq, hwrites⟩
  · rw [jobPaths, heq] at hall
    exact hall.1
  · have hsafe' : Safe w.suffix (done ++ names (jobPaths job)) t t' := by
      rw [jobPaths, heq] at hall
      exact hall.1
    rcases hwrites with hsame | ⟨hplain, hlen, c', hfile⟩
    · intro p c hp
      rw [hsame, hsame]
      exact hsafe' p c hp
    · -- what was at the target is aside when it is written
      have hhead : resolve job.1 ∈ names [job.1] := by
        rw [names, List.filter_cons_of_pos hplain]
        exact List.mem_singleton_self _
      have hmem : resolve job.1 ∈ done ++ names (jobPaths job) := by
        rw [jobPaths, names_cons]
        exact List.mem_append_right _ (List.mem_append_left _ hhead)
      have haway : Away w.suffix (resolve job.1) t t' := by
        rw [jobPaths, names_cons, ← List.append_assoc] at hnodup hsub
        have hleft := (List.nodup_append.mp hnodup).1
        have hfirst := moveAside_safe w ho (fun p hp => hsub p (List.mem_append_left _
          (List.mem_append_left _ hp))) hsafe f job.1 (fun p hp =>
            ⟨hsub p (List.mem_append_left _ (List.mem_append_right _ hp)), fun hbefore =>
              (List.nodup_append.mp hleft).2.2 p hbefore p hp rfl⟩)
        rw [moveAll] at heq
        rcases hmove : moveAside f w.suffix u job.1 with ⟨ok, u₁⟩
        rw [hmove] at hfirst heq
        cases ok with
        | false => exact nomatch congrArg Prod.fst heq
        | true =>
          have hend : (moveAll f w.suffix job.2 u₁).2 = t' := congrArg Prod.snd heq
          have hrest := moveAll_safe w ho f job.2 hnodup hsub hfirst.1
          rw [← hend]
          exact hrest.2 _ (List.mem_append_right _ hhead) (hfirst.2.2 rfl hplain hlen)
      have hps := hsub _ hmem
      have hself : aside w.suffix (resolve job.1) ≠ resolve job.1 := by
        intro heq
        exact ho.apart _ hps (heq.symm ▸ hps)
      intro p c hp
      by_cases hpath : p = resolve job.1
      · subst hpath
        refine .inr ⟨hmem, ?_⟩
        rw [hfile, if_neg hself]
        exact haway c hp
      · rcases hsafe' p c hp with hhere | ⟨hbefore, haside⟩
        · refine .inl ?_
          rw [hfile, if_neg hpath]
          exact hhere
        · refine .inr ⟨hbefore, ?_⟩
          have hother : aside w.suffix p ≠ resolve job.1 := by
            intro heq
            exact ho.apart p (hsub p hbefore) (heq.symm ▸ hps)
          rw [hfile, if_neg hother]
          exact haside

theorem HandlesAll.safe (w : World) (ho : Orderly w.suffix t ps)
    {done : List (List Bytes)} {u u' : Files}
    (hnodup : (done ++ names (jobs.flatMap jobPaths)).Nodup)
    (hsub : ∀ p ∈ done ++ names (jobs.flatMap jobPaths), p ∈ ps) (hsafe : Safe w.suffix done t u)
    (h : HandlesAll w.suffix jobs u u') :
    Safe w.suffix (done ++ names (jobs.flatMap jobPaths)) t u' := by
  induction jobs generalizing done u with
  | nil =>
    cases h
    exact hsafe.mono fun p hp => List.mem_append_left _ hp
  | cons job jobs ih =>
    rcases h with ⟨u₁, hjob, hjobs⟩
    have hsplit : names ((job :: jobs).flatMap jobPaths) =
        names (jobPaths job) ++ names (jobs.flatMap jobPaths) := by
      rw [List.flatMap_cons, names, List.filter_append, List.map_append]
      rfl
    rw [hsplit, ← List.append_assoc] at hnodup hsub ⊢
    have hfirst := hjob.safe w ho (List.nodup_append.mp hnodup).1
      (fun p hp => hsub p (List.mem_append_left _ hp)) hsafe
    exact ih hnodup hsub hfirst hjobs

/-! ## The command -/

def SqliteKeeps (w : World) : Prop :=
  ∀ t p, ¬ IsDatabase p → (w.sqlite t).2.file? p = t.file? p

def movedPaths (m : Doc) (secrets : List Doc) : List Bytes :=
  ((entries m).map entryJob ++ secretJobs secrets).flatMap jobPaths

theorem file?_writeMarker (w : World) (m : Doc) (t : Files) {p : List Bytes} (hp : ¬ IsMarker p) :
    (writeMarker w m t).file? p = t.file? p := by
  rw [IsMarker, not_or] at hp
  rw [writeMarker]
  split
  · rfl
  · rename_i n ok _
    split
    · rfl
    · rename_i t' hwrite
      have hplain : plain markerTmp = true := by decide
      rw [writePath, if_pos hplain] at hwrite
      have hother : t'.file? p = t.file? p := by
        rw [Tree.file?_write hwrite, if_neg hp.2]
      split
      · cases hren : renamePath t' markerTmp markerPath with
        | none => exact hother
        | some u =>
          rw [renamePath] at hren
          split at hren
          · have htmp := Tree.file?_write hwrite (resolve markerTmp)
            rw [if_pos rfl] at htmp
            exact (Tree.file?_rename_file hren htmp hp.2 hp.1).trans hother
          · exact nomatch hren
      · exact hother

theorem aside_ne (w : World) (p : List Bytes)
    (h : ∀ c ∈ ((resolve path).getLast?.getD []).getLast?, isDigit c = false ∧ c ≠ 45) :
    aside w.suffix p ≠ resolve path := by
  intro heq
  rw [← heq, aside, List.getLast?_concat, Option.getD_some, ← List.append_assoc] at h
  rcases List.eq_nil_or_concat w.suffix with hnil | ⟨s, c, hs⟩
  · rw [hnil, List.append_nil] at h
    have hdash : (p.getLast?.getD [] ++ bytes ".pre-restore-").getLast? = some 45 := by
      rw [List.getLast?_append_of_ne_nil _ (by decide)]
      decide
    exact (h 45 hdash).2 rfl
  · have hlast : (p.getLast?.getD [] ++ bytes ".pre-restore-" ++ w.suffix).getLast? = some c := by
      rw [hs, List.concat_eq_append, ← List.append_assoc, List.getLast?_concat]
    have hdigit := w.digits c (by
      rw [hs, List.concat_eq_append]
      exact List.mem_append_right _ (List.mem_singleton_self c))
    exact Bool.noConfusion (hdigit.symm.trans (h c hlast).1)

theorem aside_ordinary (w : World) (p : List Bytes) :
    ¬ IsDatabase (aside w.suffix p) ∧ ¬ IsMarker (aside w.suffix p) := by
  constructor
  · rintro ⟨ext, hext, heq⟩
    refine aside_ne w p ?_ heq
    have hall : ∀ ext ∈ ["", "-wal", "-shm", "-journal"].map bytes,
        ∀ c ∈ ((resolve (bytes "data/blog.db" ++ ext)).getLast?.getD []).getLast?,
          isDigit c = false ∧ c ≠ 45 := by decide +kernel
    exact hall ext hext
  · rintro (heq | heq)
    · exact aside_ne w p (by decide +kernel) heq
    · exact aside_ne w p (by decide +kernel) heq

theorem handlesAll_placeFiles (w : World) (t : Files) (a : ArchiveRead) (m : Doc)
    (secrets : List Doc) :
    HandlesAll w.suffix ((entries m).map entryJob ++ secretJobs secrets) t
      (placeFiles w true t a m secrets).files := by
  have hentries := handlesAll_entries w.suffix (entries m) w.entries
    ⟨t, a.blobs.map fun b => (b.name.drop 2, b.content), 0, 0, 0⟩
  exact hentries.append (handlesAll_secrets w.suffix secrets w.secrets _)

theorem readAll_entries {x : Codecs} {w : World} {archive : Bytes} {pass : Option Bytes}
    {secrets : List Doc} (h : readAll x w archive pass = some (a, m, secrets)) :
    ∀ e ∈ entries m, entryOk a e = true := by
  simp only [readAll, Option.bind_eq_bind, Option.bind_eq_some_iff] at h
  rcases h with ⟨a', -, m', hcheck, ds, -, heq⟩
  cases heq
  simp only [checkArchive, Option.bind_eq_bind, Option.bind_eq_some_iff] at hcheck
  rcases hcheck with ⟨manifest, -, signature, -, m', -, pk, -, kid, -, hif⟩
  split at hif
  · rename_i hall
    cases hif
    simp only [Bool.and_eq_true] at hall
    exact List.all_eq_true.mp hall.1.2
  · cases hif

/-- A restore that has read its archive touches the files of a backup only. -/
theorem placeAll_outside (w : World) (hsqlite : SqliteKeeps w) (t : Files) (a : ArchiveRead)
    (secrets : List Doc) (hentries : ∀ e ∈ entries m, entryOk a e = true)
    {p : List Bytes} (hcovered : ¬ Covered w.suffix p) (hdb : ¬ IsDatabase p)
    (hmarker : ¬ IsMarker p) : (placeAll w true t a m secrets).2.file? p = t.file? p := by
  have hadm : ∀ job ∈ (entries m).map entryJob ++ secretJobs secrets,
      Admitted w.suffix job := by
    intro job hjob
    rcases List.mem_append.mp hjob with hentry | hsecret
    · rcases List.mem_map.mp hentry with ⟨e, he, rfl⟩
      exact admitted_entryJob w (hentries e he)
    · exact admitted_secretJob w hsecret
  have hplaced := (handlesAll_placeFiles w t a m secrets).outside hadm p hcovered
  rw [placeAll]
  exact ((file?_writeMarker w m _ hmarker).trans (hsqlite _ p hdb)).trans hplaced

theorem placeAll_safe (w : World) (hsqlite : SqliteKeeps w) (t : Files) (a : ArchiveRead)
    (m : Doc) (secrets : List Doc)
    (ho : Orderly w.suffix t (names (movedPaths m secrets))) {p : List Bytes} {c : Bytes}
    (hp : t.file? p = some c) (hmarker : ¬ IsMarker p) :
    (placeAll w true t a m secrets).2.file? p = some c ∨
      (placeAll w true t a m secrets).2.file? (aside w.suffix p) = some c ∨
        IsDatabase p ∧ (placeFiles w true t a m secrets).files.file? p = some c := by
  have hstart : Safe w.suffix [] t t := fun p c hp => .inl hp
  have hsafe := (handlesAll_placeFiles w t a m secrets).safe w ho ho.nodup (fun _ hq => hq) hstart
  have hend : ∀ q, ¬ IsDatabase q → ¬ IsMarker q →
      (placeAll w true t a m secrets).2.file? q =
        (placeFiles w true t a m secrets).files.file? q :=
    fun q hdb hm => (file?_writeMarker w m _ hm).trans (hsqlite _ q hdb)
  rcases hsafe p c hp with hhere | ⟨-, haside⟩
  · by_cases hdb : IsDatabase p
    · exact .inr (.inr ⟨hdb, hhere⟩)
    · exact .inl ((hend p hdb hmarker).trans hhere)
  · have hordinary := aside_ordinary w p
    exact .inr (.inl ((hend _ hordinary.1 hordinary.2).trans haside))

/-- What a restore over an existing site does, whatever the archive is. -/
theorem restore_keeps_site (x : Codecs) (w : World) (hsqlite : SqliteKeeps w) (t : Files)
    (hsite : access t (bytes "data/blog.db") = true) (archive : Bytes) (force : Bool)
    (pass : Option Bytes) :
    let r := cmdRestore x w t archive force pass
    (force = false → r = (.refused, t)) ∧
      (r.1 = .refused ∨ r.1 = .aborted → r.2 = t) ∧
      (∀ p, ¬ Covered w.suffix p → ¬ IsDatabase p → ¬ IsMarker p → r.2.file? p = t.file? p) ∧
      ∀ a m secrets, readAll x w archive pass = some (a, m, secrets) →
        Orderly w.suffix t (names (movedPaths m secrets)) →
          ∀ p c, t.file? p = some c → ¬ IsMarker p →
            r.2.file? p = some c ∨ r.2.file? (aside w.suffix p) = some c ∨
              IsDatabase p ∧ (placeFiles w true t a m secrets).files.file? p = some c := by
  have hdata : t.mkdir (resolve (bytes "data")) = some t := by
    have hfound : t.Exists (resolve (bytes "data/blog.db")) := by
      have hplain : plain (bytes "data/blog.db") = true := by decide
      rw [access, if_pos hplain, Bool.and_eq_true, decide_eq_true_eq] at hsite
      exact of_decide_eq_true hsite.2
    have hdir : t.IsDir (resolve (bytes "data")) :=
      Tree.isDir_above hfound (by decide +kernel) (by decide +kernel)
    rw [Tree.mkdir, if_pos]
    rw [Tree.Exists, hdir]
    exact Option.some_ne_none _
  -- a run either stops before it touches anything, or goes through with what it has read
  have hrun : cmdRestore x w t archive force pass = (.refused, t) ∨
      force = true ∧ (cmdRestore x w t archive force pass = (.aborted, t) ∨
        ∃ a m secrets, readAll x w archive pass = some (a, m, secrets) ∧
          cmdRestore x w t archive force pass = placeAll w true t a m secrets) := by
    rw [cmdRestore, hsite, hdata]
    cases force with
    | false => exact .inl rfl
    | true =>
      cases hstaging : w.staging with
      | false => exact .inl (by simp)
      | true =>
        refine .inr ⟨rfl, ?_⟩
        cases hread : readAll x w archive pass with
        | none => exact .inl (by simp)
        | some found =>
          exact .inr ⟨found.1, found.2.1, found.2.2, rfl, by simp⟩
  intro r
  rcases hrun with hrefused | ⟨hforce, haborted | ⟨a, m, secrets, hread, hplace⟩⟩
  · rw [show r = (.refused, t) from hrefused]
    exact ⟨fun _ => rfl, fun _ => rfl, fun _ _ _ _ => rfl, fun _ _ _ _ _ _ _ hp _ => .inl hp⟩
  · rw [show r = (.aborted, t) from haborted, hforce]
    exact ⟨fun hno => absurd hno (by decide), fun _ => rfl, fun _ _ _ _ => rfl,
      fun _ _ _ _ _ _ _ hp _ => .inl hp⟩
  · rw [show r = placeAll w true t a m secrets from hplace, hforce]
    refine ⟨fun hno => absurd hno (by decide), ?_, ?_, ?_⟩
    · rintro (hno | hno)
      · cases hno
      · cases hno
    · intro p hcovered hdb hmarker
      exact placeAll_outside w hsqlite t a secrets (readAll_entries hread) hcovered hdb hmarker
    · intro a' m' secrets' hread' ho p c hp hmarker
      rw [hread] at hread'
      cases hread'
      exact placeAll_safe w hsqlite t a m secrets ho hp hmarker

/-! ## Two runs -/

instance (suffix : Bytes) (p : List Bytes) : Decidable (Covered suffix p) :=
  inferInstanceAs (Decidable (_ ∨ _))

instance (p : List Bytes) : Decidable (IsMarker p) := inferInstanceAs (Decidable (_ ∨ _))

instance (p : List Bytes) : Decidable (IsDatabase p) :=
  inferInstanceAs (Decidable (∃ ext ∈ _, _))

def fine : Faults := ⟨fun _ => true, fun _ => true, .renamed, none⟩

def newYear : World where
  suffix := bytes "20260101000000"
  digits := forall_mem_of_all (by decide)
  staging := true
  staged := fun _ => true
  entries := fun _ => fine
  secrets := fun _ => fine
  sqlite := fun t => (true, t)
  marker := some (20, true)

def oldSite : Files :=
  let t : Files := .empty
  (do
    let t ← t.mkdir [bytes "data"]
    let t ← t.write [bytes "data", bytes "blog.db"] (bytes "db")
    t.write [bytes "blog.settings"] (bytes "old")).getD t

def newHash : Bytes := bytes "11507a0e2f5e69d5dfa40a62a1bd7b6ee57e6bcd85c67c9b8431b36fff21c437"

theorem hexDigest_new : Sha256.hexDigest (bytes "new") = newHash := by decide +kernel

def entryText : Bytes :=
  bytes "\x7b\"path\":\"blog.settings\",\"blob\":\"b/000001\",\"size\":3,\"sha256\":\"" ++
    newHash ++ bytes "\"\x7d"

def entryDoc : Doc :=
  .obj [(bytes "path", .str (bytes "blog.settings")), (bytes "blob", .str (bytes "b/000001")),
    (bytes "size", .num 3), (bytes "sha256", .str newHash)]

def manifestText (n : ℕ) : Bytes :=
  bytes "\x7b\"format\":\"fly.board-backup\",\"version\":1,\"signing_key\":" ++
    bytes "\x7b\"public_key\":\"k\"\x7d,\"entries\":[" ++
    [44].intercalate (List.replicate n entryText) ++ bytes "]\x7d"

def manifestDoc (n : ℕ) : Doc :=
  .obj [(bytes "format", .str (bytes "fly.board-backup")), (bytes "version", .num 1),
    (bytes "signing_key", .obj [(bytes "public_key", .str (bytes "k"))]),
    (bytes "entries", .arr (List.replicate n entryDoc))]

def newSettings (n : ℕ) : Contents := ⟨[(bytes "new", 0)], none, manifestText n, bytes "s", fun _ => 0⟩

def rawFrame (s : Bytes) : Bytes :=
  let size := 8 * s.length + 1
  [0x28, 0xB5, 0x2F, 0xFD, 0, 0x58, UInt8.ofNat size, UInt8.ofNat (size / 256),
    UInt8.ofNat (size / 65536)] ++ s

def codecs (n : ℕ) : Codecs where
  decompress := fun file => file.drop 9
  parse := fun s => if s = manifestText n then some (manifestDoc n) else none
  keyIdOf := fun _ => some (bytes "0")
  verifyManifest := fun _ _ _ => true
  deriveKey := fun _ _ => none
  aeadOpen := fun _ _ _ => none

def archiveOf (n : ℕ) : Bytes := rawFrame (tarStream (newSettings n).members)

theorem entryOk_entryDoc (n : ℕ) : entryOk (newSettings n).read entryDoc = true := by
  have hblob : (newSettings n).read.blob? (bytes "b/000001") =
      some ⟨bytes "b/000001", newHash, 3, bytes "new"⟩ := by
    rw [← hexDigest_new]
    rfl
  have hpath : entryDoc.text "path" = some (bytes "blog.settings") := rfl
  have hname : entryDoc.text "blob" = some (bytes "b/000001") := rfl
  rw [entryOk, hpath, hname, Option.bind_some, hblob]
  decide +kernel

theorem readAll_archiveOf (h : (manifestText n).length ≤ maxManifest) :
    readAll (codecs n) newYear (archiveOf n) none =
      some ((newSettings n).read, manifestDoc n, []) := by
  have hfits : (newSettings n).Fits :=
    ⟨fun s hs => (nomatch hs), h, show (bytes "s").length ≤ 16384 by decide⟩
  have hwritable : (newSettings n).Writable := by
    constructor
    · show 1 < 10 ^ 6
      decide
    · intro f hf
      rw [List.mem_singleton.mp hf]
      decide
    · exact fun s hs => nomatch hs
    · exact lt_of_le_of_lt h (by decide)
    · show (bytes "s").length < 8 ^ 11
      decide
  have hread : readArchive (codecs n) newYear.staged (archiveOf n) =
      some (newSettings n).read := by
    have hfile : (codecs n).decompress (archiveOf n) = tarStream (newSettings n).members := rfl
    have hstaged : ∀ name, newYear.staged name = true := fun _ => rfl
    rw [Contents.readArchive_members (codecs n) hstaged hwritable hfile, if_pos hfits]
  have hparse : (codecs n).parse (manifestText n) = some (manifestDoc n) := if_pos rfl
  have hentries : (entries (manifestDoc n)).all (entryOk (newSettings n).read) = true := by
    rw [List.all_eq_true]
    intro e he
    rw [List.eq_of_mem_replicate he]
    exact entryOk_entryDoc n
  have hkey : (codecs n).keyIdOf (bytes "k") = some (bytes "0") := rfl
  have hcheck : checkArchive (codecs n) (newSettings n).read = some (manifestDoc n) := by
    rw [checkArchive_of_parse rfl rfl hparse rfl rfl hkey, if_pos]
    exact ⟨rfl, rfl, rfl, hentries, rfl⟩
  rw [readAll, hread, Option.bind_eq_bind, Option.bind_some, hcheck]
  rfl

theorem cmdRestore_archiveOf (h : (manifestText n).length ≤ maxManifest) :
    cmdRestore (codecs n) newYear oldSite (archiveOf n) true none =
      placeAll newYear true oldSite (newSettings n).read (manifestDoc n) [] := by
  have hsite : access oldSite (bytes "data/blog.db") = true := by decide +kernel
  have hdata : oldSite.mkdir (resolve (bytes "data")) = some oldSite := by
    rw [Tree.mkdir, if_pos (by decide +kernel)]
  simp only [cmdRestore, hsite, hdata, readAll_archiveOf h, Bool.not_true, Bool.and_false]
  rfl

theorem settings_moved_aside :
    (cmdRestore (codecs 1) newYear oldSite (archiveOf 1) true none).2.file?
      [bytes "blog.settings.pre-restore-20260101000000"] = some (bytes "old") := by
  have hlen : (manifestText 1).length ≤ maxManifest := by decide +kernel
  have hmoved : movedPaths (manifestDoc 1) [] = [bytes "blog.settings"] := by decide +kernel
  have ho : Orderly newYear.suffix oldSite (names (movedPaths (manifestDoc 1) [])) := by
    rw [hmoved]
    exact ⟨by decide +kernel, by decide +kernel, by decide +kernel, by decide +kernel⟩
  have hsite := restore_keeps_site (codecs 1) newYear (fun _ _ _ => rfl) oldSite
    (by decide +kernel) (archiveOf 1) true none
  rcases hsite.2.2.2 _ _ _ (readAll_archiveOf hlen) ho [bytes "blog.settings"] (bytes "old")
    (by decide +kernel) (by decide +kernel) with hhere | haside | ⟨hdb, -⟩
  · rw [cmdRestore_archiveOf hlen] at hhere
    exact absurd hhere (by decide +kernel)
  · exact haside
  · exact absurd hdb (by decide +kernel)

/-- An archive that has the settings twice: the second entry moves the new ones over the old
ones. The marker is written, too. -/
theorem second_entry_destroys :
    let r := cmdRestore (codecs 2) newYear oldSite (archiveOf 2) true none
    (¬ Covered newYear.suffix (resolve markerPath) ∧ ¬ IsDatabase (resolve markerPath) ∧
      oldSite.file? (resolve markerPath) = none ∧
      r.2.file? (resolve markerPath) = some (bytes "0")) ∧
    oldSite.file? (resolve (bytes "blog.settings")) = some (bytes "old") ∧
      ∀ p, r.2.file? p ≠ some (bytes "old") := by
  intro r
  have hr : r = placeAll newYear true oldSite (newSettings 2).read (manifestDoc 2) [] :=
    cmdRestore_archiveOf (by decide +kernel)
  rw [hr]
  refine ⟨⟨by decide +kernel, by decide +kernel, by decide +kernel, by decide +kernel⟩,
    by decide +kernel, fun p hp => ?_⟩
  have hall : ∀ p ∈ (placeAll newYear true oldSite (newSettings 2).read (manifestDoc 2) []).2.names,
      (placeAll newYear true oldSite (newSettings 2).read (manifestDoc 2) []).2.file? p ≠
        some (bytes "old") := by
    decide +kernel
  exact hall p (Tree.finite _ p (Tree.exists_of_file? hp)) hp

end FlyBoard.Restore
