import FlyBoard.Tools.Backup

/-!
# The files of a backup (`add_dir` and its callers in `src/tools/backup.c`)

A backup has the databases and the settings that can be read, and every regular file below its
directories, each with its own bytes; it has nothing else.
-/

namespace FlyBoard.Backup

open Bytes Archive FileTree Restore

/-! ## Paths below the directories -/

theorem hasSub_iff {s p : Bytes} : hasSub s p = true ↔ p <:+: s := by
  induction s with
  | nil =>
    rw [hasSub, Bool.or_false, startsWith_iff, List.prefix_nil, List.infix_nil]
  | cons c s ih =>
    rw [hasSub, Bool.or_eq_true, startsWith_iff, List.infix_cons_iff, ih]

theorem nil_mem_splitOn {s : Bytes} (h : hasSub s (bytes "//") = true) : [] ∈ s.splitOn 47 := by
  obtain ⟨before, after, rfl⟩ := hasSub_iff.mp h
  have hslashes : before ++ bytes "//" ++ after = before ++ 47 :: ([] ++ 47 :: after) :=
    List.append_assoc ..
  rw [hslashes, List.splitOn_append_cons_self, List.splitOn_append_cons_self]
  exact List.mem_append_right _ (List.mem_append_left _ (List.mem_singleton_self _))

def behind (dir : Bytes) (q : List Bytes) : Bytes := dir ++ q.flatMap (47 :: ·)

theorem behind_concat (dir : Bytes) (q : List Bytes) (name : Bytes) :
    behind dir (q ++ [name]) = behind dir q ++ 47 :: name := by
  rw [behind, behind, List.flatMap_append, List.flatMap_singleton, List.append_assoc]

variable {q : List Bytes}

theorem splitOn_behind (dir : Bytes) (hq : ∀ name ∈ q, FileName name) :
    (behind dir q).splitOn 47 = dir.splitOn 47 ++ q := by
  induction q using List.reverseRecOn with
  | nil => rw [behind, List.flatMap_nil, List.append_nil, List.append_nil]
  | append_singleton q name ih =>
    have hslash := (hq name (List.mem_append_right _ (List.mem_singleton_self name))).no_slash
    rw [behind_concat, List.splitOn_append_cons_self, List.splitOn_eq_singleton hslash,
      ih fun n hn => hq n (List.mem_append_left _ hn), List.append_assoc]

theorem resolve_behind (dir : Bytes) (hq : ∀ name ∈ q, FileName name) :
    resolve (behind dir q) = resolve dir ++ q := by
  have hnames : q.filter isName = q := by
    rw [List.filter_eq_self]
    intro name hname
    rw [isName, Bool.and_eq_true, bne_iff_ne, bne_iff_ne]
    exact ⟨(hq name hname).ne_nil, (hq name hname).ne_dot⟩
  rw [resolve, splitOn_behind dir hq, List.filter_append, hnames]
  rfl

theorem pathOf_behind {dir : Bytes} (hdir : dir ∈ fileDirs)
    (hq : ∀ name ∈ q, FileName name) : pathOf (resolve dir ++ q) = behind dir q := by
  have hall : ∀ d ∈ fileDirs, resolve d = d.splitOn 47 := by decide
  rw [pathOf, hall dir hdir, ← splitOn_behind dir hq, List.intercalate_splitOn]

def Tidy (path : Bytes) : Prop := ∀ part ∈ path.splitOn 47, isName part = true

variable {path : Bytes}

theorem Tidy.resolve_eq (h : Tidy path) : resolve path = path.splitOn 47 :=
  List.filter_eq_self.mpr h

theorem Tidy.pathOf_resolve (h : Tidy path) : pathOf (resolve path) = path := by
  rw [h.resolve_eq, pathOf, List.intercalate_splitOn]

theorem Tidy.plain (h : Tidy path) : plain path = true := by
  rw [Restore.plain, List.getLast?_eq_some_getLast (List.splitOn_ne_nil 47 path), Option.map_some]
  exact h _ (List.getLast_mem _)

theorem Tidy.dirsOf_eq (h : Tidy path) :
    dirsOf path = (resolve path).dropLast.inits.drop 1 := by
  rw [dirsOf, h.resolve_eq]
  conv_rhs => rw [← List.map_id ((path.splitOn 47).dropLast.inits.drop 1)]
  refine List.map_congr_left fun parts hparts => List.filter_eq_self.mpr fun part hpart => ?_
  have habove := (List.mem_inits parts _).mp (List.mem_of_mem_drop hparts)
  exact h part (List.mem_of_mem_dropLast (habove.subset hpart))

/-- The reader accepts a path below the directories unless it has two dots in a row or a
backslash. -/
theorem restorePathOk_behind {dir : Bytes} (hdir : dir ∈ fileDirs) (hne : q ≠ [])
    (hq : ∀ name ∈ q, FileName name) :
    restorePathOk (behind dir q) = true ∧ secretPathOk (behind dir q) = false ↔
      hasSub (behind dir q) (bytes "..") = false ∧ 92 ∉ behind dir q := by
  have hfirst : (behind dir q).head? = some 112 := by
    have hall : ∀ d ∈ fileDirs, d.head? = some 112 := by decide
    rw [behind, List.head?_append, hall dir hdir]
    rfl
  have hslashes : hasSub (behind dir q) (bytes "//") = false := by
    rw [← Bool.not_eq_true]
    intro hsub
    have hmem := nil_mem_splitOn hsub
    rw [splitOn_behind dir hq] at hmem
    rcases List.mem_append.mp hmem with hbase | hname
    · have hall : ∀ d ∈ fileDirs, [] ∉ d.splitOn 47 := by decide
      exact hall dir hdir hbase
    · exact (hq [] hname).ne_nil rfl
  have hbelow : fileDirs.any (fun d => belowDir d (behind dir q)) = true := by
    rw [List.any_eq_true]
    refine ⟨dir, hdir, ?_⟩
    obtain ⟨name, rest, rfl⟩ := List.exists_cons_of_ne_nil hne
    have hpos := List.length_pos_of_ne_nil (hq name List.mem_cons_self).ne_nil
    have hsplit : behind dir (name :: rest) =
        (dir ++ [47]) ++ (name ++ rest.flatMap (47 :: ·)) := by
      rw [behind, List.flatMap_cons, List.append_assoc, List.cons_append]
      rfl
    rw [belowDir, hsplit, Bool.and_eq_true, startsWith_iff, decide_eq_true_iff]
    constructor
    · exact List.prefix_append _ _
    · simp only [List.length_append, List.length_singleton]
      omega
  have hsecret : secretPathOk (behind dir q) = false := by
    rw [secretPathOk, ← Bool.not_eq_true, List.contains_iff_mem]
    intro hmem
    have hall : ∀ p ∈ secretPaths, p.head? ≠ some 112 := by decide
    exact hall _ hmem hfirst
  have hnil : behind dir q ≠ [] := by
    intro heq
    rw [heq] at hfirst
    exact nomatch hfirst
  rw [restorePathOk, hslashes, hfirst, hbelow, hsecret, Bool.or_true]
  simp [hnil]

theorem tidy_behind {dir : Bytes} (hdir : dir ∈ fileDirs)
    (hq : ∀ name ∈ q, FileName name) : Tidy (behind dir q) := by
  intro part hpart
  rw [splitOn_behind dir hq] at hpart
  rcases List.mem_append.mp hpart with hbase | hname
  · have hall : ∀ d ∈ fileDirs, ∀ part ∈ d.splitOn 47, isName part = true := by decide
    exact hall dir hdir part hbase
  · rw [isName, Bool.and_eq_true, bne_iff_ne, bne_iff_ne]
    exact ⟨(hq part hname).ne_nil, (hq part hname).ne_dot⟩

/-! ## Results of a list -/

section Collect

variable {α β : Type} {f : α → Option (List β)} {as : List α} {bs : List β} {a : α}

theorem collect_cons (h : collect f (a :: as) = some bs) :
    ∃ found rest, f a = some found ∧ collect f as = some rest ∧ bs = found ++ rest := by
  simp only [collect, Option.bind_eq_bind, Option.bind_eq_some_iff, Option.some.injEq] at h
  obtain ⟨found, hfound, rest, hrest, rfl⟩ := h
  exact ⟨found, rest, hfound, hrest, rfl⟩

theorem mem_collect (h : collect f as = some bs) {b : β} (hb : b ∈ bs) :
    ∃ a ∈ as, ∃ found, f a = some found ∧ b ∈ found := by
  induction as generalizing bs with
  | nil =>
    cases h
    exact absurd hb List.not_mem_nil
  | cons a as ih =>
    obtain ⟨found, rest, hfound, hrest, rfl⟩ := collect_cons h
    rcases List.mem_append.mp hb with hhere | hthere
    · exact ⟨a, List.mem_cons_self, found, hfound, hhere⟩
    · obtain ⟨a', ha', hex⟩ := ih hrest hthere
      exact ⟨a', List.mem_cons_of_mem a ha', hex⟩

theorem collect_all (h : collect f as = some bs) (ha : a ∈ as) :
    ∃ found, f a = some found ∧ ∀ b ∈ found, b ∈ bs := by
  induction as generalizing bs with
  | nil => exact absurd ha List.not_mem_nil
  | cons a' as ih =>
    obtain ⟨found, rest, hfound, hrest, rfl⟩ := collect_cons h
    rcases List.mem_cons.mp ha with rfl | hlater
    · exact ⟨found, hfound, fun b hb => List.mem_append_left _ hb⟩
    · obtain ⟨found', hfound', hsub⟩ := ih hrest hlater
      exact ⟨found', hfound', fun b hb => List.mem_append_right _ (hsub b hb)⟩

theorem collect_congr {g : α → Option (List β)} (h : ∀ a ∈ as, f a = g a) :
    collect f as = collect g as := by
  induction as with
  | nil => rfl
  | cons a as ih =>
    rw [collect, collect, h a List.mem_cons_self, ih fun b hb => h b (List.mem_cons_of_mem a hb)]

end Collect

/-! ## The walk -/

namespace Site

variable {s : Site} {dir : Bytes} (hdir : dir ∈ fileDirs) {es : List Entry}
include hdir

theorem short_child (hq : ∀ name ∈ q, FileName name) {name : Bytes}
    (hname : name ∈ s.names (resolve dir ++ q)) :
    (∀ n ∈ q ++ [name], FileName n) ∧ (behind dir (q ++ [name])).length < pathMax := by
  have hnames : ∀ n ∈ q ++ [name], FileName n := by
    intro n hn
    rcases List.mem_append.mp hn with hold | hnew
    · exact hq n hold
    · rw [List.mem_singleton.mp hnew]
      exact s.names_ok _ name hname
  have hshort := s.short _ name hname
  rw [List.append_assoc, pathOf_behind hdir hnames] at hshort
  exact ⟨hnames, hshort⟩

theorem snprintfS_child (hq : ∀ name ∈ q, FileName name) {name : Bytes}
    (hname : name ∈ s.names (resolve dir ++ q)) :
    snprintfS pathMax (behind dir q ++ 47 :: name) = behind dir (q ++ [name]) := by
  have hshort := (short_child hdir hq hname).2
  rw [snprintfS, ← behind_concat, List.take_of_length_le (by omega)]

def addChild (s : Site) (depth : ℕ) (dir : Bytes) (q : List Bytes) (name : Bytes) :
    Option (List Entry) :=
  match s.files.node (resolve dir ++ (q ++ [name])) with
  | some .dir => s.addDir depth (behind dir (q ++ [name]))
  | some (.file _) => s.addEntry (bytes "file") (behind dir (q ++ [name]))
  | none => some []

theorem addDir_eq (depth : ℕ) (hq : ∀ name ∈ q, FileName name) :
    s.addDir (depth + 1) (behind dir q) =
      match s.files.node (resolve dir ++ q) with
      | none => some []
      | some (.file _) => none
      | some .dir =>
        if s.opens (behind dir q) then
          collect (s.addChild depth dir q) (s.names (resolve dir ++ q))
        else none := by
  rw [addDir, resolve_behind dir hq]
  cases s.files.node (resolve dir ++ q) with
  | none => rfl
  | some n =>
    cases n with
    | file c => rfl
    | dir =>
      dsimp only
      by_cases hopens : s.opens (behind dir q) = true
      · rw [if_pos hopens, if_pos hopens]
        refine collect_congr fun name hname => ?_
        have hnames := (short_child hdir hq hname).1
        rw [snprintfS_child hdir hq hname, resolve_behind dir hnames]
        rfl
      · rw [if_neg hopens, if_neg hopens]

/-- A walk that succeeds finds nothing, or goes through a directory. -/
theorem addDir_cases {depth : ℕ} (hq : ∀ name ∈ q, FileName name)
    (h : s.addDir (depth + 1) (behind dir q) = some es) :
    s.files.node (resolve dir ++ q) = none ∧ es = [] ∨
      collect (s.addChild depth dir q) (s.names (resolve dir ++ q)) = some es := by
  rw [addDir_eq hdir depth hq] at h
  split at h
  · rename_i hnone
    cases h
    exact .inl ⟨hnone, rfl⟩
  · exact nomatch h
  · split_ifs at h
    exact .inr h

theorem addDir_depth {depth : ℕ} (hq : ∀ name ∈ q, FileName name)
    (hshort : (behind dir q).length < pathMax) (hdepth : pathMax ≤ depth + (behind dir q).length) :
    s.addDir (depth + 1) (behind dir q) = s.addDir depth (behind dir q) := by
  induction depth generalizing q with
  | zero => omega
  | succ depth ih =>
    rw [addDir_eq hdir (depth + 1) hq, addDir_eq hdir depth hq]
    have hchildren : collect (s.addChild (depth + 1) dir q) (s.names (resolve dir ++ q)) =
        collect (s.addChild depth dir q) (s.names (resolve dir ++ q)) := by
      refine collect_congr fun name hname => ?_
      obtain ⟨hnames, hlen⟩ := short_child hdir hq hname
      have hlonger : (behind dir q).length < (behind dir (q ++ [name])).length := by
        rw [behind_concat, List.length_append, List.length_cons]
        omega
      rw [addChild, addChild, ih hnames hlen (by omega)]
    rw [hchildren]

theorem addDir_sound {depth : ℕ} (hq : ∀ name ∈ q, FileName name)
    (h : s.addDir depth (behind dir q) = some es) {e : Entry} (he : e ∈ es) :
    (∃ r, r ≠ [] ∧ (∀ name ∈ r, FileName name) ∧ e.path = behind dir r) ∧
      e.path.length < pathMax ∧ e.kind = bytes "file" ∧ s.putFile e.path = some e.data := by
  induction depth generalizing q es with
  | zero => exact nomatch h
  | succ depth ih =>
    rcases addDir_cases hdir hq h with ⟨-, rfl⟩ | hchildren
    · exact absurd he List.not_mem_nil
    · obtain ⟨name, hname, found, hfound, hmem⟩ := mem_collect hchildren he
      obtain ⟨hnames, hlen⟩ := short_child hdir hq hname
      rw [addChild] at hfound
      split at hfound
      · exact ih hnames hfound hmem
      · rw [addEntry, Option.map_eq_some_iff] at hfound
        obtain ⟨data, hdata, rfl⟩ := hfound
        rw [List.mem_singleton.mp hmem]
        exact ⟨⟨q ++ [name], List.append_ne_nil_of_right_ne_nil q (List.cons_ne_nil name []),
          hnames, rfl⟩, hlen, rfl, hdata⟩
      · cases hfound
        exact absurd hmem List.not_mem_nil

theorem addDir_complete {depth : ℕ} (hq : ∀ name ∈ q, FileName name)
    (h : s.addDir depth (behind dir q) = some es) {r : List Bytes} (hr : r ≠ [])
    (hfile : (s.files.file? (resolve dir ++ (q ++ r))).isSome) :
    (∀ name ∈ q ++ r, FileName name) ∧ ∃ e ∈ es, e.path = behind dir (q ++ r) := by
  induction depth generalizing q es r with
  | zero => exact nomatch h
  | succ depth ih =>
    obtain ⟨data, hdata⟩ := Option.isSome_iff_exists.mp hfile
    have hexists := Tree.exists_of_file? hdata
    obtain ⟨name, rest, rfl⟩ := List.exists_cons_of_ne_nil hr
    have hsplit : q ++ name :: rest = (q ++ [name]) ++ rest := List.append_cons q name rest
    have habove : s.files.IsDir (resolve dir ++ q) :=
      Tree.isDir_above hexists ⟨name :: rest, List.append_assoc ..⟩ fun heq =>
        absurd (List.append_right_eq_self.mp (List.append_cancel_left heq).symm) hr
    rcases addDir_cases hdir hq h with ⟨hnone, -⟩ | hchildren
    · exact absurd (hnone.symm.trans habove) (Option.some_ne_none _).symm
    · rw [hsplit] at hdata hfile hexists ⊢
      have hchild : s.files.Exists (resolve dir ++ q ++ [name]) := by
        by_cases hrest : rest = []
        · rw [hrest, List.append_nil, ← List.append_assoc] at hexists
          exact hexists
        · have hsub := Tree.isDir_above hexists (p := resolve dir ++ q ++ [name])
            ⟨rest, by simp only [List.append_assoc]⟩ (by simpa using fun heq => hrest heq)
          rw [Tree.Exists, hsub]
          exact Option.some_ne_none _
      have hname := s.names_all _ name hchild
      obtain ⟨hnames, -⟩ := short_child hdir hq hname
      obtain ⟨found, hfound, hsub⟩ := collect_all hchildren hname
      rw [addChild] at hfound
      by_cases hrest : rest = []
      · rw [hrest, List.append_nil] at hdata ⊢
        rw [Tree.file?_eq_some.mp hdata] at hfound
        simp only [addEntry, Option.map_eq_some_iff] at hfound
        obtain ⟨content, -, rfl⟩ := hfound
        exact ⟨hnames, _, hsub _ (List.mem_singleton_self _), rfl⟩
      · have hnode : s.files.node (resolve dir ++ (q ++ [name])) = some .dir := by
          refine Tree.isDir_above hexists ⟨rest, List.append_assoc ..⟩ fun heq => ?_
          exact hrest (List.append_right_eq_self.mp (List.append_cancel_left heq).symm)
        rw [hnode] at hfound
        obtain ⟨hall, e, he, hpath⟩ := ih hnames hfound hrest hfile
        exact ⟨hall, e, hsub e he, hpath⟩

end Site

/-! ## The entries -/

def Below (path : Bytes) : Prop :=
  ∃ dir ∈ fileDirs, ∃ q, q ≠ [] ∧ (∀ name ∈ q, FileName name) ∧ path = behind dir q

inductive Site.Has (s : Site) (e : Entry) : Prop where
  | db (hpath : e.path ∈ dbPaths) (hkind : e.kind = bytes "db")
    (hdata : s.snapshot e.path = some e.data) (hsize : e.data.length < 8 ^ 11)
  | settings (hpath : e.path ∈ settings) (hkind : e.kind = bytes "settings")
    (hdata : s.putFile e.path = some e.data)
  | file (hpath : Below e.path) (hshort : e.path.length < pathMax) (hkind : e.kind = bytes "file")
    (hdata : s.putFile e.path = some e.data)

section Entries

variable {s : Site} {es : List Entry}

theorem has_of_addDb (hpath : path ∈ dbPaths) (h : s.addDb path = some es) :
    (∀ e ∈ es, s.Has e) ∧ (s.readable path = true → ∃ e ∈ es, e.path = path) := by
  rw [Site.addDb] at h
  split_ifs at h with hreadable
  · split at h
    · rename_i data hdata
      split_ifs at h with hsize
      cases h
      constructor
      · intro e he
        rw [List.mem_singleton.mp he]
        exact .db hpath rfl hdata hsize
      · exact fun _ => ⟨_, List.mem_singleton_self _, rfl⟩
    · exact nomatch h
  · cases h
    exact ⟨fun e he => absurd he List.not_mem_nil, fun hno => absurd hno hreadable⟩

theorem has_of_addSettings (hpath : path ∈ settings) (h : s.addSettings path = some es) :
    (∀ e ∈ es, s.Has e) ∧ (s.readable path = true → ∃ e ∈ es, e.path = path) := by
  rw [Site.addSettings] at h
  split_ifs at h with hreadable
  · rw [Site.addEntry, Option.map_eq_some_iff] at h
    obtain ⟨data, hdata, rfl⟩ := h
    constructor
    · intro e he
      rw [List.mem_singleton.mp he]
      exact .settings hpath rfl hdata
    · exact fun _ => ⟨_, List.mem_singleton_self _, rfl⟩
  · cases h
    exact ⟨fun e he => absurd he List.not_mem_nil, fun hno => absurd hno hreadable⟩

theorem behind_nil (dir : Bytes) : behind dir [] = dir := by
  rw [behind, List.flatMap_nil, List.append_nil]

theorem has_of_addDir {dir : Bytes} (hdir : dir ∈ fileDirs) (h : s.addDir pathMax dir = some es) :
    (∀ e ∈ es, s.Has e) ∧ ∀ q, q ≠ [] → (s.files.file? (resolve dir ++ q)).isSome →
      (∀ name ∈ q, FileName name) ∧ ∃ e ∈ es, e.path = behind dir q := by
  have hnil : ∀ name ∈ ([] : List Bytes), FileName name := fun _ hno => absurd hno List.not_mem_nil
  rw [← behind_nil dir] at h
  constructor
  · intro e he
    obtain ⟨⟨r, hr, hnames, hpath⟩, hshort, hkind, hdata⟩ := Site.addDir_sound hdir hnil h he
    exact .file ⟨dir, hdir, r, hr, hnames, hpath⟩ hshort hkind hdata
  · exact fun q hq hfile => Site.addDir_complete hdir hnil h hq hfile

structure Site.BackedUp (s : Site) (es : List Entry) : Prop where
  count : es.length ≤ 999999
  has : ∀ e ∈ es, s.Has e
  named : ∀ path ∈ dbPaths ++ settings, s.readable path = true → ∃ e ∈ es, e.path = path
  below : ∀ dir ∈ fileDirs, ∀ q, q ≠ [] → (s.files.file? (resolve dir ++ q)).isSome →
    (∀ name ∈ q, FileName name) ∧ ∃ e ∈ es, e.path = behind dir q

theorem backedUp (h : s.backupEntries = some es) : s.BackedUp es := by
  simp only [Site.backupEntries, Option.bind_eq_bind, Option.bind_eq_some_iff] at h
  obtain ⟨dbs, hdbs, texts, htexts, files, hfiles, hif⟩ := h
  split_ifs at hif with hcount
  cases hif
  refine ⟨hcount, ?_, ?_, ?_⟩
  · intro e he
    rcases List.mem_append.mp he with hfirst | hfile
    · rcases List.mem_append.mp hfirst with hdb | htext
      · obtain ⟨path, hpath, found, hfound, hmem⟩ := mem_collect hdbs hdb
        exact (has_of_addDb hpath hfound).1 e hmem
      · obtain ⟨path, hpath, found, hfound, hmem⟩ := mem_collect htexts htext
        exact (has_of_addSettings hpath hfound).1 e hmem
    · obtain ⟨dir, hdir, found, hfound, hmem⟩ := mem_collect hfiles hfile
      exact (has_of_addDir hdir hfound).1 e hmem
  · intro path hpath hreadable
    rcases List.mem_append.mp hpath with hdb | htext
    · obtain ⟨found, hfound, hsub⟩ := collect_all hdbs hdb
      obtain ⟨e, he, heq⟩ := (has_of_addDb hdb hfound).2 hreadable
      exact ⟨e, List.mem_append_left _ (List.mem_append_left _ (hsub e he)), heq⟩
    · obtain ⟨found, hfound, hsub⟩ := collect_all htexts htext
      obtain ⟨e, he, heq⟩ := (has_of_addSettings htext hfound).2 hreadable
      exact ⟨e, List.mem_append_left _ (List.mem_append_right _ (hsub e he)), heq⟩
  · intro dir hdir q hq hfile
    obtain ⟨found, hfound, hsub⟩ := collect_all hfiles hdir
    obtain ⟨hnames, e, he, heq⟩ := (has_of_addDir hdir hfound).2 q hq hfile
    exact ⟨hnames, e, List.mem_append_right _ (hsub e he), heq⟩

end Entries

/-! ## What belongs to a path -/

/-- Files that come and go: those that SQLite has next to a database, and the markers. -/
def passing : List (List Bytes) :=
  (dbPaths.flatMap fun db =>
    ["-wal", "-shm", "-journal"].map fun ext => resolve (sidePath db ext)) ++
    [resolve markerPath, resolve markerTmp]

def Site.content (s : Site) (path : Bytes) : Option Bytes :=
  if path ∈ dbPaths then s.snapshot path else s.files.file? (resolve path)

structure Site.Backs (s : Site) (path data : Bytes) : Prop where
  tidy : Tidy path
  short : path.length < pathMax
  file : (s.files.file? (resolve path)).isSome
  content : s.content path = some data
  lasting : resolve path ∉ passing

theorem fixed_paths : ∀ path ∈ dbPaths ++ settings ++ secretPaths,
    Tidy path ∧ path.length < pathMax ∧ resolve path ∉ passing := by
  unfold Tidy
  decide +kernel

theorem Below.head? (h : Below path) : path.head? = some 112 := by
  obtain ⟨dir, hdir, q, -, -, rfl⟩ := h
  have hall : ∀ d ∈ fileDirs, d.head? = some 112 := by decide
  rw [behind, List.head?_append, hall dir hdir]
  rfl

theorem Below.lasting (h : Below path) : resolve path ∉ passing := by
  obtain ⟨dir, hdir, q, -, hq, rfl⟩ := h
  have hdirs : ∀ d ∈ fileDirs, (resolve d).head? = some (bytes "public") := by decide +kernel
  have hothers : ∀ p ∈ passing, p.head? ≠ some (bytes "public") := by decide +kernel
  intro hmem
  refine hothers _ hmem ?_
  rw [resolve_behind dir hq, List.head?_append, hdirs dir hdir]
  rfl

section Backs

variable {s : Site} {e : Entry}

theorem putFile_eq_some {path data : Bytes} (h : s.putFile path = some data) :
    s.files.file? (resolve path) = some data ∧ data.length < 8 ^ 11 := by
  rw [Site.putFile] at h
  split at h
  · rename_i content hcontent
    split_ifs at h with hok
    cases h
    exact ⟨hcontent, hok.2⟩
  · exact nomatch h

theorem backs_of_file {path data : Bytes} (htidy : Tidy path) (hshort : path.length < pathMax)
    (hlasting : resolve path ∉ passing) (hdb : path ∉ dbPaths)
    (hdata : s.files.file? (resolve path) = some data) : s.Backs path data where
  tidy := htidy
  short := hshort
  file := by
    rw [hdata]
    rfl
  content := by
    rw [Site.content, if_neg hdb]
    exact hdata
  lasting := hlasting

theorem Site.Has.backs (h : s.Has e) : s.Backs e.path e.data := by
  cases h with
  | db hpath hkind hdata hsize =>
    obtain ⟨htidy, hshort, hlasting⟩ := fixed_paths e.path
      (List.mem_append_left _ (List.mem_append_left _ hpath))
    exact ⟨htidy, hshort, s.snapshot_file _ _ hdata, by rw [Site.content, if_pos hpath, hdata],
      hlasting⟩
  | settings hpath hkind hdata =>
    obtain ⟨htidy, hshort, hlasting⟩ := fixed_paths e.path
      (List.mem_append_left _ (List.mem_append_right _ hpath))
    have hother : ∀ path ∈ Archive.settings, path ∉ dbPaths := by decide
    exact backs_of_file htidy hshort hlasting (hother _ hpath) (putFile_eq_some hdata).1
  | file hpath hshort hkind hdata =>
    have hother : ∀ path ∈ dbPaths, path.head? ≠ some 112 := by decide
    have htidy : Tidy e.path := by
      obtain ⟨dir, hdir, q, -, hq, heq⟩ := hpath
      rw [heq]
      exact tidy_behind hdir hq
    exact backs_of_file htidy hshort hpath.lasting (fun hdb => hother _ hdb hpath.head?)
      (putFile_eq_some hdata).1

theorem Site.Has.length (h : s.Has e) : e.data.length < 8 ^ 11 := by
  cases h with
  | db hpath hkind hdata hsize => exact hsize
  | settings hpath hkind hdata => exact (putFile_eq_some hdata).2
  | file hpath hshort hkind hdata => exact (putFile_eq_some hdata).2

theorem mem_sealedFiles {f : Bytes × Bytes} (h : f ∈ s.sealedFiles) :
    f.1 ∈ secretPaths ∧ f.2.length ≤ maxSecrets / 4 ∧ s.Backs f.1 f.2 := by
  rw [Site.sealedFiles, List.mem_filterMap] at h
  obtain ⟨path, hpath, hfile⟩ := h
  split at hfile
  · rename_i data hdata
    split_ifs at hfile with hok
    cases hfile
    obtain ⟨htidy, hshort, hlasting⟩ := fixed_paths path (List.mem_append_right _ hpath)
    have hother : ∀ path ∈ secretPaths, path ∉ dbPaths := by decide
    exact ⟨hpath, hok.2, backs_of_file htidy hshort hlasting (hother _ hpath) hdata⟩
  · exact nomatch hfile

theorem Site.Backs.unique {path path' data data' : Bytes} (h : s.Backs path data)
    (h' : s.Backs path' data') (heq : resolve path = resolve path') : data = data' := by
  have hpath : path = path' := by
    rw [← h.tidy.pathOf_resolve, heq, h'.tidy.pathOf_resolve]
  have hdata := h'.content
  rw [← hpath, h.content, Option.some.injEq] at hdata
  exact hdata

end Backs

end FlyBoard.Backup
