import FlyBoard.Handlers.PostEdit

/-!
# An edit whose UPDATE fails

The failure is logged and the savepoint is released all the same, so what was written before
the failing statement stays, and so does what the helpers write after it. Each of them has
tables or columns of its own; the edit changes nothing just where each writes what is there.
-/

namespace FlyBoard.PostEdit

open Bytes
open Autosave (tagsOf)
open I18n (dbI18nSet i18nGroupOf i18nUpsert i18nUpsert_self i18nUpsert_of_ne)
open Keyed (Table)
open SeriesDb

/-! ## Files -/

section Files

variable {verify : Bytes → Bytes → Bool} {e : Edit} {files : Files} {f : File} {fid : ℤ}

def File.attached (f : File) (e : Edit) (a : Attachment) : File :=
  { f with postId := e.post, isInline := a.isInline }

def lastAttachment (verify : Bytes → Bytes → Bool) (e : Edit) (l : List Attachment) (fid : ℤ)
    (f : File) : Option Attachment :=
  (l.filter fun a => a.fid = fid ∧ f.mayAttach verify e a.pin).getLast?

def File.after (f : File) (e : Edit) (a : Option Attachment) : File := a.elim f (f.attached e)

theorem attach_apply (a : Attachment) : attach verify e files a fid = (files fid).map fun f =>
    if a.fid = fid ∧ f.mayAttach verify e a.pin then f.attached e a else f := by
  rw [attach]
  by_cases hfid : a.fid = fid
  · subst hfid
    rcases hf : files a.fid with _ | f
    · exact hf
    · dsimp only
      split
      · next hmay => simp [hmay, File.attached]
      · next hmay => simp [hmay, hf]
  · have hne : fid ≠ a.fid := fun h => hfid h.symm
    simp only [hfid, false_and, if_false, Option.map_id']
    rcases files a.fid with _ | f
    · rfl
    · dsimp only
      split
      · exact Function.update_of_ne hne _ _
      · rfl

theorem mayAttach_attached {a : Attachment} {pin : Bytes} (h : f.mayAttach verify e a.pin = true) :
    (f.attached e a).mayAttach verify e pin = f.mayAttach verify e pin := by
  have hfree : (f.postId == 0 || f.postId == e.post) = true := (Bool.and_eq_true_iff.mp h).1
  rw [File.mayAttach, File.mayAttach, hfree, File.attached]
  simp

theorem mayAttach_after {l : List Attachment} {pin : Bytes} :
    (f.after e (lastAttachment verify e l fid f)).mayAttach verify e pin =
      f.mayAttach verify e pin := by
  rcases hlast : lastAttachment verify e l fid f with _ | a
  · rfl
  · have hmem := List.mem_of_getLast? hlast
    have hmay := (of_decide_eq_true (List.mem_filter.mp hmem).2).2
    exact mayAttach_attached hmay

theorem foldl_attach_apply (l : List Attachment) : l.foldl (attach verify e) files fid =
    (files fid).map fun f => f.after e (lastAttachment verify e l fid f) := by
  induction l using List.reverseRecOn with
  | nil => exact Option.map_id'.symm
  | append_singleton l a ih =>
    rw [List.foldl_append, List.foldl_cons, List.foldl_nil, attach_apply, ih, Option.map_map]
    congr 1
    funext f
    rw [Function.comp_apply, mayAttach_after]
    split
    · next h =>
      have hlast : lastAttachment verify e (l ++ [a]) fid f = some a := by
        simp [lastAttachment, List.filter_append, h]
      rw [hlast]
      rcases lastAttachment verify e l fid f with _ | b <;> rfl
    · next h =>
      have hlast : lastAttachment verify e (l ++ [a]) fid f = lastAttachment verify e l fid f := by
        simp [lastAttachment, List.filter_append, h]
      rw [hlast]

def Edit.attachments (e : Edit) : List Attachment :=
  mediaAttachments e.mediaMeta ++ contentAttachments e.content

/-- A file that the request may attach is the post's, in the mode that is asked for last. -/
def FilesKept (verify : Bytes → Bytes → Bool) (e : Edit) (files : Files) : Prop :=
  ∀ fid f a, files fid = some f → lastAttachment verify e e.attachments fid f = some a →
    f.postId = e.post ∧ f.isInline = a.isInline

theorem attached_eq_self_iff {a : Attachment} :
    f.attached e a = f ↔ f.postId = e.post ∧ f.isInline = a.isInline := by
  constructor
  · intro h
    exact ⟨(congrArg File.postId h).symm, (congrArg File.isInline h).symm⟩
  · rintro ⟨hpost, hinline⟩
    rw [File.attached, ← hpost, ← hinline]

theorem attachFiles_eq_iff :
    attachContentFilesToPost verify e (attachMediaMetaToPost verify e files) = files ↔
      FilesKept verify e files := by
  have hall : attachContentFilesToPost verify e (attachMediaMetaToPost verify e files) =
      e.attachments.foldl (attach verify e) files := (List.foldl_append ..).symm
  rw [hall]
  constructor
  · intro h fid f a hf hlast
    have hfile := congrFun h fid
    rw [foldl_attach_apply, hf, Option.map_some, hlast] at hfile
    exact attached_eq_self_iff.mp (Option.some.inj hfile)
  · intro h
    funext fid
    rw [foldl_attach_apply]
    rcases hf : files fid with _ | f
    · rfl
    rw [Option.map_some]
    rcases hlast : lastAttachment verify e e.attachments fid f with _ | a
    · rfl
    · exact congrArg some (attached_eq_self_iff.mpr (h fid f a hf hlast))

end Files

/-! ## Tags -/

def TagsKept (e : Edit) (tags : Tags.Tables) : Prop :=
  ∀ csv, e.tags = some csv → ∀ n, n ∈ tagsOf csv ↔ n ∈ tags.namesOf e.post

theorem setTags_same_iff {e : Edit} {tags : Tags.Tables} (hpost : 0 < e.post) :
    (∀ n, n ∈ (setTags e tags).namesOf e.post ↔ n ∈ tags.namesOf e.post) ↔ TagsKept e tags := by
  rw [setTags, TagsKept]
  rcases e.tags with _ | csv
  · simp
  · simp [Tags.mem_namesOf_noFailure hpost]

/-! ## Translation groups -/

section Groups

variable {e : Edit} {items : I18n.Items} {c : I18n.Call} {call : Option I18n.Call}
  {p : I18n.Primary}

/-- The group of the item after the call, when it was in group `old`. -/
def newGroup (c : I18n.Call) (items : I18n.Items) (old : Int32) : Int32 :=
  let grp := i18nGroupOf items c.kind c.pairWith.toInt
  if c.pairWith < 0 then 0
  else if c.pairWith = 0 ∨ c.pairWith = c.id then old
  else if grp = 0 then c.pairWith
  else grp

/-- The row of the item has what the call sets, and no other item gets a group. -/
def Idle (c : I18n.Call) (items : I18n.Items) : Prop :=
  ¬c.startsGroup items ∧ ∃ x, items c.kind c.id.toInt = some x ∧
    c.lang.getD x.lang = x.lang ∧ newGroup c items x.grp = x.grp

theorem write_self (c : I18n.Call) (items : I18n.Items) :
    c.write items c.kind c.id.toInt =
      some ⟨c.lang.getD ((items c.kind c.id.toInt).getD ⟨[], 0⟩).lang,
        newGroup c items ((items c.kind c.id.toInt).getD ⟨[], 0⟩).grp⟩ := by
  unfold I18n.Call.write newGroup
  dsimp only
  split
  · simp [i18nUpsert_self]
  split
  · exact i18nUpsert_self ..
  · next hpair =>
    have hother : ¬(c.kind = c.kind ∧ c.pairWith.toInt = c.id.toInt) :=
      fun h => hpair (.inr (Int32.toInt_inj.mp h.2))
    have hself : ¬(c.kind = c.kind ∧ c.id.toInt = c.pairWith.toInt) :=
      fun h => hother ⟨rfl, h.2.symm⟩
    rw [i18nGroupOf, i18nGroupOf, i18nUpsert_of_ne hother]
    split
    · simp [i18nUpsert_self, i18nUpsert_of_ne hself]
    · simp [i18nUpsert_self]

theorem write_eq_iff (hc : c.refused = false) : c.write items = items ↔ Idle c items := by
  constructor
  · intro h
    refine ⟨fun hstarts => I18n.view_pair_ne hstarts (by rw [h]), ?_⟩
    have hself := write_self c items
    rw [h] at hself
    rcases hx : items c.kind c.id.toInt with _ | x
    · rw [hx] at hself
      exact nomatch hself
    · rw [hx, Option.getD_some] at hself
      have heq := Option.some.inj hself
      exact ⟨x, rfl, (congrArg I18n.Item.lang heq).symm, (congrArg I18n.Item.grp heq).symm⟩
  · rintro ⟨hstarts, x, hx, hlang, hgrp⟩
    funext k i
    by_cases hself : k = c.kind ∧ i = c.id.toInt
    · rw [hself.1, hself.2, write_self, hx, Option.getD_some, hlang, hgrp]
    · exact I18n.Call.write_of_ne hself (fun h => hstarts h.1) hc

theorem items_setI18n (hc : c.refused = false) : (setI18n (some c) p).items = c.write p.items := by
  rw [setI18n, Option.elim_some, dbI18nSet, hc, if_neg Bool.false_ne_true]

theorem setI18n_eq_iff (hcall : ∀ c ∈ call, c.refused = false) :
    (setI18n call p).items = p.items ↔ ∀ c ∈ call, Idle c p.items := by
  rcases call with _ | c
  · simp [setI18n]
  · rw [items_setI18n (hcall c rfl), write_eq_iff (hcall c rfl)]
    simp

theorem mem_langCall (h : c ∈ e.langCall) :
    ∃ lang, I18n.i18nLangValid lang = true ∧ c = ⟨bytes "post", e.id, some lang, 0⟩ := by
  rw [Edit.langCall, Option.mem_def, Option.map_eq_some_iff] at h
  rcases h with ⟨lang, hlang, rfl⟩
  exact ⟨lang, (Option.filter_eq_some_iff.mp hlang).2, rfl⟩

theorem mem_translationCall {t : Site} (h : c ∈ e.translationCall t) :
    ∃ pair, c = ⟨bytes "post", e.id, none, pair⟩ := by
  rw [Edit.translationCall, Option.mem_def, Option.bind_eq_some_iff] at h
  rcases h with ⟨text, -, h⟩
  dsimp only at h
  split_ifs at h
  · exact ⟨_, (Option.some.inj h).symm⟩
  · exact ⟨_, (Option.some.inj h).symm⟩

theorem setI18n_both_eq_iff (hid : 0 < e.id) {t : Site} :
    (setI18n (e.translationCall t) (setI18n e.langCall p)).items = p.items ↔
      (∀ c ∈ e.langCall, Idle c p.items) ∧ ∀ c ∈ e.translationCall t, Idle c p.items := by
  have hpos : ¬e.id ≤ 0 := Int32.not_le.mpr hid
  have hpost : I18n.i18nKindValid (bytes "post") = true := by decide
  have hlang : ∀ c ∈ e.langCall, c.refused = false := by
    intro c hc
    obtain ⟨lang, hvalid, rfl⟩ := mem_langCall hc
    simp [I18n.Call.refused, hpost, hpos, hvalid]
  have htranslation : ∀ c ∈ e.translationCall t, c.refused = false := by
    intro c hc
    obtain ⟨pair, rfl⟩ := mem_translationCall hc
    simp [I18n.Call.refused, hpost, hpos]
  rw [← setI18n_eq_iff hlang]
  -- the second call does not touch the language
  have hfirst (h : (setI18n (e.translationCall t) (setI18n e.langCall p)).items = p.items) :
      (setI18n e.langCall p).items = p.items := by
    rcases hcall : e.langCall with _ | c
    · rfl
    rcases hcall' : e.translationCall t with _ | c'
    · rwa [hcall, hcall'] at h
    have hc := hlang c hcall
    have hc' := htranslation c' hcall'
    obtain ⟨lang, -, rfl⟩ := mem_langCall hcall
    obtain ⟨pair, rfl⟩ := mem_translationCall hcall'
    rw [hcall, hcall', items_setI18n hc', items_setI18n hc] at h
    have hrow := write_self ⟨bytes "post", e.id, none, pair⟩
      (I18n.Call.write ⟨bytes "post", e.id, some lang, 0⟩ p.items)
    rw [h, write_self ⟨bytes "post", e.id, some lang, 0⟩] at hrow
    rw [items_setI18n hc, write_eq_iff hc]
    exact ⟨fun hstarts => Int32.lt_irrefl hstarts.2.1, _, hrow, rfl, by simp [newGroup]⟩
  constructor
  · intro h
    have hsame := hfirst h
    refine ⟨hsame, ?_⟩
    rw [← hsame]
    exact (setI18n_eq_iff htranslation).mp (h.trans hsame.symm)
  · rintro ⟨hsame, hidle⟩
    rw [← hsame] at hidle
    exact ((setI18n_eq_iff htranslation).mpr hidle).trans hsame

end Groups

/-! ## Series -/

section Series

variable {e : Edit} {now : Bytes} {db : Primary} {p : Post} {seriesId pos : ℤ}

theorem posts_setSeries (db : Primary) (postId seriesId pos : ℤ) :
    (step db (.setSeries postId seriesId pos)).posts =
      (db.posts.find? postId).elim db.posts fun p => moved db.posts p seriesId pos := by
  rw [step]
  rcases db.posts.find? postId with _ | p <;> rfl

theorem posts_create (title : Bytes) (uid : ℤ) :
    (step db (.create title uid now)).posts = db.posts := by
  rw [step]
  split <;> rfl

theorem titledId_pos (title : Bytes) : 0 < titledId db e title := by
  rw [titledId]
  split <;> omega

theorem find?_moved_out (hp : db.posts.find? p.id = some p) :
    (moved db.posts p 0 0).find? p.id = some { p with seriesId := none, seriesPos := 0 } := by
  have hplace : (place db.posts p.id none 0).find? p.id =
      some { p with seriesId := none, seriesPos := 0 } := by
    rw [find?_place, hp, Option.map_some, if_pos rfl]
  rw [moved]
  dsimp only
  rw [if_pos le_rfl]
  split
  · exact find?_renumber (q := { p with seriesId := none, seriesPos := 0 }) hplace _ 0
  · exact hplace

/-- The row of the post after the first part of `apply_series_and_lang`. -/
def placed (db : Primary) (e : Edit) (p : Post) : Post :=
  match e.series with
  | none => p
  | some series =>
    if e.uid ≤ 0 then p
    else
      let title := seriesTitle series
      if title.isEmpty then { p with seriesId := none, seriesPos := 0 }
      else
        let sid := titledId db e title
        { p with seriesId := some sid, seriesPos := landed db.posts p sid e.askedPos }

theorem find?_applySeries (hp : db.posts.find? e.post = some p) :
    (applySeries e now db).posts.find? e.post = some (placed db e p) := by
  have hid : p.id = e.post := (Table.find?_eq_some.mp hp).2
  rw [applySeries, placed]
  rcases e.series with _ | series
  · exact hp
  dsimp only
  split
  · exact hp
  split
  · rw [posts_setSeries, hp, Option.elim_some, ← hid]
    rw [← hid] at hp
    exact find?_moved_out hp
  · rw [posts_setSeries, apply_ite Primary.posts, posts_create, ite_self, hp, Option.elim_some,
      ← hid]
    exact find?_moved_self (Table.find?_eq_some.mp hp).1 (titledId_pos _)

theorem hasPost_applySeries (id : ℤ) :
    ((applySeries e now db).posts.find? id).isSome = (db.posts.find? id).isSome := by
  have hmoved (seriesId pos : ℤ) :
      (((db.posts.find? e.post).elim db.posts fun p => moved db.posts p seriesId pos).find?
        id).isSome = (db.posts.find? id).isSome := by
    rcases db.posts.find? e.post with _ | p
    · rfl
    · rw [Bool.eq_iff_iff, Option.isSome_iff_ne_none, Option.isSome_iff_ne_none]
      exact not_congr find?_moved_eq_none
  rw [applySeries]
  rcases e.series with _ | series
  · rfl
  dsimp only
  split
  · rfl
  split
  · rw [posts_setSeries, hmoved]
  · rw [posts_setSeries, apply_ite Primary.posts, posts_create, ite_self, hmoved]

/-- The form names the series that the post is in and, in what room the others leave, the
place that it has there; or it names none and the post is in none. -/
def SeriesKept (db : Primary) (e : Edit) (p : Post) : Prop :=
  ∀ series, e.series = some series → 0 < e.uid →
    let title := seriesTitle series
    if title.isEmpty then p.seriesId = none ∧ p.seriesPos = 0
    else
      let last := count db.posts (titledId db e title) p.id + 1
      p.seriesId = some (titledId db e title) ∧
        if 0 < e.askedPos then p.seriesPos = min e.askedPos last
        else 1 ≤ p.seriesPos ∧ p.seriesPos ≤ last

theorem landed_eq_iff {posts : Posts} (hseries : p.seriesId = some seriesId) :
    landed posts p seriesId pos = p.seriesPos ↔
      if 0 < pos then p.seriesPos = min pos (count posts seriesId p.id + 1)
      else 1 ≤ p.seriesPos ∧ p.seriesPos ≤ count posts seriesId p.id + 1 := by
  have hcount : 0 ≤ count posts seriesId p.id := Int.natCast_nonneg _
  rw [landed, askedPlace, hseries, Option.getD_some]
  split_ifs <;> omega

theorem createdAt_placed : (placed db e p).createdAt = p.createdAt := by
  rw [placed]
  rcases e.series with _ | series
  · rfl
  · dsimp only
    split_ifs <;> rfl

theorem placed_eq_iff : placed db e p = p ↔ SeriesKept db e p := by
  rw [placed, SeriesKept]
  rcases e.series with _ | series
  · simp
  dsimp only
  split
  · next huid =>
    simp [Int.not_lt.mpr huid]
  next huid =>
  have hpos : 0 < e.uid := Int.not_le.mp huid
  have hout (sid : Option ℤ) (n : ℤ) :
      ({ p with seriesId := sid, seriesPos := n } : Post) = p ↔
        p.seriesId = sid ∧ p.seriesPos = n := by
    constructor
    · intro h
      exact ⟨(congrArg Post.seriesId h).symm, (congrArg Post.seriesPos h).symm⟩
    · rintro ⟨rfl, rfl⟩
      rfl
  simp only [Option.some.injEq, forall_eq', hpos, true_imp_iff]
  split
  · exact hout none 0
  · rw [hout, eq_comm (a := p.seriesPos)]
    exact and_congr_right landed_eq_iff

end Series

/-! ## What a failed edit leaves -/

/-- The row of the post with its place in the series, its revisions, its tags, the groups of
translations and the files are the same. -/
structure Unchanged (post : ℤ) (s t : Site) : Prop where
  columns : t.columns post = s.columns post
  place : t.db.posts.find? post = s.db.posts.find? post
  revisions : t.revisions.rows.filter (·.postId = post) =
    s.revisions.rows.filter (·.postId = post)
  tags : ∀ n, n ∈ t.tags.namesOf post ↔ n ∈ s.tags.namesOf post
  groups : t.i18n.items = s.i18n.items
  files : t.files = s.files

section Failure

variable (verify : Bytes → Bytes → Bool)

/-- If `db_post_update` returns false, the edit has changed nothing. -/
def FailsClean (f : Fault) (e : Edit) (now : Bytes) (s : Site) : Prop :=
  let r := handlerPostEditPost verify (some f) e now s
  r.2 = some false → Unchanged e.post s r.1

def TextKept (e : Edit) (old : Columns) : Prop := old.title = e.title ∧ old.content = e.content

def RowKept (e : Edit) (now : Bytes) (old : Columns) (p : Post) : Prop :=
  (e.update old).row now old = old ∧ (e.update old).stamp p = p

/-- What the helpers write is there already. -/
structure PartsKept (e : Edit) (s : Site) (p : Post) : Prop where
  files : FilesKept verify e s.files
  tags : TagsKept e s.tags
  series : SeriesKept s.db e p
  lang : ∀ c ∈ e.langCall, Idle c s.i18n.items
  translation : ∀ c ∈ e.translationCall s, Idle c s.i18n.items

/-- Nothing that is written differs from what is stored: unless SQLite has taken it back, the
revision and, where the second UPDATE fails, the row; and in any case what follows. -/
structure Harmless (f : Fault) (e : Edit) (now : Bytes) (s : Site) (p : Post) : Prop where
  text : f.undone = true ∨ TextKept e (s.columns e.post)
  row : f.undone = true ∨ f.stmt = .update ∨ RowKept e now (s.columns e.post) p
  parts : PartsKept verify e s p

variable {verify} {f : Fault} {e : Edit} {now : Bytes} {s t : Site} {p : Post}

theorem finish_i18n : (finish verify e now s).i18n =
    setI18n (e.translationCall s) (setI18n e.langCall s.i18n) := by
  have hcall {t : Site} (hcolumns : t.columns = s.columns) (hdb : t.db = applySeries e now s.db) :
      e.translationCall t = e.translationCall s := by
    have hpair (other : ℤ) : t.mayPair e other = s.mayPair e other := by
      rw [Site.mayPair, Site.mayPair, Site.hasPost, Site.hasPost, hcolumns, hdb,
        hasPost_applySeries]
    simp only [Edit.translationCall, hpair]
  exact congrArg (setI18n · _) (hcall rfl rfl)

theorem unchanged_finish_iff (hp : s.db.posts.find? e.post = some p) :
    Unchanged e.post s (finish verify e now s) ↔ PartsKept verify e s p := by
  have hid : p.id = e.post := (Table.find?_eq_some.mp hp).2
  have hpost : 0 < e.post := hid ▸ p.id_pos
  have hplace : (finish verify e now s).db.posts.find? e.post = some (placed s.db e p) :=
    find?_applySeries hp
  have hgroups := setI18n_both_eq_iff (e := e) (p := s.i18n) (t := s)
    (Int32.lt_iff_toInt_lt.mpr hpost)
  have hi18n : (finish verify e now s).i18n = _ := finish_i18n
  rw [← hi18n] at hgroups
  constructor
  · intro h
    have hrow := h.place
    rw [hplace, hp] at hrow
    obtain ⟨hlang, htranslation⟩ := hgroups.mp h.groups
    exact ⟨attachFiles_eq_iff.mp h.files, (setTags_same_iff hpost).mp h.tags,
      placed_eq_iff.mp (Option.some.inj hrow), hlang, htranslation⟩
  · intro h
    refine ⟨rfl, ?_, rfl, (setTags_same_iff hpost).mpr h.tags,
      hgroups.mpr ⟨h.lang, h.translation⟩, attachFiles_eq_iff.mpr h.files⟩
    rw [hplace, hp, placed_eq_iff.mpr h.series]

theorem Revisions.exists_mem_save (rs : Revisions) {id : ℤ} (hid : 0 < id)
    (title content summary : Bytes) (editorId : ℤ) (now : Bytes) :
    ∃ r ∈ (rs.save id title content summary editorId now).rows, r.postId = id ∧
      rs.sequence < r.id := by
  refine ⟨⟨rs.sequence + 1, id, title, content, summary, editorId, now⟩, ?_, rfl,
    Nat.lt_succ_self _⟩
  rw [Revisions.save, if_neg (Int.not_le.mpr hid)]
  refine List.mem_filter.mpr ⟨List.mem_concat_self, decide_eq_true (.inr ?_)⟩
  rw [List.countP_eq_zero.mpr]
  · decide
  -- no revision is newer
  intro q hq hlater
  have hgt : rs.sequence + 1 < q.id := (of_decide_eq_true hlater).2
  rcases List.mem_append.mp hq with hold | hnew
  · have hle := rs.le_sequence q hold
    omega
  · rw [List.mem_singleton.mp hnew] at hgt
    exact absurd hgt (Nat.lt_irrefl _)

def handed (f : Fault) (e : Edit) (now : Bytes) (s : Site) : Site :=
  (dbPostUpdate (some f) s (keepRevision e now s) e.post (e.update (s.columns e.post)) now).1

theorem handlerPostEditPost_failed (hp : s.db.posts.find? e.post = some p) :
    handlerPostEditPost verify (some f) e now s =
      (finish verify e now (handed f e now s), some false) := by
  rw [handlerPostEditPost, hp, handed, dbPostUpdate]
  rcases f with ⟨_ | _, undone⟩ <;> rfl

theorem handed_undone (h : f.undone = true) : handed f e now s = s := by
  rw [handed, dbPostUpdate]
  rcases f with ⟨_ | _, undone⟩ <;> exact if_pos h

theorem handed_eq (h : ¬f.undone = true) : handed f e now s =
    match f.stmt with
    | .update => keepRevision e now s
    | .reset =>
      (keepRevision e now s).updatePost e.post (e.update (s.columns e.post)) now := by
  rw [handed, dbPostUpdate]
  rcases f.stmt with _ | _ <;> exact if_neg h

theorem updatePost_of_rowKept (hp : s.db.posts.find? e.post = some p)
    (h : RowKept e now (s.columns e.post) p) :
    s.updatePost e.post (e.update (s.columns e.post)) now = s := by
  obtain ⟨hmem, hid⟩ := Table.find?_eq_some.mp hp
  have hposts (f : Post → Post) (hf : ∀ q, (f q).id = q.id)
      (hsame : ∀ q ∈ s.db.posts.rows, f q = q) : s.db.posts.update f hf = s.db.posts := by
    refine Table.ext_rows ((List.map_congr_left hsame).trans (List.map_id _))
  rw [Site.updatePost, hposts, h.1, Function.update_eq_self]
  intro q hq
  split
  · next heq =>
    rw [s.db.posts.eq_of_key_eq hq hmem (heq.trans hid.symm)]
    exact h.2
  · rfl

theorem handed_eq_self (hp : s.db.posts.find? e.post = some p) (hundone : ¬f.undone = true)
    (htext : TextKept e (s.columns e.post))
    (hrow : f.stmt = .update ∨ RowKept e now (s.columns e.post) p) : handed f e now s = s := by
  have hkeep : keepRevision e now s = s := if_pos htext
  rw [handed_eq hundone, hkeep]
  rcases hstmt : f.stmt with _ | _
  · rfl
  · rw [hstmt] at hrow
    exact updatePost_of_rowKept hp (hrow.resolve_left nofun)

theorem textKept_of_unchanged (hpost : 0 < e.post) (hundone : ¬f.undone = true)
    (h : Unchanged e.post s (finish verify e now (handed f e now s))) :
    TextKept e (s.columns e.post) := by
  by_contra hnew
  have hrevisions : (handed f e now s).revisions = (keepRevision e now s).revisions := by
    rw [handed_eq hundone]
    rcases f.stmt with _ | _ <;> rfl
  have hkept : (handed f e now s).revisions.rows.filter (·.postId = e.post) =
    s.revisions.rows.filter (·.postId = e.post) := h.revisions
  rw [TextKept] at hnew
  rw [hrevisions, keepRevision, if_neg hnew] at hkept
  obtain ⟨r, hr, hid, hlater⟩ := s.revisions.exists_mem_save hpost
    (s.columns e.post).title (s.columns e.post).content ((s.columns e.post).summary.getD []) e.uid
    now
  have hold : r ∈ s.revisions.rows.filter (·.postId = e.post) :=
    hkept ▸ List.mem_filter.mpr ⟨hr, decide_eq_true hid⟩
  exact absurd (s.revisions.le_sequence r (List.mem_filter.mp hold).1) (Nat.not_le.mpr hlater)

theorem rowKept_of_unchanged (hp : s.db.posts.find? e.post = some p)
    (hundone : ¬f.undone = true) (htext : TextKept e (s.columns e.post)) (hstmt : f.stmt = .reset)
    (h : Unchanged e.post s (finish verify e now (handed f e now s))) :
    RowKept e now (s.columns e.post) p := by
  have hkeep : keepRevision e now s = s := if_pos htext
  have hhanded : handed f e now s = s.updatePost e.post (e.update (s.columns e.post)) now := by
    rw [handed_eq hundone, hkeep, hstmt]
  rw [hhanded] at h
  have hcolumns := h.columns
  have hplace := h.place
  have hfind : (s.updatePost e.post (e.update (s.columns e.post)) now).db.posts.find? e.post =
      some ((e.update (s.columns e.post)).stamp p) := by
    rw [Site.updatePost, Table.find?_update, hp, Option.map_some,
      if_pos (Table.find?_eq_some.mp hp).2]
  have hfinished : (applySeries e now _).posts.find? e.post = _ := find?_applySeries hfind
  refine ⟨(Function.update_self ..).symm.trans hcolumns, ?_⟩
  have hstamp : (e.update (s.columns e.post)).publishAt.getD p.createdAt = p.createdAt := by
    have hsame := Option.some.inj (hfinished.symm.trans (hplace.trans hp))
    exact createdAt_placed.symm.trans (congrArg Post.createdAt hsame)
  rw [Update.stamp, hstamp]

theorem failsClean_of_harmless (hp : s.db.posts.find? e.post = some p)
    (h : Harmless verify f e now s p) :
    Unchanged e.post s (finish verify e now (handed f e now s)) := by
  have hsame : handed f e now s = s := by
    by_cases hundone : f.undone = true
    · exact handed_undone hundone
    · exact handed_eq_self hp hundone (h.text.resolve_left hundone) (h.row.resolve_left hundone)
  rw [hsame]
  exact (unchanged_finish_iff hp).mpr h.parts

theorem harmless_of_failsClean (hp : s.db.posts.find? e.post = some p)
    (h : Unchanged e.post s (finish verify e now (handed f e now s))) :
    Harmless verify f e now s p := by
  by_cases hundone : f.undone = true
  · rw [handed_undone hundone] at h
    exact ⟨.inl hundone, .inl hundone, (unchanged_finish_iff hp).mp h⟩
  have hpost : 0 < e.post := (Table.find?_eq_some.mp hp).2 ▸ p.id_pos
  have htext := textKept_of_unchanged hpost hundone h
  have hrow : f.stmt = .update ∨ RowKept e now (s.columns e.post) p := by
    rcases hstmt : f.stmt with _ | _
    · exact .inl rfl
    · exact .inr (rowKept_of_unchanged hp hundone htext hstmt h)
  rw [handed_eq_self hp hundone htext hrow] at h
  exact ⟨.inr htext, .inr hrow, (unchanged_finish_iff hp).mp h⟩

/-- If `db_post_update` fails, the edit has changed nothing just where nothing that it writes
differs from what is stored. -/
theorem failsClean_iff : FailsClean verify f e now s ↔
    ∀ p, s.db.posts.find? e.post = some p → Harmless verify f e now s p := by
  rw [FailsClean]
  rcases hp : s.db.posts.find? e.post with _ | p
  · rw [handlerPostEditPost, hp]
    simp
  · rw [handlerPostEditPost_failed hp]
    dsimp only
    simp only [true_imp_iff, Option.some.injEq, forall_eq']
    exact ⟨harmless_of_failsClean hp, failsClean_of_harmless hp⟩

end Failure

/-! ## A new title -/

def helloPost : Post where
  id := 1
  id_pos := Int.one_pos
  seriesId := none
  seriesPos := 0
  createdAt := bytes "2026-01-05 09:30:00"
  other := []

def helloSite : Site where
  db := ⟨⟨[helloPost], List.nodup_singleton _⟩, .empty, 0, List.forall_mem_nil _, []⟩
  columns _ := ⟨some 1, 7, bytes "Hello", bytes "First post", some [], some [], bytes "hello", 0, 0,
    some [], bytes "published", 1, bytes "2026-01-05 09:30:00"⟩
  revisions := ⟨[], 0, List.forall_mem_nil _⟩
  files _ := none
  tags := ⟨[], [], 0, List.forall_mem_nil _, List.forall_mem_nil _, .nil, .nil⟩
  i18n := ⟨fun _ _ => none, []⟩

/-- The author gives it another title and no optional field. -/
def retitled : Edit where
  id := 1
  uid := 7
  role := .user
  boardId := 1
  title := bytes "Hello again"
  content := bytes "First post"
  summary := none
  signature := none
  isNotice := none
  status := bytes "published"
  publishAt := none
  mediaMeta := []
  tags := none
  series := none
  seriesPos := none
  lang := none
  translationOf := none

/-- The title stays, and a revision of it is kept. -/
theorem retitled_not_clean : ¬∀ verify f e now s, FailsClean verify f e now s := by
  intro h
  have hp : helloSite.db.posts.find? retitled.post = some helloPost := rfl
  have hclean := h (fun _ _ => false) ⟨.update, false⟩ retitled [] helloSite
  rw [FailsClean, handlerPostEditPost_failed hp] at hclean
  have hharmless := harmless_of_failsClean hp (hclean rfl)
  exact absurd (hharmless.text.resolve_left nofun).1 (by decide)

end FlyBoard.PostEdit
