import FlyBoard.Lib.Markers
import FlyBoard.Utils.Cache

/-!
# Keys of the page cache (`src/utils/cache.c`, `src/handlers/post.c`)

A key joins the arguments of a page by markers such as `:r=` and is cut where its buffer
ends. Slug, role and the texts of a search may hold the markers themselves, and may be long.
-/

namespace FlyBoard.CacheKeys

open Bytes Markers

/-! ## Calls -/

/-- What the handlers know of who asks: nobody, or an account's role in `char role[32]` and
its id. `handler_admin_user_role` may set any role, an empty one too. -/
structure Session where
  role : Bytes
  uid : ℕ
  signed : role = [] ∧ uid = 0 ∨ role.length ≤ 31 ∧ 0 < uid ∧ uid < 2 ^ 31

/-- `role && role[0] ? role : "guest"` -/
def Session.roleText (s : Session) : Bytes := if s.role.isEmpty then bytes "guest" else s.role

def guest : Session := ⟨[], 0, .inl ⟨rfl, rfl⟩⟩

/-- A call of `page_cache_key_post`. -/
structure PostCall where
  slug : Bytes
  dark : Bool
  mobile : Bool
  session : Session
  /-- `write_policy_generation`, `post_schedule_generation` -/
  writePolicy : ℕ
  schedule : ℕ

def postKey (x : PostCall) : Bytes :=
  PageCache.keyPost x.slug x.dark x.mobile x.session.role x.session.uid x.writePolicy x.schedule

/-- The check of `handler_post_list` on `from` and `to`. -/
def isDate (s : Bytes) : Bool :=
  s.length == 10 &&
    (List.range 10).all fun i => if i = 4 ∨ i = 7 then s.getD i 0 == 45 else isDigit (s.getD i 0)

/-- The arguments of `page_cache_key_board`, after the checks of `handler_post_list`. A
missing search lists every post, an empty one none; other missing texts are read as empty
ones everywhere. -/
structure BoardCall where
  slug : Bytes
  page : {n : ℕ // 1 ≤ n ∧ n < 2 ^ 31}
  dark : Bool
  mobile : Bool
  session : Session
  search : Option Bytes
  searchType : Bytes
  tag : Bytes
  series : Bytes
  /-- `filters.from`, `filters.to` -/
  dateFrom : Option {s : Bytes // isDate s = true}
  dateTo : Option {s : Bytes // isDate s = true}
  writePolicy : ℕ
  schedule : ℕ

/-- A C `bool` under `%d`. -/
def digit (b : Bool) : Bytes := if b then bytes "1" else bytes "0"

def dateText (d : Option {s : Bytes // isDate s = true}) : Bytes := (d.map Subtype.val).getD []

/-- What `snprintf` is to write for a board. -/
def boardText (x : BoardCall) : Bytes :=
  let head := bytes "board:" ++ x.slug ++ bytes ":p=" ++ decimal x.page ++ bytes ":d=" ++
    digit x.dark ++ bytes ":m=" ++ digit x.mobile ++ bytes ":r=" ++ x.session.roleText ++
    bytes ":u=" ++ decimal x.session.uid
  let filters := bytes ":s=" ++ x.search.getD [] ++ bytes ":st=" ++ x.searchType ++
    bytes ":t=" ++ x.tag ++ bytes ":se=" ++ x.series ++ bytes ":f=" ++ dateText x.dateFrom ++
    bytes ":to=" ++ dateText x.dateTo
  head ++ filters ++ bytes ":w=" ++ decimal x.writePolicy ++ bytes ":pg=" ++ decimal x.schedule

/-- `page_cache_key_board`, in a buffer of 768 bytes. -/
def boardKey (x : BoardCall) : Bytes := snprintfS 768 (boardText x)

/-- What `snprintf` is to write for a post. -/
def postText (x : PostCall) : Bytes :=
  bytes "post:" ++ x.slug ++ bytes ":d=" ++ digit x.dark ++ bytes ":m=" ++ digit x.mobile ++
    bytes ":r=" ++ x.session.roleText ++ bytes ":u=" ++ decimal x.session.uid ++ bytes ":w=" ++
    decimal x.writePolicy ++ bytes ":pg=" ++ decimal x.schedule

theorem postKey_eq (x : PostCall) : postKey x = snprintfS 512 (postText x) := rfl

/-! ## What the keys promise -/

def PostKeySeparates (x : PostCall) : Prop :=
  ∀ y, postKey y = postKey x →
    y.slug = x.slug ∧ y.dark = x.dark ∧ y.mobile = x.mobile ∧ y.session = x.session

def BoardKeySeparates (x : BoardCall) : Prop :=
  ∀ y, boardKey y = boardKey x →
    y.slug = x.slug ∧ y.page = x.page ∧ y.dark = x.dark ∧ y.mobile = x.mobile ∧
      y.session = x.session ∧ y.search = x.search ∧ y.searchType = x.searchType ∧
      y.tag = x.tag ∧ y.series = x.series ∧ y.dateFrom = x.dateFrom ∧
      y.dateTo = x.dateTo

/-! ## When they keep it -/

/-- What stands between slug and role in the key of a post. -/
def roleMark (dark mobile : Bool) : Bytes :=
  bytes ":d=" ++ digit dark ++ bytes ":m=" ++ digit mobile ++ bytes ":r="

/-- The role is not printed like another one: an account without a role is printed as one
of the role `guest`. -/
def Session.Named (s : Session) : Prop := s.uid = 0 ∨ s.role ≠ [] ∧ s.role ≠ bytes "guest"

/-- From slug to role no role mark stands with a possible role after it but in its place;
a guest's role is fixed. -/
def RoleMarkAlone (x : PostCall) : Prop :=
  x.session.uid = 0 ∨ ∀ a dark mobile role, role ≠ [] → role.length ≤ 31 →
    a ++ roleMark dark mobile ++ role =
      x.slug ++ roleMark x.dark x.mobile ++ x.session.roleText → a = x.slug

/-- What stands between slug and search text in the key of a board. -/
def sessionMark (page : ℕ) (dark mobile : Bool) (s : Session) : Bytes :=
  bytes ":p=" ++ decimal page ++ roleMark dark mobile ++ s.roleText ++ bytes ":u=" ++
    decimal s.uid ++ bytes ":s="

def boardMarks : List (Set Bytes) :=
  [{m | ∃ page dark mobile s, 1 ≤ page ∧ page < 2 ^ 31 ∧ m = sessionMark page dark mobile s},
   {bytes ":st="}, {bytes ":t="}, {bytes ":se="}]

/-- The texts of a board key after the slug, each with the marker before it. -/
def BoardCall.parts (x : BoardCall) : List (Bytes × Bytes) :=
  [(sessionMark x.page x.dark x.mobile x.session, x.search.getD []),
   (bytes ":st=", x.searchType), (bytes ":t=", x.tag), (bytes ":se=", x.series)]

/-! ## Fields -/

theorem Session.ext {s s' : Session} (hrole : s.role = s'.role) (huid : s.uid = s'.uid) :
    s = s' := by
  cases s
  cases s'
  cases hrole
  cases huid
  rfl

variable {s : Session}

theorem Session.eq_guest (h : s.uid = 0) : s = guest := by
  rcases s.signed with ⟨hrole, h0⟩ | ⟨-, hpos, -⟩
  · exact Session.ext hrole h0
  · omega

theorem Session.roleText_of_ne (h : s.role ≠ []) : s.roleText = s.role := by
  rw [roleText, List.isEmpty_eq_false_iff.mpr h]
  rfl

theorem Session.roleText_of_nil (h : s.role = []) :
    s.roleText = bytes "guest" := by
  rw [roleText, h]
  rfl

theorem Session.roleText_ne_nil (s : Session) : s.roleText ≠ [] := by
  by_cases h : s.role = []
  · rw [roleText_of_nil h]
    decide
  · rwa [roleText_of_ne h]

theorem Session.length_roleText_le (s : Session) : s.roleText.length ≤ 31 := by
  by_cases h : s.role = []
  · rw [roleText_of_nil h]
    decide
  · rw [roleText_of_ne h]
    rcases s.signed with ⟨hrole, -⟩ | ⟨hlen, -⟩
    · exact absurd hrole h
    · exact hlen

/-- The role as it is printed, and the user id, say who asks, if that role is named. -/
theorem Session.Named.eq_of_text {s s' : Session} (h : s.Named)
    (hrole : s'.roleText = s.roleText) (huid : s'.uid = s.uid) : s' = s := by
  rcases h with h0 | ⟨hne, hguest⟩
  · rw [eq_guest h0, eq_guest (huid.trans h0)]
  · rw [roleText_of_ne hne] at hrole
    by_cases hnil : s'.role = []
    · rw [roleText_of_nil hnil] at hrole
      exact absurd hrole.symm hguest
    · rw [roleText_of_ne hnil] at hrole
      exact Session.ext hrole huid

theorem Session.exists_same_text (h : ¬ s.Named) :
    ∃ s' : Session, s'.roleText = s.roleText ∧ s'.uid = s.uid ∧ s' ≠ s := by
  have h0 : s.uid ≠ 0 := fun h0 => h (.inl h0)
  rcases s.signed with ⟨-, hzero⟩ | ⟨-, hpos, hmax⟩
  · exact absurd hzero h0
  · by_cases hnil : s.role = []
    · refine ⟨⟨bytes "guest", s.uid, .inr ⟨by decide, hpos, hmax⟩⟩,
        (roleText_of_nil hnil).symm, rfl, ?_⟩
      intro hsame
      rw [← hsame] at hnil
      have hguest : bytes "guest" ≠ [] := by decide
      exact hguest hnil
    · have hguest : s.role = bytes "guest" := by
        by_contra hne
        exact h (.inr ⟨hnil, hne⟩)
      refine ⟨⟨[], s.uid, .inr ⟨by decide, hpos, hmax⟩⟩, ?_, rfl, ?_⟩
      · rw [roleText_of_ne hnil, hguest]
        rfl
      · intro hsame
        rw [← hsame] at hnil
        exact hnil rfl

theorem length_digit (b : Bool) : (digit b).length = 1 := by
  cases b <;> rfl

theorem not_mem_name_decimal {name : Bytes} (hname : (58 : UInt8) ∉ name) (n : ℕ) :
    (58 : UInt8) ∉ name ++ decimal n := by
  intro hmem
  rcases List.mem_append.mp hmem with hleft | hright
  · exact hname hleft
  · exact not_mem_decimal (by decide) hright

/-- The last field of a text, a name and a number, can be told from what is before it. -/
theorem cut_number {s s' name : Bytes} (hname : (58 : UInt8) ∉ name) {n n' : ℕ}
    (h : s ++ (58 :: name) ++ decimal n = s' ++ (58 :: name) ++ decimal n') :
    s = s' ∧ n = n' := by
  rw [List.append_assoc, List.append_assoc] at h
  rcases cut_last (not_mem_name_decimal hname n) (not_mem_name_decimal hname n') h with
    ⟨hs, hfield⟩
  exact ⟨hs, decimal_injective (List.append_cancel_left hfield)⟩

theorem mem_isDate {s : Bytes} (h : isDate s = true) {c : UInt8} (hc : c ∈ s) :
    c = 45 ∨ isDigit c = true := by
  unfold isDate at h
  rw [Bool.and_eq_true, beq_iff_eq, List.all_eq_true] at h
  rcases List.mem_iff_getElem.mp hc with ⟨i, hi, rfl⟩
  have hbyte := h.2 i (List.mem_range.mpr (h.1 ▸ hi))
  have hget : s.getD i 0 = s[i] := (List.getElem_eq_getD 0).symm
  rw [hget] at hbyte
  split at hbyte
  · exact .inl (beq_iff_eq.mp hbyte)
  · exact .inr hbyte

theorem not_mem_dateText (d : Option {s : Bytes // isDate s = true}) :
    (58 : UInt8) ∉ dateText d := by
  cases d with
  | none => exact nofun
  | some d =>
    intro hmem
    rcases mem_isDate d.2 hmem with h | h
    · exact absurd h (by decide)
    · exact absurd h (by decide)

theorem dateText_injective : Function.Injective dateText := by
  have hlen : ∀ d : {s : Bytes // isDate s = true}, d.1 ≠ [] := by
    intro d hnil
    have hdate := d.2
    rw [hnil] at hdate
    exact absurd hdate (by decide)
  intro d d' h
  cases d with
  | none =>
    cases d' with
    | none => rfl
    | some d' => exact absurd h.symm (hlen d')
  | some d =>
    cases d' with
    | none => exact absurd h (hlen d)
    | some d' => exact congrArg some (Subtype.ext h)

theorem cut_date {s s' name : Bytes} (hname : (58 : UInt8) ∉ name)
    {d d' : Option {s : Bytes // isDate s = true}}
    (h : s ++ (58 :: name) ++ dateText d = s' ++ (58 :: name) ++ dateText d') :
    s = s' ∧ d = d' := by
  have hfield : ∀ d, (58 : UInt8) ∉ name ++ dateText d := by
    intro d hmem
    rcases List.mem_append.mp hmem with hleft | hright
    · exact hname hleft
    · exact not_mem_dateText d hright
  rw [List.append_assoc, List.append_assoc] at h
  rcases cut_last (hfield d) (hfield d') h with ⟨hs, heq⟩
  exact ⟨hs, dateText_injective (List.append_cancel_left heq)⟩

theorem roleMark_append_inj {dark mobile dark' mobile' : Bool} {s s' : Bytes}
    (h : roleMark dark mobile ++ s = roleMark dark' mobile' ++ s') :
    dark = dark' ∧ mobile = mobile' ∧ s = s' := by
  have hlen : (roleMark dark mobile).length = (roleMark dark' mobile').length := by
    simp [roleMark, length_digit]
  rcases List.append_inj h hlen with ⟨hmark, hrest⟩
  refine ⟨?_, ?_, hrest⟩
  · revert hmark
    cases dark <;> cases dark' <;> cases mobile <;> cases mobile' <;> decide +kernel
  · revert hmark
    cases dark <;> cases dark' <;> cases mobile <;> cases mobile' <;> decide +kernel

theorem sessionMark_inj {page page' : ℕ} {dark dark' mobile mobile' : Bool} {s s' : Session}
    (h : sessionMark page dark mobile s = sessionMark page' dark' mobile' s') :
    page = page' ∧ dark = dark' ∧ mobile = mobile' ∧ s.roleText = s'.roleText ∧
      s.uid = s'.uid := by
  have hmark : ∀ page dark mobile (s : Session), sessionMark page dark mobile s =
      bytes ":p=" ++ (decimal page ++ 58 :: ((roleMark dark mobile).tail ++ (s.roleText ++
        (58 :: bytes "u=") ++ decimal s.uid) ++ bytes ":s=")) := by
    intro page dark mobile s
    have hhead : roleMark dark mobile = 58 :: (roleMark dark mobile).tail := rfl
    rw [sessionMark, hhead]
    simp only [List.append_assoc, List.cons_append, List.tail_cons]
    rfl
  rw [hmark, hmark] at h
  rcases cut_first (not_mem_decimal (by decide)) (not_mem_decimal (by decide))
    (List.append_cancel_left h) with ⟨hpage, hrest⟩
  have hrest' : roleMark dark mobile ++ (s.roleText ++ (58 :: bytes "u=") ++ decimal s.uid) =
      roleMark dark' mobile' ++ (s'.roleText ++ (58 :: bytes "u=") ++ decimal s'.uid) :=
    congrArg (58 :: ·) (List.append_cancel_right hrest)
  rcases roleMark_append_inj hrest' with ⟨hdark, hmobile, hsession⟩
  rcases cut_number (by decide) hsession with ⟨hrole, huid⟩
  exact ⟨decimal_injective hpage, hdark, hmobile, hrole, huid⟩

/-! ## The cut -/

/-- A key that fills its buffer is that of a call whose slug is all that follows the first
name. -/
theorem take_full {n : ℕ} {name s rest : Bytes} (hs : name <+: s) (hn : name.length ≤ n)
    (hlen : n ≤ s.length) :
    (name ++ (s.take n).drop name.length ++ rest).take n = s.take n := by
  rcases hs with ⟨t, rfl⟩
  have hwhole : name ++ ((name ++ t).take n).drop name.length = (name ++ t).take n := by
    rw [List.take_append, List.take_of_length_le hn, List.drop_left]
  rw [hwhole, List.take_append_of_le_length, List.take_take, Nat.min_self]
  rw [List.length_take]
  omega

/-! ## Posts -/

theorem postText_fields (x : PostCall) : postText x =
    ((bytes "post:" ++ (x.slug ++ roleMark x.dark x.mobile ++ x.session.roleText)) ++
      (58 :: bytes "u=") ++ decimal x.session.uid) ++ (58 :: bytes "w=") ++
      decimal x.writePolicy ++ (58 :: bytes "pg=") ++ decimal x.schedule := by
  have hu : 58 :: bytes "u=" = bytes ":u=" := rfl
  have hw : 58 :: bytes "w=" = bytes ":w=" := rfl
  have hpg : 58 :: bytes "pg=" = bytes ":pg=" := rfl
  rw [hu, hw, hpg]
  simp only [postText, roleMark, List.append_assoc]

theorem RoleMarkAlone.args_eq {x y : PostCall} (h : RoleMarkAlone x)
    (hnamed : x.session.Named) (htext : postText y = postText x) :
    y.slug = x.slug ∧ y.dark = x.dark ∧ y.mobile = x.mobile ∧ y.session = x.session := by
  rw [postText_fields, postText_fields] at htext
  rcases cut_number (by decide) htext with ⟨htext, -⟩
  rcases cut_number (by decide) htext with ⟨htext, -⟩
  rcases cut_number (by decide) htext with ⟨htext, huid⟩
  have hjoined := List.append_cancel_left htext
  have hslug : y.slug = x.slug := by
    rcases h with h0 | h
    · -- what follows the slug of a guest has one length
      have hguest := Session.eq_guest h0
      have hguest' := Session.eq_guest (huid.trans h0)
      rw [hguest, hguest', List.append_assoc, List.append_assoc] at hjoined
      have hlen : (roleMark y.dark y.mobile ++ guest.roleText).length =
          (roleMark x.dark x.mobile ++ guest.roleText).length := by
        simp [roleMark, length_digit]
      exact (List.append_inj' hjoined hlen).1
    · exact h y.slug y.dark y.mobile y.session.roleText y.session.roleText_ne_nil
        y.session.length_roleText_le hjoined
  rw [hslug, List.append_assoc, List.append_assoc] at hjoined
  rcases roleMark_append_inj (List.append_cancel_left hjoined) with ⟨hdark, hmobile, hrole⟩
  exact ⟨hslug, hdark, hmobile, hnamed.eq_of_text hrole huid⟩

/-- The key of a post separates its call from all others exactly when it is not cut, its
role is named and no second role mark can be read. -/
theorem postKey_separates_iff (x : PostCall) :
    PostKeySeparates x ↔
      (postText x).length < 511 ∧ x.session.Named ∧ RoleMarkAlone x := by
  constructor
  · intro h
    refine ⟨?_, ?_, ?_⟩
    · by_contra hlong
      have hlen : 511 ≤ (postText x).length := Nat.le_of_not_lt hlong
      have hname : bytes "post:" <+: postText x := by
        rw [postText]
        simp only [List.append_assoc]
        exact List.prefix_append _ _
      have hkey : postKey { x with slug := (postKey x).drop 5, dark := !x.dark } = postKey x := by
        rw [postKey_eq, postKey_eq, postText]
        simp only [List.append_assoc]
        rw [← List.append_assoc]
        exact take_full hname (by decide) hlen
      exact Bool.not_ne_self x.dark (h _ hkey).2.1
    · by_contra hunnamed
      rcases Session.exists_same_text hunnamed with ⟨s', hrole, huid, hne⟩
      have hkey : postKey { x with session := s' } = postKey x := by
        simp only [postKey_eq, postText, hrole, huid]
      exact hne (h _ hkey).2.2.2
    · rcases x.session.signed with ⟨-, hzero⟩ | ⟨-, hpos, hmax⟩
      · exact .inl hzero
      · refine .inr ?_
        intro a dark mobile role hrole hlen heq
        have hsession : Session.roleText ⟨role, x.session.uid, .inr ⟨hlen, hpos, hmax⟩⟩ =
            role := Session.roleText_of_ne hrole
        have htext : postText ⟨a, dark, mobile,
            ⟨role, x.session.uid, .inr ⟨hlen, hpos, hmax⟩⟩, x.writePolicy, x.schedule⟩ =
              postText x := by
          rw [postText_fields, postText_fields]
          dsimp only
          rw [hsession, heq]
        exact (h _ (congrArg (snprintfS 512) htext)).1
  · rintro ⟨hlen, hnamed, halone⟩ y hkey
    rw [postKey_eq, postKey_eq] at hkey
    exact halone.args_eq hnamed (eq_of_take_eq hlen hkey)

/-! ## Boards -/

theorem boardText_eq (x : BoardCall) : boardText x =
    bytes "board:" ++ (join x.slug x.parts ++ bytes ":f=" ++ dateText x.dateFrom ++
      bytes ":to=" ++ dateText x.dateTo ++ bytes ":w=" ++ decimal x.writePolicy ++
      bytes ":pg=" ++ decimal x.schedule) := by
  simp only [boardText, BoardCall.parts, join, sessionMark, roleMark, List.append_assoc]

theorem boardText_fields (x : BoardCall) : boardText x =
    bytes "board:" ++ join x.slug x.parts ++ (58 :: bytes "f=") ++ dateText x.dateFrom ++
      (58 :: bytes "to=") ++ dateText x.dateTo ++ (58 :: bytes "w=") ++
      decimal x.writePolicy ++ (58 :: bytes "pg=") ++ decimal x.schedule := by
  rw [boardText_eq]
  simp only [← List.append_assoc]
  rfl

variable {x y : BoardCall}

theorem boardText_inj (h : boardText y = boardText x) :
    join y.slug y.parts = join x.slug x.parts ∧ y.dateFrom = x.dateFrom ∧
      y.dateTo = x.dateTo := by
  rw [boardText_fields, boardText_fields] at h
  rcases cut_number (by decide) h with ⟨h, -⟩
  rcases cut_number (by decide) h with ⟨h, -⟩
  rcases cut_date (by decide) h with ⟨h, hto⟩
  rcases cut_date (by decide) h with ⟨h, hfrom⟩
  exact ⟨List.append_cancel_left h, hfrom, hto⟩

theorem marked_parts (x : BoardCall) : Marked boardMarks x.parts :=
  .cons ⟨x.page, x.dark, x.mobile, x.session, x.page.2.1, x.page.2.2, rfl⟩
    (.cons rfl (.cons rfl (.cons rfl .nil)))

theorem exists_call {rs : List (Bytes × Bytes)} (h : Marked boardMarks rs) (slug : Bytes)
    (x : BoardCall) :
    ∃ y : BoardCall, y.slug = slug ∧ y.parts = rs ∧ y.dateFrom = x.dateFrom ∧
      y.dateTo = x.dateTo ∧ y.writePolicy = x.writePolicy ∧ y.schedule = x.schedule := by
  cases h with
  | @cons _ r _ rs hr h =>
  cases h with
  | @cons _ r₂ _ rs hr₂ h =>
  cases h with
  | @cons _ r₃ _ rs hr₃ h =>
  cases h with
  | @cons _ r₄ _ rs hr₄ h =>
  cases h
  rcases r with ⟨m, search⟩
  rcases r₂ with ⟨m₂, searchType⟩
  rcases r₃ with ⟨m₃, tag⟩
  rcases r₄ with ⟨m₄, series⟩
  rcases hr with ⟨page, dark, mobile, s, hlow, hhigh, hm⟩
  cases hm
  cases hr₂
  cases hr₃
  cases hr₄
  exact ⟨⟨slug, ⟨page, hlow, hhigh⟩, dark, mobile, s, some search, searchType, tag, series,
    x.dateFrom, x.dateTo, x.writePolicy, x.schedule⟩, rfl, rfl, rfl, rfl, rfl, rfl⟩

/-- Calls of one reading have the same arguments, if the role is named and there is a search
text. -/
theorem args_eq_of_parts (hparts : y.parts = x.parts)
    (hnamed : x.session.Named) (hsearch : x.search.getD [] ≠ []) :
    y.page = x.page ∧ y.dark = x.dark ∧ y.mobile = x.mobile ∧ y.session = x.session ∧
      y.search = x.search ∧ y.searchType = x.searchType ∧ y.tag = x.tag ∧
      y.series = x.series := by
  simp only [BoardCall.parts, List.cons.injEq, Prod.mk.injEq, and_true] at hparts
  rcases hparts with ⟨⟨hmark, htext⟩, ⟨-, htype⟩, ⟨-, htag⟩, -, hseries⟩
  rcases sessionMark_inj hmark with ⟨hpage, hdark, hmobile, hrole, huid⟩
  refine ⟨Subtype.ext hpage, hdark, hmobile, hnamed.eq_of_text hrole huid, ?_, htype, htag,
    hseries⟩
  cases hx : x.search with
  | none =>
    rw [hx] at hsearch
    exact absurd rfl hsearch
  | some text =>
    cases hy : y.search with
    | none =>
      rw [hx, hy] at htext
      rw [hx] at hsearch
      exact absurd htext.symm hsearch
    | some text' =>
      rw [hx, hy] at htext
      exact congrArg some htext

/-- The key of a board separates its call from all others exactly when it is not cut, its
role is named, there is a search text, and no marker can be read in a second place. -/
theorem boardKey_separates_iff (x : BoardCall) :
    BoardKeySeparates x ↔ (boardText x).length < 767 ∧ x.session.Named ∧
      x.search.getD [] ≠ [] ∧ AllLone boardMarks x.slug x.parts := by
  constructor
  · intro h
    refine ⟨?_, ?_, ?_, ?_⟩
    · by_contra hlong
      have hlen : 767 ≤ (boardText x).length := Nat.le_of_not_lt hlong
      have hname : bytes "board:" <+: boardText x := by
        rw [boardText_eq]
        exact List.prefix_append _ _
      have hkey : boardKey { x with slug := (boardKey x).drop 6, dark := !x.dark } =
          boardKey x := by
        rw [boardKey, boardKey, boardText]
        simp only [List.append_assoc]
        rw [← List.append_assoc]
        exact take_full hname (by decide) hlen
      exact Bool.not_ne_self x.dark (h _ hkey).2.2.1
    · by_contra hunnamed
      rcases Session.exists_same_text hunnamed with ⟨s', hrole, huid, hne⟩
      have hkey : boardKey { x with session := s' } = boardKey x := by
        simp only [boardKey, boardText, hrole, huid]
      exact hne (h _ hkey).2.2.2.2.1
    · intro hsearch
      -- a missing search and an empty one are printed alike
      have hkey : ∀ search : Option Bytes, search.getD [] = [] →
          boardKey { x with search := search } = boardKey x := by
        intro search hnone
        simp only [boardKey, boardText, hnone, hsearch]
      have hnone := (h _ (hkey none rfl)).2.2.2.2.2.1
      have hempty := (h _ (hkey (some []) rfl)).2.2.2.2.2.1
      exact absurd (hnone.trans hempty.symm) nofun
    · rw [allLone_iff (marked_parts x)]
      intro a rs hmarked hjoin
      rcases exists_call hmarked a x with ⟨y, rfl, rfl, hfrom, hto, hpolicy, hschedule⟩
      have hkey : boardKey y = boardKey x := by
        rw [boardKey, boardKey, boardText_fields, boardText_fields, hjoin, hfrom, hto, hpolicy,
          hschedule]
      rcases h y hkey with ⟨hslug, hpage, hdark, hmobile, hsession, hsearch, htype, htag,
        hseries, -⟩
      refine ⟨hslug, ?_⟩
      rw [BoardCall.parts, BoardCall.parts, hpage, hdark, hmobile, hsession, hsearch, htype, htag,
        hseries]
  · rintro ⟨hlen, hnamed, hsearch, halone⟩ y hkey
    have hcut : (boardText y).take 767 = (boardText x).take 767 := hkey
    rcases boardText_inj (eq_of_take_eq hlen hcut) with ⟨hjoin, hfrom, hto⟩
    rcases join_inj (marked_parts x) (marked_parts y) halone hjoin.symm with ⟨hslug, hparts⟩
    rcases args_eq_of_parts hparts.symm hnamed hsearch with
      ⟨hpage, hdark, hmobile, hsession, htext, htype, htag, hseries⟩
    exact ⟨hslug.symm, hpage, hdark, hmobile, hsession, htext, htype, htag, hseries, hfrom, hto⟩

def longPost (s : Session) : PostCall :=
  ⟨bytes "7-" ++ List.replicate 600 97, false, false, s, 1, 1⟩

def admin : Session := ⟨bytes "admin", 1, .inr (by decide)⟩

def openBoard (search : Option Bytes) : BoardCall :=
  ⟨bytes "free", ⟨1, by decide⟩, false, false, guest, search, [], [], [], none, none, 1, 1⟩

/-- The admin's page of a post is kept under the key of a guest, and the listing of a board
under the key of an empty search. -/
theorem keys_of_two_calls :
    ¬ PostKeySeparates (longPost guest) ∧ ¬ BoardKeySeparates (openBoard none) := by
  refine ⟨?_, ?_⟩
  · intro h
    have hkey : postKey (longPost admin) = postKey (longPost guest) := by decide +kernel
    exact absurd (congrArg Session.uid (h _ hkey).2.2.2) (by decide)
  · intro h
    have hkey : boardKey (openBoard (some [])) = boardKey (openBoard none) := rfl
    exact absurd (h _ hkey).2.2.2.2.2.1 nofun

/-- Which keys of the page cache separate their calls. -/
theorem cacheKeys_separate_iff (x : PostCall) (y : BoardCall) :
    (PostKeySeparates x ↔ (postText x).length < 511 ∧ x.session.Named ∧ RoleMarkAlone x) ∧
      (BoardKeySeparates y ↔ (boardText y).length < 767 ∧ y.session.Named ∧
        y.search.getD [] ≠ [] ∧ AllLone boardMarks y.slug y.parts) :=
  ⟨postKey_separates_iff x, boardKey_separates_iff y⟩

end FlyBoard.CacheKeys
