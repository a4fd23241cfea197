import FlyBoard.Lib.TextLines

/-!
# The administrator's password (`src/auth/auth.c`)

`admin.settings` holds the name and the password of the administrator, a line each.
`auth_admin_update_password` writes the two lines and loads the file again, so that a new
password is what `auth_admin_load` reads back of its line.
-/

namespace FlyBoard.AdminPassword

open Bytes TextLines

/-- `sha512_hex`: 128 hexadecimal digits. -/
structure Sha512 where
  hex : Bytes → Bytes
  length_hex : ∀ s, (hex s).length = 128

def clientNonce : Bytes := bytes "fly.board"

/-- `g_admin_id`, `g_admin_pw` and `g_admin_plain_pw`. -/
structure Globals where
  adminId : Bytes
  adminPw : Bytes
  adminPlainPw : Bytes
deriving DecidableEq, Repr

/-- `if (strncmp(s, key, n) == 0) memmove(s, s + n, ...)`. -/
def dropKey (key s : Bytes) : Bytes := if startsWith s key then s.drop key.length else s

/-- One field of the file: what `fgets` reads of it into a buffer of `n` bytes, as a string
without its line ends, and the rest of the file. -/
def readField (n : ℕ) (f : Bytes) : Option (Bytes × Bytes) :=
  (fgets n f).map fun r => (chomp (cstr r.1), r.2)

section

variable (sha : Sha512)

def combined (pw : Bytes) : Bytes := snprintfS 512 (clientNonce ++ pw)

/-- `auth_admin_load`, with the bytes of the file unless there is none. -/
def authAdminLoad (g : Globals) : Option Bytes → Globals × Bool
  | none =>
    (⟨bytes "admin", sha.hex (combined (bytes "fly.board")), bytes "fly.board"⟩, true)
  | some f =>
    let (adminId, f) := (readField 64 f).getD (g.adminId, f)
    let (plainPw, _) := (readField 128 f).getD ([], f)
    let adminId := dropKey (bytes "id=") adminId
    let plainPw := dropKey (bytes "pw=") plainPw
    let g : Globals := ⟨adminId, sha.hex (combined plainPw), snprintfS 128 plainPw⟩
    (g, !g.adminId.isEmpty && (!g.adminPw.isEmpty || !g.adminPlainPw.isEmpty))

def authAdminCheck (g : Globals) (username password : Bytes) : Bool :=
  if g.adminId.isEmpty then false
  else if username != g.adminId then false
  else
    (!g.adminPw.isEmpty && password == g.adminPw) ||
      (!g.adminPlainPw.isEmpty && password == g.adminPlainPw) ||
      (!g.adminPw.isEmpty && sha.hex (combined password) == g.adminPw)

def authAdminUsername (g : Globals) : Bytes :=
  if g.adminId.isEmpty then bytes "admin" else g.adminId

/-- `auth_admin_update_password`: the globals, the file and what it returns. `opens` is
whether the file can be opened for writing. -/
def authAdminUpdatePassword (opens : Bool) (g : Globals) (file : Option Bytes)
    (currentPw newPw : Bytes) : Globals × Option Bytes × Bool :=
  if newPw.length < 6 then (g, file, false)
  else
    let adminUser := authAdminUsername g
    if !authAdminCheck sha g adminUser currentPw then (g, file, false)
    else if !opens then (g, file, false)
    else
      let file := some (adminUser ++ 10 :: (newPw ++ [10]))
      let (g, ok) := authAdminLoad sha g file
      (g, file, ok)

/-- What the process can have loaded: the globals start as zeros, and only
`auth_admin_load` writes them. -/
inductive Loaded : Globals → Prop
  | start : Loaded ⟨[], [], []⟩
  | load {g : Globals} (hg : Loaded g) (file : Option Bytes) :
      Loaded (authAdminLoad sha g file).1

end

/-! ## What a field of the file is -/

/-- A text as a field of the file can be: one line, short enough for its buffer. -/
structure Field (n : ℕ) (s : Bytes) : Prop where
  line : OneLine s
  noNul : (0 : UInt8) ∉ s
  short : s.length < n

variable {n : ℕ} {s f rest key name newPw : Bytes}

theorem cstr_isPrefix (s : Bytes) : cstr s <+: s := List.takeWhile_prefix _

theorem cstr_of_noNul (h : (0 : UInt8) ∉ s) : cstr s = s :=
  List.takeWhile_eq_self_iff.mpr (bne_of_not_mem h)

theorem field_readField (hn : 0 < n) (h : readField n f = some (s, rest)) : Field n s := by
  rcases Option.map_eq_some_iff.mp h with ⟨⟨line, left⟩, hread, hpair⟩
  rw [fgets, Option.ite_none_left_eq_some, Option.some_inj, Prod.mk.injEq] at hread
  rw [Prod.mk.injEq] at hpair
  change chomp (cstr line) = s ∧ left = rest at hpair
  have hcstr : cstr line <+: lineOf f := by
    rw [← hread.2.1]
    exact (cstr_isPrefix _).trans (List.take_prefix _ _)
  have hshort : line.length ≤ n - 1 := by
    rw [← hread.2.1]
    exact List.length_take_le _ _
  rw [← hpair.1]
  refine ⟨oneLine_chomp hcstr, ?_, ?_⟩
  · intro hmem
    have hbyte := List.mem_takeWhile_imp ((chomp_isPrefix _).subset hmem)
    exact absurd hbyte (by decide)
  · have hchomp := (chomp_isPrefix (cstr line)).length_le
    have hstr := (cstr_isPrefix line).length_le
    omega

theorem Field.drop (h : Field n s) (k : ℕ) : Field n (s.drop k) where
  line := h.line.drop k
  noNul := fun hmem => h.noNul (List.mem_of_mem_drop hmem)
  short := (List.drop_sublist k s).length_le.trans_lt h.short

theorem Field.dropKey (h : Field n s) : Field n (dropKey key s) := by
  unfold AdminPassword.dropKey
  split
  · exact h.drop key.length
  · exact h

/-- The name that is loaded is a field of the file, whatever the file is. -/
theorem Loaded.field {sha : Sha512} {g : Globals} (h : Loaded sha g) : Field 64 g.adminId := by
  induction h with
  | start => exact ⟨⟨List.not_mem_nil, nofun⟩, List.not_mem_nil, by decide⟩
  | load hg file ih =>
    cases file with
    | none =>
      have hdefault : Field 64 (bytes "admin") :=
        ⟨⟨by decide, by decide⟩, by decide, by decide⟩
      exact hdefault
    | some f =>
      have hfield : ∀ r, (readField 64 f).getD r = r ∨ Field 64 ((readField 64 f).getD r).1 := by
        intro r
        cases hread : readField 64 f with
        | none => exact .inl rfl
        | some p => exact .inr (field_readField (by decide) hread)
      rcases hfield (_, f) with hsame | hnew
      · rw [authAdminLoad, hsame]
        exact ih.dropKey
      · exact hnew.dropKey

/-! ## What comes back of the two lines -/

/-- The password that the file yields after the two lines were written: the line ends at the
first newline and after 127 bytes, and a name that fills its buffer leaves its own newline
in the place of the password. -/
def readBack (name newPw : Bytes) : Bytes :=
  if name.length = 63 then []
  else dropKey (bytes "pw=") (chomp ((lineOf (newPw ++ [10])).take 127))

/-- A password that comes back as it is. -/
structure Kept (name newPw : Bytes) : Prop where
  name_short : name.length < 63
  short : newPw.length ≤ 127
  line : OneLine newPw
  noKey : startsWith newPw (bytes "pw=") = false

theorem dropKey_eq_self (h : startsWith s key = false) : dropKey key s = s := by
  rw [dropKey, h, if_neg Bool.false_ne_true]

theorem length_dropKey_lt (hkey : 0 < key.length) (h : startsWith s key = true) :
    (dropKey key s).length < s.length := by
  have hlen := (startsWith_iff.mp h).length_le
  rw [dropKey, h, if_pos rfl, List.length_drop]
  omega

theorem length_dropKey_le (key s : Bytes) : (dropKey key s).length ≤ s.length := by
  unfold dropKey
  split
  · exact (List.drop_sublist _ s).length_le
  · exact le_rfl

/-- What is left of the part of the line that is read stands at the start of the password. -/
theorem chomp_line_isPrefix (newPw : Bytes) :
    chomp ((lineOf (newPw ++ [10])).take 127) <+: newPw := by
  have hpart : (lineOf (newPw ++ [10])).take 127 <+: newPw ++ [10] :=
    (List.take_prefix _ _).trans (lineOf_isPrefix _)
  rcases List.prefix_concat_iff.mp hpart with hall | hpart
  · rw [hall, chomp_concat_of rfl]
    exact chomp_isPrefix newPw
  · exact (chomp_isPrefix _).trans hpart

theorem readBack_eq_iff (hname : name.length < 64) (hne : newPw ≠ []) :
    readBack name newPw = newPw ↔ Kept name newPw := by
  constructor
  · intro h
    unfold readBack at h
    split at h
    · exact absurd h.symm hne
    · rename_i hlen
      have hpart := chomp_line_isPrefix newPw
      have hle := length_dropKey_le (bytes "pw=") (chomp ((lineOf (newPw ++ [10])).take 127))
      have hall : chomp ((lineOf (newPw ++ [10])).take 127) = newPw := by
        apply hpart.eq_of_length_le
        rwa [h] at hle
      have hline : OneLine (chomp ((lineOf (newPw ++ [10])).take 127)) :=
        oneLine_chomp (List.take_prefix _ _)
      have hshort := ((chomp_isPrefix ((lineOf (newPw ++ [10])).take 127)).length_le).trans
        (List.length_take_le _ _)
      rw [hall] at h hline hshort
      refine ⟨by omega, hshort, hline, ?_⟩
      cases hkey : startsWith newPw (bytes "pw=") with
      | false => rfl
      | true =>
        have hlt := length_dropKey_lt (by decide) hkey
        rw [h] at hlt
        exact absurd hlt (Nat.lt_irrefl _)
  · intro h
    have hlen := h.name_short
    have hchomp : chomp ((newPw ++ [10]).take 127) = newPw := by
      rcases Nat.lt_or_ge newPw.length 127 with hlt | hge
      · rw [List.take_of_length_le (by rw [List.length_append, List.length_singleton]; omega)]
        exact h.line.chomp_line
      · rw [List.take_left' (Nat.le_antisymm h.short hge)]
        exact h.line.chomp
    rw [readBack, if_neg (by omega), lineOf_cut h.line.noBreak, hchomp, dropKey_eq_self h.noKey]

/-- What `auth_admin_update_password` writes. -/
def written (name newPw : Bytes) : Bytes := name ++ 10 :: (newPw ++ [10])

/-- The name comes back, with the password behind it unless it fills its buffer. -/
theorem readField_written (hname : Field 64 name) (newPw : Bytes) :
    readField 64 (written name newPw) =
      some (name, if name.length = 63 then 10 :: (newPw ++ [10]) else newPw ++ [10]) := by
  have hnul : (0 : UInt8) ∉ name ++ [10] := by
    rw [List.mem_append, not_or]
    exact ⟨hname.noNul, by decide⟩
  have hline : lineOf (written name newPw) = name ++ [10] := lineOf_cut hname.line.noBreak _
  have hsome : (written name newPw).isEmpty = false :=
    List.isEmpty_eq_false_iff.mpr (List.append_ne_nil_of_right_ne_nil _ (List.cons_ne_nil _ _))
  rw [readField, fgets, hline, hsome, if_neg Bool.false_ne_true, Option.map_some]
  split
  · rename_i hfull
    have htake : (name ++ [10]).take (64 - 1) = name := List.take_left' hfull
    rw [htake, cstr_of_noNul hname.noNul, hname.line.chomp, written, List.drop_left]
  · rename_i hfull
    have hshort := hname.short
    have htake : (name ++ [10]).take (64 - 1) = name ++ [10] := by
      apply List.take_of_length_le
      rw [List.length_append, List.length_singleton]
      omega
    have hsplit : written name newPw = (name ++ [10]) ++ (newPw ++ [10]) := by
      rw [written, List.append_assoc, List.singleton_append]
    rw [htake, cstr_of_noNul hnul, hname.line.chomp_line, hsplit, List.drop_left]

/-- The second field is what is left of the password's line, or of the name's own newline. -/
theorem readField_password (hnul : (0 : UInt8) ∉ newPw) (name r : Bytes) :
    dropKey (bytes "pw=") ((readField 128 (if name.length = 63 then 10 :: (newPw ++ [10])
      else newPw ++ [10])).getD ([], r)).1 = readBack name newPw := by
  have hpart : (lineOf (newPw ++ [10])).take 127 <+: newPw ++ [10] :=
    (List.take_prefix _ _).trans (lineOf_isPrefix _)
  have hline : (0 : UInt8) ∉ (lineOf (newPw ++ [10])).take 127 := by
    intro hmem
    rcases List.mem_append.mp (hpart.subset hmem) with hmem | hmem
    · exact hnul hmem
    · exact absurd hmem (by decide)
  unfold readBack
  split
  · rfl
  · have hsome : (newPw ++ [10]).isEmpty = false :=
      List.isEmpty_eq_false_iff.mpr
        (List.append_ne_nil_of_right_ne_nil _ (List.cons_ne_nil _ _))
    rw [readField, fgets, hsome, if_neg Bool.false_ne_true, Option.map_some, Option.getD_some]
    change dropKey _ (chomp (cstr ((lineOf (newPw ++ [10])).take 127))) = _
    rw [cstr_of_noNul hline]

theorem length_readBack_le (name newPw : Bytes) : (readBack name newPw).length ≤ 127 := by
  unfold readBack
  split
  · exact Nat.zero_le _
  · exact (length_dropKey_le _ _).trans
      ((chomp_isPrefix _).length_le.trans (List.length_take_le _ _))

section

variable (sha : Sha512)

theorem authAdminLoad_written (g : Globals) (hname : Field 64 name) (hnul : (0 : UInt8) ∉ newPw) :
    authAdminLoad sha g (some (written name newPw)) =
      (⟨dropKey (bytes "id=") name, sha.hex (combined (readBack name newPw)),
        readBack name newPw⟩, !(dropKey (bytes "id=") name).isEmpty) := by
  have hkept : snprintfS 128 (readBack name newPw) = readBack name newPw :=
    List.take_of_length_le (length_readBack_le name newPw)
  have hhash : (sha.hex (combined (readBack name newPw))).isEmpty = false := by
    rw [List.isEmpty_eq_false_iff, ← List.length_pos_iff, sha.length_hex]
    decide
  simp only [authAdminLoad, readField_written hname newPw, Option.getD_some,
    readField_password hnul name, hkept, hhash, Bool.not_false, Bool.true_or, Bool.and_true]

/-! ## When a new password takes -/

/-- The digest of a shortened password lets the new one in all the same. -/
def Alike (name newPw : Bytes) : Prop :=
  newPw = sha.hex (combined (readBack name newPw)) ∨
    sha.hex (combined newPw) = sha.hex (combined (readBack name newPw))

/-- A call that returns true leaves the name as it is and the new password accepted, also
after the file is loaded afresh; one that returns false leaves what is accepted. -/
def Takes (opens : Bool) (g : Globals) (file : Option Bytes) (currentPw newPw : Bytes) : Prop :=
  match authAdminUpdatePassword sha opens g file currentPw newPw with
  | (g', file', true) =>
    authAdminCheck sha g' (authAdminUsername g') newPw = true ∧
      authAdminUsername g' = authAdminUsername g ∧
      ∀ g₀, let fresh := (authAdminLoad sha g₀ file').1
        authAdminCheck sha fresh (authAdminUsername fresh) newPw = true ∧
          authAdminUsername fresh = authAdminUsername g
  | (g', _, false) =>
    ∀ username password,
      authAdminCheck sha g' username password = authAdminCheck sha g username password

variable {sha} {g : Globals} {opens : Bool} {file : Option Bytes} {currentPw : Bytes}

theorem adminId_ne_nil {username password : Bytes}
    (h : authAdminCheck sha g username password = true) : g.adminId ≠ [] := by
  intro hnil
  rw [authAdminCheck, hnil] at h
  exact Bool.false_ne_true h

theorem authAdminUsername_of_ne (h : g.adminId ≠ []) : authAdminUsername g = g.adminId := by
  rw [authAdminUsername, List.isEmpty_eq_false_iff.mpr h, if_neg Bool.false_ne_true]

theorem authAdminCheck_loaded {pw : Bytes} (hname : name ≠ []) (hne : newPw ≠ []) :
    authAdminCheck sha ⟨name, sha.hex (combined pw), pw⟩ name newPw = true ↔
      pw = newPw ∨ newPw = sha.hex (combined pw) ∨
        sha.hex (combined newPw) = sha.hex (combined pw) := by
  have hhash : (sha.hex (combined pw)).isEmpty = false := by
    rw [List.isEmpty_eq_false_iff, ← List.length_pos_iff, sha.length_hex]
    decide
  rw [authAdminCheck, List.isEmpty_eq_false_iff.mpr hname, if_neg Bool.false_ne_true,
    bne_self_eq_false, if_neg Bool.false_ne_true, hhash, Bool.or_eq_true, Bool.or_eq_true,
    Bool.not_false, Bool.true_and, Bool.true_and, Bool.and_eq_true, beq_iff_eq, beq_iff_eq,
    beq_iff_eq]
  constructor
  · rintro ((h | ⟨-, h⟩) | h)
    · exact .inr (.inl h)
    · exact .inl h.symm
    · exact .inr (.inr h)
  · rintro (h | h | h)
    · refine .inl (.inr ⟨?_, h.symm⟩)
      rw [h, List.isEmpty_eq_false_iff.mpr hne, Bool.not_false]
    · exact .inl (.inl h)
    · exact .inr h

theorem authAdminUpdatePassword_refused (file : Option Bytes) (h : ¬ (6 ≤ newPw.length ∧
      authAdminCheck sha g (authAdminUsername g) currentPw = true ∧ opens = true)) :
    authAdminUpdatePassword sha opens g file currentPw newPw = (g, file, false) := by
  unfold authAdminUpdatePassword
  split
  · rfl
  · rename_i hlen
    cases hcheck : authAdminCheck sha g (authAdminUsername g) currentPw with
    | false => simp only [hcheck, Bool.not_false, if_true]
    | true =>
      cases hopens : opens with
      | false => simp only [hcheck, Bool.not_true, Bool.not_false, Bool.false_eq_true, if_true,
          if_false]
      | true => exact absurd ⟨Nat.not_lt.mp hlen, hcheck, hopens⟩ h

theorem authAdminUpdatePassword_written (file : Option Bytes) (hlen : 6 ≤ newPw.length)
    (hcheck : authAdminCheck sha g (authAdminUsername g) currentPw = true)
    (hopens : opens = true) (hname : Field 64 g.adminId) (hnul : (0 : UInt8) ∉ newPw) :
    authAdminUpdatePassword sha opens g file currentPw newPw =
      (⟨dropKey (bytes "id=") g.adminId, sha.hex (combined (readBack g.adminId newPw)),
          readBack g.adminId newPw⟩, some (written g.adminId newPw),
        !(dropKey (bytes "id=") g.adminId).isEmpty) := by
  have hload := authAdminLoad_written sha g hname hnul
  rw [authAdminUpdatePassword, if_neg (Nat.not_lt.mpr hlen)]
  rw [authAdminUsername_of_ne (adminId_ne_nil hcheck)] at hcheck
  rw [written] at hload ⊢
  simp only [authAdminUsername_of_ne (adminId_ne_nil hcheck), hcheck, hopens, Bool.not_true,
    Bool.false_eq_true, if_false, hload]

/-- A new password takes exactly if the name has no `id=` in front and the password comes
back as it is, unless the digests happen to agree. -/
theorem takes_iff (hg : Loaded sha g) (hnul : (0 : UInt8) ∉ newPw) :
    Takes sha opens g file currentPw newPw ↔
      (6 ≤ newPw.length ∧ authAdminCheck sha g (authAdminUsername g) currentPw = true ∧
          opens = true →
        startsWith g.adminId (bytes "id=") = false ∧
          (Kept g.adminId newPw ∨ Alike sha g.adminId newPw)) := by
  by_cases hwrites : 6 ≤ newPw.length ∧
      authAdminCheck sha g (authAdminUsername g) currentPw = true ∧ opens = true
  · rcases hwrites with ⟨hlen, hcheck, hopens⟩
    have hname := hg.field
    have hid := adminId_ne_nil hcheck
    have hne : newPw ≠ [] := by
      rintro rfl
      exact absurd hlen (by decide)
    have hcall := authAdminUpdatePassword_written file hlen hcheck hopens hname hnul
    cases hkey : startsWith g.adminId (bytes "id=") with
    | true =>
      -- The name loses its first three bytes: it changes, or nobody can log in any more.
      have hlt := length_dropKey_lt (by decide) hkey
      constructor
      · intro htakes
        rw [Takes, hcall] at htakes
        cases hrest : dropKey (bytes "id=") g.adminId with
        | nil =>
          rw [hrest] at htakes
          exact absurd (htakes _ currentPw) (by rw [hcheck]; exact Bool.false_ne_true)
        | cons c rest =>
          rw [hrest] at htakes hlt
          have hsame := htakes.2.1
          rw [authAdminUsername_of_ne hid] at hsame
          rw [← hsame] at hlt
          exact absurd hlt (Nat.lt_irrefl _)
      · exact fun h => nomatch (h ⟨hlen, hcheck, hopens⟩).1
    | false =>
      have hsame : dropKey (bytes "id=") g.adminId = g.adminId := dropKey_eq_self hkey
      have hsome : g.adminId.isEmpty = false := List.isEmpty_eq_false_iff.mpr hid
      have haccepts : (authAdminCheck sha ⟨g.adminId,
            sha.hex (combined (readBack g.adminId newPw)), readBack g.adminId newPw⟩
            g.adminId newPw = true) ↔ Kept g.adminId newPw ∨ Alike sha g.adminId newPw := by
        rw [authAdminCheck_loaded hid hne, readBack_eq_iff hname.short hne, Alike]
      have husername : ∀ pw, authAdminUsername ⟨g.adminId, sha.hex (combined pw), pw⟩ =
          g.adminId := fun pw => authAdminUsername_of_ne hid
      rw [Takes, hcall, hsame, hsome]
      constructor
      · intro htakes _
        have hcheck' := htakes.1
        rw [husername] at hcheck'
        exact ⟨rfl, haccepts.mp hcheck'⟩
      · intro h
        have hcheck' := haccepts.mpr (h ⟨hlen, hcheck, hopens⟩).2
        have hid' := authAdminUsername_of_ne hid
        refine ⟨?_, ?_, ?_⟩
        · rw [husername]
          exact hcheck'
        · rw [husername, hid']
        · intro g₀
          rw [authAdminLoad_written sha g₀ hname hnul, hsame]
          refine ⟨?_, ?_⟩
          · rw [husername]
            exact hcheck'
          · rw [husername, hid']
  · have hrefused := authAdminUpdatePassword_refused file hwrites
    rw [Takes, hrefused]
    exact ⟨fun _ h => absurd h hwrites, fun _ _ _ => rfl⟩

end

/-! ## A password with the old key in front -/

def sampleDigests : List (Bytes × Bytes) := [
  (bytes "fly.boardfly.board",
    hex 64 0xceb678676de8d86ad7e3dab6d0d1b0257309b8f5485dedc58f83c51585a015ee ++
      hex 64 0x04f363852c9185c697d33e27a0520e34fb0a8083dcde4082c1e3e6c5e34826d3),
  (bytes "fly.boardtulips",
    hex 64 0xf7c10c5ca326ca69830a80f11c0cd6bbb738648a0e13cad6c7f8b82e02056017 ++
      hex 64 0x101d788345a987634fc0b9a72cc9ea7225afce37c00d8900f080c503180c701c),
  (bytes "fly.boardpw=tulips",
    hex 64 0xaec575d2a16f933663a035967cd9f8c9a442356de1166a8b722da72d7aedcd0c ++
      hex 64 0xfdcab8313f0cc25b1a0d083563f9dfa926f134c025b9527bc3e3fc37b25da708)]

def sampleSha : Sha512 where
  hex s := (sampleDigests.lookup s).getD (List.replicate 128 48)
  length_hex s := by
    have hall : ∀ p ∈ sampleDigests, p.2.length = 128 := by
      simp [sampleDigests, length_hex]
    cases hs : sampleDigests.lookup s with
    | none => exact List.length_replicate
    | some d =>
      rcases List.lookup_eq_some_iff.mp hs with ⟨l, l', hl, -⟩
      exact hall (s, d) (hl ▸ List.mem_append_right l List.mem_cons_self)

def firstStart : Globals := (authAdminLoad sampleSha ⟨[], [], []⟩ none).1

def firstFile : Option Bytes := some (bytes "admin\nfly.board\n")

theorem tulips_take :
    Takes sampleSha true firstStart firstFile (bytes "fly.board") (bytes "tulips") :=
  (takes_iff (.load .start none) (by decide)).mpr fun _ =>
    ⟨by decide, .inl ⟨by decide, by decide, ⟨by decide, by decide⟩, by decide⟩⟩

/-- `pw=tulips` is accepted as the new password, but `tulips` is what is loaded. -/
theorem keyed_tulips_lost :
    ¬ Takes sampleSha true firstStart firstFile (bytes "fly.board") (bytes "pw=tulips") := by
  intro htakes
  have hcheck : authAdminCheck sampleSha firstStart (authAdminUsername firstStart)
      (bytes "fly.board") = true := by decide
  have hcall := authAdminUpdatePassword_written firstFile (by decide) hcheck rfl
    (Loaded.load .start none).field (by decide : (0 : UInt8) ∉ bytes "pw=tulips")
  rw [Takes, hcall] at htakes
  exact absurd htakes.1 (by decide)

end FlyBoard.AdminPassword
