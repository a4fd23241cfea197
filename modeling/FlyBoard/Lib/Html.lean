import FlyBoard.Lib.Bytes
import FlyBoard.Lib.Scan

/-!
# Start tags as an HTML tokenizer reads them

The tag-open, attribute-name and attribute-value states of the HTML standard, on
bytes. A value ends at its delimiting quote, a bare value at white space or `>`;
the form feed is white space. A tag whose end is never reached is no tag.
-/

namespace FlyBoard.Html

open Bytes Scan

/-- White space: tab, line feed, form feed, carriage return, space. -/
def isWs (c : UInt8) : Bool := c == 9 || c == 10 || c == 12 || c == 13 || c == 32

/-- What stands between two attributes: white space and `/`. -/
def isGap (c : UInt8) : Bool := isWs c || c == 47

def isNameByte (c : UInt8) : Bool := !(isGap c || c == 62 || c == 61)

def isBareByte (c : UInt8) : Bool := !(isWs c || c == 62)

/-- An attribute; one without a value has the empty value. -/
structure Attr where
  name : Bytes
  value : Bytes
deriving DecidableEq, Repr

/-- The attribute value states, after the `=`. -/
def readValue (s : Bytes) : Bytes × Bytes :=
  match s.dropWhile isWs with
  | 34 :: q => (q.takeWhile (· != 34), (q.dropWhile (· != 34)).drop 1)
  | 39 :: q => (q.takeWhile (· != 39), (q.dropWhile (· != 39)).drop 1)
  | q => (q.takeWhile isBareByte, q.dropWhile isBareByte)

/-- The next attribute. A name may begin with any byte, even with `=`. -/
def nextAttr (s : Bytes) : Option (Attr × Bytes) :=
  match s.dropWhile isGap with
  | [] => none
  | c :: p =>
    if c == 62 then none
    else
      let name := c :: p.takeWhile isNameByte
      let after := p.dropWhile isNameByte
      match after.dropWhile isWs with
      | 61 :: q => some (⟨name, (readValue q).1⟩, (readValue q).2)
      | _ => some (⟨name, []⟩, after)

/-- The attributes up to the `>` that ends the tag, and what follows it. -/
def readAttrs (s : Bytes) : Option (List Attr × Bytes) :=
  match (scan nextAttr s).2.dropWhile isGap with
  | 62 :: rest => some ((scan nextAttr s).1, rest)
  | _ => none

structure Tag where
  name : Bytes
  attrs : List Attr
deriving DecidableEq, Repr

def isAlpha (c : UInt8) : Bool := (65 ≤ c && c ≤ 90) || (97 ≤ c && c ≤ 122)

def isTagByte (c : UInt8) : Bool := !(isGap c || c == 62)

/-- The start tag at the front of `s`, and what follows it. -/
def readTag (s : Bytes) : Option (Tag × Bytes) :=
  match s with
  | 60 :: c :: p =>
    if isAlpha c then
      (readAttrs (p.dropWhile isTagByte)).map fun (as, rest) =>
        (⟨c :: p.takeWhile isTagByte, as⟩, rest)
    else none
  | _ => none

/-- The value in force under a name: of several attributes of one name the first
counts and the others are dropped. -/
def valueOf (as : List Attr) (name : Bytes) : Option Bytes :=
  (as.find? fun a => eqCI a.name name).map (·.value)

/-! ## One value, one attribute -/

section One

variable {s r : Bytes} {a : Attr}

def isQuote (c : UInt8) : Bool := c == 34 || c == 39

theorem quote_or_bare (s : Bytes) :
    (∃ d q, isQuote d = true ∧ s.dropWhile isWs = d :: q) ∨ Stops isQuote (s.dropWhile isWs) := by
  cases s.dropWhile isWs with
  | nil => exact .inr (by simp [Stops])
  | cons d q =>
    by_cases hd : isQuote d = true
    · exact .inl ⟨d, q, hd, rfl⟩
    · exact .inr (by simpa [Stops] using hd)

theorem readValue_quote {d : UInt8} {q : Bytes} (hd : isQuote d = true)
    (hq : s.dropWhile isWs = d :: q) :
    readValue s = (q.takeWhile (· != d), (q.dropWhile (· != d)).drop 1) := by
  simp only [isQuote, Bool.or_eq_true, beq_iff_eq] at hd
  rcases hd with rfl | rfl
  · simp [readValue, hq]
  · simp [readValue, hq]

theorem readValue_bare (h : Stops isQuote (s.dropWhile isWs)) :
    readValue s =
      ((s.dropWhile isWs).takeWhile isBareByte, (s.dropWhile isWs).dropWhile isBareByte) := by
  unfold readValue
  split
  next q hq => exact absurd (h 34 (by simp [hq])) (by decide)
  next q hq => exact absurd (h 39 (by simp [hq])) (by decide)
  next => rfl

theorem readValue_suffix (s : Bytes) : (readValue s).2 <:+ s := by
  rcases quote_or_bare s with ⟨d, q, hd, hq⟩ | hbare
  · rw [readValue_quote hd hq]
    have hs : d :: q <:+ s := hq ▸ List.dropWhile_suffix _
    exact (((List.drop_suffix 1 _).trans (List.dropWhile_suffix _)).trans
      (List.suffix_cons d q)).trans hs
  · rw [readValue_bare hbare]
    exact (List.dropWhile_suffix _).trans (List.dropWhile_suffix _)

theorem nextAttr_cases (h : nextAttr s = some (a, r)) :
    ∃ c p, s.dropWhile isGap = c :: p ∧ c ≠ 62 ∧ a.name = c :: p.takeWhile isNameByte ∧
      ((∃ q, (p.dropWhile isNameByte).dropWhile isWs = 61 :: q ∧ a.value = (readValue q).1 ∧
          r = (readValue q).2) ∨
        (Stops (· == 61) ((p.dropWhile isNameByte).dropWhile isWs) ∧ a.value = [] ∧
          r = p.dropWhile isNameByte)) := by
  unfold nextAttr at h
  split at h
  next => simp at h
  next c p hp =>
    split at h
    next => simp at h
    next hc =>
      refine ⟨c, p, hp, by simpa using hc, ?_⟩
      simp only at h
      split at h
      next q hq =>
        obtain ⟨rfl, rfl⟩ := Prod.mk.inj (Option.some.inj h)
        exact ⟨rfl, .inl ⟨q, hq, rfl, rfl⟩⟩
      next hno =>
        obtain ⟨rfl, rfl⟩ := Prod.mk.inj (Option.some.inj h)
        refine ⟨rfl, .inr ⟨?_, rfl, rfl⟩⟩
        intro b hb
        by_contra h61
        have hb61 : b = 61 := by simpa using h61
        obtain ⟨q, hq⟩ := List.head?_eq_some_iff.mp hb
        exact hno q (hb61 ▸ hq)

/-- Reading an attribute takes its first byte, and stops somewhere behind it. -/
theorem nextAttr_tail (h : nextAttr s = some (a, r)) : ∃ c p, c :: p <:+ s ∧ r <:+ p := by
  obtain ⟨c, p, hp, -, -, hcase⟩ := nextAttr_cases h
  refine ⟨c, p, hp ▸ List.dropWhile_suffix _, ?_⟩
  rcases hcase with ⟨q, hq, -, rfl⟩ | ⟨-, -, rfl⟩
  · have hq' : 61 :: q <:+ p := (hq ▸ List.dropWhile_suffix _).trans (List.dropWhile_suffix _)
    exact (readValue_suffix q).trans ((List.suffix_cons 61 q).trans hq')
  · exact List.dropWhile_suffix _

theorem nextAttr_suffix (h : nextAttr s = some (a, r)) : r <:+ s := by
  obtain ⟨c, p, hp, hr⟩ := nextAttr_tail h
  exact hr.trans ((List.suffix_cons c p).trans hp)

theorem nextAttr_advances : Advances nextAttr := by
  intro s a r h
  obtain ⟨c, p, hp, hr⟩ := nextAttr_tail h
  have hlt : p.length < (c :: p).length := Nat.lt_succ_self _
  exact hr.length_le.trans_lt (hlt.trans_le hp.length_le)

end One

/-! ## The attributes of a tag -/

variable {a : Attr}

theorem readAttrs_some {s rest : Bytes} (h : nextAttr s = some (a, rest)) :
    readAttrs s = (readAttrs rest).map fun r => (a :: r.1, r.2) := by
  unfold readAttrs
  rw [scan_some nextAttr_advances h]
  simp only
  split
  · rfl
  · rfl

theorem of_readAttrs_some {s rest r : Bytes} {as : List Attr}
    (h : nextAttr s = some (a, rest)) (hread : readAttrs s = some (as, r)) :
    ∃ as', readAttrs rest = some (as', r) := by
  rw [readAttrs_some h] at hread
  obtain ⟨⟨as', r'⟩, hr, heq⟩ := Option.map_eq_some_iff.mp hread
  obtain ⟨-, rfl⟩ := Prod.mk.inj heq
  exact ⟨as', hr⟩

theorem nextAttr_gap {g s : Bytes} (hg : ∀ c ∈ g, isGap c = true) :
    nextAttr (g ++ s) = nextAttr s := by
  simp [nextAttr, List.dropWhile_append_of_pos hg]

theorem readAttrs_gap {g s : Bytes} (hg : ∀ c ∈ g, isGap c = true) :
    readAttrs (g ++ s) = readAttrs s := by
  cases h : nextAttr s with
  | none =>
    have h' : nextAttr (g ++ s) = none := (nextAttr_gap hg).trans h
    simp [readAttrs, scan_none h, scan_none h', List.dropWhile_append_of_pos hg]
  | some ar =>
    have h' : nextAttr (g ++ s) = some (ar.1, ar.2) := (nextAttr_gap hg).trans h
    rw [readAttrs_some h', readAttrs_some h]

@[simp] theorem readAttrs_gt (rest : Bytes) : readAttrs (62 :: rest) = some ([], rest) := by
  have hnone : nextAttr (62 :: rest) = none := by simp [nextAttr, isGap, isWs]
  have hgap : isGap 62 = false := by decide
  simp [readAttrs, scan_none hnone, hgap]

theorem isAlpha_toLower (c : UInt8) : isAlpha (toLower c) = isAlpha c := by
  unfold isAlpha toLower
  by_cases h : 65 ≤ c ∧ c ≤ 90
  · have hlower : 97 ≤ c + 32 ∧ c + 32 ≤ 122 := by
      obtain ⟨h1, h2⟩ := h
      rw [UInt8.le_iff_toNat_le] at h1 h2 ⊢
      rw [UInt8.le_iff_toNat_le, UInt8.toNat_add]
      simp only [UInt8.reduceToNat] at h1 h2 ⊢
      omega
    simp [h, hlower]
  · simp [h]

variable {c : UInt8}

theorem isTagByte_of_isAlpha (h : isAlpha c = true) : isTagByte c = true := by
  have hne : ∀ d, isAlpha d = false → c ≠ d := by
    rintro d hd rfl
    rw [h] at hd
    simp at hd
  simp [isTagByte, isGap, isWs, hne 9 rfl, hne 10 rfl, hne 12 rfl, hne 13 rfl, hne 32 rfl,
    hne 47 rfl, hne 62 rfl]

theorem readTag_name {t rest : Bytes} (hc : isAlpha c = true)
    (ht : ∀ b ∈ t, isTagByte b = true) (hrest : Stops isTagByte rest) :
    readTag (60 :: (c :: t ++ rest)) =
      (readAttrs rest).map fun r => (⟨c :: t, r.1⟩, r.2) := by
  simp only [readTag, List.cons_append, hc, if_true, dropWhile_append_stop ht hrest,
    takeWhile_append_stop ht hrest]

/-! ## Reading is local

A text that ends with `>` reads the same in front of any other text, unless an
open quote runs out of it. -/

section Local

variable {s t r : Bytes} {p : UInt8 → Bool}

theorem dropWhile_append_of_ne_nil (h : s.dropWhile p ≠ []) :
    (s ++ t).dropWhile p = s.dropWhile p ++ t := by
  rw [List.dropWhile_append, if_neg (by simpa using h)]

theorem takeWhile_append_of_ne_nil (h : s.dropWhile p ≠ []) :
    (s ++ t).takeWhile p = s.takeWhile p := by
  rw [List.takeWhile_append, if_neg]
  intro hlen
  refine h (List.length_eq_zero_iff.mp ?_)
  have hsum : (s.takeWhile p ++ s.dropWhile p).length = s.length := by
    rw [List.takeWhile_append_dropWhile]
  rw [List.length_append] at hsum
  omega

theorem stops_append (hne : s ≠ []) (h : Stops p s) : Stops p (s ++ t) := by
  intro b hb
  rw [List.head?_append_of_ne_nil _ hne] at hb
  exact h b hb

/-- What is left of a value that ended inside `s` does not depend on what follows. -/
theorem readValue_append (h : (readValue s).2 ≠ []) :
    readValue (s ++ t) = ((readValue s).1, (readValue s).2 ++ t) := by
  have hquoted : ∀ (q : Bytes) (f : UInt8 → Bool), (q.dropWhile f).drop 1 ≠ [] →
      (q ++ t).takeWhile f = q.takeWhile f ∧
        ((q ++ t).dropWhile f).drop 1 = (q.dropWhile f).drop 1 ++ t := by
    intro q f hq
    have hne : q.dropWhile f ≠ [] := by
      rintro hnil
      simp [hnil] at hq
    refine ⟨takeWhile_append_of_ne_nil hne, ?_⟩
    rw [dropWhile_append_of_ne_nil hne, List.drop_append_of_le_length]
    exact List.length_pos_iff.mpr hne
  have hws : s.dropWhile isWs ≠ [] := by
    intro hnil
    simp [readValue, hnil] at h
  have happ : (s ++ t).dropWhile isWs = s.dropWhile isWs ++ t := dropWhile_append_of_ne_nil hws
  rcases quote_or_bare s with ⟨d, q, hd, hq⟩ | hbare
  · rw [readValue_quote hd hq] at h ⊢
    rw [hq, List.cons_append] at happ
    obtain ⟨htake, hdrop⟩ := hquoted q _ h
    rw [readValue_quote hd happ, htake, hdrop]
  · rw [readValue_bare hbare] at h ⊢
    rw [readValue_bare (happ ▸ stops_append hws hbare), happ, dropWhile_append_of_ne_nil h,
      takeWhile_append_of_ne_nil h]

theorem nextAttr_append (h : nextAttr s = some (a, r)) (hr : 62 ∈ r) :
    nextAttr (s ++ t) = some (a, r ++ t) := by
  obtain ⟨c, p, hp, hc, hname, hcase⟩ := nextAttr_cases h
  obtain ⟨name, value⟩ := a
  simp only at hname hcase
  subst hname
  have hgap : (s ++ t).dropWhile isGap = c :: (p ++ t) := by
    rw [dropWhile_append_of_ne_nil (by simp [hp]), hp, List.cons_append]
  unfold nextAttr
  rw [hgap]
  simp only [beq_iff_eq, hc, if_false]
  rcases hcase with ⟨q, hq, rfl, rfl⟩ | ⟨hstop, rfl, rfl⟩
  · -- with a value: something is left behind it, so it ended inside `s`
    have hafter : p.dropWhile isNameByte ≠ [] := by
      intro hnil
      simp [hnil] at hq
    have hws : (p.dropWhile isNameByte).dropWhile isWs ≠ [] := by simp [hq]
    have hv : (readValue q).2 ≠ [] := by
      intro hnil
      simp [hnil] at hr
    rw [dropWhile_append_of_ne_nil hafter, takeWhile_append_of_ne_nil hafter,
      dropWhile_append_of_ne_nil hws, hq, List.cons_append]
    simp only [readValue_append hv]
  · -- without a value: the `>` behind the name is no white space and no `=`
    have hafter : p.dropWhile isNameByte ≠ [] := by
      intro hnil
      simp [hnil] at hr
    have hws : (p.dropWhile isNameByte).dropWhile isWs ≠ [] := by
      intro hnil
      have hall := List.dropWhile_eq_nil_iff.mp hnil 62 hr
      exact absurd hall (by decide)
    rw [dropWhile_append_of_ne_nil hafter, takeWhile_append_of_ne_nil hafter,
      dropWhile_append_of_ne_nil hws]
    obtain ⟨b, u, hbu⟩ := List.exists_cons_of_ne_nil hws
    have hb : b ≠ 61 := by
      have hb' := hstop b (by simp [hbu])
      simpa using hb'
    simp only [hbu, List.cons_append]
    split
    · rename_i heq
      exact absurd (List.cons.inj heq).1 hb
    · rfl

/-- A value that runs out of `s` runs on into what follows. -/
theorem readValue_append_length_le (h : (readValue s).2 = []) :
    (readValue (s ++ t)).2.length ≤ t.length := by
  have hdrop : ∀ (q : Bytes) (f : UInt8 → Bool), (q.dropWhile f).drop 1 = [] →
      (((q ++ t).dropWhile f).drop 1).length ≤ t.length := by
    intro q f hq
    rw [List.dropWhile_append]
    split
    · have ht : (t.dropWhile f).length ≤ t.length := List.length_dropWhile_le _ _
      rw [List.length_drop]
      omega
    · have hlen := congrArg List.length hq
      simp only [List.length_drop, List.length_nil, List.length_append] at hlen ⊢
      omega
  by_cases hws : s.dropWhile isWs = []
  · -- the value has not even begun in `s`
    have hsame : readValue (s ++ t) = readValue t := by
      simp [readValue, List.dropWhile_append, hws]
    rw [hsame]
    exact (readValue_suffix t).length_le
  · have happ : (s ++ t).dropWhile isWs = s.dropWhile isWs ++ t := dropWhile_append_of_ne_nil hws
    rcases quote_or_bare s with ⟨d, q, hd, hq⟩ | hbare
    · rw [readValue_quote hd hq] at h
      rw [hq, List.cons_append] at happ
      rw [readValue_quote hd happ]
      exact hdrop q _ h
    · rw [readValue_bare hbare] at h
      have hnil : (s.dropWhile isWs).dropWhile isBareByte = [] := h
      rw [readValue_bare (happ ▸ stops_append hws hbare), happ, List.dropWhile_append, hnil]
      exact List.length_dropWhile_le _ _

theorem getLast?_of_suffix {x : UInt8} (hr : r <:+ s) (hne : r ≠ []) (hs : s.getLast? = some x) :
    r.getLast? = some x := by
  obtain ⟨u, rfl⟩ := hr
  rwa [List.getLast?_append_of_ne_nil _ hne] at hs

/-- An attribute that runs out of a text with `>` at its end has an open quote. -/
theorem nextAttr_append_length_le (h : nextAttr s = some (a, [])) (hs : s.getLast? = some 62) :
    ∃ a' r', nextAttr (s ++ t) = some (a', r') ∧ r'.length ≤ t.length := by
  obtain ⟨c, p, hp, hc, -, hcase⟩ := nextAttr_cases h
  have hlast : (c :: p).getLast? = some 62 :=
    getLast?_of_suffix (hp ▸ List.dropWhile_suffix _) (List.cons_ne_nil c p) hs
  have hmem : 62 ∈ p := by
    rcases List.mem_cons.mp (List.mem_of_getLast? hlast) with hcp | hmem
    · exact absurd hcp.symm hc
    · exact hmem
  have hafter : p.dropWhile isNameByte ≠ [] := by
    intro hnil
    exact absurd (List.dropWhile_eq_nil_iff.mp hnil 62 hmem) (by decide)
  have hgap : (s ++ t).dropWhile isGap = c :: (p ++ t) := by
    rw [dropWhile_append_of_ne_nil (by simp [hp]), hp, List.cons_append]
  rcases hcase with ⟨q, hq, -, hr⟩ | ⟨-, -, hr⟩
  · refine ⟨⟨c :: p.takeWhile isNameByte, (readValue (q ++ t)).1⟩, (readValue (q ++ t)).2, ?_,
      readValue_append_length_le hr.symm⟩
    unfold nextAttr
    rw [hgap]
    simp only [beq_iff_eq, hc, if_false]
    rw [dropWhile_append_of_ne_nil hafter, takeWhile_append_of_ne_nil hafter,
      dropWhile_append_of_ne_nil (by simp [hq]), hq, List.cons_append]
    rfl
  · exact absurd hr.symm hafter

theorem nextAttr_eq_none (h : nextAttr s = none) :
    s.dropWhile isGap = [] ∨ ∃ u, s.dropWhile isGap = 62 :: u := by
  unfold nextAttr at h
  split at h
  · exact Or.inl (by assumption)
  · rename_i c p hp
    split at h
    · rename_i hc
      have hc62 : c = 62 := by simpa using hc
      exact Or.inr ⟨p, hc62 ▸ hp⟩
    · simp only at h
      split at h
      · simp at h
      · simp at h

theorem readAttrs_of_dropWhile {u : Bytes} (h : s.dropWhile isGap = 62 :: u) :
    readAttrs s = some ([], u) := by
  have hs : s = s.takeWhile isGap ++ 62 :: u := by rw [← h, List.takeWhile_append_dropWhile]
  rw [hs, readAttrs_gap fun b hb => List.mem_takeWhile_imp hb, readAttrs_gt]

theorem readAttrs_length_lt {as : List Attr} (h : readAttrs s = some (as, r)) :
    r.length < s.length := by
  induction s using scan_induction nextAttr_advances generalizing as with
  | done s hs =>
    rcases nextAttr_eq_none hs with hnil | ⟨u, hu⟩
    · simp [readAttrs, scan_none hs, hnil] at h
    · rw [readAttrs_of_dropWhile hu] at h
      obtain ⟨-, rfl⟩ := Prod.mk.inj (Option.some.inj h)
      have hle : (s.dropWhile isGap).length ≤ s.length := List.length_dropWhile_le _ _
      rw [hu, List.length_cons] at hle
      omega
  | item s a rest hs ih =>
    obtain ⟨as', hr⟩ := of_readAttrs_some hs h
    exact (ih hr).trans (nextAttr_advances _ _ _ hs)

/-- In front of other text, the attributes of a text that ends with `>` are read
off as before when they end inside it, and else reach into the other text. -/
theorem readAttrs_append (hs : s.getLast? = some 62) (t : Bytes) :
    match readAttrs s with
    | some (as, r) => readAttrs (s ++ t) = some (as, r ++ t)
    | none => ∀ as r, readAttrs (s ++ t) = some (as, r) → r.length < t.length := by
  induction s using scan_induction nextAttr_advances with
  | done s hnone =>
    have hmem : 62 ∈ s := List.mem_of_getLast? hs
    rcases nextAttr_eq_none hnone with hnil | ⟨u, hu⟩
    · exact absurd (List.dropWhile_eq_nil_iff.mp hnil 62 hmem) (by decide)
    · have hu' : (s ++ t).dropWhile isGap = 62 :: (u ++ t) := by
        rw [dropWhile_append_of_ne_nil (by simp [hu]), hu, List.cons_append]
      rw [readAttrs_of_dropWhile hu]
      exact readAttrs_of_dropWhile hu'
  | item s a rest hnext ih =>
    rw [readAttrs_some hnext]
    by_cases hrest : rest = []
    · -- the attribute runs out of `s`, so it has an open quote that ends in `t`
      subst hrest
      have hnil : readAttrs [] = none := rfl
      obtain ⟨a', r', hnext', hle⟩ := nextAttr_append_length_le (t := t) hnext hs
      rw [hnil]
      intro as r hread
      obtain ⟨as', hr⟩ := of_readAttrs_some hnext' hread
      exact (readAttrs_length_lt hr).trans_le hle
    · -- the attribute ends inside `s`, and what is left still ends with `>`
      have hlast := getLast?_of_suffix (nextAttr_suffix hnext) hrest hs
      have ih' := ih hlast
      have hnext' := nextAttr_append (t := t) hnext (List.mem_of_getLast? hlast)
      cases hr : readAttrs rest with
      | none =>
        rw [hr] at ih'
        intro as r hread
        obtain ⟨as', hr'⟩ := of_readAttrs_some hnext' hread
        exact ih' as' r hr'
      | some x =>
        rw [hr] at ih'
        simp only at ih'
        simp [readAttrs_some hnext', ih']

/-- A tag ends exactly where the text `s` does, whatever follows, when it does so
with nothing behind it. -/
theorem readTag_append_iff {tag : Tag} (hs : s.getLast? = some 62) :
    readTag (s ++ t) = some (tag, t) ↔ readTag s = some (tag, []) := by
  have hattrs : ∀ {u : Bytes}, u.getLast? = some 62 → ∀ as,
      readAttrs (u ++ t) = some (as, t) ↔ readAttrs u = some (as, []) := by
    intro u hu as
    have hloc := readAttrs_append hu t
    cases hr : readAttrs u with
    | none =>
      rw [hr] at hloc
      refine iff_of_false ?_ (by simp)
      intro h
      exact absurd (hloc as t h) (lt_irrefl _)
    | some x =>
      rw [hr] at hloc
      simp only at hloc
      simp [hloc, Prod.ext_iff]
  rcases s with _ | ⟨lt, _ | ⟨c, p⟩⟩
  · simp at hs
  · obtain rfl : lt = 62 := by simpa using hs
    simp [readTag]
  · by_cases hlt : lt = 60
    · subst hlt
      by_cases hc : isAlpha c = true
      · -- the `>` at the end belongs to the attributes, so they decide
        have hp : 62 ∈ p := by
          have hmem := List.mem_of_getLast? hs
          simp only [List.mem_cons] at hmem
          rcases hmem with h | h | h
          · exact absurd h (by decide)
          · rw [← h] at hc
            exact absurd hc (by decide)
          · exact h
        have hne : p.dropWhile isTagByte ≠ [] := by
          intro hnil
          exact absurd (List.dropWhile_eq_nil_iff.mp hnil 62 hp) (by decide)
        have hsuf : p.dropWhile isTagByte <:+ 60 :: c :: p :=
          ((List.dropWhile_suffix _).trans (List.suffix_cons c p)).trans (List.suffix_cons 60 _)
        have hread := hattrs (getLast?_of_suffix hsuf hne hs) tag.attrs
        simp only [readTag, List.cons_append, hc, if_true, dropWhile_append_of_ne_nil hne,
          takeWhile_append_of_ne_nil hne, Option.map_eq_some_iff]
        constructor
        · rintro ⟨⟨as, r⟩, hr, heq⟩
          obtain ⟨rfl, rfl⟩ := Prod.mk.inj heq
          exact ⟨(as, []), hread.mp hr, rfl⟩
        · rintro ⟨⟨as, r⟩, hr, heq⟩
          obtain ⟨rfl, rfl⟩ := Prod.mk.inj heq
          exact ⟨(as, t), hread.mpr hr, rfl⟩
      · simp [readTag, hc]
    · have hno : ∀ u, readTag (lt :: c :: u) = none := by
        intro u
        unfold readTag
        split
        · rename_i heq
          exact absurd (List.cons.inj heq).1 hlt
        · rfl
      simp [hno]

end Local

/-! ## Reading back a written attribute

An emitter writes ` name` or ` name="value"`. When the name holds white space
the reader sees several attributes, one for each word, and the value belongs to
the last one. -/

def nextWord (s : Bytes) : Option (Bytes × Bytes) :=
  match s.dropWhile isWs with
  | [] => none
  | c :: p => some (c :: p.takeWhile (!isWs ·), p.dropWhile (!isWs ·))

def words (s : Bytes) : List Bytes := (scan nextWord s).1

def renderValue : Option Bytes → Bytes
  | none => []
  | some v => 61 :: 34 :: (v ++ [34])

/-- The attributes that a written name of several words reads as. -/
def wordAttrs : List Bytes → Bytes → List Attr
  | [], _ => []
  | [w], v => [⟨w, v⟩]
  | w :: ws, v => ⟨w, []⟩ :: wordAttrs ws v

/-- `rest` may follow a written attribute: it neither goes on with the name nor
gives it a value. -/
def Ends (rest : Bytes) : Prop := Stops isNameByte rest ∧ Stops (· == 61) (rest.dropWhile isWs)

theorem nextWord_advances : Advances nextWord := by
  intro s w rest h
  have hws : (s.dropWhile isWs).length ≤ s.length := List.length_dropWhile_le _ _
  unfold nextWord at h
  split at h
  · simp at h
  · rename_i c p hp
    obtain ⟨-, rfl⟩ := Prod.mk.inj (Option.some.inj h)
    have hp' : (p.dropWhile (!isWs ·)).length ≤ p.length := List.length_dropWhile_le _ _
    rw [hp, List.length_cons] at hws
    omega

theorem nextWord_eq_some {s w rest : Bytes} (h : nextWord s = some (w, rest)) :
    ∃ g c t, s = g ++ (c :: t ++ rest) ∧ w = c :: t ∧ (∀ b ∈ g, isWs b = true) ∧
      (∀ b ∈ c :: t, isWs b = false) ∧ Stops (!isWs ·) rest := by
  unfold nextWord at h
  split at h
  · simp at h
  · rename_i c p hp
    obtain ⟨rfl, rfl⟩ := Prod.mk.inj (Option.some.inj h)
    refine ⟨s.takeWhile isWs, c, p.takeWhile (!isWs ·), ?_, rfl, ?_, ?_, stops_dropWhile _ _⟩
    · rw [List.cons_append, List.takeWhile_append_dropWhile, ← hp,
        List.takeWhile_append_dropWhile]
    · intro b hb
      exact List.mem_takeWhile_imp hb
    · intro b hb
      rcases List.mem_cons.mp hb with rfl | hb
      · have hstop := stops_dropWhile isWs s
        rw [hp] at hstop
        exact hstop b rfl
      · simpa using List.mem_takeWhile_imp hb

variable {s : Bytes}

theorem words_eq_nil : words s = [] ↔ ∀ c ∈ s, isWs c = true := by
  rw [words]
  cases h : nextWord s with
  | none =>
    have hnil : s.dropWhile isWs = [] := by
      unfold nextWord at h
      split at h
      · assumption
      · simp at h
    simpa [scan_none h] using hnil
  | some wr =>
    obtain ⟨g, c, t, hs, -, -, hct, -⟩ := nextWord_eq_some h
    rw [scan_some nextWord_advances h]
    have hc : isWs c = false := hct c (List.mem_cons_self ..)
    constructor
    · intro hf
      simp at hf
    · intro hall
      have hcs : c ∈ s := by rw [hs]; simp
      rw [hall c hcs] at hc
      simp at hc

theorem words_of_forall (hs : ∀ c ∈ s, isWs c = false) (hne : s ≠ []) :
    words s = [s] := by
  cases s with
  | nil => exact absurd rfl hne
  | cons c t =>
    have hc : isWs c = false := hs c (List.mem_cons_self ..)
    have ht : ∀ b ∈ t, (!isWs b) = true := by
      intro b hb
      simp [hs b (List.mem_cons_of_mem _ hb)]
    have hstop : Stops (!isWs ·) ([] : Bytes) := by simp [Stops]
    have htake := takeWhile_append_stop ht hstop
    have hdrop := dropWhile_append_stop ht hstop
    rw [List.append_nil] at htake hdrop
    have hnext : nextWord (c :: t) = some (c :: t, []) := by
      simp [nextWord, hc, htake, hdrop]
    have hnil : nextWord [] = none := rfl
    simp [words, scan_some nextWord_advances hnext, scan_none hnil]

theorem isWs_toLower (c : UInt8) : isWs (toLower c) = isWs c := by
  unfold isWs toLower
  grind

theorem isWs_of_eqCI {a b : Bytes} (h : eqCI a b = true) (hb : ∀ c ∈ b, isWs c = false) :
    ∀ c ∈ a, isWs c = false := by
  intro c hc
  obtain ⟨d, hd, hdc⟩ := mem_of_eqCI h hc
  rw [← isWs_toLower, ← hdc, isWs_toLower]
  exact hb d hd

theorem isGap_of_isWs (h : isWs c = true) : isGap c = true := by
  simp [isGap, h]

theorem isNameByte_of_isWs (h : isWs c = true) : isNameByte c = false := by
  simp [isNameByte, isGap, h]

/-- A name byte is neither a gap nor `>` nor `=`. -/
theorem isNameByte_iff :
    isNameByte c = true ↔ isGap c = false ∧ c ≠ 62 ∧ c ≠ 61 := by
  simp [isNameByte, and_assoc]

section ReadBack

variable {t after : Bytes}

theorem nextAttr_name (hname : ∀ b ∈ c :: t, isNameByte b = true)
    (hstop : Stops isNameByte after) :
    nextAttr (c :: t ++ after) =
      match after.dropWhile isWs with
      | 61 :: q => some (⟨c :: t, (readValue q).1⟩, (readValue q).2)
      | _ => some (⟨c :: t, []⟩, after) := by
  obtain ⟨hgap, hgt, -⟩ := isNameByte_iff.mp (hname c (List.mem_cons_self ..))
  have ht : ∀ b ∈ t, isNameByte b = true := fun b hb => hname b (List.mem_cons_of_mem _ hb)
  have hd : (c :: t ++ after).dropWhile isGap = c :: (t ++ after) := by simp [hgap]
  unfold nextAttr
  rw [hd]
  simp only [beq_iff_eq, hgt, if_false, takeWhile_append_stop ht hstop,
    dropWhile_append_stop ht hstop]

theorem nextAttr_bare (hname : ∀ b ∈ c :: t, isNameByte b = true) (hstop : Stops isNameByte after)
    (heq : Stops (· == 61) (after.dropWhile isWs)) :
    nextAttr (c :: t ++ after) = some (⟨c :: t, []⟩, after) := by
  rw [nextAttr_name hname hstop]
  split
  · rename_i q hq
    have h := heq 61 (by rw [hq]; rfl)
    simp at h
  · rfl

theorem nextAttr_value {q : Bytes} (hname : ∀ b ∈ c :: t, isNameByte b = true)
    (hstop : Stops isNameByte after) (heq : after.dropWhile isWs = 61 :: q) :
    nextAttr (c :: t ++ after) = some (⟨c :: t, (readValue q).1⟩, (readValue q).2) := by
  rw [nextAttr_name hname hstop]
  simp only [heq]

theorem readValue_quoted {v rest : Bytes} (hv : 34 ∉ v) :
    readValue (34 :: (v ++ 34 :: rest)) = (v, rest) := by
  have hv' := bne_of_not_mem hv
  have hstop : Stops (· != 34) (34 :: rest) := by simp [Stops]
  have hws : isWs 34 = false := by decide
  simp [readValue, hws, takeWhile_append_stop hv' hstop, dropWhile_append_stop hv' hstop]

end ReadBack

theorem stops_eq_of_words (hs : ∀ c ∈ s, isNameByte c = true ∨ isWs c = true)
    (hne : words s ≠ []) (u : Bytes) : Stops (· == 61) ((s ++ u).dropWhile isWs) := by
  cases h : nextWord s with
  | none => exact absurd (by simp [words, scan_none h]) hne
  | some wr =>
    obtain ⟨g, c, t, rfl, -, hg, hct, -⟩ := nextWord_eq_some h
    have hc : isWs c = false := hct c (List.mem_cons_self ..)
    have hn : isNameByte c = true := by
      rcases hs c (by simp) with hn | hw
      · exact hn
      · rw [hc] at hw
        simp at hw
    rw [List.append_assoc, List.dropWhile_append_of_pos hg]
    simp only [List.cons_append, List.dropWhile_cons, hc]
    simpa [Stops] using (isNameByte_iff.mp hn).2.2

variable {rest : Bytes}

theorem readAttrs_words {v : Option Bytes} (hv : ∀ x, v = some x → 34 ∉ x)
    (hrest : Ends rest) (hs : ∀ c ∈ s, isNameByte c = true ∨ isWs c = true) (hne : words s ≠ []) :
    readAttrs (s ++ (renderValue v ++ rest)) =
      (readAttrs rest).map fun r => (wordAttrs (words s) (v.getD []) ++ r.1, r.2) := by
  induction s using scan_induction nextWord_advances with
  | done s h => exact absurd (by simp [words, scan_none h]) hne
  | item s w s' h ih =>
    have hwords : words s = w :: words s' := by simp [words, scan_some nextWord_advances h]
    obtain ⟨g, c, t, rfl, rfl, hg, hct, hstop⟩ := nextWord_eq_some h
    have hname : ∀ b ∈ c :: t, isNameByte b = true := by
      intro b hb
      rcases hs b (List.mem_append_right _ (List.mem_append_left _ hb)) with hn | hw
      · exact hn
      · rw [hct b hb] at hw
        simp at hw
    have hs' : ∀ b ∈ s', isNameByte b = true ∨ isWs b = true := fun b hb =>
      hs b (List.mem_append_right _ (List.mem_append_right _ hb))
    have hskip : readAttrs (g ++ (c :: t ++ s') ++ (renderValue v ++ rest)) =
        readAttrs (c :: t ++ (s' ++ (renderValue v ++ rest))) := by
      rw [List.append_assoc, List.append_assoc]
      exact readAttrs_gap fun b hb => isGap_of_isWs (hg b hb)
    rw [hskip, hwords]
    -- what follows the word does not go on with it
    have hafter : ∀ u, Stops isNameByte u → Stops isNameByte (s' ++ u) := by
      intro u hu
      cases s' with
      | nil => exact hu
      | cons b s' =>
        have hb : isWs b = true := by simpa using hstop b rfl
        simpa [Stops] using isNameByte_of_isWs hb
    cases hws : words s' with
    | nil =>
      have hall := words_eq_nil.mp hws
      have hdrop : ∀ u : Bytes, (s' ++ u).dropWhile isWs = u.dropWhile isWs :=
        fun u => List.dropWhile_append_of_pos hall
      cases v with
      | none =>
        have hread := nextAttr_bare hname (hafter rest hrest.1) (by rw [hdrop]; exact hrest.2)
        rw [renderValue, List.nil_append, readAttrs_some hread,
          readAttrs_gap fun b hb => isGap_of_isWs (hall b hb)]
        rfl
      | some x =>
        have hstop61 : Stops isNameByte (61 :: 34 :: (x ++ 34 :: rest)) := by
          simp [Stops, isNameByte]
        have h61 : isWs 61 = false := by decide
        have hread := nextAttr_value (q := 34 :: (x ++ 34 :: rest)) hname (hafter _ hstop61)
          (by rw [hdrop, List.dropWhile_cons_of_neg (by simp [h61])])
        rw [readValue_quoted (hv x rfl)] at hread
        have heq : renderValue (some x) ++ rest = 61 :: 34 :: (x ++ 34 :: rest) := by
          simp [renderValue]
        rw [heq, readAttrs_some hread]
        rfl
    | cons w' ws' =>
      -- another word follows, so this one has no value
      obtain ⟨b, u, hbu⟩ : ∃ b u, s' = b :: u := by
        cases s' with
        | nil => simp [words, scan, collect, nextWord] at hws
        | cons b u => exact ⟨b, u, rfl⟩
      have hb : isWs b = true := by
        rw [hbu] at hstop
        simpa using hstop b rfl
      have hstop' : Stops isNameByte (s' ++ (renderValue v ++ rest)) := by
        rw [hbu]
        simpa [Stops] using isNameByte_of_isWs hb
      have hnext := stops_eq_of_words hs' (by simp [hws]) (renderValue v ++ rest)
      have hread := nextAttr_bare hname hstop' hnext
      rw [readAttrs_some hread, ih hs' (by simp [hws]), hws]
      simp [wordAttrs, Function.comp_def]

/-- An attribute as an emitter writes it, the value ready to stand in quotes. -/
structure Written where
  name : Bytes
  value : Option Bytes

namespace Written

def render (a : Written) : Bytes := 32 :: (a.name ++ renderValue a.value)

def attrs (a : Written) : List Attr := wordAttrs (words a.name) (a.value.getD [])

/-- The name has no byte that ends it other than white space, and at least one
word; the value has no quote. -/
structure Ok (a : Written) : Prop where
  name : ∀ c ∈ a.name, isNameByte c = true ∨ isWs c = true
  words : words a.name ≠ []
  value : ∀ v, a.value = some v → 34 ∉ v

theorem Ok.ends {a : Written} (h : a.Ok) (rest : Bytes) : Ends (a.render ++ rest) := by
  constructor
  · have h32 : isNameByte 32 = false := by decide
    simpa [render, Stops] using h32
  · have h32 : isWs 32 = true := by decide
    rw [render, List.cons_append, List.dropWhile_cons_of_pos h32, List.append_assoc]
    exact stops_eq_of_words h.name h.words _

end Written

theorem readAttrs_written {as : List Written} (has : ∀ a ∈ as, a.Ok) (hrest : Ends rest) :
    Ends (as.flatMap Written.render ++ rest) ∧
      readAttrs (as.flatMap Written.render ++ rest) =
        (readAttrs rest).map fun r => (as.flatMap Written.attrs ++ r.1, r.2) := by
  induction as with
  | nil => exact ⟨hrest, by simp⟩
  | cons a as ih =>
    obtain ⟨hends, hread⟩ := ih fun b hb => has b (List.mem_cons_of_mem _ hb)
    have ha : a.Ok := has a (List.mem_cons_self ..)
    have h32 : isGap 32 = true := by decide
    rw [List.flatMap_cons, List.append_assoc]
    refine ⟨ha.ends _, ?_⟩
    have hskip : readAttrs (a.render ++ (as.flatMap Written.render ++ rest)) =
        readAttrs (a.name ++ (renderValue a.value ++ (as.flatMap Written.render ++ rest))) := by
      rw [Written.render, List.cons_append, List.append_assoc]
      exact readAttrs_gap (g := [32]) (by simpa using h32)
    rw [hskip, readAttrs_words ha.value hends ha.name ha.words, hread]
    simp [Written.attrs, Function.comp_def]

theorem stops_written (as : List Written) (rest : Bytes) :
    Stops isTagByte (as.flatMap Written.render ++ 62 :: rest) := by
  have h : isTagByte 62 = false ∧ isTagByte 32 = false := by decide
  cases as with
  | nil => simpa [Stops] using h.1
  | cons a as => simpa [Stops, Written.render] using h.2

theorem ends_gt (rest : Bytes) : Ends (62 :: rest) := by
  have h : isNameByte 62 = false ∧ isWs 62 = false := by decide
  constructor
  · simpa [Stops] using h.1
  · simp [Stops, h.2]

end FlyBoard.Html
