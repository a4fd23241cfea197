import FlyBoard.Lib.Scan
import Mathlib.Data.List.Infix
import Mathlib.Tactic.Common

/-!
# Placeholders in the text they stand in

Parts of a text are taken out and a placeholder stands for each of them: a doubled mark, a body
without marks, and a doubled mark. Passes over the text put the parts back, one kind after
another, each pass wherever it finds a placeholder of its kind. As the placeholders are part of
the text, a pass can find one where none was written.

`Clear` says what a pass has to find. With it the pass gives back every part of its kind in its
place and leaves the rest (`items_read_iff`). For placeholders that are told from their bodies it
can be seen from the text with the bodies blotted out (`untouched_chunks_iff`).
-/

namespace FlyBoard.Placeholders

open Scan

variable {α : Type*}

/-! ## One pass -/

/-- What a pass does at one place of its input. -/
inductive Item (α : Type*)
  | kept (a : α)
  | put (text : List α)
deriving DecidableEq

def Item.text : Item α → List α
  | .kept a => [a]
  | .put text => text

/-- A place of a text: an element of it, or a placeholder with the part it stands for. -/
inductive Chunk (α : Type*)
  | kept (a : α)
  | token (placeholder part : List α)

def Chunk.read : Chunk α → List α
  | .kept a => [a]
  | .token placeholder _ => placeholder

def Chunk.item : Chunk α → Item α
  | .kept a => .kept a
  | .token _ part => .put part

def read (cs : List (Chunk α)) : List α := cs.flatMap Chunk.read
def restored (cs : List (Chunk α)) : List α := cs.flatMap fun c => c.item.text

@[simp] theorem read_nil : read ([] : List (Chunk α)) = [] := rfl

@[simp] theorem read_kept (a : α) (cs : List (Chunk α)) : read (.kept a :: cs) = a :: read cs := rfl

@[simp] theorem read_token (p part : List α) (cs : List (Chunk α)) :
    read (.token p part :: cs) = p ++ read cs := rfl

@[simp] theorem read_append (cs ds : List (Chunk α)) : read (cs ++ ds) = read cs ++ read ds :=
  List.flatMap_append

@[simp] theorem read_map_kept (l : List α) : read (l.map Chunk.kept) = l := by
  induction l with
  | nil => rfl
  | cons a l ih => rw [List.map_cons, read_kept, ih]

section Pass

variable (find : List α → Option (List α × List α))

/-- `find` gives what is put for the front of the text, and what stands behind. -/
def next (s : List α) : Option (Item α × List α) :=
  match find s with
  | some (text, rest) => some (.put text, rest)
  | none =>
    match s with
    | [] => none
    | a :: rest => some (.kept a, rest)

def items (s : List α) : List (Item α) := (scan (next find) s).1

def swap (s : List α) : List α := (items find s).flatMap Item.text

def Shortens : Prop := ∀ s text rest, find s = some (text, rest) → rest.length < s.length

/-- The pass finds the placeholders with what they stand for, and nothing else. -/
def Clear : List (Chunk α) → Prop
  | [] => True
  | .kept a :: cs => find (a :: read cs) = none ∧ Clear cs
  | .token p part :: cs => find (p ++ read cs) = some (part, read cs) ∧ Clear cs

def Untouched (p : List α → Bool) : List (Chunk α) → Prop
  | [] => True
  | .kept a :: cs => p (a :: read cs) = false ∧ Untouched p cs
  | .token _ _ :: cs => Untouched p cs

variable {find} {cs : List (Chunk α)}

theorem next_advances (hfind : Shortens find) : Advances (next find) := by
  intro s item rest h
  unfold next at h
  split at h
  · rename_i hs
    cases h
    exact hfind s _ _ hs
  · cases s with
    | nil => cases h
    | cons a s =>
      cases h
      exact Nat.lt_succ_self _

theorem items_nil (hfind : Shortens find) : items find ([] : List α) = [] := by
  have hnone : find [] = none := by
    cases h : find [] with
    | none => rfl
    | some tr => exact absurd (hfind [] tr.1 tr.2 h) (Nat.not_lt_zero _)
  have hnext : next find ([] : List α) = none := by
    unfold next
    rw [hnone]
  unfold items
  rw [scan_none hnext]

theorem items_put (hfind : Shortens find) {s text rest : List α} (h : find s = some (text, rest)) :
    items find s = .put text :: items find rest := by
  have hnext : next find s = some (.put text, rest) := by
    unfold next
    rw [h]
  unfold items
  rw [scan_some (next_advances hfind) hnext]

theorem items_kept (hfind : Shortens find) {a : α} {s : List α} (h : find (a :: s) = none) :
    items find (a :: s) = .kept a :: items find s := by
  have hnext : next find (a :: s) = some (.kept a, s) := by
    unfold next
    rw [h]
  unfold items
  rw [scan_some (next_advances hfind) hnext]

/-- Each pass puts every part in its place and keeps the rest exactly when it finds the
placeholders alone. `hput` is what the pass puts for a placeholder wherever it finds it. -/
theorem items_read_iff (hfind : Shortens find)
    (hput : ∀ p part, Chunk.token p part ∈ cs → ∃ put, ∀ s, find (p ++ s) = some (put, s)) :
    items find (read cs) = cs.map Chunk.item ↔ Clear find cs := by
  induction cs with
  | nil => exact iff_of_true (items_nil hfind) trivial
  | cons c cs ih =>
    have hrest := ih fun p part hp => hput p part (List.mem_cons_of_mem _ hp)
    cases c with
    | kept a =>
      rw [read_kept, List.map_cons, Clear, ← hrest]
      constructor
      · intro h
        have hnone : find (a :: read cs) = none := by
          cases hs : find (a :: read cs) with
          | none => rfl
          | some tr =>
            rw [items_put hfind hs] at h
            exact nomatch (List.cons.inj h).1
        rw [items_kept hfind hnone] at h
        exact ⟨hnone, (List.cons.inj h).2⟩
      · rintro ⟨hnone, h⟩
        rw [items_kept hfind hnone, h]
        rfl
    | token p part =>
      obtain ⟨put, hp⟩ := hput p part List.mem_cons_self
      rw [read_token, List.map_cons, Clear, ← hrest, items_put hfind (hp _), hp]
      constructor
      · intro h
        obtain ⟨hitem, htail⟩ := List.cons.inj h
        cases hitem
        exact ⟨rfl, htail⟩
      · rintro ⟨hsome, h⟩
        cases hsome
        rw [h]
        rfl

theorem untouched_or {p q : List α → Bool} :
    Untouched (fun s => p s || q s) cs ↔ Untouched p cs ∧ Untouched q cs := by
  induction cs with
  | nil => exact ⟨fun _ => ⟨trivial, trivial⟩, fun _ => trivial⟩
  | cons c cs ih =>
    cases c with
    | kept a =>
      simp only [Untouched, Bool.or_eq_false_iff, ih]
      exact and_and_and_comm
    | token _ _ => exact ih

theorem untouched_map_kept {p : List α → Bool} {l : List α} :
    Untouched p (l.map Chunk.kept ++ cs) ↔
      (∀ v, v ≠ [] → v <:+ l → p (v ++ read cs) = false) ∧ Untouched p cs := by
  induction l with
  | nil => exact ⟨fun h => ⟨fun v hv hl => absurd (List.suffix_nil.mp hl) hv, h⟩, fun h => h.2⟩
  | cons a l ih =>
    rw [List.map_cons, List.cons_append, Untouched, ih, read_append, read_map_kept, ← and_assoc]
    refine and_congr_left fun _ => ⟨?_, fun h => ⟨?_, fun v hv hl => ?_⟩⟩
    · rintro ⟨hfirst, h⟩ v hv hl
      rcases List.suffix_cons_iff.mp hl with rfl | hl
      · exact hfirst
      · exact h v hv hl
    · exact h (a :: l) (List.cons_ne_nil _ _) List.suffix_rfl
    · exact h v hv (hl.trans (List.suffix_cons a l))

theorem clear_iff :
    Clear find cs ↔ Untouched (fun s => (find s).isSome) cs ∧
      ∀ a b p part, cs = a ++ .token p part :: b → find (p ++ read b) = some (part, read b) := by
  induction cs with
  | nil =>
    refine iff_of_true trivial ⟨trivial, fun a b p part h => ?_⟩
    exact absurd h.symm (List.append_ne_nil_of_right_ne_nil _ (List.cons_ne_nil _ _))
  | cons c cs ih =>
    cases c with
    | kept x =>
      rw [Clear, Untouched, ih, Option.isSome_eq_false_iff, Option.isNone_iff_eq_none, and_assoc]
      refine and_congr_right fun _ => and_congr_right fun _ => ?_
      constructor
      · intro h a b p part hcs
        cases a with
        | nil => exact nomatch (List.cons.inj hcs).1
        | cons y a => exact h a b p part (List.cons.inj hcs).2
      · intro h a b p part hcs
        exact h (.kept x :: a) b p part (congrArg _ hcs)
    | token q own =>
      rw [Clear, Untouched, ih]
      constructor
      · rintro ⟨hfirst, huntouched, h⟩
        refine ⟨huntouched, fun a b p part hcs => ?_⟩
        cases a with
        | nil =>
          cases hcs
          exact hfirst
        | cons y a => exact h a b p part (List.cons.inj hcs).2
      · rintro ⟨huntouched, h⟩
        refine ⟨h [] cs q own rfl, huntouched, fun a b p part hcs => ?_⟩
        exact h (.token q own :: a) b p part (congrArg _ hcs)

end Pass

/-! ## Passes of ranks -/

/-- An element that stays, or a part with the rank of the pass that puts it back. -/
inductive Piece (α : Type*)
  | kept (a : α)
  | token (rank : ℕ) (body part : List α)

section Ranks

variable (m : α) {ps : List (Piece α)} {k : ℕ}

def placeholder (body : List α) : List α := [m, m] ++ body ++ [m, m]

/-- A piece as the pass `k` meets it: earlier passes have put their parts back, and later
placeholders are text like any other. -/
def Piece.chunks (k : ℕ) : Piece α → List (Chunk α)
  | .kept a => [.kept a]
  | .token rank body part =>
    if rank < k then part.map .kept
    else if rank = k then [.token (placeholder m body) part]
    else (placeholder m body).map .kept

def chunks (k : ℕ) (ps : List (Piece α)) : List (Chunk α) := ps.flatMap (Piece.chunks m k)

def stream (k : ℕ) (ps : List (Piece α)) : List α := read (chunks m k ps)

/-- A piece with what was written for a placeholder blotted out by `z`. -/
def Piece.blotted (z : α) (k : ℕ) : Piece α → List α
  | .kept a => [a]
  | .token rank _ part => if rank < k then part else if rank = k then [m, m, z] else [m, m, z, m, m]

/-- The text as the pass `k` meets it, with every placeholder that was written blotted out. -/
def outline (z : α) (k : ℕ) (ps : List (Piece α)) : List α := ps.flatMap (Piece.blotted m z k)

theorem chunks_of_lt {rank k : ℕ} (h : rank < k) (body part : List α) :
    (Piece.token rank body part).chunks m k = part.map .kept := if_pos h

theorem chunks_self (k : ℕ) (body part : List α) :
    (Piece.token k body part).chunks m k = [.token (placeholder m body) part] :=
  (if_neg (lt_irrefl k)).trans (if_pos rfl)

theorem chunks_of_gt {rank k : ℕ} (h : k < rank) (body part : List α) :
    (Piece.token rank body part).chunks m k = (placeholder m body).map .kept :=
  (if_neg (by omega)).trans (if_neg (by omega))

theorem blotted_of_lt (z : α) {rank k : ℕ} (h : rank < k) (body part : List α) :
    (Piece.token rank body part).blotted m z k = part := if_pos h

theorem blotted_self (z : α) (k : ℕ) (body part : List α) :
    (Piece.token k body part).blotted m z k = [m, m, z] :=
  (if_neg (lt_irrefl k)).trans (if_pos rfl)

theorem blotted_of_gt (z : α) {rank k : ℕ} (h : k < rank) (body part : List α) :
    (Piece.token rank body part).blotted m z k = [m, m, z, m, m] :=
  (if_neg (by omega)).trans (if_neg (by omega))

@[simp] theorem chunks_nil (k : ℕ) : chunks m k [] = [] := rfl

theorem chunks_cons (k : ℕ) (p : Piece α) (ps : List (Piece α)) :
    chunks m k (p :: ps) = p.chunks m k ++ chunks m k ps := rfl

theorem stream_cons (k : ℕ) (p : Piece α) (ps : List (Piece α)) :
    stream m k (p :: ps) = read (p.chunks m k) ++ stream m k ps := by
  unfold stream
  rw [chunks_cons, read_append]

theorem outline_cons (z : α) (k : ℕ) (p : Piece α) (ps : List (Piece α)) :
    outline m z k (p :: ps) = p.blotted m z k ++ outline m z k ps := rfl

theorem restored_map_kept (l : List α) : restored (l.map Chunk.kept) = l := by
  induction l with
  | nil => rfl
  | cons a l ih => exact congrArg (a :: ·) ih

theorem restored_chunks (k : ℕ) (ps : List (Piece α)) :
    restored (chunks m k ps) = stream m (k + 1) ps := by
  induction ps with
  | nil => rfl
  | cons p ps ih =>
    have happend : ∀ cs ds : List (Chunk α), restored (cs ++ ds) = restored cs ++ restored ds :=
      fun _ _ => List.flatMap_append
    rw [chunks_cons, happend, ih, stream_cons]
    congr 1
    cases p with
    | kept a => rfl
    | token rank body part =>
      rcases lt_trichotomy rank k with hlt | rfl | hgt
      · rw [chunks_of_lt m hlt, chunks_of_lt m (Nat.lt_succ_of_lt hlt), restored_map_kept,
          read_map_kept]
      · rw [chunks_self, chunks_of_lt m (Nat.lt_succ_self rank), read_map_kept]
        exact List.append_nil part
      · rw [chunks_of_gt m hgt, restored_map_kept]
        rcases Nat.lt_or_eq_of_le (Nat.succ_le_of_lt hgt) with hlater | rfl
        · rw [chunks_of_gt m hlater, read_map_kept]
        · rw [chunks_self]
          exact (List.append_nil _).symm

theorem mem_of_token_mem {q part : List α} (h : Chunk.token q part ∈ chunks m k ps) :
    ∃ body, Piece.token k body part ∈ ps ∧ q = placeholder m body := by
  obtain ⟨p, hp, hmem⟩ := List.mem_flatMap.mp h
  cases p with
  | kept a => exact nomatch List.mem_singleton.mp hmem
  | token rank body own =>
    have hkept : ∀ l : List α, Chunk.token q part ∉ l.map Chunk.kept := by
      intro l hl
      obtain ⟨a, _, ha⟩ := List.mem_map.mp hl
      exact nomatch ha
    rcases lt_trichotomy rank k with hlt | rfl | hgt
    · rw [chunks_of_lt m hlt] at hmem
      exact absurd hmem (hkept _)
    · rw [chunks_self] at hmem
      cases List.mem_singleton.mp hmem
      exact ⟨body, hp, rfl⟩
    · rw [chunks_of_gt m hgt] at hmem
      exact absurd hmem (hkept _)

theorem token_mem {body part : List α} (h : Piece.token k body part ∈ ps) :
    Chunk.token (placeholder m body) part ∈ chunks m k ps := by
  refine List.mem_flatMap.mpr ⟨_, h, ?_⟩
  rw [chunks_self]
  exact List.mem_singleton_self _

/-- A pass puts back what is of its rank, and that alone, exactly when it finds nothing between
its placeholders and the right part at each. -/
theorem items_stream_iff {find : List α → Option (List α × List α)} (hfind : Shortens find)
    (hput : ∀ body part, Piece.token k body part ∈ ps →
      ∃ put, ∀ s, find (placeholder m body ++ s) = some (put, s)) :
    items find (stream m k ps) = (chunks m k ps).map Chunk.item ↔
      Untouched (fun s => (find s).isSome) (chunks m k ps) ∧
        ∀ body part, Piece.token k body part ∈ ps →
          ∀ s, find (placeholder m body ++ s) = some (part, s) := by
  have hchunks : ∀ p part, Chunk.token p part ∈ chunks m k ps →
      ∃ put, ∀ s, find (p ++ s) = some (put, s) := by
    intro p part hp
    obtain ⟨body, hbody, rfl⟩ := mem_of_token_mem m hp
    exact hput body part hbody
  unfold stream
  rw [items_read_iff hfind hchunks, clear_iff]
  refine and_congr_right fun _ => ⟨fun h body part hbody s => ?_, fun h a b p part hcs => ?_⟩
  · obtain ⟨put, hp⟩ := hput body part hbody
    obtain ⟨a, b, hcs⟩ := List.append_of_mem (token_mem m hbody)
    have hpart : some (put, read b) = some (part, read b) :=
      (hp (read b)).symm.trans (h a b _ _ hcs)
    cases hpart
    exact hp s
  · have hmem : Chunk.token p part ∈ chunks m k ps := by
      rw [hcs]
      exact List.mem_append_right a List.mem_cons_self
    obtain ⟨body, hbody, rfl⟩ := mem_of_token_mem m hmem
    exact h body part hbody (read b)

theorem map_item_of_no_token (h : ∀ body part, Piece.token k body part ∉ ps) :
    (chunks m k ps).map Chunk.item = (stream m k ps).map Item.kept := by
  have hkept : ∀ cs : List (Chunk α), (∀ p part, Chunk.token p part ∉ cs) →
      cs.map Chunk.item = (read cs).map Item.kept := by
    intro cs
    induction cs with
    | nil => exact fun _ => rfl
    | cons c cs ih =>
      intro hcs
      cases c with
      | kept a =>
        rw [read_kept, List.map_cons, List.map_cons,
          ih fun p part hp => hcs p part (List.mem_cons_of_mem _ hp)]
        rfl
      | token p part => exact absurd List.mem_cons_self (hcs p part)
  refine hkept _ fun p part hp => ?_
  obtain ⟨body, hbody, -⟩ := mem_of_token_mem m hp
  exact h body part hbody

end Ranks

/-! ## Placeholders that are told from their bodies -/

section Bodies

variable [DecidableEq α] (m : α) (B : List α → Bool)

/-- A placeholder with a body of `B` stands at the front. -/
def opens (s : List α) : Bool :=
  s.take 2 == [m, m] && B ((s.drop 2).takeWhile (· != m)) &&
    ((s.drop 2).dropWhile (· != m)).take 2 == [m, m]

/-- No placeholder with a body of `B` stands in the text. -/
def Free (s : List α) : Prop := ∀ t ∈ s.tails, opens m B t = false

instance (s : List α) : Decidable (Free m B s) :=
  inferInstanceAs (Decidable (∀ t ∈ s.tails, opens m B t = false))

variable {m B} {ps : List (Piece α)} {z : α} {b : List α} {s : List α} {a : α} {u : List α} {k : ℕ}

theorem takeWhile_body (hb : m ∉ b) (s : List α) :
    (b ++ m :: s).takeWhile (· != m) = b := by
  have hall : ∀ x ∈ b, (x != m) = true := fun x hx => bne_iff_ne.mpr fun h => hb (h ▸ hx)
  have hstop : Stops (· != m) (m :: s) := by
    rintro x ⟨⟩
    exact bne_self_eq_false m
  exact takeWhile_append_stop hall hstop

theorem dropWhile_body (hb : m ∉ b) (s : List α) :
    (b ++ m :: s).dropWhile (· != m) = m :: s := by
  have hall : ∀ x ∈ b, (x != m) = true := fun x hx => bne_iff_ne.mpr fun h => hb (h ▸ hx)
  have hstop : Stops (· != m) (m :: s) := by
    rintro x ⟨⟩
    exact bne_self_eq_false m
  exact dropWhile_append_stop hall hstop

theorem opens_placeholder (hb : m ∉ b) (s : List α) :
    opens m B (placeholder m b ++ s) = B b := by
  have hs : placeholder m b ++ s = m :: m :: (b ++ m :: m :: s) := by
    simp only [placeholder, List.cons_append, List.nil_append, List.append_assoc]
  rw [hs]
  unfold opens
  rw [show (m :: m :: (b ++ m :: m :: s)).drop 2 = b ++ m :: m :: s from rfl,
    takeWhile_body hb, dropWhile_body hb]
  simp

theorem opens_iff :
    opens m B s = true ↔ ∃ b r, m ∉ b ∧ B b = true ∧ s = placeholder m b ++ r := by
  constructor
  · intro h
    unfold opens at h
    obtain ⟨⟨hmarks, hbody⟩, hend⟩ : (_ ∧ _) ∧ _ := by
      simpa only [Bool.and_eq_true, beq_iff_eq] using h
    have hnot : m ∉ (s.drop 2).takeWhile (· != m) := fun hmem =>
      bne_iff_ne.mp (List.mem_takeWhile_imp (p := (· != m)) hmem) rfl
    refine ⟨(s.drop 2).takeWhile (· != m), ((s.drop 2).dropWhile (· != m)).drop 2, hnot, hbody, ?_⟩
    calc s = s.take 2 ++ s.drop 2 := (List.take_append_drop 2 s).symm
      _ = [m, m] ++ ((s.drop 2).takeWhile (· != m) ++ (s.drop 2).dropWhile (· != m)) := by
        rw [hmarks, List.takeWhile_append_dropWhile]
      _ = [m, m] ++ ((s.drop 2).takeWhile (· != m) ++
          ([m, m] ++ ((s.drop 2).dropWhile (· != m)).drop 2)) := by
        rw [← hend, List.take_append_drop]
      _ = _ := by simp only [placeholder, List.append_assoc]
  · rintro ⟨b, r, hb, hB, rfl⟩
    exact (opens_placeholder hb r).trans hB

theorem opens_or (B C : List α → Bool) (s : List α) :
    opens m (fun b => B b || C b) s = (opens m B s || opens m C s) := by
  simp only [opens, Bool.and_or_distrib_left, Bool.and_or_distrib_right]

theorem opens_of_head_ne (h : a ≠ m) (s : List α) : opens m B (a :: s) = false := by
  unfold opens
  cases s <;> simp [h]

theorem opens_of_second_ne {b : α} (h : b ≠ m) (a : α) (s : List α) :
    opens m B (a :: b :: s) = false := by
  unfold opens
  simp [h]

/-- Behind an element at the front, what follows a doubled mark does not matter. -/
theorem opens_append_marks (hB : B [] = false) (hu : u ≠ []) (v v' : List α) :
    opens m B (u ++ m :: m :: v) = opens m B (u ++ m :: m :: v') := by
  match u, hu with
  | [a], _ =>
    -- the doubled mark would have an empty body
    have hnone : ∀ v, opens m B ([a] ++ m :: m :: v) = false := by
      intro v
      unfold opens
      simp [hB]
    rw [hnone, hnone]
  | a :: b :: w, _ =>
    have hdrop : ∀ v, ((a :: b :: w) ++ m :: m :: v).drop 2 = w ++ m :: m :: v := fun _ => rfl
    have htake : ∀ v, ((a :: b :: w) ++ m :: m :: v).take 2 = [a, b] := fun _ => rfl
    unfold opens
    rw [hdrop, hdrop, htake, htake]
    by_cases hw : m ∈ w
    · obtain ⟨body, w', rfl, hbody⟩ := List.eq_append_cons_of_mem hw
      have happend : ∀ v, body ++ m :: w' ++ m :: m :: v = body ++ m :: (w' ++ m :: m :: v) :=
        fun v => by rw [List.append_assoc, List.cons_append]
      rw [happend, happend, takeWhile_body hbody, takeWhile_body hbody, dropWhile_body hbody,
        dropWhile_body hbody]
      cases w' <;> rfl
    · rw [takeWhile_body hw, takeWhile_body hw, dropWhile_body hw, dropWhile_body hw]
      rfl

theorem free_nil : Free m B [] := by
  intro t ht
  cases List.mem_singleton.mp ht
  rfl

theorem free_cons :
    Free m B (a :: s) ↔ opens m B (a :: s) = false ∧ Free m B s := by
  unfold Free
  rw [List.tails_cons, List.forall_mem_cons]

theorem free_append {l s : List α} :
    Free m B (l ++ s) ↔ (∀ v, v ≠ [] → v <:+ l → opens m B (v ++ s) = false) ∧ Free m B s := by
  induction l with
  | nil => exact ⟨fun h => ⟨fun v hv hl => absurd (List.suffix_nil.mp hl) hv, h⟩, fun h => h.2⟩
  | cons a l ih =>
    rw [List.cons_append, free_cons, ih, ← and_assoc]
    refine and_congr_left fun _ => ⟨?_, fun h => ⟨?_, fun v hv hl => ?_⟩⟩
    · rintro ⟨hfirst, h⟩ v hv hl
      rcases List.suffix_cons_iff.mp hl with rfl | hl
      · exact hfirst
      · exact h v hv hl
    · exact h (a :: l) (List.cons_ne_nil _ _) List.suffix_rfl
    · exact h v hv (hl.trans (List.suffix_cons a l))

/-- A placeholder of another kind can be misread at its last two marks only. -/
theorem opens_suffix_placeholder (hne : b ≠ []) (hb : m ∉ b) (hB : B b = false) (s : List α) :
    (∀ v, v ≠ [] → v <:+ placeholder m b → opens m B (v ++ s) = false) ↔
      opens m B (m :: m :: s) = false ∧ opens m B (m :: s) = false := by
  have htail : ∀ t : List α, t <:+ [m, m] → t <:+ placeholder m b :=
    fun t ht => ht.trans (List.suffix_append _ _)
  constructor
  · intro h
    exact ⟨h [m, m] (List.cons_ne_nil _ _) (htail _ List.suffix_rfl),
      h [m] (List.cons_ne_nil _ _) (htail _ (List.suffix_cons m [m]))⟩
  · rintro ⟨htwo, hone⟩ v hv hsuffix
    have hbody : ∀ u, u <:+ b ++ [m, m] → u ≠ [] → opens m B (u ++ s) = false := by
      intro u hu hune
      rw [show b ++ [m, m] = b ++ [m] ++ [m] by simp] at hu
      rcases List.suffix_concat_iff.mp hu with rfl | ⟨u', rfl, hu'⟩
      · exact absurd rfl hune
      rcases List.suffix_concat_iff.mp hu' with rfl | ⟨t, rfl, ht⟩
      · exact hone
      cases t with
      | nil => exact htwo
      | cons c t =>
        have hc : c ≠ m := fun h => hb (h ▸ ht.subset List.mem_cons_self)
        exact opens_of_head_ne hc _
    rw [show placeholder m b = m :: m :: (b ++ [m, m]) from rfl] at hsuffix
    rcases List.suffix_cons_iff.mp hsuffix with rfl | hsuffix
    · exact (opens_placeholder hb s).trans hB
    · rcases List.suffix_cons_iff.mp hsuffix with rfl | hsuffix
      · obtain ⟨c, b, rfl⟩ := List.exists_cons_of_ne_nil hne
        have hc : c ≠ m := fun h => hb (h ▸ List.mem_cons_self)
        exact opens_of_second_ne hc m (b ++ [m, m] ++ s)
      · exact hbody v hsuffix hv

/-- Each pass meets the text alike to its outline, behind an element at the front. -/
theorem opens_stream (hB : B [] = false) (z : α) (k : ℕ) (ps : List (Piece α))
    (hu : u ≠ []) : opens m B (u ++ stream m k ps) = opens m B (u ++ outline m z k ps) := by
  induction ps generalizing u with
  | nil => rfl
  | cons p ps ih =>
    rw [stream_cons, outline_cons]
    -- an element or a part that is back stands in both
    have hsame : ∀ l : List α, opens m B (u ++ (l ++ stream m k ps)) =
        opens m B (u ++ (l ++ outline m z k ps)) := by
      intro l
      rw [← List.append_assoc, ← List.append_assoc]
      exact ih (List.append_ne_nil_of_left_ne_nil hu l)
    cases p with
    | kept a => exact hsame [a]
    | token rank body part =>
      rcases lt_trichotomy rank k with hlt | rfl | hgt
      · rw [chunks_of_lt m hlt, blotted_of_lt m z hlt, read_map_kept]
        exact hsame part
      · rw [chunks_self, blotted_self]
        exact opens_append_marks hB hu _ _
      · rw [chunks_of_gt m hgt, blotted_of_gt m z hgt, read_map_kept]
        exact opens_append_marks hB hu _ _

/-- The bodies a pass tells apart: none is empty, none begins with the blot, and those of later
passes are not of this one. -/
structure Told (m z : α) (B : List α → Bool) (k : ℕ) (ps : List (Piece α)) : Prop where
  nil : B [] = false
  blot : z ≠ m
  blotted : ∀ b, B (z :: b) = false
  body : ∀ rank body part, Piece.token rank body part ∈ ps → m ∉ body
  later : ∀ rank body part, Piece.token rank body part ∈ ps → k < rank →
    body ≠ [] ∧ B body = false

omit [DecidableEq α] in
theorem Told.tail {p : Piece α} (h : Told m z B k (p :: ps)) : Told m z B k ps :=
  { h with
    body := fun rank body part hp => h.body rank body part (List.mem_cons_of_mem _ hp)
    later := fun rank body part hp => h.later rank body part (List.mem_cons_of_mem _ hp) }

/-- Nothing but the placeholders of a pass looks like one to it exactly when its outline has
none. -/
theorem untouched_chunks_iff (h : Told m z B k ps) :
    Untouched (opens m B) (chunks m k ps) ↔ Free m B (outline m z k ps) := by
  induction ps with
  | nil => exact iff_of_true trivial free_nil
  | cons p ps ih =>
    have hrest := ih h.tail
    have hstream : ∀ u, u ≠ [] →
        opens m B (u ++ stream m k ps) = opens m B (u ++ outline m z k ps) :=
      fun u hu => opens_stream h.nil z k ps hu
    -- an element or a part that is back: the same suffixes begin in it
    have hsame : ∀ l : List α, Untouched (opens m B) (l.map Chunk.kept ++ chunks m k ps) ↔
        Free m B (l ++ outline m z k ps) := by
      intro l
      rw [untouched_map_kept, free_append, hrest]
      refine and_congr_left fun _ => forall₃_congr fun v hv _ => ?_
      rw [← hstream v hv]
      rfl
    rw [chunks_cons, outline_cons]
    cases p with
    | kept a => exact hsame [a]
    | token rank body part =>
      have hbody : m ∉ body := h.body _ _ _ List.mem_cons_self
      rcases lt_trichotomy rank k with hlt | rfl | hgt
      · rw [chunks_of_lt m hlt, blotted_of_lt m z hlt]
        exact hsame part
      · rw [chunks_self, blotted_self]
        have hblot : ∀ s, opens m B (m :: m :: z :: s) = false := by
          intro s
          unfold opens
          simp [h.blot, h.blotted]
        rw [show Untouched (opens m B) ([Chunk.token (placeholder m body) part] ++
            chunks m rank ps) ↔ Untouched (opens m B) (chunks m rank ps) from Iff.rfl, hrest]
        rw [show [m, m, z] ++ outline m z rank ps = m :: m :: z :: outline m z rank ps from rfl,
          free_cons, free_cons, free_cons]
        constructor
        · intro hfree
          exact ⟨hblot _, opens_of_second_ne h.blot _ _, opens_of_head_ne h.blot _, hfree⟩
        · intro hfree
          exact hfree.2.2.2
      · obtain ⟨hne, hother⟩ := h.later _ _ _ List.mem_cons_self hgt
        rw [chunks_of_gt m hgt, blotted_of_gt m z hgt, untouched_map_kept, hrest,
          show [m, m, z, m, m] = placeholder m [z] from rfl, free_append]
        refine and_congr_left fun _ => ?_
        have hz : m ∉ [z] := fun hmem => h.blot (List.mem_singleton.mp hmem).symm
        rw [opens_suffix_placeholder hne hbody hother,
          opens_suffix_placeholder (List.cons_ne_nil z []) hz (h.blotted [])]
        have htwo := hstream [m, m] (List.cons_ne_nil _ _)
        have hone := hstream [m] (List.cons_ne_nil _ _)
        exact and_congr (iff_of_eq (congrArg (· = false) htwo))
          (iff_of_eq (congrArg (· = false) hone))

end Bodies

end FlyBoard.Placeholders
