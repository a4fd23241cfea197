import Mathlib.Data.List.Induction

/-!
# Hash chains

An entry has a text, and names the hash of the text of the entry before it; the first one
names `start`. In a chain that is `Linked` every entry does so; in one that `Follows` an entry
may name nothing, but what it names is the hash before it. Where no two texts of two chains
collide, one text in common fixes all texts before it.
-/

namespace FlyBoard.HashChain

variable {α κ τ : Type*} (hash : τ → κ) (text : α → τ) (prev : α → Option κ)

def Linked (start : κ) : List α → Prop
  | [] => True
  | a :: l => prev a = some start ∧ Linked (hash (text a)) l

def Follows (start : κ) : List α → Prop
  | [] => True
  | a :: l => (∀ k ∈ prev a, k = start) ∧ Follows (hash (text a)) l

def tip (start : κ) (l : List α) : κ := (l.getLast?.map fun a => hash (text a)).getD start

variable {hash text prev} {start : κ} {l l' : List α}

theorem tip_cons (a : α) (l : List α) : tip hash text start (a :: l) =
    tip hash text (hash (text a)) l := by
  cases l with
  | nil => rfl
  | cons b l =>
    unfold tip
    rw [List.getLast?_cons_cons, List.getLast?_cons]
    rfl

theorem tip_concat (l : List α) (a : α) : tip hash text start (l ++ [a]) = hash (text a) := by
  unfold tip
  rw [List.getLast?_concat]
  rfl

theorem Linked.prev_eq {pre post : List α} {a : α}
    (h : Linked hash text prev start (pre ++ a :: post)) :
    prev a = some (tip hash text start pre) := by
  induction pre generalizing start with
  | nil => exact h.1
  | cons b pre ih =>
    rw [tip_cons]
    exact ih h.2

theorem Follows.prev_eq {pre post : List α} {a : α}
    (h : Follows hash text prev start (pre ++ a :: post)) :
    ∀ k ∈ prev a, k = tip hash text start pre := by
  induction pre generalizing start with
  | nil => exact h.1
  | cons b pre ih =>
    rw [tip_cons]
    exact ih h.2

theorem map_text_eq (hstart : ∀ t, hash t ≠ start)
    (hprev : ∀ a ∈ l', ∀ b ∈ l, text a = text b → prev a = prev b)
    (hinj : ∀ a ∈ l', ∀ b ∈ l, hash (text a) = hash (text b) → text a = text b)
    (hl' : Linked hash text prev start l') (hl : Follows hash text prev start l)
    {pre' post' pre post : List α} {a b : α} (hsplit' : l' = pre' ++ a :: post')
    (hsplit : l = pre ++ b :: post) (hab : text a = text b) :
    pre'.map text = pre.map text := by
  induction pre' using List.reverseRecOn generalizing a b pre post post' with
  | nil =>
    -- `a` names the start, and so does `b`, which has nothing before it then
    have htip : start = tip hash text start pre := by
      rw [hsplit] at hl
      refine hl.prev_eq start ?_
      rw [← hprev a (by simp [hsplit']) b (by simp [hsplit]) hab]
      rw [hsplit'] at hl'
      exact hl'.prev_eq
    rcases List.eq_nil_or_concat pre with rfl | ⟨q, c, rfl⟩
    · rfl
    · rw [List.concat_eq_append, tip_concat] at htip
      exact absurd htip.symm (hstart _)
  | append_singleton q' c' ih =>
    have htip : hash (text c') = tip hash text start pre := by
      rw [hsplit] at hl
      refine hl.prev_eq _ ?_
      rw [← hprev a (by simp [hsplit']) b (by simp [hsplit]) hab]
      rw [hsplit'] at hl'
      have hnamed := hl'.prev_eq
      rwa [tip_concat] at hnamed
    rcases List.eq_nil_or_concat pre with rfl | ⟨q, c, rfl⟩
    · exact absurd htip (hstart _)
    · rw [List.concat_eq_append] at hsplit htip ⊢
      rw [tip_concat] at htip
      have hc : text c' = text c := hinj c' (by simp [hsplit']) c (by simp [hsplit]) htip
      rw [List.append_assoc] at hsplit hsplit'
      rw [List.map_append, List.map_append, ih hsplit' hsplit hc, List.map_singleton,
        List.map_singleton, hc]

theorem map_text_prefix (hstart : ∀ t, hash t ≠ start)
    (hprev : ∀ a ∈ l', ∀ b ∈ l, text a = text b → prev a = prev b)
    (hinj : ∀ a ∈ l', ∀ b ∈ l, hash (text a) = hash (text b) → text a = text b)
    (hl' : Linked hash text prev start l') (hl : Follows hash text prev start l)
    {pre' post' : List α} {a b : α} (hsplit' : l' = pre' ++ a :: post') (hb : b ∈ l)
    (hab : hash (text a) = hash (text b)) : (pre' ++ [a]).map text <+: l.map text := by
  have htext : text a = text b := hinj a (by simp [hsplit']) b hb hab
  obtain ⟨pre, post, hsplit⟩ := List.append_of_mem hb
  have hpre := map_text_eq hstart hprev hinj hl' hl hsplit' hsplit htext
  refine ⟨post.map text, ?_⟩
  rw [hsplit, List.map_append, List.map_append, List.map_singleton, List.map_cons, hpre, htext,
    List.append_assoc, List.singleton_append]

end FlyBoard.HashChain
