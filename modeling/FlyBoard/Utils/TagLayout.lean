import Mathlib.Combinatorics.SimpleGraph.Metric
import Mathlib.Data.Fin.Basic

/-!
# Neighbourhoods in the tag graph (`src/utils/tag_layout_core.h`)

`fb_tagmap_compute_hops` goes over the edges twice and writes the hops in place. A pass marks
what is joined to a source and not marked yet; the sources of the second pass are what the
first one has marked.
-/

namespace FlyBoard.TagLayout

/-- The fields of `fb_tagmap_state_t` that the hops depend on. -/
structure TagMap where
  nNodes : ℕ
  edges : List (ℤ × ℤ)

def node? (n : ℕ) (i : ℤ) : Option (Fin n) :=
  if h : 0 ≤ i ∧ i < n then some ⟨i.toNat, by omega⟩ else none

/-- The body of a pass: an end of the edge that is joined to a source gets the mark. -/
def markEdge {n : ℕ} (source : (Fin n → ℤ) → Fin n → Bool) (mark : ℤ) (hop : Fin n → ℤ)
    (edge : ℤ × ℤ) : Fin n → ℤ :=
  match node? n edge.1, node? n edge.2 with
  | some a, some b =>
    if source hop a ∧ hop b < 0 then Function.update hop b mark
    else if source hop b ∧ hop a < 0 then Function.update hop a mark
    else hop
  | _, _ => hop

def markFirst {n : ℕ} (focus : Fin n) : (Fin n → ℤ) → ℤ × ℤ → Fin n → ℤ :=
  markEdge (fun _ a => decide (a = focus)) 1

def markSecond {n : ℕ} : (Fin n → ℤ) → ℤ × ℤ → Fin n → ℤ :=
  markEdge (fun hop a => decide (hop a = 1)) 2

/-- `fb_tagmap_compute_hops` -/
def fbTagmapComputeHops (st : TagMap) (focusIdx : ℤ) : Fin st.nNodes → ℤ :=
  match node? st.nNodes focusIdx with
  | none => fun _ => -1
  | some focus =>
    let hop := Function.update (fun _ => -1) focus 0
    let hop := st.edges.foldl (markFirst focus) hop
    st.edges.foldl markSecond hop

/-- The edge joins the two nodes, in one direction or the other. -/
def Joins {n : ℕ} (edge : ℤ × ℤ) (u v : Fin n) : Prop :=
  edge = ((u : ℤ), (v : ℤ)) ∨ edge = ((v : ℤ), (u : ℤ))

def TagMap.graph (st : TagMap) : SimpleGraph (Fin st.nNodes) where
  Adj u v := u ≠ v ∧ ∃ edge ∈ st.edges, Joins edge u v
  symm := ⟨fun _ _ h => ⟨h.1.symm, h.2.imp fun _ hedge => ⟨hedge.1, hedge.2.symm⟩⟩⟩
  loopless := ⟨fun _ h => h.1 rfl⟩

/-! ## One pass -/

section Pass

variable {n : ℕ} {source : (Fin n → ℤ) → Fin n → Bool} {mark : ℤ} {hop : Fin n → ℤ}

theorem node?_eq_some_iff {i : ℤ} {u : Fin n} : node? n i = some u ↔ i = u := by
  unfold node?
  constructor
  · intro h
    split_ifs at h with hrange
    have hval := congrArg Fin.val (Option.some.inj h)
    simp only at hval
    omega
  · rintro rfl
    rw [dif_pos ⟨Int.natCast_nonneg _, by exact_mod_cast u.isLt⟩]
    rfl

theorem joins_iff {edge : ℤ × ℤ} {u v : Fin n} : Joins edge u v ↔
    node? n edge.1 = some u ∧ node? n edge.2 = some v ∨
      node? n edge.1 = some v ∧ node? n edge.2 = some u := by
  simp only [node?_eq_some_iff, Joins, Prod.ext_iff]

/-- A pass that may begin: sources are marked already, and a mark makes no new one. -/
structure Marks (source : (Fin n → ℤ) → Fin n → Bool) (mark : ℤ) : Prop where
  nonneg : 0 ≤ mark
  stable : ∀ hop v, hop v < 0 → source (Function.update hop v mark) = source hop

theorem markEdge_apply (h : Marks source mark) (hmarked : ∀ u, source hop u = true → 0 ≤ hop u)
    (edge : ℤ × ℤ) (v : Fin n) :
    source (markEdge source mark hop edge) = source hop ∧
      markEdge source mark hop edge v =
        open Classical in
        if hop v < 0 ∧ ∃ u, source hop u = true ∧ Joins edge u v then mark else hop v := by
  classical
  have hnone : (∀ a b, node? n edge.1 = some a → node? n edge.2 ≠ some b) →
      markEdge source mark hop edge = hop := by
    intro hnot
    unfold markEdge
    split
    · next a b ha hb => exact absurd hb (hnot a b ha)
    · rfl
  by_cases hvalid : ∃ a b, node? n edge.1 = some a ∧ node? n edge.2 = some b
  · obtain ⟨a, b, ha, hb⟩ := hvalid
    have hjoins : ∀ u w : Fin n, Joins edge u w ↔ a = u ∧ b = w ∨ a = w ∧ b = u := by
      intro u w
      rw [joins_iff, ha, hb, Option.some_inj, Option.some_inj, Option.some_inj, Option.some_inj]
    have hbody : markEdge source mark hop edge =
        if source hop a ∧ hop b < 0 then Function.update hop b mark
        else if source hop b ∧ hop a < 0 then Function.update hop a mark
        else hop := by
      unfold markEdge
      rw [ha, hb]
    rw [hbody]
    by_cases hfirst : source hop a = true ∧ hop b < 0
    · rw [if_pos hfirst]
      refine ⟨h.stable hop b hfirst.2, ?_⟩
      by_cases hv : v = b
      · rw [hv, Function.update_self,
          if_pos ⟨hfirst.2, a, hfirst.1, (hjoins _ _).mpr (.inl ⟨rfl, rfl⟩)⟩]
      · rw [Function.update_of_ne hv, if_neg]
        rintro ⟨hneg, u, -, hedge⟩
        rcases (hjoins u v).mp hedge with ⟨-, heq⟩ | ⟨heq, -⟩
        · exact hv heq.symm
        · rw [← heq] at hneg
          exact absurd (hmarked a hfirst.1) (Int.not_le.mpr hneg)
    · rw [if_neg hfirst]
      by_cases hsecond : source hop b = true ∧ hop a < 0
      · rw [if_pos hsecond]
        refine ⟨h.stable hop a hsecond.2, ?_⟩
        by_cases hv : v = a
        · rw [hv, Function.update_self,
            if_pos ⟨hsecond.2, b, hsecond.1, (hjoins _ _).mpr (.inr ⟨rfl, rfl⟩)⟩]
        · rw [Function.update_of_ne hv, if_neg]
          rintro ⟨hneg, u, hu, hedge⟩
          rcases (hjoins u v).mp hedge with ⟨rfl, rfl⟩ | ⟨heq, -⟩
          · exact hfirst ⟨hu, hneg⟩
          · exact hv heq.symm
      · rw [if_neg hsecond]
        refine ⟨rfl, ?_⟩
        rw [if_neg]
        rintro ⟨hneg, u, hu, hedge⟩
        rcases (hjoins u v).mp hedge with ⟨rfl, rfl⟩ | ⟨rfl, rfl⟩
        · exact hfirst ⟨hu, hneg⟩
        · exact hsecond ⟨hu, hneg⟩
  · -- an edge with an invalid end joins nothing
    rw [hnone fun a b ha hb => hvalid ⟨a, b, ha, hb⟩]
    refine ⟨rfl, ?_⟩
    rw [if_neg]
    rintro ⟨-, u, -, hedge⟩
    rcases joins_iff.mp hedge with ⟨ha, hb⟩ | ⟨ha, hb⟩
    · exact hvalid ⟨u, v, ha, hb⟩
    · exact hvalid ⟨v, u, ha, hb⟩

/-- A whole pass: the nodes that are joined to a source get the mark, whatever the order of the
edges. -/
theorem foldl_markEdge (h : Marks source mark) (edges : List (ℤ × ℤ))
    (hmarked : ∀ u, source hop u = true → 0 ≤ hop u) (v : Fin n) :
    edges.foldl (markEdge source mark) hop v =
      open Classical in
      if hop v < 0 ∧ ∃ edge ∈ edges, ∃ u, source hop u = true ∧ Joins edge u v then mark
      else hop v := by
  classical
  induction edges generalizing hop with
  | nil =>
    rw [List.foldl_nil, if_neg]
    rintro ⟨-, edge, hmem, -⟩
    exact absurd hmem List.not_mem_nil
  | cons edge edges ih =>
    have hsource := (markEdge_apply h hmarked edge v).1
    have hv := fun v => (markEdge_apply h hmarked edge v).2
    have hmarked' : ∀ u, source (markEdge source mark hop edge) u = true →
        0 ≤ markEdge source mark hop edge u := by
      intro u hu
      rw [hsource] at hu
      rw [hv]
      split_ifs
      · exact h.nonneg
      · exact hmarked u hu
    rw [List.foldl_cons, ih hmarked', hsource]
    simp only [List.exists_mem_cons_iff]
    have hnonneg := h.nonneg
    by_cases hfirst : hop v < 0 ∧ ∃ u, source hop u = true ∧ Joins edge u v
    · have hvalue : markEdge source mark hop edge v = mark := by rw [hv, if_pos hfirst]
      rw [hvalue, if_neg fun hlater => absurd hlater.1 (Int.not_lt.mpr hnonneg),
        if_pos ⟨hfirst.1, .inl hfirst.2⟩]
    · have hvalue : markEdge source mark hop edge v = hop v := by rw [hv, if_neg hfirst]
      rw [hvalue]
      refine if_congr (and_congr_right fun hneg => ?_) rfl rfl
      exact (or_iff_right fun hedge => hfirst ⟨hneg, hedge⟩).symm

end Pass

/-! ## Both passes -/

section Hops

variable {st : TagMap} (focus : Fin st.nNodes)

theorem marks_first : Marks (fun _ a => decide (a = focus)) 1 :=
  ⟨by decide, fun _ _ _ => rfl⟩

theorem marks_second : Marks (fun (hop : Fin st.nNodes → ℤ) a => decide (hop a = 1)) 2 := by
  refine ⟨by decide, fun hop v hneg => funext fun a => decide_eq_decide.mpr ?_⟩
  by_cases ha : a = v
  · rw [ha, Function.update_self]
    omega
  · rw [Function.update_of_ne ha]

theorem first_pass (v : Fin st.nNodes) :
    st.edges.foldl (markFirst focus) (Function.update (fun _ => -1) focus 0) v =
      open Classical in
      if v = focus then 0 else if st.graph.Adj focus v then 1 else -1 := by
  classical
  have hmarked : ∀ u, decide (u = focus) = true →
      0 ≤ Function.update (fun _ : Fin st.nNodes => (-1 : ℤ)) focus 0 u := by
    intro u hu
    rw [of_decide_eq_true hu, Function.update_self]
  rw [markFirst, foldl_markEdge (marks_first focus) st.edges hmarked]
  by_cases hv : v = focus
  · rw [hv, Function.update_self, if_neg fun h => absurd h.1 (by decide), if_pos rfl]
  · rw [Function.update_of_ne hv, if_neg hv]
    refine if_congr ?_ rfl rfl
    constructor
    · rintro ⟨-, edge, hedge, u, hu, hjoins⟩
      rw [of_decide_eq_true hu] at hjoins
      exact ⟨Ne.symm hv, edge, hedge, hjoins⟩
    · rintro ⟨-, edge, hedge, hjoins⟩
      exact ⟨by decide, edge, hedge, focus, decide_eq_true rfl, hjoins⟩

theorem hops_eq (v : Fin st.nNodes) :
    fbTagmapComputeHops st focus v =
      open Classical in
      if v = focus then 0 else if st.graph.Adj focus v then 1
      else if (st.graph.commonNeighbors focus v).Nonempty then 2 else -1 := by
  classical
  have hnode : node? st.nNodes (focus : ℤ) = some focus := node?_eq_some_iff.mpr rfl
  have hsource : ∀ u, decide (st.edges.foldl (markFirst focus)
      (Function.update (fun _ => -1) focus 0) u = 1) = true ↔ st.graph.Adj focus u := by
    intro u
    rw [decide_eq_true_eq, first_pass]
    split_ifs with hu hadj
    · exact iff_of_false (by decide) fun hadj => hadj.1 hu.symm
    · exact iff_of_true rfl hadj
    · exact iff_of_false (by decide) hadj
  have hmarked : ∀ u, decide (st.edges.foldl (markFirst focus)
      (Function.update (fun _ => -1) focus 0) u = 1) = true →
      0 ≤ st.edges.foldl (markFirst focus) (Function.update (fun _ => -1) focus 0) u := by
    intro u hu
    rw [of_decide_eq_true hu]
    decide
  unfold fbTagmapComputeHops
  rw [hnode]
  dsimp only
  rw [markSecond, foldl_markEdge marks_second st.edges hmarked, first_pass]
  by_cases hv : v = focus
  · rw [if_pos hv, if_pos hv, if_neg fun h => absurd h.1 (by decide)]
  · rw [if_neg hv, if_neg hv]
    by_cases hadj : st.graph.Adj focus v
    · rw [if_pos hadj, if_pos hadj, if_neg fun h => absurd h.1 (by decide)]
    · rw [if_neg hadj, if_neg hadj]
      refine if_congr ?_ rfl rfl
      constructor
      · rintro ⟨-, edge, hedge, u, hu, hjoins⟩
        have hu' := (hsource u).mp hu
        refine ⟨u, hu', ?_⟩
        refine ⟨fun heq => hadj (heq ▸ hu'), edge, hedge, hjoins.symm⟩
      · rintro ⟨u, hfocus, -, edge, hedge, hjoins⟩
        exact ⟨by decide, edge, hedge, u, (hsource u).mpr hfocus, hjoins.symm⟩

/-- Hops are distances, as far as they go. -/
theorem hops_eq_dist (st : TagMap) (focus v : Fin st.nNodes) :
    (st.graph.edist focus v ≤ 2 →
        fbTagmapComputeHops st focus v = (st.graph.dist focus v : ℤ)) ∧
      (2 < st.graph.edist focus v → fbTagmapComputeHops st focus v = -1) := by
  classical
  have hdist : ∀ k : ℕ, st.graph.edist focus v = k → st.graph.dist focus v = k :=
    fun k hk => by rw [SimpleGraph.dist, hk, ENat.toNat_natCast]
  rw [SimpleGraph.two_lt_edist_iff, hops_eq]
  by_cases hv : v = focus
  · rw [if_pos hv, hdist 0 (SimpleGraph.edist_eq_zero_iff.mpr hv.symm)]
    exact ⟨fun _ => rfl, fun h => absurd hv.symm h.1⟩
  · rw [if_neg hv]
    by_cases hadj : st.graph.Adj focus v
    · rw [if_pos hadj, hdist 1 (SimpleGraph.edist_eq_one_iff_adj.mpr hadj)]
      exact ⟨fun _ => rfl, fun h => absurd hadj h.2.1⟩
    · rw [if_neg hadj]
      by_cases hcommon : (st.graph.commonNeighbors focus v).Nonempty
      · rw [if_pos hcommon,
          hdist 2 (SimpleGraph.edist_eq_two_iff.mpr ⟨Ne.symm hv, hadj, hcommon⟩)]
        exact ⟨fun _ => rfl, fun h => absurd hcommon (Set.not_nonempty_iff_eq_empty.mpr h.2.2)⟩
      · rw [if_neg hcommon]
        refine ⟨fun hle => absurd hle (not_le.mpr (SimpleGraph.two_lt_edist_iff.mpr ?_)), fun _ => rfl⟩
        exact ⟨Ne.symm hv, hadj, Set.not_nonempty_iff_eq_empty.mp hcommon⟩

end Hops

end FlyBoard.TagLayout
