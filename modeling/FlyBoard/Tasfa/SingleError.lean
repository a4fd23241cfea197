import FlyBoard.Tasfa.Peeling
import Mathlib.Data.Int.ModEq

/-!
# One damaged chunk (`htp_analyze_group` and the peeling decoder)

A side slot lies on one line of its group and a corner slot on two. When one scalar of a
balanced group is altered, the two slots that explain the lines are reported, and the altered
one is among them. The peeling decoder takes the side slot for the damaged one.
-/

namespace FlyBoard.Tasfa

/-- Scalars below the modulus, with line sums that agree modulo it. -/
structure Balanced (v : Nat → UInt64) (modulus : UInt64) : Prop where
  lt : ∀ i < 6, v i < modulus
  l12 : (v 0).toNat + (v 1).toNat + (v 2).toNat ≡
    (v 2).toNat + (v 3).toNat + (v 4).toNat [MOD modulus.toNat]
  l23 : (v 2).toNat + (v 3).toNat + (v 4).toNat ≡
    (v 4).toNat + (v 5).toNat + (v 0).toNat [MOD modulus.toNat]

/-! ## The syndrome -/

section Sums

variable {v : Nat → UInt64} {modulus : UInt64}

/-- Three scalars do not overflow below this bound. -/
theorem toNat_lineSum {a b c : UInt64} (hM : 3 * (modulus.toNat - 1) < 2 ^ 64) (ha : a < modulus)
    (hb : b < modulus) (hc : c < modulus) :
    ((a + b + c) % modulus).toNat = (a.toNat + b.toNat + c.toNat) % modulus.toNat := by
  rw [UInt64.lt_iff_toNat_lt] at ha hb hc
  have hsum : a.toNat + b.toNat + c.toNat < 2 ^ 64 := by omega
  rw [UInt64.toNat_mod, UInt64.toNat_add, UInt64.toNat_add, Nat.mod_add_mod,
    Nat.mod_eq_of_lt hsum]

theorem lineSum_eq_iff {a b c a' b' c' : UInt64} (hM : 3 * (modulus.toNat - 1) < 2 ^ 64)
    (ha : a < modulus) (hb : b < modulus) (hc : c < modulus) (ha' : a' < modulus)
    (hb' : b' < modulus) (hc' : c' < modulus) :
    (a + b + c) % modulus = (a' + b' + c') % modulus ↔
      a.toNat + b.toNat + c.toNat ≡ a'.toNat + b'.toNat + c'.toNat [MOD modulus.toNat] := by
  rw [← UInt64.toNat_inj, toNat_lineSum hM ha hb hc, toNat_lineSum hM ha' hb' hc', Nat.ModEq]

theorem htpLineSums_of_pos (h : modulus ≠ 0) : htpLineSums v modulus =
    ⟨(v 0 + v 1 + v 2) % modulus, (v 2 + v 3 + v 4) % modulus, (v 4 + v 5 + v 0) % modulus⟩ := by
  rw [htpLineSums, if_neg h]

theorem lines_iff (hM : 3 * (modulus.toNat - 1) < 2 ^ 64) (hv : ∀ i < 6, v i < modulus) :
    ((htpLineSums v modulus).l1 = (htpLineSums v modulus).l2 ↔
      (v 0).toNat + (v 1).toNat + (v 2).toNat ≡
        (v 2).toNat + (v 3).toNat + (v 4).toNat [MOD modulus.toNat]) ∧
    ((htpLineSums v modulus).l2 = (htpLineSums v modulus).l3 ↔
      (v 2).toNat + (v 3).toNat + (v 4).toNat ≡
        (v 4).toNat + (v 5).toNat + (v 0).toNat [MOD modulus.toNat]) ∧
    ((htpLineSums v modulus).l1 = (htpLineSums v modulus).l3 ↔
      (v 0).toNat + (v 1).toNat + (v 2).toNat ≡
        (v 4).toNat + (v 5).toNat + (v 0).toNat [MOD modulus.toNat]) := by
  have hne : modulus ≠ 0 := by
    rintro rfl
    exact UInt64.not_lt_zero (hv 0 (by decide))
  have h0 := hv 0 (by decide)
  have h1 := hv 1 (by decide)
  have h2 := hv 2 (by decide)
  have h3 := hv 3 (by decide)
  have h4 := hv 4 (by decide)
  have h5 := hv 5 (by decide)
  rw [htpLineSums_of_pos hne]
  exact ⟨lineSum_eq_iff hM h0 h1 h2 h2 h3 h4, lineSum_eq_iff hM h2 h3 h4 h4 h5 h0,
    lineSum_eq_iff hM h0 h1 h2 h4 h5 h0⟩

theorem Balanced.agree (hM : 3 * (modulus.toNat - 1) < 2 ^ 64) (h : Balanced v modulus) :
    (htpLineSums v modulus).agree = true := by
  rcases lines_iff hM h.lt with ⟨h12, h23, -⟩
  exact decide_eq_true ⟨h12.mpr h.l12, h23.mpr h.l23⟩

end Sums

/-! ## The suspects of one altered scalar -/

section Pattern

variable {rnd : ℚ → ℚ} {v : Nat → UInt64} {modulus : UInt64} {start : Nat}

theorem htpAnalyzeGroup_l1 (h23 : (htpLineSums v modulus).l2 = (htpLineSums v modulus).l3)
    (h12 : (htpLineSums v modulus).l1 ≠ (htpLineSums v modulus).l2) :
    htpAnalyzeGroup rnd v modulus start = [⟨start + 1, 1⟩, ⟨start + 4, 1 / 2⟩] := by
  rw [htpAnalyzeGroup, if_neg fun h => h12 h.1, if_pos ⟨h23, h12⟩]

theorem htpAnalyzeGroup_l2 (h13 : (htpLineSums v modulus).l1 = (htpLineSums v modulus).l3)
    (h12 : (htpLineSums v modulus).l1 ≠ (htpLineSums v modulus).l2) :
    htpAnalyzeGroup rnd v modulus start = [⟨start + 3, 1⟩, ⟨start + 0, 1 / 2⟩] := by
  have h23 : (htpLineSums v modulus).l2 ≠ (htpLineSums v modulus).l3 :=
    fun h => h12 (h13.trans h.symm)
  rw [htpAnalyzeGroup, if_neg fun h => h12 h.1, if_neg fun h => h23 h.1,
    if_pos ⟨h13, Ne.symm h12⟩]

theorem htpAnalyzeGroup_l3 (h12 : (htpLineSums v modulus).l1 = (htpLineSums v modulus).l2)
    (h13 : (htpLineSums v modulus).l1 ≠ (htpLineSums v modulus).l3) :
    htpAnalyzeGroup rnd v modulus start = [⟨start + 5, 1⟩, ⟨start + 2, 1 / 2⟩] := by
  have h23 : (htpLineSums v modulus).l2 ≠ (htpLineSums v modulus).l3 := fun h => h13 (h12.trans h)
  rw [htpAnalyzeGroup, if_neg fun h => h23 h.2, if_neg fun h => h23 h.1, if_neg fun h => h13 h.1,
    if_pos ⟨h12, Ne.symm h13⟩]

theorem modEq_of_replaced {x y m a a' b b' : Nat} (h : a ≡ b [MOD m]) (ha : a' + y = a + x)
    (hb : b' + y = b + x) : a' ≡ b' [MOD m] := by
  refine Nat.ModEq.add_right_cancel' y ?_
  rw [ha, hb]
  exact h.add_right x

/-- A sum in which one term below the modulus is replaced by another does not stay congruent. -/
theorem not_modEq_of_replaced {x y m a a' b : Nat} (h : a ≡ b [MOD m]) (hx : x < m) (hy : y < m)
    (hne : x ≠ y) (ha : a' + y = a + x) : ¬ a' ≡ b [MOD m] := by
  intro h'
  have hsame : a + x ≡ a + y [MOD m] := by
    rw [← ha]
    exact (h'.trans h.symm).add_right y
  have hmod : x % m = y % m := hsame.add_left_cancel' a
  rw [Nat.mod_eq_of_lt hx, Nat.mod_eq_of_lt hy] at hmod
  exact hne hmod

/-- In a balanced group with one scalar altered two slots are suspected, and the altered one is
one of them. -/
theorem htpAnalyzeGroup_single_error (rnd : ℚ → ℚ) (hM : 3 * (modulus.toNat - 1) < 2 ^ 64)
    (hv : Balanced v modulus) {k : Nat} (hk : k < 6) {w : UInt64} (hw : w < modulus)
    (hne : w ≠ v k) (start : Nat) :
    ∃ a b, htpAnalyzeGroup rnd (Function.update v k w) modulus start = [a, b] ∧
      a.chunk ≠ b.chunk ∧ (a.chunk = start + k ∨ b.chunk = start + k) := by
  set u := Function.update v k w with hu
  have hself : u k = w := Function.update_self ..
  have hother : ∀ i, i ≠ k → u i = v i := fun i hi => Function.update_of_ne hi ..
  have hlt : ∀ i < 6, u i < modulus := by
    intro i hi
    by_cases hik : i = k
    · rw [hik, hself]
      exact hw
    · rw [hother i hik]
      exact hv.lt i hi
  rcases lines_iff hM hlt with ⟨h12, h23, h13⟩
  have hx := UInt64.lt_iff_toNat_lt.mp hw
  have hy := UInt64.lt_iff_toNat_lt.mp (hv.lt k hk)
  have hxy : w.toNat ≠ (v k).toNat := fun h => hne (UInt64.toNat_inj.mp h)
  have hl13 := hv.l12.trans hv.l23
  clear_value u
  -- the lines of slot `k` change by the same amount, the others not at all
  have hcases : k = 0 ∨ k = 1 ∨ k = 2 ∨ k = 3 ∨ k = 4 ∨ k = 5 := by omega
  rcases hcases with rfl | rfl | rfl | rfl | rfl | rfl
  · simp only [hself, hother 1 (by decide), hother 2 (by decide), hother 3 (by decide),
      hother 4 (by decide), hother 5 (by decide)] at h12 h13
    refine ⟨_, _, htpAnalyzeGroup_l2 (h13.mpr ?_) fun h => ?_, by simp, .inr rfl⟩
    · exact modEq_of_replaced (x := w.toNat) (y := (v 0).toNat) hl13 (by omega) (by omega)
    · exact not_modEq_of_replaced hv.l12 hx hy hxy (by omega) (h12.mp h)
  · simp only [hself, hother 0 (by decide), hother 2 (by decide), hother 3 (by decide),
      hother 4 (by decide), hother 5 (by decide)] at h12 h23
    refine ⟨_, _, htpAnalyzeGroup_l1 (h23.mpr hv.l23) fun h => ?_, by simp, .inl rfl⟩
    exact not_modEq_of_replaced hv.l12 hx hy hxy (by omega) (h12.mp h)
  · simp only [hself, hother 0 (by decide), hother 1 (by decide), hother 3 (by decide),
      hother 4 (by decide), hother 5 (by decide)] at h12 h13
    refine ⟨_, _, htpAnalyzeGroup_l3 (h12.mpr ?_) fun h => ?_, by simp, .inr rfl⟩
    · exact modEq_of_replaced (x := w.toNat) (y := (v 2).toNat) hv.l12 (by omega) (by omega)
    · exact not_modEq_of_replaced hl13 hx hy hxy (by omega) (h13.mp h)
  · simp only [hself, hother 0 (by decide), hother 1 (by decide), hother 2 (by decide),
      hother 4 (by decide), hother 5 (by decide)] at h12 h13
    refine ⟨_, _, htpAnalyzeGroup_l2 (h13.mpr hl13) fun h => ?_, by simp, .inl rfl⟩
    exact not_modEq_of_replaced hv.l12.symm hx hy hxy (by omega) (h12.mp h).symm
  · simp only [hself, hother 0 (by decide), hother 1 (by decide), hother 2 (by decide),
      hother 3 (by decide), hother 5 (by decide)] at h12 h23
    refine ⟨_, _, htpAnalyzeGroup_l1 (h23.mpr ?_) fun h => ?_, by simp, .inr rfl⟩
    · exact modEq_of_replaced (x := w.toNat) (y := (v 4).toNat) hv.l23 (by omega) (by omega)
    · exact not_modEq_of_replaced hv.l12.symm hx hy hxy (by omega) (h12.mp h).symm
  · simp only [hself, hother 0 (by decide), hother 1 (by decide), hother 2 (by decide),
      hother 3 (by decide), hother 4 (by decide)] at h12 h13
    refine ⟨_, _, htpAnalyzeGroup_l3 (h12.mpr hv.l12) fun h => ?_, by simp, .inl rfl⟩
    exact not_modEq_of_replaced hl13.symm hx hy hxy (by omega) (h13.mp h).symm

end Pattern

def scalars (l : List UInt64) : Nat → UInt64 := fun i => l.getD i 0

theorem htpAnalyzeGroup_first_corner :
    ∃ a b, htpAnalyzeGroup id (Function.update (scalars [1, 2, 3, 1, 2, 3]) 0 9) 1000 0 = [a, b] ∧
      a.chunk ≠ b.chunk ∧ (a.chunk = 0 + 0 ∨ b.chunk = 0 + 0) :=
  htpAnalyzeGroup_single_error id (by decide) ⟨by decide, by decide, by decide⟩ (by decide)
    (by decide) (by decide) 0

/-- With a modulus of 64 bits the line sums overflow: nothing is suspected. -/
theorem htpAnalyzeGroup_overflow :
    let v := scalars [18446744073709551614, 2, 0, 1, 0, 2]
    Balanced v 18446744073709551615 ∧ (0 : UInt64) < 18446744073709551615 ∧ 0 ≠ v 3 ∧
      htpAnalyzeGroup id (Function.update v 3 0) 18446744073709551615 0 = [] := by
  refine ⟨⟨by decide, by decide, by decide⟩, by decide, by decide, ?_⟩
  rw [htpAnalyzeGroup_eq_nil]
  decide

/-! ## The candidate of one group -/

def isSide (slot : Nat) : Prop := slot % 2 = 1

instance (slot : Nat) : Decidable (isSide slot) := inferInstanceAs (Decidable (slot % 2 = 1))

variable {l : List Suspect}

theorem inGroup_eq_self {g : Nat} (h : ∀ s ∈ l, s.chunk / 6 = g) :
    inGroup (g * 6) (g * 6 + 6) l = l := by
  refine List.filter_eq_self.mpr fun s hs => decide_eq_true ?_
  have hg := h s hs
  omega

theorem inGroup_eq_nil {g g' stop : Nat} (h : ∀ s ∈ l, s.chunk / 6 = g)
    (hne : g' ≠ g) (hstop : stop ≤ g' * 6 + 6) : inGroup (g' * 6) stop l = [] := by
  refine List.filter_eq_nil_iff.mpr fun s hs hin => ?_
  have hg := h s hs
  have hbounds := of_decide_eq_true hin
  omega

theorem bestSuspect_pair (c c' : Nat) : bestSuspect [⟨c, 1⟩, ⟨c', 1 / 2⟩] = (some c, 1) := by
  have h1 : (1 : ℚ) > -1 := by decide
  have h2 : ¬ (1 / 2 : ℚ) > 1 := by decide +kernel
  rw [bestSuspect, List.foldl_cons, List.foldl_cons, List.foldl_nil, if_pos h1, if_neg h2]

variable {modulus : UInt64} {rnd : ℚ → ℚ}

theorem side_of_candidate {v : Nat → UInt64} {g t : Nat}
    (h : peelCandidate (g * 6) (g * 6 + 6) (htpAnalyzeGroup rnd v modulus (g * 6)) = some t) :
    isSide (t - g * 6) := by
  have hpair (c c' : Nat)
      (hlist : htpAnalyzeGroup rnd v modulus (g * 6) = [⟨c, 1⟩, ⟨c', 1 / 2⟩]) : t = c := by
    have hin := inGroup_eq_self (htpAnalyzeGroup_chunks rnd v modulus g).1
    rw [peelCandidate, hin, hlist, bestSuspect_pair] at h
    split at h
    · exact (Option.some.inj h).symm
    · cases h
  by_cases h12 : (htpLineSums v modulus).l1 = (htpLineSums v modulus).l2
  · by_cases h23 : (htpLineSums v modulus).l2 = (htpLineSums v modulus).l3
    · rw [htpAnalyzeGroup, if_pos ⟨h12, h23⟩] at h
      cases h
    · have h13 : (htpLineSums v modulus).l1 ≠ (htpLineSums v modulus).l3 :=
        fun h13 => h23 (h12.symm.trans h13)
      rw [hpair _ _ (htpAnalyzeGroup_l3 h12 h13), isSide]
      omega
  · by_cases h23 : (htpLineSums v modulus).l2 = (htpLineSums v modulus).l3
    · rw [hpair _ _ (htpAnalyzeGroup_l1 h23 h12), isSide]
      omega
    · by_cases h13 : (htpLineSums v modulus).l1 = (htpLineSums v modulus).l3
      · rw [hpair _ _ (htpAnalyzeGroup_l2 h13 h12), isSide]
        omega
      · -- all three lines differ: six suspects are too many
        have hin := inGroup_eq_self (htpAnalyzeGroup_chunks rnd v modulus g).1
        have hlen : (htpAnalyzeGroup rnd v modulus (g * 6)).length = 6 := by
          rw [htpAnalyzeGroup, if_neg fun h => h12 h.1, if_neg fun h => h23 h.1,
            if_neg fun h => h13 h.1, if_neg fun h => h12 h.1]
          rfl
        rw [peelCandidate, hin, hlen] at h
        cases h

theorem candidate_of_side {v₀ v : Nat → UInt64} {g k : Nat}
    (hk : k < 6) (hside : isSide k) (hv : ∀ i < 6, i ≠ k → v i = v₀ i)
    (h₀ : (htpLineSums v₀ modulus).agree = true) (h : (htpLineSums v modulus).agree = false) :
    peelCandidate (g * 6) (g * 6 + 6) (htpAnalyzeGroup rnd v modulus (g * 6)) =
      some (g * 6 + k) := by
  have hpair (c' : Nat)
      (hlist : htpAnalyzeGroup rnd v modulus (g * 6) = [⟨g * 6 + k, 1⟩, ⟨c', 1 / 2⟩]) :
      peelCandidate (g * 6) (g * 6 + 6) (htpAnalyzeGroup rnd v modulus (g * 6)) =
        some (g * 6 + k) := by
    have hin := inGroup_eq_self (htpAnalyzeGroup_chunks rnd v modulus g).1
    rw [peelCandidate, hin, hlist, bestSuspect_pair]
    exact if_pos (.inr ⟨rfl, le_refl _⟩)
  have hsums := of_decide_eq_true h₀
  have hdiff := of_decide_eq_false h
  rw [isSide] at hside
  have hcases : k = 1 ∨ k = 3 ∨ k = 5 := by omega
  rcases hcases with rfl | rfl | rfl
  · have h23 : (htpLineSums v modulus).l2 = (htpLineSums v modulus).l3 := by
      simp only [htpLineSums, hv 0 (by decide) (by decide), hv 2 (by decide) (by decide),
        hv 3 (by decide) (by decide), hv 4 (by decide) (by decide), hv 5 (by decide) (by decide)]
      exact hsums.2
    exact hpair _ (htpAnalyzeGroup_l1 h23 fun h12 => hdiff ⟨h12, h23⟩)
  · have h13 : (htpLineSums v modulus).l1 = (htpLineSums v modulus).l3 := by
      simp only [htpLineSums, hv 0 (by decide) (by decide), hv 1 (by decide) (by decide),
        hv 2 (by decide) (by decide), hv 4 (by decide) (by decide), hv 5 (by decide) (by decide)]
      exact hsums.1.trans hsums.2
    exact hpair _ (htpAnalyzeGroup_l2 h13 fun h12 => hdiff ⟨h12, h12.symm.trans h13⟩)
  · have h12 : (htpLineSums v modulus).l1 = (htpLineSums v modulus).l2 := by
      simp only [htpLineSums, hv 0 (by decide) (by decide), hv 1 (by decide) (by decide),
        hv 2 (by decide) (by decide), hv 3 (by decide) (by decide), hv 4 (by decide) (by decide)]
      exact hsums.1
    exact hpair _ (htpAnalyzeGroup_l3 h12 fun h13 => hdiff ⟨h12, h12.symm.trans h13⟩)

/-! ## A session with one damaged chunk -/

namespace Session

variable {u : Session} {parity : ParityFiles} {bitmap : Nat → Bool} {orig temp : File}
  {sent htp : HtpRecords} {rtt : ℚ} {g k : Nat} {io : Nat → Nat → RecoveryIo}

/-- Chunk `k` of the full group `g` was damaged on the way, bytes and scalar; `orig` and `sent`
are the file and the records that the client meant. -/
structure SingleDamage (u : Session) (orig temp : File) (sent htp : HtpRecords) (modulus : UInt64)
    (g k : Nat) : Prop where
  group : g < u.dataChunks / 6
  slot : k < 6
  balanced : ∀ g' < u.dataChunks / 6, Balanced (sent.scalars (g' * 6)) modulus
  held : ∀ ci < u.dataChunks, ci ≠ g * 6 + k → u.HoldsChunk orig temp ci
  bytes : ¬ u.HoldsChunk orig temp (g * 6 + k)
  scalars : ∀ ci, ci ≠ g * 6 + k → (htp ci).balanced = (sent ci).balanced
  scalar : (htp (g * 6 + k)).balanced ≠ (sent (g * 6 + k)).balanced

theorem flatMap_range_of_one {α : Type*} {f : Nat → List α} {n : Nat} (hg : g < n)
    (h : ∀ g' < n, g' ≠ g → f g' = []) : (List.range n).flatMap f = f g := by
  induction n with
  | zero => exact absurd hg (Nat.not_lt_zero g)
  | succ n ih =>
    rw [List.range_succ, List.flatMap_append, List.flatMap_singleton]
    by_cases hn : n = g
    · have hnil : (List.range n).flatMap f = [] := by
        refine List.flatMap_eq_nil_iff.mpr fun g' hg' => ?_
        have hlt := List.mem_range.mp hg'
        exact h g' (by omega) (by omega)
      rw [hnil, hn, List.nil_append]
    · rw [ih (by omega) fun g' hg' => h g' (by omega), h n (by omega) hn, List.append_nil]

/-- The other groups are balanced still, and too few suspects are listed to contract them. -/
theorem SingleDamage.htpSuspects (d : u.SingleDamage orig temp sent htp modulus g k)
    (hM : 3 * (modulus.toNat - 1) < 2 ^ 64) (mode : FecMode) :
    (u.htpSuspects rnd mode ⟨htp, modulus, rtt⟩).1 = groupSuspects rnd htp modulus g := by
  have hpos : modulus ≠ 0 := by
    rintro rfl
    exact UInt64.not_lt_zero ((d.balanced g d.group).lt 0 (by decide))
  have hmod : HtpInput.modulusM ⟨htp, modulus, rtt⟩ = modulus := if_neg hpos
  have hverify : (u.htpVerify rnd mode ⟨htp, modulus, rtt⟩).2 = groupSuspects rnd htp modulus g := by
    rw [(u.verified rnd mode ⟨htp, modulus, rtt⟩).suspects_eq, hmod]
    refine flatMap_range_of_one d.group fun g' hg' hne => ?_
    have hsame : ∀ i < 6, htp.scalars (g' * 6) i = sent.scalars (g' * 6) i := by
      intro i hi
      have hk := d.slot
      exact d.scalars _ (by omega)
    rw [groupSuspects]
    split
    · rw [htpAnalyzeGroup_eq_nil, htpLineSums_congr hsame]
      exact (d.balanced g' hg').agree hM
    · rfl
  have hlen : (groupSuspects rnd htp modulus g).length ≤ 6 := by
    rw [groupSuspects]
    split
    · exact length_htpAnalyzeGroup_le ..
    · exact Nat.zero_le 6
  have hcontracts : u.contracts rnd mode ⟨htp, modulus, rtt⟩ = false := by
    have hfew : (groupSuspects rnd htp modulus g).length < 12 := by omega
    rw [contracts, hverify, htpRepairWorthwhile, if_pos hfew, Bool.and_false]
  rw [Session.htpSuspects, hcontracts, if_neg Bool.false_ne_true, hverify]

theorem SingleDamage.peelSuspects (d : u.SingleDamage orig temp sent htp modulus g k)
    (hM : 3 * (modulus.toNat - 1) < 2 ^ 64) (mode : FecMode) :
    u.peelSuspects rnd mode (some htp) modulus rtt = groupSuspects rnd htp modulus g :=
  d.htpSuspects hM mode

theorem groupEnd_of_full (hg : g < u.dataChunks / 6) : u.groupEnd g = g * 6 + 6 :=
  Nat.min_eq_left (by omega)

theorem candidate_of_other (h : ∀ s ∈ l, s.chunk / 6 = g) {g' : Nat}
    (hne : g' ≠ g) : peelCandidate (g' * 6) (u.groupEnd g') l = none := by
  have hnil : inGroup (g' * 6) (u.groupEnd g') l = [] :=
    inGroup_eq_nil h hne (Nat.min_le_left ..)
  rw [peelCandidate, hnil]
  rfl

theorem peel_frame {suspects : List Suspect} {c : Nat}
    (h : ∀ g t, peelCandidate (g * 6) (u.groupEnd g) suspects = some t → t ≠ c)
    (io : Nat → Nat → RecoveryIo) {i : Nat} (hi : u.InChunk c i) :
    (u.peel parity bitmap io temp suspects).temp i = temp i := by
  let inv (st : PeelState) : Prop := st.temp i = temp i ∧
    ∀ g t, peelCandidate (g * 6) (u.groupEnd g) st.suspects = some t →
      peelCandidate (g * 6) (u.groupEnd g) suspects = some t
  suffices hinv : inv (u.peel parity bitmap io temp suspects) from hinv.1
  refine peelPasses_invariant inv (fun n st hst => ?_) 6 ⟨rfl, fun _ _ hc => hc⟩
  refine peelScan_invariant inv ?_ hst
  intro g _ t st hst hc _ r
  have htemp : r.1 i = temp i := by
    rw [← hst.1]
    by_contra hne
    exact h g t (hst.2 g t hc) ((performXorRecovery_frame hne).eq hi)
  split_ifs
  · exact ⟨htemp, fun g' t' hc' => hst.2 g' t' (candidate_of_removed hc').2⟩
  · exact ⟨htemp, hst.2⟩

theorem peel_of_one {t : Nat} (hl : ∀ s ∈ l, s.chunk / 6 = g) (hg : g < u.dataChunks / 6)
    (hc : peelCandidate (g * 6) (u.groupEnd g) l = some t) (hb : bitmap (u.dataChunks + g) = true)
    (hr : (u.performXorRecovery parity (io 5 g) temp (g * 6) (u.groupEnd g) t
      (u.dataChunks + g)).2 = true) :
    (u.peel parity bitmap io temp l).temp =
      (u.performXorRecovery parity (io 5 g) temp (g * 6) (u.groupEnd g) t
        (u.dataChunks + g)).1 := by
  have hlt : g < u.groups := by
    rw [groups]
    omega
  have hpass : ∀ g' < g, u.Passed parity bitmap (io 5) ⟨temp, l, []⟩ g' := by
    intro g' hg' t' ht'
    rw [candidate_of_other hl (Nat.ne_of_lt hg')] at ht'
    cases ht'
  have hne : l ≠ [] := by
    rintro rfl
    cases hc
  have hrest : (l.filter fun s => !decide (g * 6 ≤ s.chunk ∧ s.chunk < u.groupEnd g)) = [] := by
    refine List.filter_eq_nil_iff.mpr fun s hs => ?_
    have hin : g * 6 ≤ s.chunk ∧ s.chunk < u.groupEnd g := by
      have hsg := hl s hs
      rw [groupEnd_of_full hg]
      omega
    rw [decide_eq_true hin]
    exact Bool.false_ne_true
  rw [peel, peelPasses, if_neg hne]
  dsimp only
  rw [peelScan_first hlt hpass hc hb hr, if_pos rfl, peelPasses, if_pos hrest]

theorem file_eq_iff : (∀ i < u.totalSize, temp i = orig i) ↔
    ∀ ci < u.dataChunks, u.HoldsChunk orig temp ci := by
  constructor
  · intro h ci _ i hi
    refine h _ ?_
    rw [chunkLen] at hi
    omega
  · intro h i hi
    have hmul : i / u.chunkSize * u.chunkSize ≤ i := Nat.div_mul_le_self ..
    have hlt : i < i / u.chunkSize * u.chunkSize + u.chunkSize := Nat.lt_div_mul_add u.chunkSize_pos
    have hchunk : i / u.chunkSize < u.dataChunks := by
      rw [dataChunks, Nat.lt_iff_add_one_le, Nat.le_div_iff_mul_le u.chunkSize_pos, Nat.add_mul]
      omega
    have hbyte := h _ hchunk (i - i / u.chunkSize * u.chunkSize) (by rw [chunkLen]; omega)
    rwa [Nat.add_sub_cancel' hmul] at hbyte

theorem SingleDamage.chunk_lt (d : u.SingleDamage orig temp sent htp modulus g k) :
    g * 6 + k < u.dataChunks := by
  have hg := d.group
  have hk := d.slot
  omega

theorem SingleDamage.restored
    (d : u.SingleDamage orig temp sent htp modulus g k) (hl : ∀ s ∈ l, s.chunk / 6 = g)
    (hc : peelCandidate (g * 6) (u.groupEnd g) l = some (g * 6 + k))
    (hb : bitmap (u.dataChunks + g) = true)
    (hp : parity g = some ((List.range u.chunkSize).map (u.generateXorParityBuffer orig g)))
    (hio : (io 5 g).Ok u) :
    ∀ ci < u.dataChunks, u.HoldsChunk orig (u.peel parity bitmap io temp l).temp ci := by
  have hmem : g * 6 + k ∈ u.groupChunks g := mem_groupChunks_of_candidate hc
  -- the recovery reads the group as if the chunk were missing
  let present (ci : Nat) : Bool := !decide (ci = g * 6 + k)
  have hmissing : u.missingData present g = [g * 6 + k] := by
    have hnodup : (u.groupChunks g).Nodup := List.nodup_range'
    have hone : (u.groupChunks g).filter (fun ci => decide (ci = g * 6 + k)) = [g * 6 + k] := by
      rw [List.filter_eq, List.count_eq_one_of_mem hnodup hmem]
      rfl
    rw [missingData, ← hone]
    refine List.filter_congr fun ci _ => ?_
    exact Bool.not_not _
  have hheld : ∀ ci ∈ u.groupChunks g, present ci = true → u.HoldsChunk orig temp ci := by
    intro ci hci hpresent
    refine d.held ci (mem_groupChunks.mp hci).2 fun heq => ?_
    rw [Bool.not_eq_true', decide_eq_false_iff_not] at hpresent
    exact hpresent heq
  have hparity : parity (u.dataChunks + g - u.dataChunks) =
      some ((List.range u.chunkSize).map (u.generateXorParityBuffer orig g)) := by
    rw [Nat.add_sub_cancel_left, hp]
  rcases performXorRecovery_restores (k := u.dataChunks + g) hio hheld hmissing hparity with
    ⟨hdone, hholds⟩
  rw [peel_of_one hl d.group hc hb hdone]
  intro ci hci
  by_cases heq : ci = g * 6 + k
  · rw [heq]
    exact hholds
  · refine (d.held ci hci heq).of_frame fun i hi => ?_
    by_contra hne
    exact heq (hi.eq (performXorRecovery_frame hne))

/-- Otherwise the damaged chunk is no candidate, and no other write reaches it. -/
theorem SingleDamage.not_restored (d : u.SingleDamage orig temp sent htp modulus g k)
    (hcond : ¬ (isSide k ∧ htp.complete (g * 6) = true ∧
      (htpLineSums (htp.scalars (g * 6)) modulus).agree = false))
    (io : Nat → Nat → RecoveryIo) :
    ¬ u.HoldsChunk orig (u.peel parity bitmap io temp (groupSuspects rnd htp modulus g)).temp
      (g * 6 + k) := by
  intro h
  have hgroup := (groupSuspects_chunks rnd htp modulus g).1
  have hnever : ∀ g' t, peelCandidate (g' * 6) (u.groupEnd g') (groupSuspects rnd htp modulus g) =
      some t → t ≠ g * 6 + k := by
    rintro g' _ hc rfl
    by_cases hg' : g' = g
    · rw [hg', groupEnd_of_full d.group, groupSuspects] at hc
      split at hc
      · rename_i hfull
        have hside := side_of_candidate hc
        rw [Nat.add_sub_cancel_left] at hside
        refine hcond ⟨hside, hfull.1, Bool.eq_false_iff.mpr fun hagree => ?_⟩
        rw [(htpAnalyzeGroup_eq_nil _ _).mpr hagree] at hc
        cases hc
      · cases hc
    · rw [candidate_of_other hgroup hg'] at hc
      cases hc
  exact d.bytes (h.of_frame fun i hi => (peel_frame hnever io hi).symm)

/-- The phase restores a file with one damaged chunk exactly when the chunk has a side slot, its
group carries all tags and the stored scalars show the damage. A corner slot is never rewritten:
the side slot opposite to it is taken for the damaged one. -/
theorem finalizeHtp_single_damage {io : Nat → Nat → RecoveryIo} (magic : List Nat) (level : Nat)
    (d : u.SingleDamage orig temp sent htp modulus g k)
    (hM : 3 * (modulus.toNat - 1) < 2 ^ 64) (hswap : htpTrySwapRepair htp (g * 6) modulus = none)
    (hb : bitmap (u.dataChunks + g) = true)
    (hp : parity g = some ((List.range u.chunkSize).map (u.generateXorParityBuffer orig g)))
    (hio : ∀ n g', (io n g').Ok u) :
    (∀ i < u.totalSize, (u.finalizeHtp rnd .xor1 (some htp) magic modulus rtt level parity bitmap
        io temp).temp i = orig i) ↔
      isSide k ∧ htp.complete (g * 6) = true ∧
        (htpLineSums (htp.scalars (g * 6)) modulus).agree = false := by
  have hgroup := (groupSuspects_chunks rnd htp modulus g).1
  rw [finalizeHtp_temp, d.peelSuspects hM, file_eq_iff]
  constructor
  · intro h
    by_contra hcond
    exact d.not_restored hcond io (h _ d.chunk_lt)
  · rintro ⟨hside, hcomplete, hdiff⟩
    have hsuspects : groupSuspects rnd htp modulus g =
        htpAnalyzeGroup rnd (htp.scalars (g * 6)) modulus (g * 6) := by
      rw [groupSuspects, hswap]
      exact if_pos ⟨hcomplete, rfl⟩
    have hother : ∀ i < 6, i ≠ k → htp.scalars (g * 6) i = sent.scalars (g * 6) i :=
      fun i _ hik => d.scalars _ (by omega)
    have hc : peelCandidate (g * 6) (u.groupEnd g) (groupSuspects rnd htp modulus g) =
        some (g * 6 + k) := by
      rw [hsuspects, groupEnd_of_full d.group]
      exact candidate_of_side d.slot hside hother ((d.balanced g d.group).agree hM) hdiff
    exact d.restored hgroup hc hb hp (hio 5 g)

/-- Six chunks of zeros, of which one was damaged in its first byte. -/
def damagedFile (k : Nat) : File := fun i => if i = k * 2097152 then 1 else 0

def zeroParity : ParityFiles := fun g =>
  some ((List.range rs2Session.chunkSize).map (rs2Session.generateXorParityBuffer (fun _ => 0) g))

theorem spikes_nil (ci : Nat) : (spikes [] ci).balanced = 0 := by
  rw [spikes, if_neg List.not_mem_nil]

theorem singleDamage_spike (k : Nat) (hk : k < 6) : rs2Session.SingleDamage (fun _ => 0)
    (damagedFile k) (spikes []) (spikes [k]) 4294967291 0 k := by
  have hsize : rs2Session.chunkSize = 2097152 := rfl
  have hlen : ∀ ci, rs2Session.chunkLen ci ≤ 2097152 := rs2Session.chunkLen_le
  refine ⟨by decide, hk, fun _ _ => ⟨fun i _ => ?_, rfl, rfl⟩, fun ci _ hne i hi => ?_,
    fun h => ?_, fun ci hne => ?_, ?_⟩
  · rw [HtpRecords.scalars, spikes_nil]
    decide
  · refine if_neg fun heq => ?_
    have hi' := hlen ci
    rw [hsize] at heq
    omega
  · have hfirst : (damagedFile k) ((0 * 6 + k) * rs2Session.chunkSize + 0) = 0 := by
      refine h 0 ?_
      rw [chunkLen, hsize, show rs2Session.totalSize = 12582912 from rfl]
      omega
    rw [damagedFile, hsize, if_pos (by omega)] at hfirst
    exact absurd hfirst (by decide)
  · exact if_neg fun hmem => hne (by rw [List.mem_singleton.mp hmem]; omega)
  · have hin : 0 * 6 + k ∈ [k] := List.mem_singleton.mpr (by omega)
    rw [spikes_nil, spikes, if_pos hin]
    decide

theorem htpTrySwapRepair_slot (k : Nat) (hk : k < 6) :
    htpTrySwapRepair (spikes [k]) (0 * 6) 4294967291 = none := by
  refine htpTrySwapRepair_spike hk fun i _ => ?_
  refine if_congr ?_ rfl rfl
  rw [List.mem_singleton]
  omega

/-- Slot 3 is restored. -/
theorem finalizeHtp_side_restored : damagedFile 3 6291456 ≠ 0 ∧
    ∀ i < rs2Session.totalSize, (rs2Session.finalizeHtp id .xor1 (some (spikes [3])) [] 4294967291
      0 0 zeroParity (fun _ => true) (fun _ g => rs2Session.ioFor g g) (damagedFile 3)).temp i
        = 0 := by
  have hmark : damagedFile 3 6291456 = 1 := if_pos (by decide)
  have hfull : (spikes [3]).complete (0 * 6) = true := by decide
  have hdiff : (htpLineSums ((spikes [3]).scalars (0 * 6)) 4294967291).agree = false := by decide
  have hparity : zeroParity 0 = some ((List.range rs2Session.chunkSize).map
      (rs2Session.generateXorParityBuffer (fun _ => 0) 0)) := by rw [zeroParity]
  refine ⟨by rw [hmark]; decide, ?_⟩
  exact (finalizeHtp_single_damage [] 0 (singleDamage_spike 3 (by decide)) (by decide)
    (htpTrySwapRepair_slot 3 (by decide)) rfl hparity fun _ g => ioFor_ok g).mpr
      ⟨by decide, hfull, hdiff⟩

/-- Slot 0 is not. -/
theorem finalizeHtp_corner_lost :
    rs2Session.SingleDamage (fun _ => 0) (damagedFile 0) (spikes []) (spikes [0]) 4294967291 0 0 ∧
      htpTrySwapRepair (spikes [0]) (0 * 6) 4294967291 = none ∧
      ¬ ∀ i < rs2Session.totalSize, (rs2Session.finalizeHtp id .xor1 (some (spikes [0])) []
        4294967291 0 0 zeroParity (fun _ => true) (fun _ g => rs2Session.ioFor g g)
        (damagedFile 0)).temp i = 0 := by
  have d := singleDamage_spike 0 (by decide)
  refine ⟨d, htpTrySwapRepair_slot 0 (by decide), fun h => ?_⟩
  rw [finalizeHtp_temp, d.peelSuspects (by decide)] at h
  have hheld : ∀ ci < rs2Session.dataChunks, _ := file_eq_iff.mp h
  exact d.not_restored (fun hcond => absurd hcond.1 (by decide)) _ (hheld _ d.chunk_lt)

end Session

end FlyBoard.Tasfa
