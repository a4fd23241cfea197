import FlyBoard.Lib.BreadthFirst
import FlyBoard.Utils.AhoTrie

/-!
# The matches of the rules (`src/utils/aho_moderation.c`)

The breadth-first loop gives every state its failure link and the outputs of the shorter words that
end there. A search then stands, after every code point, at the longest suffix of the text that the
trie knows, and the outputs it counts are the rules that end at this position.
-/

namespace FlyBoard.AhoModeration

open AhoCorasick

variable {states : List State} {labels words : List (List ℕ)} {i state cp fuel : ℕ} {w : List ℕ}

def Linked (labels words : List (List ℕ)) (s : State) (w : List ℕ) : Prop :=
  labels[s.failure]? = some (border (· ∈ labels) w) ∧ s.outputs.length = words.countP (· <:+ w)

def Raw (words : List (List ℕ)) (s : State) (w : List ℕ) : Prop :=
  s.outputs.length = words.count w

def LinkedUpTo (states : List State) (labels words : List (List ℕ)) (n : ℕ) : Prop :=
  ∀ i w, labels[i]? = some w → w.length ≤ n → Linked labels words (stateAt states i) w

theorem Labelled.eq_zero_iff (h : Labelled states labels) (hi : labels[i]? = some w) :
    i = 0 ↔ w = [] := by
  constructor
  · rintro rfl
    exact Option.some.inj (hi.symm.trans h.root)
  · rintro rfl
    exact h.unique hi h.root

theorem transition_settled (h : Labelled states labels) (hstate : labels[state]? = some w)
    (hend : ¬ (state ≠ 0 ∧ transition states state cp = none)) :
    labels[(transition states state cp).getD 0]? = some (longest (· ∈ labels) (w ++ [cp])) := by
  cases hnext : transition states state cp with
  | some next =>
    have hchild := (h.transition_iff hstate).mp hnext
    rw [Option.getD_some, longest_of_known (List.mem_of_getElem? hchild)]
    exact hchild
  | none =>
    have hzero : state = 0 := by
      by_contra hne
      exact hend ⟨hne, hnext⟩
    have hmiss := (h.transition_none hstate).mp hnext
    rw [(h.eq_zero_iff hstate).mp hzero, List.nil_append] at hmiss ⊢
    rw [Option.getD_none, longest_cons_of_not hmiss]
    exact h.root

/-- The walk along the failure links ends where the longest known suffix can go on. -/
theorem failureFor_spec (cp : ℕ) (h : Labelled states labels) {n : ℕ}
    (hlinked : LinkedUpTo states labels words n) (hstate : labels[state]? = some w)
    (hn : w.length ≤ n) (hfuel : w.length ≤ fuel) :
    labels[(transition states (failureFor states cp fuel state) cp).getD 0]? =
      some (longest (· ∈ labels) (w ++ [cp])) := by
  induction fuel generalizing state w with
  | zero =>
    have hw : w = [] := List.eq_nil_of_length_eq_zero (Nat.le_zero.mp hfuel)
    have hzero := (h.eq_zero_iff hstate).mpr hw
    exact transition_settled h hstate fun hwalk => hwalk.1 hzero
  | succ fuel ih =>
    unfold failureFor
    split_ifs with hwalk
    · -- the failure link is shorter, and leads to the same place
      have hw : w ≠ [] := fun hnil => hwalk.1 ((h.eq_zero_iff hstate).mpr hnil)
      have hmiss := (h.transition_none hstate).mp hwalk.2
      have hlt := border_length_lt (· ∈ labels) hw
      rw [← h.trie.longest_border hw hmiss]
      exact ih (hlinked state w hstate hn).1 (by omega) (by omega)
    · exact transition_settled h hstate hwalk

/-! ## The children of a state -/

def kids (states : List State) (i : ℕ) : List ℕ := (stateAt states i).edges.map Prod.snd

def fallbackOf (states : List State) (state cp : ℕ) : ℕ :=
  (transition states (failureFor states cp states.length (stateAt states state).failure) cp).getD 0

theorem linkChild_eq (states : List State) (state cp child : ℕ) :
    linkChild state states (cp, child) = modifyState states child fun s =>
      { s with
        failure := fallbackOf states state cp
        outputs := s.outputs ++ (stateAt states (fallbackOf states state cp)).outputs } := rfl

theorem linkChild_other {child : ℕ} (hi : i ≠ child) :
    stateAt (linkChild state states (cp, child)) i = stateAt states i := by
  rw [linkChild_eq, stateAt_modifyState_of_ne _ hi.symm]

theorem linkChild_labelled (h : Labelled states labels) (state cp : ℕ) {child : ℕ}
    (hlt : child < states.length) : Labelled (linkChild state states (cp, child)) labels := by
  have hlength : (linkChild state states (cp, child)).length = states.length := by
    rw [linkChild_eq, length_modifyState]
  refine h.congr hlength ?_
  intro i
  by_cases hi : i = child
  · rw [hi, linkChild_eq, stateAt_modifyState_self _ hlt]
  · rw [linkChild_other hi]

theorem linkChild_kids (states : List State) (state cp : ℕ) {child : ℕ}
    (hlt : child < states.length) : kids (linkChild state states (cp, child)) = kids states := by
  funext i
  by_cases hi : i = child
  · rw [kids, hi, linkChild_eq, stateAt_modifyState_self _ hlt]
    rfl
  · rw [kids, linkChild_other hi]
    rfl

theorem fallbackOf_spec (h : Labelled states labels) (hw : w ≠ [])
    (hlinked : LinkedUpTo states labels words w.length) (hstate : labels[state]? = some w)
    (cp : ℕ) :
    labels[fallbackOf states state cp]? = some (border (· ∈ labels) (w ++ [cp])) := by
  -- the walk starts at the failure link of the state itself
  have hfailure := (hlinked state w hstate (Nat.le_refl _)).1
  have hshorter := border_length_lt (· ∈ labels) hw
  have hfuel := h.trie.length_lt (h.trie.border_known w)
  rw [h.length] at hfuel
  rw [h.trie.border_concat hw cp]
  exact failureFor_spec cp h hlinked hfailure hshorter.le hfuel.le

theorem linkChild_linked (h : Labelled states labels) (hwords : ∀ v ∈ words, v ∈ labels)
    (hw : w ≠ []) (hlinked : LinkedUpTo states labels words w.length)
    (hstate : labels[state]? = some w) {child : ℕ} (hchild : labels[child]? = some (w ++ [cp]))
    (hraw : Raw words (stateAt states child) (w ++ [cp])) :
    Linked labels words (stateAt (linkChild state states (cp, child)) child) (w ++ [cp]) := by
  have hlong : w ++ [cp] ≠ [] := List.append_ne_nil_of_left_ne_nil hw [cp]
  have hfallback := fallbackOf_spec h hw hlinked hstate cp
  -- its word is no longer than the state's own, so its outputs are all there
  have hless := border_length_lt (· ∈ labels) hlong
  rw [List.length_append, List.length_singleton] at hless
  have hcount := (hlinked _ _ hfallback (Nat.le_of_lt_succ hless)).2
  rw [linkChild_eq, stateAt_modifyState_self _ (h.lt_length hchild)]
  constructor
  · exact hfallback
  · rw [List.length_append, hcount, countP_border hwords hlong, hraw]

theorem linkChildren (hwords : ∀ v ∈ words, v ∈ labels) (hw : w ≠ [])
    (hstate : labels[state]? = some w) (edges : List (ℕ × ℕ)) (h : Labelled states labels)
    (hlinked : LinkedUpTo states labels words w.length)
    (hedges : ∀ e ∈ edges, labels[e.2]? = some (w ++ [e.1]))
    (hnodup : (edges.map Prod.snd).Nodup)
    (hraw : ∀ e ∈ edges, Raw words (stateAt states e.2) (w ++ [e.1])) :
    Labelled (edges.foldl (linkChild state) states) labels ∧
      kids (edges.foldl (linkChild state) states) = kids states ∧
      (∀ e ∈ edges,
        Linked labels words (stateAt (edges.foldl (linkChild state) states) e.2) (w ++ [e.1])) ∧
      ∀ i, i ∉ edges.map Prod.snd →
        stateAt (edges.foldl (linkChild state) states) i = stateAt states i := by
  induction edges generalizing states with
  | nil => exact ⟨h, rfl, nofun, fun _ _ => rfl⟩
  | cons e edges ih =>
    obtain ⟨cp, child⟩ := e
    rw [List.map_cons, List.nodup_cons] at hnodup
    have hchild := hedges _ List.mem_cons_self
    have hlabelled := linkChild_labelled h state cp (h.lt_length hchild)
    have hfirst := linkChild_linked h hwords hw hlinked hstate hchild (hraw _ List.mem_cons_self)
    -- the child itself is too long to be among the states that the walks pass
    have hstill : LinkedUpTo (linkChild state states (cp, child)) labels words w.length := by
      intro i v hi hv
      have hne : i ≠ child := by
        rintro rfl
        have hsame := Option.some.inj (hi.symm.trans hchild)
        rw [hsame, List.length_append, List.length_singleton] at hv
        omega
      rw [linkChild_other hne]
      exact hlinked i v hi hv
    have hrest : ∀ e ∈ edges, e.2 ≠ child := by
      intro e he heq
      exact hnodup.1 (List.mem_map.mpr ⟨e, he, heq⟩)
    obtain ⟨hall, hkids, hlinks, hothers⟩ := ih hlabelled hstill
      (fun e he => hedges e (List.mem_cons_of_mem _ he)) hnodup.2 (by
        intro e he
        rw [linkChild_other (hrest e he)]
        exact hraw e (List.mem_cons_of_mem _ he))
    rw [List.foldl_cons]
    refine ⟨hall, ?_, ?_, ?_⟩
    · rw [hkids]
      exact linkChild_kids states state cp (h.lt_length hchild)
    · intro e he
      rcases List.mem_cons.mp he with rfl | hlater
      · rw [hothers child hnodup.1]
        exact hfirst
      · exact hlinks e hlater
    · intro i hi
      rw [List.map_cons, List.mem_cons, not_or] at hi
      rw [hothers i hi.2, linkChild_other hi.1]

/-! ## The breadth-first loop -/

/-- How far below the root a state is. -/
def depth (labels : List (List ℕ)) (i : ℕ) : ℕ := (labels.getD i []).length

theorem depth_of_getElem? (hi : labels[i]? = some w) : depth labels i = w.length := by
  rw [depth, List.getD_eq_getElem?_getD, hi, Option.getD_some]

theorem Labelled.mem_kids (h : Labelled states labels) {j : ℕ} (hj : j ∈ kids states i) :
    ∃ w cp, labels[i]? = some w ∧ labels[j]? = some (w ++ [cp]) := by
  obtain ⟨⟨cp, j'⟩, hedge, rfl⟩ := List.mem_map.mp hj
  have hlt : i < labels.length := by
    by_contra hge
    rw [stateAt_of_ge (h.length ▸ not_lt.mp hge)] at hedge
    exact nomatch hedge
  refine ⟨labels[i], cp, List.getElem?_eq_getElem hlt, ?_⟩
  exact (h.edges i _ (List.getElem?_eq_getElem hlt) cp j').mp hedge

theorem Labelled.kids_nodup (h : Labelled states labels) (i : ℕ) : (kids states i).Nodup := by
  refine List.Nodup.map_on ?_ (h.edges_nodup i)
  intro e he e' he' heq
  obtain ⟨w, cp, hi, -⟩ := h.mem_kids (List.mem_map_of_mem he)
  have hword := (h.edges i w hi e.1 e.2).mp he
  have hword' := (h.edges i w hi e'.1 e'.2).mp he'
  rw [heq, hword', Option.some.injEq, List.append_cancel_left_eq, List.cons.injEq] at hword
  exact Prod.ext hword.1.symm heq

theorem Labelled.tree (h : Labelled states labels) :
    BreadthFirst.Tree (kids states) (depth labels) 0 (· < labels.length) where
  depth_start := depth_of_getElem? h.root
  deeper := by
    intro i j hj
    obtain ⟨w, cp, hi, hchild⟩ := h.mem_kids hj
    rw [depth_of_getElem? hi, depth_of_getElem? hchild, List.length_append, List.length_singleton]
  nodup := h.kids_nodup
  parent := by
    intro i i' j hj hj'
    obtain ⟨w, cp, hi, hchild⟩ := h.mem_kids hj
    obtain ⟨w', cp', hi', hchild'⟩ := h.mem_kids hj'
    have hsame := Option.some.inj (hchild.symm.trans hchild')
    have hw : w = w' := (List.append_inj' hsame rfl).1
    exact h.unique hi (hw ▸ hi')
  rooted := by
    intro j hj
    have hword := List.getElem?_eq_getElem hj
    rcases List.eq_nil_or_concat labels[j] with hnil | ⟨w, cp, hconcat⟩
    · exact .inl ((h.eq_zero_iff hword).mpr hnil)
    · rw [List.concat_eq_append] at hconcat
      rw [hconcat] at hword
      obtain ⟨i, hi⟩ := List.mem_iff_getElem?.mp (h.closed w cp (List.mem_of_getElem? hword))
      refine .inr ⟨i, (List.getElem?_eq_some_iff.mp hi).1, ?_⟩
      exact List.mem_map.mpr ⟨(cp, j), (h.edges i w hi cp j).mpr hword, rfl⟩

/-- How far the loop has come: all that has been in the queue is linked, and nothing else. -/
structure Progress (states : List State) (labels words : List (List ℕ)) (done queue : List ℕ) :
    Prop where
  labelled : Labelled states labels
  fringe : BreadthFirst.Fringe (kids states) (depth labels) 0 done queue
  linked : ∀ i w, labels[i]? = some w → i ∈ done ++ queue →
    Linked labels words (stateAt states i) w
  raw : ∀ i w, labels[i]? = some w → i ∉ done ++ queue → Raw words (stateAt states i) w

variable {done queue : List ℕ}

theorem Progress.mem_lt (h : Progress states labels words done queue) :
    ∀ i ∈ done ++ queue, i < labels.length := by
  intro i hi
  rcases h.fringe.reached i hi with rfl | ⟨p, -, hchild⟩
  · exact (List.getElem?_eq_some_iff.mp h.labelled.root).1
  · obtain ⟨w, cp, -, hword⟩ := h.labelled.mem_kids hchild
    exact (List.getElem?_eq_some_iff.mp hword).1

theorem Progress.length_le (h : Progress states labels words done queue) :
    done.length + queue.length ≤ labels.length := by
  have hsub : done ++ queue ⊆ List.range labels.length :=
    fun i hi => List.mem_range.mpr (h.mem_lt i hi)
  have hle := (List.subperm_of_subset h.fringe.nodup hsub).length_le
  rw [List.length_append, List.length_range] at hle
  exact hle

theorem Progress.step (h : Progress states labels words done (state :: queue))
    (hwords : ∀ v ∈ words, v ∈ labels) :
    Progress ((stateAt states state).edges.foldl (linkChild state) states) labels words
      (done ++ [state]) (queue ++ kids states state) := by
  have hmem : state ∈ done ++ state :: queue := List.mem_append_right _ List.mem_cons_self
  have htree := h.labelled.tree
  obtain ⟨w, hword⟩ : ∃ w, labels[state]? = some w :=
    ⟨_, List.getElem?_eq_getElem (h.mem_lt state hmem)⟩
  have hw : w ≠ [] := by
    intro hnil
    have hzero := (h.labelled.eq_zero_iff hword).mpr hnil
    have hstarted := h.fringe.started
    rw [← hzero] at hstarted
    exact (List.nodup_append.mp h.fringe.nodup).2.2 state hstarted state List.mem_cons_self rfl
  have hlinked : LinkedUpTo states labels words w.length := by
    intro i v hi hv
    rw [← depth_of_getElem? hi, ← depth_of_getElem? hword] at hv
    exact h.linked i v hi (h.fringe.mem_reached htree (List.getElem?_eq_some_iff.mp hi).1 hv)
  have hedges : ∀ e ∈ (stateAt states state).edges, labels[e.2]? = some (w ++ [e.1]) :=
    fun e he => (h.labelled.edges state w hword e.1 e.2).mp he
  have hraw : ∀ e ∈ (stateAt states state).edges, Raw words (stateAt states e.2) (w ++ [e.1]) := by
    intro e he
    exact h.raw e.2 _ (hedges e he) (h.fringe.fresh htree (List.mem_map_of_mem he))
  obtain ⟨hall, hkids, hlinks, hothers⟩ := linkChildren hwords hw hword _ h.labelled hlinked
    hedges (h.labelled.kids_nodup state) hraw
  have hstretch : (done ++ [state]) ++ (queue ++ kids states state) =
      (done ++ state :: queue) ++ kids states state := by
    simp only [List.append_assoc, List.cons_append, List.nil_append]
  constructor
  case labelled => exact hall
  case fringe =>
    rw [hkids]
    exact h.fringe.step htree
  case linked =>
    intro i v hi hreached
    rw [hstretch] at hreached
    by_cases hchild : i ∈ kids states state
    · obtain ⟨e, he, rfl⟩ := List.mem_map.mp hchild
      have hv := Option.some.inj ((hedges e he).symm.trans hi)
      rw [← hv]
      exact hlinks e he
    · rw [hothers i hchild]
      exact h.linked i v hi ((List.mem_append.mp hreached).resolve_right hchild)
  case raw =>
    intro i v hi hunreached
    rw [hstretch, List.mem_append, not_or] at hunreached
    rw [hothers i hunreached.2]
    exact h.raw i v hi hunreached.1

/-- When the loop ends, every state is linked: as each state is in front once, it does not end
before the queue is empty. -/
theorem linkAll_linked (hwords : ∀ v ∈ words, v ∈ labels)
    (h : Progress states labels words done queue) (hfuel : labels.length ≤ fuel + done.length) :
    Labelled (linkAll fuel queue states) labels ∧
      ∀ i w, labels[i]? = some w →
        Linked labels words (stateAt (linkAll fuel queue states) i) w := by
  have hall : ∀ {states done}, Progress states labels words done [] →
      Labelled states labels ∧
        ∀ i w, labels[i]? = some w → Linked labels words (stateAt states i) w := by
    intro states done h
    refine ⟨h.labelled, ?_⟩
    intro i w hi
    have hdone := h.fringe.all_done h.labelled.tree (List.getElem?_eq_some_iff.mp hi).1
    exact h.linked i w hi (List.mem_append_left _ hdone)
  induction fuel generalizing states done queue with
  | zero =>
    have hle := h.length_le
    have hempty : queue = [] := List.eq_nil_of_length_eq_zero (by omega)
    rw [linkAll]
    exact hall (hempty ▸ h)
  | succ fuel ih =>
    cases queue with
    | nil => exact hall h
    | cons state queue =>
      rw [linkAll]
      refine ih (h.step hwords) ?_
      rw [List.length_append, List.length_singleton]
      omega

theorem countP_suffix_nil (hnil : [] ∉ words) : words.countP (· <:+ ([] : List ℕ)) = 0 := by
  apply List.countP_eq_zero.mpr
  intro v hv hsuffix
  rw [decide_eq_true_iff, List.suffix_nil] at hsuffix
  exact hnil (hsuffix ▸ hv)

/-- Before the loop, the children of the root are linked already: their links go to the root. -/
theorem Entered.progress (h : Entered states labels words) (hnil : [] ∉ words) :
    Progress states labels words [0] (kids states 0) where
  labelled := h.labelled
  fringe := h.labelled.tree.fringe_start
  linked := by
    intro i w hi hmem
    have hroot : labels[(stateAt states i).failure]? = some [] := by
      rw [h.failure]
      exact h.labelled.root
    rw [List.singleton_append, List.mem_cons] at hmem
    rcases hmem with hzero | hchild
    · have hw := (h.labelled.eq_zero_iff hi).mp hzero
      rw [hw] at hi ⊢
      refine ⟨hroot, ?_⟩
      rw [h.outputs i [] hi, countP_suffix_nil hnil]
      exact List.count_eq_zero_of_not_mem hnil
    · obtain ⟨w', cp, hw', hword⟩ := h.labelled.mem_kids hchild
      have hempty : w' = [] := Option.some.inj (hw'.symm.trans h.labelled.root)
      have hw : w = [cp] := by
        rw [hempty, List.nil_append] at hword
        exact Option.some.inj (hi.symm.trans hword)
      rw [hw] at hi ⊢
      refine ⟨hroot, ?_⟩
      rw [h.outputs i [cp] hi, countP_suffix_cons, countP_suffix_nil hnil, Nat.add_zero]
  raw := by
    intro i w hi _
    exact h.outputs i w hi

/-! ## The search -/

theorem advance_spec (h : Labelled states labels)
    (hlinked : ∀ i w, labels[i]? = some w → Linked labels words (stateAt states i) w)
    {read : List ℕ} (hstate : labels[state]? = some (longest (· ∈ labels) read)) (cp : ℕ) :
    labels[advance states state cp]? = some (longest (· ∈ labels) (read ++ [cp])) := by
  have hfuel := h.trie.length_lt (h.trie.longest_known read)
  rw [h.length] at hfuel
  rw [h.trie.longest_concat]
  exact failureFor_spec cp h (fun i w hi _ => hlinked i w hi) hstate (Nat.le_refl _) hfuel.le

/-- How many words end at the positions of a text, after what has been read. -/
def endings (words : List (List ℕ)) (read : List ℕ) : List ℕ → ℕ
  | [] => 0
  | cp :: cps => words.countP (· <:+ read ++ [cp]) + endings words (read ++ [cp]) cps

/-- The search stands at the longest known suffix of what it has read, and counts what ends there
until the limit is reached. -/
theorem searchFrom_spec {a : Automaton} (h : Labelled a.states labels)
    (hwords : ∀ v ∈ words, v ∈ labels)
    (hlinked : ∀ i w, labels[i]? = some w → Linked labels words (stateAt a.states i) w)
    {limit count : ℕ} (hcount : count < limit) {read : List ℕ}
    (hstate : labels[state]? = some (longest (· ∈ labels) read)) (cps : List ℕ) :
    searchFrom a limit state count cps =
      (min limit (count + endings words read (cps.map (foldCodepoint · a.caseFold))),
        decide (limit ≤ count + endings words read (cps.map (foldCodepoint · a.caseFold)))) := by
  induction cps generalizing state count read with
  | nil =>
    rw [searchFrom, List.map_nil, endings, Nat.add_zero, min_eq_right hcount.le,
      decide_eq_false (not_le.mpr hcount)]
  | cons cp cps ih =>
    have hnext := advance_spec h hlinked hstate (foldCodepoint cp a.caseFold)
    have houtputs := (hlinked _ _ hnext).2
    rw [countP_longest hwords] at houtputs
    rw [searchFrom, List.map_cons, endings, ← Nat.add_assoc, ← houtputs]
    split_ifs with hlimit
    · -- what comes later does not matter any more
      rw [min_eq_left (Nat.le_add_right_of_le hlimit),
        decide_eq_true (Nat.le_add_right_of_le hlimit)]
    · exact ih (not_le.mp hlimit) hnext

theorem endings_eq (words : List (List ℕ)) (read cps : List ℕ) :
    endings words read cps = ((List.range cps.length).map fun k =>
      words.countP (· <:+ read ++ cps.take (k + 1))).sum := by
  induction cps generalizing read with
  | nil => rfl
  | cons cp cps ih =>
    rw [endings, ih, List.length_cons, List.range_succ_eq_map, List.map_cons, List.sum_cons,
      List.map_map]
    congr 2
    apply List.map_congr_left
    intro k _
    rw [List.append_assoc]
    rfl

/-- The number of pairs of a position of the text and a rule that ends there. -/
def occurrences (rules text : Bytes) (caseFold : Bool) : ℕ :=
  (List.range ((folded caseFold text).length + 1) ×ˢ ruleLines rules).countP fun p =>
    folded caseFold p.2 <:+ (folded caseFold text).take p.1

theorem codepoints_ne_nil {s : Bytes} (h : s ≠ []) : codepoints s ≠ [] := by
  obtain ⟨b, rest, rfl⟩ := List.exists_cons_of_ne_nil h
  exact List.cons_ne_nil _ _

theorem nil_notMem_rules (rules : Bytes) (caseFold : Bool) :
    [] ∉ (ruleLines rules).map (folded caseFold) := by
  intro hmem
  obtain ⟨line, hline, hempty⟩ := List.mem_map.mp hmem
  have hne : line ≠ [] := by
    rintro rfl
    exact absurd (List.mem_filter.mp hline).2 (by simp)
  exact codepoints_ne_nil hne (List.map_eq_nil_iff.mp hempty)

theorem occurrences_eq (rules text : Bytes) (caseFold : Bool) :
    occurrences rules text caseFold =
      endings ((ruleLines rules).map (folded caseFold)) [] (folded caseFold text) := by
  have hpairs : ∀ k, ((ruleLines rules).map (Prod.mk k)).countP (fun p =>
      folded caseFold p.2 <:+ (folded caseFold text).take p.1) =
        ((ruleLines rules).map (folded caseFold)).countP
          (· <:+ (folded caseFold text).take k) := by
    intro k
    rw [List.countP_map, List.countP_map]
    rfl
  have hsum : occurrences rules text caseFold =
      ((List.range ((folded caseFold text).length + 1)).map fun k =>
        ((ruleLines rules).map (folded caseFold)).countP
          (· <:+ (folded caseFold text).take k)).sum := by
    have hproduct : List.range ((folded caseFold text).length + 1) ×ˢ ruleLines rules =
        (List.range ((folded caseFold text).length + 1)).flatMap fun k =>
          (ruleLines rules).map (Prod.mk k) := rfl
    rw [occurrences, hproduct, List.countP_flatMap]
    congr 1
    apply List.map_congr_left
    intro k _
    exact hpairs k
  -- no rule ends before the first code point
  rw [hsum, List.range_succ_eq_map, List.map_cons, List.sum_cons, List.take_zero,
    countP_suffix_nil (nil_notMem_rules rules caseFold), Nat.zero_add, List.map_map, endings_eq]
  rfl

/-- **A search counts every occurrence of every rule, up to its limit**: the pairs of a position of
the text and a rule whose code points end there, folded alike. -/
theorem search_eq_occurrences {rules : Bytes} {caseFold : Bool} {a : Automaton} {matchLimit : ℕ}
    (hbuild : build rules caseFold = some a) (hlimit : 0 < matchLimit) (text : Bytes) :
    search a text matchLimit =
      (min matchLimit (occurrences rules text caseFold),
        decide (matchLimit ≤ occurrences rules text caseFold)) := by
  unfold build at hbuild
  split_ifs at hbuild with hlong
  rw [Option.bind_eq_bind, Option.bind_eq_some_iff] at hbuild
  obtain ⟨⟨states, count⟩, hrules, hlinks⟩ := hbuild
  obtain ⟨labels, hentered⟩ := foldl_addRule_entered entered_start hrules
  rw [List.nil_append] at hentered
  have hnil := nil_notMem_rules rules caseFold
  obtain ⟨hlabelled, hlinked⟩ := linkAll_linked hentered.known (hentered.progress hnil)
    (Nat.le_add_right_of_le hentered.labelled.length.le)
  have ha : a = ⟨linkAll states.length (kids states 0) states, caseFold⟩ :=
    (Option.some.inj hlinks).symm
  have hstart : labels[0]? = some (longest (· ∈ labels) []) := hentered.labelled.root
  rw [search, if_neg hlimit.ne', occurrences_eq, ha,
    searchFrom_spec hlabelled hentered.known hlinked hlimit hstart, Nat.zero_add]
  rfl

theorem search_eq_occurrences_ushers :
    search ((build (bytes "he\nshe\nhers\nhis") true).get (by decide +kernel)) (bytes "usHers") 2 =
      (min 2 (occurrences (bytes "he\nshe\nhers\nhis") (bytes "usHers") true),
        decide (2 ≤ occurrences (bytes "he\nshe\nhers\nhis") (bytes "usHers") true)) :=
  search_eq_occurrences (Option.some_get _).symm (by decide) (bytes "usHers")

end FlyBoard.AhoModeration
