import FlyBoard.Lib.AhoCorasick
import FlyBoard.Utils.AhoModeration

/-!
# The trie of the rules (`src/utils/aho_moderation.c`)

Every state of the automaton stands for a word, the code points on the way to it. While the rules
are entered, the words of the states are listed by number; the edges of a state lead to the words
with one more code point, and a state's own outputs are the rules that spell its word.
-/

namespace FlyBoard.AhoModeration

def folded (caseFold : Bool) (s : Bytes) : List ℕ := (codepoints s).map (foldCodepoint · caseFold)

structure Labelled (states : List State) (labels : List (List ℕ)) : Prop where
  length : labels.length = states.length
  root : labels[0]? = some []
  nodup : labels.Nodup
  closed : ∀ w cp, w ++ [cp] ∈ labels → w ∈ labels
  edges : ∀ i w, labels[i]? = some w → ∀ cp j,
    (cp, j) ∈ (stateAt states i).edges ↔ labels[j]? = some (w ++ [cp])
  edges_nodup : ∀ i, (stateAt states i).edges.Nodup

variable {states states' : List State} {labels : List (List ℕ)} {i j state cp : ℕ} {w : List ℕ}

theorem stateAt_of_ge (h : states.length ≤ i) : stateAt states i = root := by
  rw [stateAt, List.getD_eq_getElem?_getD, List.getElem?_eq_none h, Option.getD_none]

theorem stateAt_append_root (states : List State) (i : ℕ) :
    stateAt (states ++ [root]) i = stateAt states i := by
  rcases Nat.lt_trichotomy i states.length with hlt | rfl | hgt
  · rw [stateAt, stateAt, List.getD_eq_getElem?_getD, List.getElem?_append_left hlt,
      ← List.getD_eq_getElem?_getD]
  · rw [stateAt_of_ge (Nat.le_refl _), stateAt, List.getD_eq_getElem?_getD,
      List.getElem?_concat_length, Option.getD_some]
  · rw [stateAt_of_ge hgt.le, stateAt_of_ge]
    rw [List.length_append, List.length_singleton]
    exact hgt

theorem stateAt_modifyState_self (f : State → State) (h : i < states.length) :
    stateAt (modifyState states i f) i = f (stateAt states i) := by
  rw [modifyState, stateAt, List.getD_eq_getElem?_getD, List.getElem?_set_self h, Option.getD_some]

theorem stateAt_modifyState_of_ne (f : State → State) (h : i ≠ j) :
    stateAt (modifyState states i f) j = stateAt states j := by
  rw [modifyState, stateAt, List.getD_eq_getElem?_getD, List.getElem?_set_ne h,
    ← List.getD_eq_getElem?_getD]
  rfl

theorem length_modifyState (states : List State) (i : ℕ) (f : State → State) :
    (modifyState states i f).length = states.length := List.length_set

namespace Labelled

variable (h : Labelled states labels)

include h

theorem lt_length (hi : labels[i]? = some w) : i < states.length :=
  h.length ▸ (List.getElem?_eq_some_iff.mp hi).1

theorem unique (hi : labels[i]? = some w) (hj : labels[j]? = some w) : i = j :=
  (List.getElem?_inj (h.length ▸ h.lt_length hi) h.nodup).mp (hi.trans hj.symm)

theorem trie : AhoCorasick.Trie (· ∈ labels) where
  nil := List.mem_of_getElem? h.root
  closed := h.closed

theorem transition_iff (hi : labels[i]? = some w) :
    transition states i cp = some j ↔ labels[j]? = some (w ++ [cp]) := by
  unfold transition
  rw [Option.map_eq_some_iff]
  constructor
  · rintro ⟨⟨cp', j'⟩, hfind, rfl⟩
    have hcp := List.find?_some hfind
    dsimp only at hcp
    rw [← beq_iff_eq.mp hcp]
    exact (h.edges i w hi cp' j').mp (List.mem_of_find?_eq_some hfind)
  · intro hj
    have hmem := (h.edges i w hi cp j).mpr hj
    cases hfind : (stateAt states i).edges.find? fun e => e.1 == cp with
    | none =>
      have hmiss := List.find?_eq_none.mp hfind (cp, j) hmem
      exact absurd (beq_self_eq_true cp) hmiss
    | some e =>
      obtain ⟨cp', j'⟩ := e
      have hcp := List.find?_some hfind
      dsimp only at hcp
      rw [beq_iff_eq.mp hcp] at hfind
      have hj' := (h.edges i w hi cp j').mp (List.mem_of_find?_eq_some hfind)
      exact ⟨_, rfl, h.unique hj' hj⟩

theorem transition_none (hi : labels[i]? = some w) :
    transition states i cp = none ↔ w ++ [cp] ∉ labels := by
  rw [List.mem_iff_getElem?, not_exists]
  constructor
  · intro hnone j hj
    rw [(h.transition_iff hi).mpr hj] at hnone
    exact nomatch hnone
  · intro hmiss
    cases hj : transition states i cp with
    | none => rfl
    | some j => exact absurd ((h.transition_iff hi).mp hj) (hmiss j)

/-- The words stay when only failure links and outputs change. -/
theorem congr (hlength : states'.length = states.length)
    (hedges : ∀ i, (stateAt states' i).edges = (stateAt states i).edges) :
    Labelled states' labels where
  length := h.length.trans hlength.symm
  root := h.root
  nodup := h.nodup
  closed := h.closed
  edges := by
    intro i w hi cp j
    rw [hedges]
    exact h.edges i w hi cp j
  edges_nodup := by
    intro i
    rw [hedges]
    exact h.edges_nodup i

end Labelled

/-! ## A word is entered -/

/-- The automaton with a new state, at the end of a new edge. -/
def withChild (states : List State) (state cp : ℕ) : List State :=
  modifyState (states ++ [root]) state fun s => { s with edges := s.edges ++ [(cp, states.length)] }

def SameLinks (states states' : List State) : Prop :=
  ∀ i, (stateAt states' i).failure = (stateAt states i).failure ∧
    (stateAt states' i).outputs = (stateAt states i).outputs

theorem stateAt_withChild_self (h : state < states.length) :
    stateAt (withChild states state cp) state =
      { stateAt states state with
        edges := (stateAt states state).edges ++ [(cp, states.length)] } := by
  rw [withChild, stateAt_modifyState_self, stateAt_append_root]
  rw [List.length_append]
  exact Nat.lt_add_right _ h

theorem stateAt_withChild_of_ne (h : state ≠ i) :
    stateAt (withChild states state cp) i = stateAt states i := by
  rw [withChild, stateAt_modifyState_of_ne _ h, stateAt_append_root]

theorem sameLinks_withChild (cp : ℕ) (h : state < states.length) :
    SameLinks states (withChild states state cp) := by
  intro i
  by_cases hi : state = i
  · rw [← hi, stateAt_withChild_self h]
    exact ⟨rfl, rfl⟩
  · rw [stateAt_withChild_of_ne hi]
    exact ⟨rfl, rfl⟩

theorem getElem?_concat_iff {l : List (List ℕ)} {v : List ℕ} :
    (l ++ [v])[j]? = some w ↔ l[j]? = some w ∨ j = l.length ∧ v = w := by
  rcases Nat.lt_trichotomy j l.length with hlt | rfl | hgt
  · rw [List.getElem?_append_left hlt, or_iff_left]
    exact fun hend => absurd hend.1 hlt.ne
  · rw [List.getElem?_concat_length, List.getElem?_eq_none (Nat.le_refl _), Option.some.injEq]
    simp
  · have hlong : (l ++ [v]).length ≤ j := by
      rw [List.length_append, List.length_singleton]
      exact hgt
    rw [List.getElem?_eq_none hlong, List.getElem?_eq_none hgt.le]
    constructor
    · exact nofun
    · rintro (hnone | ⟨hj, -⟩)
      · exact nomatch hnone
      · exact absurd hj hgt.ne'

theorem Labelled.withChild (h : Labelled states labels) (hstate : labels[state]? = some w)
    (hnew : w ++ [cp] ∉ labels) :
    Labelled (withChild states state cp) (labels ++ [w ++ [cp]]) := by
  have hlt := h.lt_length hstate
  have hout : ∀ j, labels[j]? ≠ some (w ++ [cp]) := fun j hj => hnew (List.mem_of_getElem? hj)
  constructor
  case length =>
    rw [AhoModeration.withChild, length_modifyState, List.length_append, List.length_append,
      h.length]
    rfl
  case root => exact getElem?_concat_iff.mpr (.inl h.root)
  case nodup =>
    refine List.nodup_append.mpr ⟨h.nodup, List.pairwise_singleton _ _, ?_⟩
    intro v hv v' hv' heq
    rw [heq, List.mem_singleton.mp hv'] at hv
    exact hnew hv
  case closed =>
    intro v c hv
    rcases List.mem_append.mp hv with hold | hlast
    · exact List.mem_append_left _ (h.closed v c hold)
    · have hv : v = w := (List.append_inj' (List.mem_singleton.mp hlast) rfl).1
      rw [hv]
      exact List.mem_append_left _ (List.mem_of_getElem? hstate)
  case edges =>
    intro i v hi c j
    rw [getElem?_concat_iff]
    rcases getElem?_concat_iff.mp hi with hold | ⟨rfl, rfl⟩
    · by_cases hsame : state = i
      · -- the state that the new edge starts from
        rw [← hsame] at hold ⊢
        have hv : w = v := Option.some.inj (hstate.symm.trans hold)
        rw [stateAt_withChild_self hlt, List.mem_append, h.edges state v hold, hv,
          List.mem_singleton, Prod.mk.injEq, List.append_cancel_left_eq, List.cons.injEq, h.length]
        tauto
      · rw [stateAt_withChild_of_ne hsame, h.edges i v hold, or_iff_left]
        rintro ⟨-, heq⟩
        have hv : w = v := (List.append_inj' heq rfl).1
        exact hsame (h.unique hstate (hv ▸ hold))
    · -- the new state has no edges yet
      have hne : state ≠ labels.length := by
        rw [h.length]
        exact hlt.ne
      rw [stateAt_withChild_of_ne hne, stateAt_of_ge (h.length ▸ Nat.le_refl _)]
      constructor
      · exact nofun
      · rintro (hchild | ⟨-, heq⟩)
        · exact absurd (h.closed _ c (List.mem_of_getElem? hchild)) hnew
        · have hlong := congrArg List.length heq
          simp at hlong
  case edges_nodup =>
    intro i
    by_cases hsame : state = i
    · rw [← hsame, stateAt_withChild_self hlt]
      refine List.nodup_append.mpr ⟨h.edges_nodup state, List.pairwise_singleton _ _, ?_⟩
      intro e he e' he' heq
      rw [heq, List.mem_singleton.mp he'] at he
      exact hout _ ((h.edges state w hstate _ _).mp he)
    · rw [stateAt_withChild_of_ne hsame]
      exact h.edges_nodup i

theorem insertFrom_labelled {cps : List ℕ} {last : ℕ} (h : Labelled states labels)
    (hstate : labels[state]? = some w)
    (hwalk : insertFrom states state cps = some (last, states')) :
    ∃ more, Labelled states' (labels ++ more) ∧ (labels ++ more)[last]? = some (w ++ cps) ∧
      SameLinks states states' := by
  induction cps generalizing states labels state w with
  | nil =>
    obtain ⟨rfl, rfl⟩ := Prod.mk.inj (Option.some.inj hwalk)
    refine ⟨[], ?_, ?_, fun _ => ⟨rfl, rfl⟩⟩
    · rw [List.append_nil]
      exact h
    · rw [List.append_nil, List.append_nil]
      exact hstate
  | cons cp cps ih =>
    unfold insertFrom at hwalk
    cases hnext : transition states state cp with
    | some next =>
      rw [hnext] at hwalk
      obtain ⟨more, hmore⟩ := ih h ((h.transition_iff hstate).mp hnext) hwalk
      rw [List.append_assoc, List.singleton_append] at hmore
      exact ⟨more, hmore⟩
    | none =>
      rw [hnext] at hwalk
      dsimp only at hwalk
      split_ifs at hwalk with hfull
      have hchild := h.withChild hstate ((h.transition_none hstate).mp hnext)
      have hend : (labels ++ [w ++ [cp]])[states.length]? = some (w ++ [cp]) :=
        getElem?_concat_iff.mpr (.inr ⟨h.length.symm, rfl⟩)
      obtain ⟨more, hlabelled, hlast, hsame⟩ := ih hchild hend hwalk
      refine ⟨[w ++ [cp]] ++ more, ?_, ?_, ?_⟩
      · rw [← List.append_assoc]
        exact hlabelled
      · rw [List.append_assoc, List.append_assoc, List.singleton_append] at hlast
        exact hlast
      · intro i
        have hfirst := sameLinks_withChild cp (h.lt_length hstate) i
        exact ⟨(hsame i).1.trans hfirst.1, (hsame i).2.trans hfirst.2⟩

/-! ## The rules are entered -/

/-- The trie after these words: its states know them all, and each counts how often its own word
was entered. -/
structure Entered (states : List State) (labels words : List (List ℕ)) : Prop where
  labelled : Labelled states labels
  known : ∀ v ∈ words, v ∈ labels
  outputs : ∀ i w, labels[i]? = some w → (stateAt states i).outputs.length = words.count w
  failure : ∀ i, (stateAt states i).failure = 0

theorem stateAt_single_root (i : ℕ) : stateAt [root] i = root := by
  cases i with
  | zero => rfl
  | succ i => rfl

theorem entered_start : Entered [root] [[]] [] where
  labelled := {
    length := rfl
    root := rfl
    nodup := List.pairwise_singleton _ _
    closed := by
      intro w cp hmem
      exact absurd (List.mem_singleton.mp hmem) (by simp)
    edges := by
      intro i w _ cp j
      rw [stateAt_single_root]
      constructor
      · exact nofun
      · intro hj
        have hmem := List.mem_singleton.mp (List.mem_of_getElem? hj)
        exact absurd hmem (by simp)
    edges_nodup := by
      intro i
      rw [stateAt_single_root]
      exact List.nodup_nil }
  known := nofun
  outputs := by
    intro i w _
    rw [stateAt_single_root]
    rfl
  failure := by
    intro i
    rw [stateAt_single_root]
    rfl

/-- New states have no outputs, and the words that were entered are none of theirs. -/
theorem Entered.insert {words more : List (List ℕ)} (h : Entered states labels words)
    (hlabelled : Labelled states' (labels ++ more)) (hsame : SameLinks states states') :
    Entered states' (labels ++ more) words where
  labelled := hlabelled
  known := fun v hv => List.mem_append_left _ (h.known v hv)
  outputs := by
    intro i v hi
    rw [(hsame i).2]
    by_cases hv : v ∈ labels
    · obtain ⟨j, hj⟩ := List.mem_iff_getElem?.mp hv
      have hj' : (labels ++ more)[j]? = some v := by
        rw [List.getElem?_append_left (List.getElem?_eq_some_iff.mp hj).1]
        exact hj
      rw [hlabelled.unique hi hj']
      exact h.outputs j v hj
    · have hge : states.length ≤ i := by
        rw [← h.labelled.length]
        by_contra hlt
        rw [List.getElem?_append_left (not_le.mp hlt)] at hi
        exact hv (List.mem_of_getElem? hi)
      rw [stateAt_of_ge hge, List.count_eq_zero_of_not_mem fun hmem => hv (h.known v hmem)]
      rfl
  failure := fun i => (hsame i).1.trans (h.failure i)

theorem Entered.output {words : List (List ℕ)} {last rule : ℕ} (h : Entered states labels words)
    (hlast : labels[last]? = some w) :
    Entered (modifyState states last fun s => { s with outputs := s.outputs ++ [rule] }) labels
      (words ++ [w]) := by
  have hlt := h.labelled.lt_length hlast
  constructor
  case labelled =>
    refine h.labelled.congr (length_modifyState _ _ _) ?_
    intro i
    by_cases hi : last = i
    · rw [← hi, stateAt_modifyState_self _ hlt]
    · rw [stateAt_modifyState_of_ne _ hi]
  case known =>
    intro v hv
    rcases List.mem_append.mp hv with hold | hnew
    · exact h.known v hold
    · rw [List.mem_singleton.mp hnew]
      exact List.mem_of_getElem? hlast
  case outputs =>
    intro i v hi
    rw [List.count_append]
    by_cases hsame : last = i
    · rw [← hsame] at hi ⊢
      have hv : w = v := Option.some.inj (hlast.symm.trans hi)
      rw [stateAt_modifyState_self _ hlt, List.length_append, h.outputs last v hi, hv,
        List.count_singleton_self]
      rfl
    · have hv : w ≠ v := fun heq => hsame (h.labelled.unique hlast (heq ▸ hi))
      rw [stateAt_modifyState_of_ne _ hsame, h.outputs i v hi, List.count_singleton,
        beq_false_of_ne hv]
      rfl
  case failure =>
    intro i
    by_cases hi : last = i
    · rw [← hi, stateAt_modifyState_self _ hlt]
      exact h.failure last
    · rw [stateAt_modifyState_of_ne _ hi]
      exact h.failure i

theorem addRule_entered {words : List (List ℕ)} {caseFold : Bool} {line : Bytes} {rule rule' : ℕ}
    (h : Entered states labels words)
    (hadd : addRule caseFold (some (states, rule)) line = some (states', rule')) :
    ∃ labels', Entered states' labels' (words ++ [folded caseFold line]) := by
  have hstep : addRule caseFold (some (states, rule)) line =
      if maxRules < rule + 1 || !validUtf8 line then none
      else (insertFrom states 0 (folded caseFold line)).bind fun walked =>
        some (modifyState walked.2 walked.1 fun s => { s with outputs := s.outputs ++ [rule] },
          rule + 1) := rfl
  rw [hstep] at hadd
  split_ifs at hadd
  rw [Option.bind_eq_some_iff] at hadd
  obtain ⟨⟨last, walked⟩, hwalk, hresult⟩ := hadd
  obtain ⟨hstates, -⟩ := Prod.mk.inj (Option.some.inj hresult)
  obtain ⟨more, hlabelled, hlast, hsame⟩ := insertFrom_labelled h.labelled h.labelled.root hwalk
  rw [← hstates]
  exact ⟨labels ++ more, (h.insert hlabelled hsame).output hlast⟩

theorem foldl_addRule_none (caseFold : Bool) (lines : List Bytes) :
    lines.foldl (addRule caseFold) none = none := by
  induction lines with
  | nil => rfl
  | cons line lines ih => exact ih

theorem foldl_addRule_entered {words : List (List ℕ)} {caseFold : Bool} {lines : List Bytes}
    {rule rule' : ℕ} (h : Entered states labels words)
    (hadd : lines.foldl (addRule caseFold) (some (states, rule)) = some (states', rule')) :
    ∃ labels', Entered states' labels' (words ++ lines.map (folded caseFold)) := by
  induction lines generalizing states labels words rule with
  | nil =>
    obtain ⟨rfl, -⟩ := Prod.mk.inj (Option.some.inj hadd)
    refine ⟨labels, ?_⟩
    rw [List.map_nil, List.append_nil]
    exact h
  | cons line lines ih =>
    rw [List.foldl_cons] at hadd
    cases hfirst : addRule caseFold (some (states, rule)) line with
    | none =>
      rw [hfirst, foldl_addRule_none] at hadd
      exact nomatch hadd
    | some next =>
      rw [hfirst] at hadd
      obtain ⟨labels', hnext⟩ := addRule_entered h hfirst
      obtain ⟨labels'', hrest⟩ := ih hnext hadd
      rw [List.append_assoc, List.singleton_append] at hrest
      exact ⟨labels'', hrest⟩

end FlyBoard.AhoModeration
