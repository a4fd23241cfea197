import FlyBoard.Db.Review

/-!
# Runs of decisions on pending items

Whatever calls run beside one another, an item is decided once. That its row fits the
decision takes more: the row is changed before the item, so a second decision that has
read the item before the first was made changes the row as well.
-/

namespace FlyBoard.Review

open Moderation Run

/-! ## Decisions that are made stay made -/

section

variable {s : State} {x : Target} {v : Verdict} {s' : Store} {th : Thread}
  {caller : Option External} {t : Tables} {i : ℕ} {b : Body}

/-- What a statement of `db_moderation_approve` or `db_moderation_reject` makes of the
status of an item: the item was pending before, if it is not the same. -/
theorem status_exec (hu : UniqueTargets t) (o : Outcome) (b : Body) (x : Target) :
    status (b.exec o t).1 x = status t x ∨ status t x = some .pending ∧
      ∃ v, b = .finish v x ∧ status (b.exec o t).1 x = some v.status := by
  rcases b.exec_cases hu o with heq | ⟨_, _, _, -, -, -, heq⟩ | ⟨-, -, -, -, hitems⟩ |
    ⟨id, -, heq⟩ | ⟨v, y, rfl, hpending, heq⟩
  · exact .inl (by rw [heq])
  · exact .inl (by rw [heq])
  · exact .inl (by simp [status, item, hitems])
  · exact .inl (by rw [heq]; rfl)
  · rw [heq]
    dsimp only
    rw [status_finishReview]
    by_cases hxy : x = y
    · subst hxy
      exact .inr ⟨hpending, v, rfl, by simp [hpending]⟩
    · exact .inl (by simp [hxy])

theorem status_step (s : State) (e : Event) {st : ItemStatus} (h : s.status x = some st)
    (hdecided : st ≠ .pending) : (step s e).status x = some st := by
  cases e with
  | start c => exact h
  | exec i o =>
    cases hi : s.threads[i]? with
    | none => simpa [step, hi] using h
    | some th =>
      rw [step_exec hi]
      rcases th.exec_cases o s.store with ⟨-, htables, -⟩ | ⟨caller, b, -, htables, -⟩
      · rw [State.status, htables]
        exact h
      · rw [State.status, htables]
        rcases status_exec s.store.unique o b x with heq | ⟨hpending, -⟩
        · rw [heq]
          exact h
        · -- no statement touches an item that is not pending
          have hst := h.symm.trans hpending
          exact absurd (Option.some.inj hst) hdecided

theorem Settled.exec (hu : UniqueTargets t) (o : Outcome) (b : Body)
    (h : Settled v x (Review.display t x)) : Settled v x (Review.display (b.exec o t).1 x) := by
  rcases b.exec_cases hu o with heq | ⟨_, _, _, -, -, -, heq⟩ | ⟨-, hwaiting, -, hdisplay, -⟩ |
    ⟨id, -, heq⟩ | ⟨w, y, -, -, heq⟩
  · rw [heq]
    exact h
  · rw [heq]
    exact h
  · rw [hdisplay]
    split
    · next hx =>
      -- the row was waiting, so the decision was not settled but for a rejected comment
      subst hx
      rw [hwaiting] at h
      cases v <;> cases hb : b.target <;> simp_all [Settled]
    · exact h
  · rw [heq, display_deletePost]
    split
    · next hx =>
      subst hx
      cases v
      · exact ⟨nofun, nofun⟩
      · rfl
    · exact h
  · rw [heq]
    exact h

/-- The row of a decided item, and of one about to be decided, is settled. -/
structure Taken (x : Target) (s : State) : Prop where
  finishing : ∀ caller v, .body caller (.finish v x) ∈ s.threads → Settled v x (s.display x)
  decided : ∀ v, s.status x = some v.status → Settled v x (s.display x)

theorem Taken.frame (h : Taken x s)
    (htables : s'.tables = s.store.tables) (hth : ∀ caller v, th ≠ .body caller (.finish v x)) :
    Taken x ⟨s', s.threads.set i th⟩ := by
  have hdisplay : State.display ⟨s', s.threads.set i th⟩ = s.display := by
    simp only [State.display, htables]
  have hstatus : State.status ⟨s', s.threads.set i th⟩ = s.status := by
    simp only [State.status, htables]
  constructor
  · intro caller v hmem
    rw [hdisplay]
    rcases List.mem_or_eq_of_mem_set hmem with hold | heq
    · exact h.finishing caller v hold
    · exact absurd heq.symm (hth caller v)
  · rw [hdisplay, hstatus]
    exact h.decided

theorem taken_step (s : State) (e : Event) (h : Taken x s) : Taken x (step s e) := by
  cases e with
  | start c =>
    refine ⟨?_, h.decided⟩
    intro caller v hmem
    rcases List.mem_append.1 hmem with hold | hnew
    · exact h.finishing caller v hold
    · cases c <;> simp [Call.start] at hnew
  | exec i o =>
    cases hi : s.threads[i]? with
    | none => simpa [step, hi] using h
    | some th =>
      rw [step_exec hi]
      have hmem : th ∈ s.threads := List.mem_of_getElem? hi
      rcases th.exec_cases o s.store with ⟨-, htables, hnew⟩ | ⟨caller, b, rfl, htables, hnew⟩
      · refine h.frame htables ?_
        intro caller v heq
        obtain ⟨w, y, hread⟩ := hnew _ _ heq
        cases hread
      · have hsettled : ∀ v, Settled v x (s.display x) →
            Settled v x (Review.display (b.exec o s.store.tables).1 x) :=
          fun v => Settled.exec s.store.unique o b
        constructor
        · intro caller' v hmem'
          simp only [State.display, htables]
          rcases List.mem_or_eq_of_mem_set hmem' with hold | heq
          · exact hsettled v (h.finishing caller' v hold)
          · -- the statement that leads to `finish_review` has settled the row
            rw [hnew] at heq
            rcases b.exec_cases s.store.unique o with hfail | ⟨w, y, i, rfl, -, -, hread⟩ |
              ⟨-, -, hgoes, hdisplay, -⟩ | ⟨id, rfl, hremove⟩ | ⟨w, y, rfl, -, hdone⟩
            · rw [hfail] at heq
              exact absurd heq.symm (returnTo_ne_body _ _ _ _)
            · rw [hread] at heq
              cases w <;> cases y <;> simp [Body.afterRead] at heq
              rcases heq with ⟨-, rfl, rfl⟩
              trivial
            · rw [hgoes] at heq
              simp only [Thread.body.injEq, Body.finish.injEq] at heq
              rcases heq with ⟨-, rfl, rfl⟩
              rw [hdisplay, if_pos rfl]
              cases b.target
              · constructor <;> rintro ⟨⟩
              · rfl
            · rw [hremove] at heq ⊢
              simp only [Thread.body.injEq, Body.finish.injEq] at heq
              rcases heq with ⟨-, rfl, rfl⟩
              rw [display_deletePost, if_pos rfl]
              rfl
            · rw [hdone] at heq
              exact absurd heq.symm (returnTo_ne_body _ _ _ _)
        · intro v hst
          simp only [State.display, State.status, htables] at hst ⊢
          rcases status_exec s.store.unique o b x with heq | ⟨hpending, w, rfl, hw⟩
          · rw [heq] at hst
            exact hsettled v (h.decided v hst)
          · -- the row was settled when the call came to `finish_review`
            rw [hw] at hst
            have hvw : v = w := by
              cases v <;> cases w <;> simp [Verdict.status] at hst <;> rfl
            subst hvw
            exact hsettled v (h.finishing caller v hmem)

/-! ## Undisturbed decisions -/

theorem deciding_iff :
    th.Deciding v x ↔ ∃ caller b, th = .body caller b ∧ (∀ w y, b ≠ .readItem w y) ∧
      b.verdict = v ∧ b.target = x := by
  cases th with
  | body caller b =>
    cases b with
    | readItem w y => simp [Thread.Deciding, Thread.decision]
    | publishPost id => simp [Thread.Deciding, Thread.decision]
    | publishComment id content => simp [Thread.Deciding, Thread.decision]
    | removePost id => simp [Thread.Deciding, Thread.decision]
    | finish w y => simp [Thread.Deciding, Thread.decision]
  | findReceipt e => simp [Thread.Deciding, Thread.decision]
  | findRequest e => simp [Thread.Deciding, Thread.decision]
  | insertReceipt e target => simp [Thread.Deciding, Thread.decision]
  | dropReceipt e => simp [Thread.Deciding, Thread.decision]
  | answered r => simp [Thread.Deciding, Thread.decision]

/-- Decisions on the target that are under way agree with one another, and with the item
once it is decided. The row is visible from when one approval has come to its
`finish_review`; otherwise a pending item is hidden. -/
structure Calm (x : Target) (s : State) : Prop where
  agree : ∀ a ∈ s.threads, ∀ b ∈ s.threads, ∀ v w, a.Deciding v x → b.Deciding w x → v = w
  deciding : ∀ th ∈ s.threads, ∀ v, th.Deciding v x →
    s.status x = some .pending ∨ s.status x = some v.status
  late : ∀ caller, .body caller (.finish .approve x) ∈ s.threads →
    s.status x = some .pending ∧ s.display x = some .shown
  one_late : ∀ (i j : ℕ) (c d : Option External),
    s.threads[i]? = some (.body c (.finish .approve x)) →
      s.threads[j]? = some (.body d (.finish .approve x)) → i = j
  hidden : s.status x = some .pending →
    (∀ caller, .body caller (.finish .approve x) ∉ s.threads) → s.display x ≠ some .shown
  approved : s.status x = some .approved → s.display x = some .shown
  rejected : s.status x = some .rejected → s.display x ≠ some .shown

theorem getElem?_of_set {th th' : Thread} {l : List Thread} {i j : ℕ}
    (h : (l.set i th')[j]? = some th) : j = i ∧ th = th' ∨ j ≠ i ∧ l[j]? = some th := by
  by_cases hij : i = j
  · subst hij
    have hlt : i < l.length := by
      have hlt := (List.getElem?_eq_some_iff.1 h).1
      rwa [List.length_set] at hlt
    rw [List.getElem?_set_self hlt] at h
    exact .inl ⟨rfl, (Option.some.inj h).symm⟩
  · rw [List.getElem?_set_ne hij] at h
    exact .inr ⟨Ne.symm hij, h⟩

/-- A step that does not touch the row or the item, of a call that is not at the
`finish_review` of an approval before or after it. -/
theorem Calm.frame (h : Calm x s) {th th' : Thread}
    (hi : s.threads[i]? = some th) (hth : ∀ caller, th ≠ .body caller (.finish .approve x))
    (hth' : ∀ caller, th' ≠ .body caller (.finish .approve x))
    (hnew : ∀ v, th'.Deciding v x → s.status x = some .pending ∧
      ∀ a ∈ s.threads, ∀ w, a.Deciding w x → w = v)
    (hdisplay : Review.display s'.tables x = s.display x)
    (hstatus : Review.status s'.tables x = s.status x) :
    Calm x ⟨s', s.threads.set i th'⟩ := by
  have hlate : ∀ {j : ℕ} {c : Option External},
      (s.threads.set i th')[j]? = some (.body c (.finish .approve x)) →
        s.threads[j]? = some (.body c (.finish .approve x)) := by
    intro j c hj
    rcases getElem?_of_set hj with ⟨-, heq⟩ | ⟨-, hold⟩
    · exact absurd heq.symm (hth' c)
    · exact hold
  constructor
  case agree =>
    intro a ha b hb v w hv hw
    -- two of the old calls, the new state of one with an old one, or with itself
    rcases List.mem_or_eq_of_mem_set ha with ha' | hath
    · rcases List.mem_or_eq_of_mem_set hb with hb' | hbth
      · exact h.agree a ha' b hb' v w hv hw
      · exact (hnew w (hbth ▸ hw)).2 a ha' v hv
    · rcases List.mem_or_eq_of_mem_set hb with hb' | hbth
      · exact ((hnew v (hath ▸ hv)).2 b hb' w hw).symm
      · subst hath hbth
        exact congrArg Prod.fst (Option.some.inj (hv.symm.trans hw))
  case deciding =>
    intro a ha v hv
    simp only [State.status, hstatus]
    rcases List.mem_or_eq_of_mem_set ha with ha | rfl
    · exact h.deciding a ha v hv
    · exact .inl (hnew v hv).1
  case late =>
    intro caller hmem
    simp only [State.status, State.display, hstatus, hdisplay]
    obtain ⟨j, hj⟩ := List.getElem?_of_mem hmem
    exact h.late caller (List.mem_of_getElem? (hlate hj))
  case one_late => exact fun j k c d hj hk => h.one_late j k c d (hlate hj) (hlate hk)
  case hidden =>
    intro hpending hnone
    simp only [State.display, hdisplay]
    refine h.hidden (hstatus.symm.trans hpending) ?_
    intro caller hmem
    obtain ⟨j, hj⟩ := List.getElem?_of_mem hmem
    have hij : i ≠ j := by
      rintro rfl
      exact hth caller (Option.some.inj (hi.symm.trans hj))
    have hkept : (s.threads.set i th')[j]? = some (.body caller (.finish .approve x)) := by
      rw [List.getElem?_set_ne hij, hj]
    exact hnone caller (List.mem_of_getElem? hkept)
  case approved =>
    intro hst
    exact hdisplay.trans (h.approved (hstatus.symm.trans hst))
  case rejected =>
    intro hst
    simp only [State.display, hdisplay]
    exact h.rejected (hstatus.symm.trans hst)

/-- A call that goes on to the `finish_review` of its verdict leaves the decisions on the
target in agreement. -/
theorem Calm.agree_set (h : Calm x s)
    (hmem : th ∈ s.threads) (hth : th.Deciding v x) (caller : Option External) :
    ∀ a ∈ s.threads.set i (.body caller (.finish v x)), ∀ w, a.Deciding w x → w = v := by
  intro a ha w hw
  rcases List.mem_or_eq_of_mem_set ha with ha | rfl
  · exact h.agree a ha th hmem w v hw hth
  · exact (congrArg Prod.fst (Option.some.inj hw)).symm

/-- The UPDATE that makes the row of a pending item visible. -/
theorem Calm.show (h : Calm x s) (hi : s.threads[i]? = some th) (hth : th.Deciding .approve x)
    (hwaiting : s.display x = some .waiting) (hdisplay : Review.display s'.tables x = some .shown)
    (hstatus : Review.status s'.tables x = s.status x) :
    Calm x ⟨s', s.threads.set i (.body caller (.finish .approve x))⟩ := by
  have hmem : th ∈ s.threads := List.mem_of_getElem? hi
  -- an item that is approved already has a visible row
  have hpending : s.status x = some .pending := by
    rcases h.deciding th hmem .approve hth with hpending | happroved
    · exact hpending
    · cases (h.approved happroved).symm.trans hwaiting
  have hnolate : ∀ c, .body c (.finish .approve x) ∉ s.threads := by
    intro c hc
    cases (h.late c hc).2.symm.trans hwaiting
  have hself : (s.threads.set i (.body caller (.finish .approve x)))[i]? =
      some (.body caller (.finish .approve x)) :=
    List.getElem?_set_self (List.getElem?_eq_some_iff.1 hi).1
  have hagree := h.agree_set (i := i) hmem hth caller
  have hone : ∀ {j : ℕ} {c : Option External},
      (s.threads.set i (.body caller (.finish .approve x)))[j]? =
        some (.body c (.finish .approve x)) → j = i := by
    intro j c hj
    rcases getElem?_of_set hj with ⟨hji, -⟩ | ⟨-, hold⟩
    · exact hji
    · exact absurd (List.mem_of_getElem? hold) (hnolate c)
  constructor
  case agree => exact fun a ha b hb v w hv hw => (hagree a ha v hv).trans (hagree b hb w hw).symm
  case deciding => exact fun _ _ _ _ => .inl (hstatus.trans hpending)
  case late => exact fun _ _ => ⟨hstatus.trans hpending, hdisplay⟩
  case one_late => exact fun j k c d hj hk => (hone hj).trans (hone hk).symm
  case hidden =>
    intro _ hnone
    exact absurd (List.mem_of_getElem? hself) (hnone caller)
  case approved => exact fun _ => hdisplay
  case rejected =>
    intro hst
    cases (hstatus.symm.trans hst).symm.trans hpending

theorem Calm.remove (h : Calm x s) (hi : s.threads[i]? = some th) (hth : th.Deciding .reject x)
    (hdisplay : Review.display s'.tables x = none)
    (hstatus : Review.status s'.tables x = s.status x) :
    Calm x ⟨s', s.threads.set i (.body caller (.finish .reject x))⟩ := by
  have hmem : th ∈ s.threads := List.mem_of_getElem? hi
  have hagree := h.agree_set (i := i) hmem hth caller
  have hnolate : ∀ c, .body c (.finish .approve x) ∉
      s.threads.set i (.body caller (.finish .reject x)) := by
    intro c hc
    cases hagree _ hc .approve rfl
  constructor
  case agree => exact fun a ha b hb v w hv hw => (hagree a ha v hv).trans (hagree b hb w hw).symm
  case deciding =>
    intro a ha v hv
    obtain rfl := hagree a ha v hv
    simp only [State.status, hstatus]
    exact h.deciding th hmem .reject hth
  case late => exact fun c hc => absurd hc (hnolate c)
  case one_late => exact fun j _ c _ hj _ => absurd (List.mem_of_getElem? hj) (hnolate c)
  case hidden =>
    intro _ _ hshown
    cases hshown.symm.trans hdisplay
  case approved =>
    intro hst
    rcases h.deciding th hmem .reject hth with hpending | hrejected
    · cases (hstatus.symm.trans hst).symm.trans hpending
    · cases (hstatus.symm.trans hst).symm.trans hrejected
  case rejected =>
    intro _ hshown
    cases hshown.symm.trans hdisplay

/-- The `finish_review` that decides the item. -/
theorem Calm.finish (h : Calm x s) {th' : Thread}
    (hi : s.threads[i]? = some (.body caller (.finish v x)))
    (hpending : s.status x = some .pending) (hth' : ∀ w, ¬ th'.Deciding w x)
    (hdisplay : Review.display s'.tables x = s.display x)
    (hstatus : Review.status s'.tables x = some v.status) :
    Calm x ⟨s', s.threads.set i th'⟩ := by
  have hmem : .body caller (.finish v x) ∈ s.threads := List.mem_of_getElem? hi
  have hold : ∀ {a : Thread} {w : Verdict}, a ∈ s.threads.set i th' → a.Deciding w x →
      a ∈ s.threads := by
    intro a w ha hw
    rcases List.mem_or_eq_of_mem_set ha with ha | rfl
    · exact ha
    · exact absurd hw (hth' w)
  have hagree : ∀ {a : Thread} {w : Verdict}, a ∈ s.threads → a.Deciding w x → w = v :=
    fun ha hw => h.agree _ ha _ hmem _ v hw rfl
  have hnolate : ∀ {j : ℕ} {c : Option External},
      (s.threads.set i th')[j]? ≠ some (.body c (.finish .approve x)) := by
    intro j c hj
    have hmem' := hold (List.mem_of_getElem? hj) (w := .approve) rfl
    -- it would be another approval at its end
    obtain rfl := hagree hmem' (w := .approve) rfl
    rcases getElem?_of_set hj with ⟨-, rfl⟩ | ⟨hji, hj⟩
    · exact hth' .approve rfl
    · exact hji (h.one_late j i c caller hj hi)
  constructor
  case agree => exact fun a ha b hb w u hw hu => h.agree a (hold ha hw) b (hold hb hu) w u hw hu
  case deciding =>
    intro a ha w hw
    obtain rfl := hagree (hold ha hw) hw
    exact .inr hstatus
  case late =>
    intro c hc
    obtain ⟨j, hj⟩ := List.getElem?_of_mem hc
    exact absurd hj hnolate
  case one_late => exact fun j _ c _ hj _ => absurd hj hnolate
  case hidden =>
    intro hst
    cases v <;> cases hst.symm.trans hstatus
  case approved =>
    intro hst
    cases v
    · exact hdisplay.trans (h.late caller hmem).2
    · cases hst.symm.trans hstatus
  case rejected =>
    intro hst
    cases v
    · cases hst.symm.trans hstatus
    · simp only [State.display, hdisplay]
      refine h.hidden hpending ?_
      intro c hc
      cases hagree hc (w := .approve) rfl

theorem returnTo_not_deciding (caller : Option External) (ok : Bool) (v : Verdict) :
    ¬ (returnTo caller ok).Deciding v x := by
  rw [deciding_iff]
  rintro ⟨caller', b, heq, -⟩
  exact returnTo_ne_body caller ok caller' b heq

theorem not_deciding_of_ne (h : b.target ≠ x) (v : Verdict) :
    ¬ (Thread.body caller b).Deciding v x := by
  rw [deciding_iff]
  rintro ⟨caller', b', heq, -, -, htarget⟩
  exact h ((Thread.body.inj heq).2 ▸ htarget)

theorem afterRead_verdict (v : Verdict) (y : Target) (content : Bytes) :
    (Body.afterRead v y content).verdict = v := by
  cases v <;> cases y <;> rfl

theorem afterRead_ne_approve (v : Verdict) (y z : Target) (content : Bytes) :
    Body.afterRead v y content ≠ .finish .approve z := by
  cases v <;> cases y <;> exact nofun

theorem exec_other (hu : UniqueTargets t) (o : Outcome) (h : b.target ≠ x) :
    Review.display (b.exec o t).1 x = Review.display t x ∧
      Review.status (b.exec o t).1 x = Review.status t x := by
  constructor
  · rcases b.exec_cases hu o with heq | ⟨_, _, _, -, -, -, heq⟩ | ⟨-, -, -, hdisplay, -⟩ |
      ⟨id, rfl, heq⟩ | ⟨w, y, -, -, heq⟩
    · rw [heq]
    · rw [heq]
    · rw [hdisplay, if_neg (Ne.symm h)]
    · rw [heq, display_deletePost]
      exact if_neg (Ne.symm h)
    · rw [heq]
      rfl
  · rcases status_exec hu o b x with heq | ⟨-, v, rfl, -⟩
    · exact heq
    · exact absurd rfl h

theorem Calm.begin (h : Calm x s) (c : Call) : Calm x (step s (.start c)) := by
  have hnew : ∀ v, ¬ c.start.Deciding v x := by
    intro v
    cases c <;> exact nofun
  have hold : ∀ {th : Thread} {v : Verdict}, th ∈ s.threads ++ [c.start] → th.Deciding v x →
      th ∈ s.threads := by
    intro th v hth hdec
    rcases List.mem_append.1 hth with hth | hlast
    · exact hth
    · exact absurd (List.mem_singleton.1 hlast ▸ hdec) (hnew v)
  have hget : ∀ {i : ℕ} {th : Thread} {v : Verdict}, (s.threads ++ [c.start])[i]? = some th →
      th.Deciding v x → s.threads[i]? = some th := by
    intro i th v hi hdec
    by_cases hlt : i < s.threads.length
    · rwa [List.getElem?_append_left hlt] at hi
    · rw [List.getElem?_append_right (Nat.le_of_not_lt hlt)] at hi
      have heq := List.mem_singleton.1 (List.mem_of_getElem? hi)
      exact absurd (heq ▸ hdec) (hnew v)
  constructor
  case agree => exact fun a ha b hb v w hv hw => h.agree a (hold ha hv) b (hold hb hw) v w hv hw
  case deciding => exact fun a ha v hv => h.deciding a (hold ha hv) v hv
  case late => exact fun caller hth => h.late caller (hold hth (v := .approve) rfl)
  case one_late =>
    intro i j a b hi hj
    exact h.one_late i j a b (hget hi (v := .approve) rfl) (hget hj (v := .approve) rfl)
  case hidden =>
    intro hpending hnone
    refine h.hidden hpending ?_
    intro caller hth
    exact hnone caller (List.mem_append_left _ hth)
  case approved => exact h.approved
  case rejected => exact h.rejected

theorem Calm.otherBody (h : Calm x s)
    (hi : s.threads[i]? = some (.body caller b)) (o : Outcome) (htarget : b.target ≠ x) :
    Calm x (step s (.exec i o)) := by
  rw [step_exec hi]
  obtain ⟨hdisplay, hstatus⟩ := exec_other s.store.unique o htarget
  have hnew : ∀ v, ¬ (Thread.exec o s.store (.body caller b)).2.Deciding v x := by
    intro v
    cases hr : (b.exec o s.store.tables).2 with
    | inl b' =>
      simp only [Thread.exec, hr]
      exact not_deciding_of_ne ((exec_target s.store.unique hr).trans_ne htarget) v
    | inr ok =>
      simp only [Thread.exec, hr]
      exact returnTo_not_deciding caller ok v
  refine h.frame hi ?_ ?_ (fun v hv => absurd hv (hnew v)) hdisplay hstatus
  · intro caller' heq
    exact htarget ((Thread.body.inj heq).2 ▸ rfl)
  · intro caller' heq
    have hdec : (Thread.body caller' (.finish .approve x)).Deciding .approve x := rfl
    exact hnew .approve (heq ▸ hdec)

theorem Calm.ownBody (h : Calm b.target s)
    (hi : s.threads[i]? = some (.body caller b)) {o : Outcome}
    (hok : Undisturbed b.target s (.exec i o)) : Calm b.target (step s (.exec i o)) := by
  rw [step_exec hi]
  have hmem : .body caller b ∈ s.threads := List.mem_of_getElem? hi
  rcases b.exec_cases s.store.unique o with hfail | ⟨v, y, item, rfl, hitem, hpending, hread⟩ |
    ⟨hpublish, hwaiting, hgoes, hdisplay, hitems⟩ | ⟨id, rfl, hremove⟩ |
    ⟨v, y, rfl, hpending, hdone⟩
  · -- the statement fails, which that of a late `finish_review` does not
    have hnew : ∀ v, ¬ (returnTo caller false).Deciding v b.target := returnTo_not_deciding caller false
    simp only [Thread.exec, hfail]
    refine h.frame hi ?_ (fun c heq => returnTo_ne_body _ _ _ _ heq)
      (fun v hv => absurd hv (hnew v)) rfl rfl
    intro caller' heq
    obtain ⟨y, rfl⟩ : ∃ y, b = .finish .approve y := ⟨_, (Thread.body.inj heq).2⟩
    simp only [Undisturbed, hi] at hok
    obtain rfl := hok rfl
    obtain ⟨j, hj, -⟩ := pendingItem_of_status s.store.unique (h.late caller hmem).1
    have hj' : s.store.tables.pendingItem y = some j := hj
    simp [Body.exec, Body.run, hj'] at hfail
  · -- it reads the item while nobody decides otherwise
    have hnobody : ∀ a ∈ s.threads, ¬ a.Deciding v.other y := by
      simp only [Undisturbed, hi] at hok
      exact hok rfl
    have hstatus : s.status y = some .pending := by
      rw [State.status, Review.status, hitem, Option.map_some, hpending]
    simp only [Thread.exec, hread]
    refine h.frame hi (fun _ h => by cases h) ?_ ?_ rfl rfl
    · intro c heq
      exact afterRead_ne_approve v y y item.content (Thread.body.inj heq).2
    · intro w hw
      refine ⟨hstatus, ?_⟩
      intro a ha u hu
      have hwv : v = w := by
        obtain ⟨_, b, heq, -, hverdict, -⟩ := deciding_iff.1 hw
        rw [← hverdict, ← (Thread.body.inj heq).2, afterRead_verdict]
      subst hwv
      by_contra hne
      have hother : u = v.other := by cases u <;> cases v <;> trivial
      exact hnobody a ha (hother ▸ hu)
  · -- it shows the row
    have hdec : (Thread.body caller b).Deciding .approve b.target := by
      cases b <;> first | exact hpublish.elim | rfl
    simp only [Thread.exec, hgoes]
    refine h.show hi hdec hwaiting ?_ ?_
    · rw [hdisplay, if_pos rfl]
    · rw [State.status, Review.status, Review.item, hitems]
      rfl
  · -- it removes the post
    simp only [Thread.exec, hremove]
    refine h.remove hi rfl ?_ rfl
    rw [display_deletePost]
    exact if_pos rfl
  · -- it decides the item
    simp only [Thread.exec, hdone]
    refine h.finish hi hpending (returnTo_not_deciding caller true) rfl ?_
    rw [status_finishReview]
    exact if_pos ⟨rfl, hpending⟩

theorem calm_step (s : State) (e : Event) (h : Calm x s) (hok : Undisturbed x s e) :
    Calm x (step s e) := by
  cases e with
  | start c => exact h.begin c
  | exec i o =>
    cases hi : s.threads[i]? with
    | none => simpa [step, hi] using h
    | some th =>
      rcases th.exec_cases o s.store with ⟨hbody, htables, hnew⟩ | ⟨caller, b, rfl, -, -⟩
      · -- outside of the two functions
        have hidle : ∀ v, ¬ (th.exec o s.store).2.Deciding v x := by
          intro v
          rw [deciding_iff]
          rintro ⟨caller, b, heq, hread, -⟩
          obtain ⟨w, y, rfl⟩ := hnew caller b heq
          exact hread w y rfl
        rw [step_exec hi]
        refine h.frame hi (fun caller => hbody caller _) ?_ (fun v hv => absurd hv (hidle v))
          (by rw [htables]; rfl) (by rw [htables]; rfl)
        intro caller heq
        have hdec : (Thread.body caller (.finish .approve x)).Deciding .approve x := rfl
        exact hidle .approve (heq ▸ hdec)
      · by_cases htarget : b.target = x
        · subst htarget
          exact h.ownBody hi hok
        · exact h.otherBody hi o htarget

/-! ## A call on its own -/

def Verdict.call : Verdict → Target → Call
  | .approve => .approve
  | .reject => .reject

/-- The next `n` statements of call `i` run, all of them done. -/
def execs (i n : ℕ) : List Event := List.replicate n (.exec i .done)

/-- A later call of `db_moderation_approve` or `db_moderation_reject` that nothing
disturbs; none of them has more than three statements. -/
def decideAlone (v : Verdict) (x : Target) (s : State) : State :=
  run step s (.start (v.call x) :: execs s.threads.length 3)

theorem step_last (s : Store) (l : List Thread) (th : Thread) (o : Outcome) :
    step ⟨s, l ++ [th]⟩ (.exec l.length o) =
      ⟨(th.exec o s).1, l ++ [(th.exec o s).2]⟩ := by
  have hget : (l ++ [th])[l.length]? = some th := by simp
  have hset : (l ++ [th]).set l.length (th.exec o s).2 = l ++ [(th.exec o s).2] := by simp
  rw [step_exec hget]
  simp only [hset]

/-- The next `n` statements of the function, as far as it has them. -/
def Body.alone : ℕ → Tables → Body → Tables
  | 0, t, _ => t
  | n + 1, t, b =>
    match b.exec .done t with
    | (t, .inl b) => b.alone n t
    | (t, .inr _) => t

theorem execs_answered (s : Store) (l : List Thread) (r : Result) (n : ℕ) :
    run step ⟨s, l ++ [.answered r]⟩ (execs l.length n) = ⟨s, l ++ [.answered r]⟩ := by
  induction n with
  | zero => rfl
  | succ n ih =>
    rw [execs, List.replicate_succ, run_cons, step_last]
    exact ih

theorem execs_alone (s : Store) (l : List Thread) (b : Body) (n : ℕ) :
    (run step ⟨s, l ++ [.body none b]⟩ (execs l.length n)).store.tables = b.alone n s.tables := by
  induction n generalizing s b with
  | zero => rfl
  | succ n ih =>
    rw [execs, List.replicate_succ, run_cons, step_last]
    cases hr : b.exec .done s.tables with
    | mk t r =>
      have htables : (Thread.exec .done s (.body none b)).1.tables = t := congrArg Prod.fst hr
      cases r with
      | inl b' =>
        have hnext : (Thread.exec .done s (.body none b)).2 = .body none b' := by
          simp only [Thread.exec, hr]
        rw [hnext, Body.alone, hr]
        exact (ih _ b').trans (by rw [htables])
      | inr ok =>
        have hnext : (Thread.exec .done s (.body none b)).2 = .answered (.returned ok) := by
          simp only [Thread.exec, hr, returnTo]
        rw [hnext, Body.alone, hr]
        exact (congrArg (·.store.tables) (execs_answered _ l _ n)).trans htables

theorem decideAlone_tables (v : Verdict) (x : Target) (s : State) :
    (decideAlone v x s).store.tables = (Body.readItem v x).alone 3 s.store.tables := by
  have hstart : step s (.start (v.call x)) = ⟨s.store, s.threads ++ [.body none (.readItem v x)]⟩ := by
    cases v <;> rfl
  rw [decideAlone, run_cons, hstart]
  exact execs_alone s.store s.threads (.readItem v x) 3

theorem reject_alone (hu : UniqueTargets t)
    (hpending : Review.status t x = some .pending) (hhidden : Review.display t x ≠ some .shown) :
    Review.status ((Body.readItem .reject x).alone 3 t) x = some .rejected ∧
      Review.display ((Body.readItem .reject x).alone 3 t) x ≠ some .shown := by
  obtain ⟨i, hi, -⟩ := pendingItem_of_status hu hpending
  cases x with
  | post id =>
    have hi' : (t.deletePost id).pendingItem (.post id) = some i := hi
    have hpending' : Review.status (t.deletePost id) (.post id) = some .pending := hpending
    have halone : (Body.readItem .reject (.post id)).alone 3 t =
        (t.deletePost id).finishReview (.post id) .rejected := by
      simp [Body.alone, Body.exec, Body.run, Body.afterRead, hi, hi', Verdict.status]
    rw [halone]
    constructor
    · rw [status_finishReview]
      exact if_pos ⟨rfl, hpending'⟩
    · have hgone : Review.display (t.deletePost id) (.post id) = none := by
        rw [display_deletePost, if_pos rfl]
      have hsame : Review.display ((t.deletePost id).finishReview (.post id) .rejected) (.post id) =
          none := hgone
      rw [hsame]
      rintro ⟨⟩
  | comment id =>
    have halone : (Body.readItem .reject (.comment id)).alone 3 t =
        t.finishReview (.comment id) .rejected := by
      simp [Body.alone, Body.exec, Body.run, Body.afterRead, hi, Verdict.status]
    rw [halone]
    constructor
    · rw [status_finishReview]
      exact if_pos ⟨rfl, hpending⟩
    · exact hhidden

theorem approve_alone (hu : UniqueTargets t)
    (hpending : Review.status t x = some .pending) (hwaiting : Review.display t x = some .waiting) :
    Review.status ((Body.readItem .approve x).alone 3 t) x = some .approved ∧
      Review.display ((Body.readItem .approve x).alone 3 t) x = some .shown := by
  obtain ⟨i, hi, -⟩ := pendingItem_of_status hu hpending
  cases x with
  | post id =>
    obtain ⟨p, hp, hdisplay⟩ := Option.map_eq_some_iff.1 hwaiting
    have hstatus : p.status = .pending := by
      cases hst : p.status <;> simp [postDisplay, hst] at hdisplay
      rfl
    have hid := Tables.post_id hp
    subst hid
    let q : Db.Post := { p with status := .published }
    have hi' : (t.setPost q).pendingItem (.post p.id) = some i := hi
    have hpending' : Review.status (t.setPost q) (.post p.id) = some .pending := hpending
    have halone : (Body.readItem .approve (.post p.id)).alone 3 t =
        (t.setPost q).finishReview (.post p.id) .approved := by
      simp [Body.alone, Body.exec, Body.run, Body.afterRead, hi, hi', hp, hstatus, Verdict.status, q]
    rw [halone]
    constructor
    · rw [status_finishReview]
      exact if_pos ⟨rfl, hpending'⟩
    · exact (display_setPost (p := q) hp (.post p.id)).trans (if_pos rfl)
  | comment id =>
    obtain ⟨c, hc, hdisplay⟩ := Option.map_eq_some_iff.1 hwaiting
    have hdeleted : c.deleted = true := by
      cases hd : c.deleted
      · simp [commentDisplay, hd] at hdisplay
      · rfl
    have hid := Tables.comment_id hc
    subst hid
    let d : Comment := { c with content := i.content, deleted := false }
    have hi' : (t.setComment d).pendingItem (.comment c.id) = some i := hi
    have hpending' : Review.status (t.setComment d) (.comment c.id) = some .pending := hpending
    have halone : (Body.readItem .approve (.comment c.id)).alone 3 t =
        (t.setComment d).finishReview (.comment c.id) .approved := by
      simp [Body.alone, Body.exec, Body.run, Body.afterRead, hi, hi', hc, hdeleted, Verdict.status, d]
    rw [halone]
    constructor
    · rw [status_finishReview]
      exact if_pos ⟨rfl, hpending'⟩
    · exact (display_setComment (c := d) hc (.comment c.id)).trans (if_pos rfl)

/-! ## The decision on an item -/

/-- An approved item is visible and a rejected one is hidden. An item that is still
pending while no call decides on it is hidden; a later rejection decides it, and a later
approval does if its row still waits. -/
structure Consistent (x : Target) (s : State) : Prop where
  approved : s.status x = some .approved → s.display x = some .shown
  rejected : s.status x = some .rejected → s.display x ≠ some .shown
  pending : s.status x = some .pending → (∀ th ∈ s.threads, ∀ v, ¬ th.Deciding v x) →
    s.display x ≠ some .shown ∧
      ((decideAlone .reject x s).status x = some .rejected ∧
        (decideAlone .reject x s).display x ≠ some .shown) ∧
      (s.display x = some .waiting →
        (decideAlone .approve x s).status x = some .approved ∧
          (decideAlone .approve x s).display x = some .shown)

theorem Calm.consistent (h : Calm x s) : Consistent x s := by
  refine ⟨h.approved, h.rejected, ?_⟩
  intro hpending hidle
  have hhidden : s.display x ≠ some .shown := by
    refine h.hidden hpending ?_
    intro caller hmem
    exact hidle _ hmem .approve rfl
  refine ⟨hhidden, ?_, ?_⟩
  · simp only [State.status, State.display, decideAlone_tables]
    exact reject_alone s.store.unique hpending hhidden
  · intro hwaiting
    simp only [State.status, State.display, decideAlone_tables]
    exact approve_alone s.store.unique hpending hwaiting

theorem calm_start {s : Store} (hpending : Review.status s.tables x = some .pending)
    (hwaiting : Review.display s.tables x = some .waiting) : Calm x ⟨s, []⟩ := by
  constructor
  case agree => exact fun _ hmem => absurd hmem List.not_mem_nil
  case deciding => exact fun _ hmem => absurd hmem List.not_mem_nil
  case late => exact fun _ hmem => absurd hmem List.not_mem_nil
  case one_late => exact fun i j a b hi => by simp at hi
  case hidden =>
    intro _ _ hshown
    cases hshown.symm.trans hwaiting
  case approved =>
    intro hst
    cases hst.symm.trans hpending
  case rejected =>
    intro hst
    cases hst.symm.trans hpending

end

/-- A post that waits for review; the reviewer has been asked about it. -/
def heldPost : Store where
  tables :=
    { posts := [⟨7, 1, 5, bytes "title", bytes "text", .pending, 1000⟩]
      comments := []
      items := [⟨.post 7, 5, [], bytes "approval_queue", .pending, 1000⟩]
      userSince := fun _ => some 0
      nextPost := 8
      nextComment := 1 }
  requests := ⟨[⟨bytes "c0ffee", .post 7, 1000, 1300⟩], by decide⟩
  receipts := Keyed.Table.empty
  unique := List.nodup_singleton _

/-- Two workers receive two answers of the reviewer and take turns. -/
def twoAnswers : List Event :=
  [.start (.externalApply ⟨bytes "c0ffee", bytes "d1", .allow, 1010, [], 1011⟩),
   .start (.externalApply ⟨bytes "c0ffee", bytes "d2", .allow, 1010, [], 1011⟩)] ++
    (List.replicate 6 [Event.exec 0 .done, .exec 1 .done]).flatten

/-- A rejection reads the item, then an approval runs, then the rejection goes on. -/
def overlapping : List Event :=
  [.start (.approve (.post 7)), .start (.reject (.post 7)), .exec 1 .done] ++ execs 0 3 ++ execs 1 2

end FlyBoard.Review
