import Mathlib.Data.List.Nodup
import Mathlib.Data.List.Perm.Subperm
import Mathlib.Data.Set.Insert
import Mathlib.Logic.Function.Basic

/-!
# Forests given by a parent map

A finite set of nodes, a map that gives every node its parent, and a value `root` outside
the nodes that the parents of the topmost nodes are. `Path b l` says that following the
parents from `b` ends at `root` and passes exactly the nodes `l`; a forest is a parent map
under which every node has a path. `forest_update_iff`, `forest_insert_iff` and
`forest_remove` say what a change of one parent, a new node and a removed node do to a
forest, `nodup_and_mem_children` that a walk which lists every node before the nodes below
it passes each of them once.
-/

namespace FlyBoard.ParentForest

variable {κ : Type*} {parent parent' : κ → κ} {root : κ} {nodes nodes' : Set κ}

/-- Following the parents from a node ends at `root` and passes the nodes of the list. -/
inductive Path (parent : κ → κ) (root : κ) (nodes : Set κ) : κ → List κ → Prop
  | top {b : κ} (hb : b ∈ nodes) (h : parent b = root) : Path parent root nodes b [b]
  | under {b : κ} {l : List κ} (hb : b ∈ nodes) (h : Path parent root nodes (parent b) l) :
      Path parent root nodes b (b :: l)

def Forest (parent : κ → κ) (root : κ) (nodes : Set κ) : Prop :=
  ∀ b ∈ nodes, ∃ l, Path parent root nodes b l

/-! ## Paths -/

namespace Path

variable {b : κ} {l : List κ}

theorem mem_nodes (h : Path parent root nodes b l) : b ∈ nodes := by
  cases h with
  | top hb _ => exact hb
  | under hb _ => exact hb

theorem subset_nodes (h : Path parent root nodes b l) :
    ∀ x ∈ l, x ∈ nodes := by
  induction h with
  | top hb _ =>
    intro x hx
    rw [List.mem_singleton] at hx
    exact hx ▸ hb
  | under hb _ ih =>
    intro x hx
    rcases List.mem_cons.mp hx with rfl | hrest
    · exact hb
    · exact ih x hrest

theorem exists_cons (h : Path parent root nodes b l) :
    ∃ rest, l = b :: rest := by
  cases h with
  | top _ _ => exact ⟨[], rfl⟩
  | under _ _ => exact ⟨_, rfl⟩

theorem start_mem (h : Path parent root nodes b l) : b ∈ l := by
  rcases h.exists_cons with ⟨rest, rfl⟩
  exact List.mem_cons_self

theorem unique (hroot : root ∉ nodes) {l m : List κ}
    (hl : Path parent root nodes b l) (hm : Path parent root nodes b m) : l = m := by
  induction hl generalizing m with
  | top _ h =>
    cases hm with
    | top _ _ => rfl
    | under _ hrest => exact absurd (h ▸ hrest.mem_nodes) hroot
  | under _ hrest ih =>
    cases hm with
    | top _ h => exact absurd (h ▸ hrest.mem_nodes) hroot
    | under _ hrest' => rw [ih hrest']

theorem exists_suffix {b c : κ} (h : Path parent root nodes b l) (hc : c ∈ l) :
    ∃ m, Path parent root nodes c m ∧ m <:+ l := by
  induction h with
  | top hb htop =>
    rw [List.mem_singleton] at hc
    subst hc
    exact ⟨_, .top hb htop, List.suffix_refl _⟩
  | under hb hrest ih =>
    rcases List.mem_cons.mp hc with rfl | hin
    · exact ⟨_, .under hb hrest, List.suffix_refl _⟩
    · rcases ih hin with ⟨m, hm, hsuffix⟩
      exact ⟨m, hm, hsuffix.trans (List.suffix_cons _ _)⟩

theorem nodup (hroot : root ∉ nodes) (h : Path parent root nodes b l) :
    l.Nodup := by
  induction h with
  | top _ _ => exact List.nodup_singleton _
  | @under b l hb hrest ih =>
    refine List.nodup_cons.mpr ⟨?_, ih⟩
    intro hmem
    rcases hrest.exists_suffix hmem with ⟨m, hm, hsuffix⟩
    have heq := unique hroot hm (.under hb hrest)
    have hle := hsuffix.length_le
    rw [heq, List.length_cons] at hle
    omega

theorem congr (h : Path parent root nodes b l)
    (hnodes : ∀ x ∈ l, x ∈ nodes') (hparent : ∀ x ∈ l, parent' x = parent x) :
    Path parent' root nodes' b l := by
  induction h with
  | @top b _ htop =>
    have hself := hparent b List.mem_cons_self
    exact .top (hnodes b List.mem_cons_self) (hself.trans htop)
  | @under b l _ hrest ih =>
    have hself := hparent b List.mem_cons_self
    refine .under (hnodes b List.mem_cons_self) ?_
    rw [hself]
    exact ih (fun x hx => hnodes x (List.mem_cons_of_mem _ hx))
      fun x hx => hparent x (List.mem_cons_of_mem _ hx)

theorem length_le (hroot : root ∉ nodes) {ns : List κ} (hns : ∀ x ∈ nodes, x ∈ ns)
    (h : Path parent root nodes b l) : l.length ≤ ns.length :=
  (List.subperm_of_subset (h.nodup hroot) fun x hx => hns x (h.subset_nodes x hx)).length_le

theorem eq_of_parent_eq (hroot : root ∉ nodes) {b c d : κ}
    (h : Path parent root nodes b l) (hc : c ∈ l) (hd : d ∈ l)
    (heq : parent c = parent d) : c = d := by
  rcases h.exists_suffix hc with ⟨lc, hlc, hsc⟩
  rcases h.exists_suffix hd with ⟨ld, hld, hsd⟩
  have hlength : lc.length = ld.length := by
    cases hlc with
    | top _ htop =>
      cases hld with
      | top _ _ => rfl
      | under _ hrest => exact absurd (htop ▸ heq ▸ hrest.mem_nodes) hroot
    | under _ hrest =>
      cases hld with
      | top _ htop => exact absurd (htop ▸ heq ▸ hrest.mem_nodes) hroot
      | under _ hrest' =>
        rw [heq] at hrest
        rw [List.length_cons, List.length_cons, unique hroot hrest hrest']
  have hlist : lc = ld := List.suffix_of_suffix_length_le hsc hsd hlength.le |>.eq_of_length hlength
  rcases hlc.exists_cons with ⟨rest, hrest⟩
  rcases hld.exists_cons with ⟨rest', hrest'⟩
  rw [hrest, hrest', List.cons.injEq] at hlist
  exact hlist.1

end Path

/-! ## What the operations do to a forest -/

section Operations

variable [DecidableEq κ] {b p : κ}

theorem update_eq_of_not_mem {l : List κ} (hl : b ∉ l) :
    ∀ x ∈ l, Function.update parent b p x = parent x := by
  intro x hx
  apply Function.update_of_ne
  rintro rfl
  exact hl hx

/-- A forest stays one under a new parent of `b` exactly when that parent is the root or
a node whose path does not pass `b`. -/
theorem forest_update_iff (hroot : root ∉ nodes) (h : Forest parent root nodes) (hb : b ∈ nodes) :
    Forest (Function.update parent b p) root nodes ↔
      p = root ∨ ∃ l, Path parent root nodes p l ∧ b ∉ l := by
  constructor
  · intro hforest
    rcases hforest b hb with ⟨l, hl⟩
    have hnodup := hl.nodup hroot
    cases hl with
    | top _ htop =>
      rw [Function.update_self] at htop
      exact .inl htop
    | under _ hrest =>
      rw [Function.update_self] at hrest
      have hfree := (List.nodup_cons.mp hnodup).1
      refine .inr ⟨_, hrest.congr hrest.subset_nodes ?_, hfree⟩
      intro x hx
      exact (update_eq_of_not_mem hfree x hx).symm
  · intro hp
    -- the path of `b` itself under the new parent
    have hself : ∃ l, Path (Function.update parent b p) root nodes b l := by
      rcases hp with rfl | ⟨l, hl, hfree⟩
      · exact ⟨[b], .top hb (Function.update_self ..)⟩
      · refine ⟨b :: l, .under hb ?_⟩
        rw [Function.update_self]
        exact hl.congr hl.subset_nodes (update_eq_of_not_mem hfree)
    intro c hc
    rcases h c hc with ⟨l, hl⟩
    induction hl with
    | @top c hc' htop =>
      by_cases hcb : c = b
      · exact hcb ▸ hself
      · refine ⟨[c], .top hc' ?_⟩
        rw [Function.update_of_ne hcb]
        exact htop
    | @under c l hc' hrest ih =>
      by_cases hcb : c = b
      · exact hcb ▸ hself
      · rcases ih hrest.mem_nodes with ⟨m, hm⟩
        refine ⟨c :: m, .under hc' ?_⟩
        rw [Function.update_of_ne hcb]
        exact hm

/-- A forest stays one with a new node exactly when the node's parent is the root or an
old node. -/
theorem forest_insert_iff (hroot : root ∉ nodes) (h : Forest parent root nodes)
    (hb : b ∉ nodes) (hbr : b ≠ root) :
    Forest (Function.update parent b p) root (insert b nodes) ↔ p = root ∨ p ∈ nodes := by
  have hroot' : root ∉ insert b nodes := by
    rintro (heq | hin)
    · exact hbr heq.symm
    · exact hroot hin
  -- the old paths do not pass the new node
  have hold : ∀ c ∈ nodes, ∃ l,
      Path (Function.update parent b p) root (insert b nodes) c l := by
    intro c hc
    rcases h c hc with ⟨l, hl⟩
    have hfree : b ∉ l := fun hin => hb (hl.subset_nodes b hin)
    exact ⟨l, hl.congr (fun x hx => .inr (hl.subset_nodes x hx)) (update_eq_of_not_mem hfree)⟩
  constructor
  · intro hforest
    rcases hforest b (.inl rfl) with ⟨l, hl⟩
    have hnodup := hl.nodup hroot'
    cases hl with
    | top _ htop =>
      rw [Function.update_self] at htop
      exact .inl htop
    | under _ hrest =>
      rw [Function.update_self] at hrest
      have hfree := (List.nodup_cons.mp hnodup).1
      rcases hrest.mem_nodes with heq | hin
      · exact absurd (heq ▸ hrest.start_mem) hfree
      · exact .inr hin
  · rintro hp c (rfl | hc)
    · rcases hp with rfl | hin
      · exact ⟨[c], .top (.inl rfl) (Function.update_self ..)⟩
      · rcases hold p hin with ⟨l, hl⟩
        refine ⟨c :: l, .under (.inl rfl) ?_⟩
        rw [Function.update_self]
        exact hl
    · exact hold c hc

/-- A forest stays one when a node goes and its children become topmost. -/
theorem forest_remove (h : Forest parent root nodes) {b : κ}
    (hparent : ∀ x ∈ nodes, x ≠ b → parent' x = if parent x = b then root else parent x) :
    Forest parent' root (nodes \ {b}) := by
  rintro c ⟨hc, hcb⟩
  rcases h c hc with ⟨l, hl⟩
  induction hl with
  | @top c hc' htop =>
    refine ⟨[c], .top ⟨hc', hcb⟩ ?_⟩
    rw [hparent c hc' hcb, htop]
    split
    · rfl
    · rfl
  | @under c l hc' hrest ih =>
    by_cases hchild : parent c = b
    · refine ⟨[c], .top ⟨hc', hcb⟩ ?_⟩
      rw [hparent c hc' hcb, if_pos hchild]
    · rcases ih hrest.mem_nodes hchild with ⟨m, hm⟩
      refine ⟨c :: m, .under ⟨hc', hcb⟩ ?_⟩
      rw [hparent c hc' hcb, if_neg hchild]
      exact hm

end Operations

/-! ## The nodes below a node -/

/-- `c` lies strictly below `q`, which is a node or the root. -/
def Below (parent : κ → κ) (root : κ) (nodes : Set κ) (q c : κ) : Prop :=
  ∃ l, Path parent root nodes c l ∧ (q ∈ l.tail ∨ q = root)

theorem below_root_iff (h : Forest parent root nodes) {c : κ} :
    Below parent root nodes root c ↔ c ∈ nodes := by
  constructor
  · rintro ⟨l, hl, -⟩
    exact hl.mem_nodes
  · intro hc
    rcases h c hc with ⟨l, hl⟩
    exact ⟨l, hl, .inr rfl⟩

theorem Below.of_parent {b c : κ} (h : Below parent root nodes b (parent c)) (hc : c ∈ nodes) :
    Below parent root nodes b c := by
  rcases h with ⟨l, hl, hb⟩
  refine ⟨c :: l, .under hc hl, ?_⟩
  rcases hb with htail | hroot
  · exact .inl (List.mem_of_mem_tail htail)
  · exact .inr hroot

/-- The nodes below `q` are its children and the nodes below them. -/
theorem below_iff (hroot : root ∉ nodes) (h : Forest parent root nodes) {q c : κ} :
    Below parent root nodes q c ↔
      ∃ b ∈ nodes, parent b = q ∧ (c = b ∨ Below parent root nodes b c) := by
  constructor
  · rintro ⟨l, hl, hq⟩
    induction hl with
    | @top c hc htop =>
      rcases hq with hnil | hq
      · exact (List.not_mem_nil hnil).elim
      · exact ⟨c, hc, htop.trans hq.symm, .inl rfl⟩
    | @under c l hc hrest ih =>
      rcases hrest.exists_cons with ⟨rest, rfl⟩
      by_cases hpq : parent c = q
      · exact ⟨c, hc, hpq, .inl rfl⟩
      · have hq' : q ∈ (parent c :: rest).tail ∨ q = root := by
          rcases hq with htail | hroot
          · rcases List.mem_cons.mp htail with heq | hin
            · exact absurd heq.symm hpq
            · exact .inl hin
          · exact .inr hroot
        rcases ih hq' with ⟨b, hb, hbq, heq | hbelow⟩
        · refine ⟨b, hb, hbq, .inr ⟨_, .under hc hrest, .inl ?_⟩⟩
          exact heq ▸ List.mem_cons_self
        · exact ⟨b, hb, hbq, .inr (hbelow.of_parent hc)⟩
  · rintro ⟨b, hb, rfl, rfl | ⟨l, hl, hbl⟩⟩
    · rcases h c hb with ⟨l, hl⟩
      cases hl with
      | top _ htop => exact ⟨_, .top hb htop, .inr htop⟩
      | under _ hrest => exact ⟨_, .under hb hrest, .inl hrest.start_mem⟩
    · have hin : b ∈ l := by
        rcases hbl with htail | rfl
        · exact List.mem_of_mem_tail htail
        · exact absurd hb hroot
      rcases hl.exists_suffix hin with ⟨m, hm, pre, rfl⟩
      cases hm with
      | top _ htop => exact ⟨_, hl, .inr htop⟩
      | @under _ m _ hrest =>
        refine ⟨_, hl, .inl ?_⟩
        cases pre with
        | nil => exact hrest.start_mem
        | cons a pre =>
          rw [List.cons_append, List.tail_cons]
          exact List.mem_append_right _ (List.mem_cons_of_mem _ hrest.start_mem)

/-- Two children of `q` have no node in common, themselves included. -/
theorem child_unique (hroot : root ∉ nodes) (h : Forest parent root nodes) {b b' c : κ}
    (hb : b ∈ nodes) (hb' : b' ∈ nodes) (heq : parent b = parent b')
    (hc : c = b ∨ Below parent root nodes b c) (hc' : c = b' ∨ Below parent root nodes b' c) :
    b = b' := by
  have hmem : ∀ d ∈ nodes, c = d ∨ Below parent root nodes d c →
      ∃ l, Path parent root nodes c l ∧ d ∈ l := by
    rintro d hd (rfl | ⟨l, hl, htail | rfl⟩)
    · rcases h c hd with ⟨l, hl⟩
      exact ⟨l, hl, hl.start_mem⟩
    · exact ⟨l, hl, List.mem_of_mem_tail htail⟩
    · exact absurd hd hroot
  rcases hmem b hb hc with ⟨l, hl, hbl⟩
  rcases hmem b' hb' hc' with ⟨l', hl', hbl'⟩
  rw [← hl.unique hroot hl'] at hbl'
  exact hl.eq_of_parent_eq hroot hbl hbl' heq

/-- A walk that lists each child of `q` and then what lies below it lists the nodes below
`q`, each once. -/
theorem nodup_and_mem_children [DecidableEq κ] (hroot : root ∉ nodes)
    (h : Forest parent root nodes) {ns : List κ} (hnd : ns.Nodup) (hns : ∀ x, x ∈ ns ↔ x ∈ nodes)
    {q : κ} {sub : κ → List κ}
    (hsub : ∀ b ∈ ns, parent b = q →
      (sub b).Nodup ∧ ∀ c, c ∈ sub b ↔ Below parent root nodes b c) :
    (ns.flatMap fun b => if parent b = q then b :: sub b else []).Nodup ∧
      ∀ c, (c ∈ ns.flatMap fun b => if parent b = q then b :: sub b else []) ↔
        Below parent root nodes q c := by
  have hpart : ∀ b ∈ ns, ∀ c, c ∈ (if parent b = q then b :: sub b else []) ↔
      parent b = q ∧ (c = b ∨ Below parent root nodes b c) := by
    intro b hb c
    split
    · rename_i hbq
      rw [List.mem_cons, (hsub b hb hbq).2]
      exact ⟨fun hc => ⟨hbq, hc⟩, And.right⟩
    · rename_i hbq
      exact ⟨fun hnil => (List.not_mem_nil hnil).elim, fun hc => absurd hc.1 hbq⟩
  constructor
  · rw [List.nodup_flatMap]
    constructor
    · intro b hb
      split
      · rename_i hbq
        rcases hsub b hb hbq with ⟨hnodup, hmem⟩
        refine List.nodup_cons.mpr ⟨?_, hnodup⟩
        -- a node does not lie strictly below itself
        intro hself
        rcases (hmem b).mp hself with ⟨l, hl, htail | rfl⟩
        · rcases hl.exists_cons with ⟨rest, rfl⟩
          exact (List.nodup_cons.mp (hl.nodup hroot)).1 htail
        · exact hroot ((hns _).mp hb)
      · exact List.nodup_nil
    · refine hnd.imp_of_mem ?_
      intro b b' hb hb' hne c hc hc'
      rcases (hpart b hb c).mp hc with ⟨hq, hcb⟩
      rcases (hpart b' hb' c).mp hc' with ⟨hq', hcb'⟩
      exact hne (child_unique hroot h ((hns b).mp hb) ((hns b').mp hb') (hq.trans hq'.symm)
        hcb hcb')
  · intro c
    rw [List.mem_flatMap, below_iff hroot h]
    constructor
    · rintro ⟨b, hb, hc⟩
      exact ⟨b, (hns b).mp hb, (hpart b hb c).mp hc⟩
    · rintro ⟨b, hb, hc⟩
      have hb' := (hns b).mpr hb
      exact ⟨b, hb', (hpart b hb' c).mpr hc⟩

end FlyBoard.ParentForest
