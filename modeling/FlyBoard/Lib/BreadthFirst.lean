import Mathlib.Data.List.Basic
import Mathlib.Data.List.Nodup
import Mathlib.Data.List.Pairwise

/-!
# Breadth-first order

A queue of the nodes of a tree, to whose end the children of the node in front are added. When a
node comes to the front, all that is no deeper than it has been reached, and all that is less deep
has been in front before.
-/

namespace FlyBoard.BreadthFirst

variable {ν : Type*}

structure Tree (children : ν → List ν) (depth : ν → ℕ) (start : ν) (node : ν → Prop) : Prop where
  depth_start : depth start = 0
  deeper : ∀ x, ∀ y ∈ children x, depth y = depth x + 1
  nodup : ∀ x, (children x).Nodup
  parent : ∀ x x' y, y ∈ children x → y ∈ children x' → x = x'
  rooted : ∀ y, node y → y = start ∨ ∃ x, node x ∧ y ∈ children x

/-- How far a search has come: the nodes that were in front, and those in the queue. -/
structure Fringe (children : ν → List ν) (depth : ν → ℕ) (start : ν) (done queue : List ν) :
    Prop where
  nodup : (done ++ queue).Nodup
  reached : ∀ y ∈ done ++ queue, y = start ∨ ∃ x ∈ done, y ∈ children x
  started : start ∈ done
  complete : ∀ x ∈ done, ∀ y ∈ children x, y ∈ done ++ queue
  sorted : queue.Pairwise fun x y => depth x ≤ depth y ∧ depth y ≤ depth x + 1

variable {children : ν → List ν} {depth : ν → ℕ} {start : ν} {node : ν → Prop}
  {done queue : List ν} {x y : ν}

theorem Tree.children_sorted (ht : Tree children depth start node) (x : ν) :
    (children x).Pairwise fun y z => depth y ≤ depth z ∧ depth z ≤ depth y + 1 := by
  apply List.pairwise_of_forall_mem_list
  intro y hy z hz
  rw [ht.deeper x y hy, ht.deeper x z hz]
  exact ⟨Nat.le_refl _, Nat.le_succ _⟩

theorem Tree.fringe_start (ht : Tree children depth start node) :
    Fringe children depth start [start] (children start) := by
  constructor
  case nodup =>
    rw [List.singleton_append, List.nodup_cons]
    refine ⟨?_, ht.nodup start⟩
    intro hmem
    have hdepth := ht.deeper start start hmem
    omega
  case reached =>
    intro y hy
    rcases List.mem_append.mp hy with hfirst | hchild
    · exact .inl (List.mem_singleton.mp hfirst)
    · exact .inr ⟨start, List.mem_singleton_self start, hchild⟩
  case started => exact List.mem_singleton_self start
  case complete =>
    intro x hx y hy
    rw [List.mem_singleton.mp hx] at hy
    exact List.mem_append_right _ hy
  case sorted => exact ht.children_sorted start

theorem Fringe.fresh (h : Fringe children depth start done (x :: queue))
    (ht : Tree children depth start node) (hy : y ∈ children x) : y ∉ done ++ x :: queue := by
  intro hmem
  rcases h.reached y hmem with rfl | ⟨x', hx', hchild⟩
  · have hdepth := ht.deeper x y hy
    rw [ht.depth_start] at hdepth
    omega
  · have hsame := ht.parent x' x y hchild hy
    rw [hsame] at hx'
    exact (List.nodup_append.mp h.nodup).2.2 x hx' x List.mem_cons_self rfl

theorem Fringe.step (h : Fringe children depth start done (x :: queue))
    (ht : Tree children depth start node) :
    Fringe children depth start (done ++ [x]) (queue ++ children x) := by
  have hall : (done ++ [x]) ++ (queue ++ children x) = (done ++ x :: queue) ++ children x := by
    simp only [List.append_assoc, List.cons_append, List.nil_append]
  constructor
  case nodup =>
    rw [hall]
    refine List.nodup_append.mpr ⟨h.nodup, ht.nodup x, ?_⟩
    intro y hy z hz heq
    rw [← heq] at hz
    exact h.fresh ht hz hy
  case reached =>
    intro y hy
    rw [hall] at hy
    rcases List.mem_append.mp hy with hbefore | hchild
    · rcases h.reached y hbefore with hstart | ⟨x', hx', hchild⟩
      · exact .inl hstart
      · exact .inr ⟨x', List.mem_append_left _ hx', hchild⟩
    · exact .inr ⟨x, List.mem_append_right _ (List.mem_singleton_self x), hchild⟩
  case started => exact List.mem_append_left _ h.started
  case complete =>
    intro x' hx' y hy
    rw [hall]
    rcases List.mem_append.mp hx' with hbefore | hnow
    · exact List.mem_append_left _ (h.complete x' hbefore y hy)
    · rw [List.mem_singleton.mp hnow] at hy
      exact List.mem_append_right _ hy
  case sorted =>
    obtain ⟨hfront, hrest⟩ := List.pairwise_cons.mp h.sorted
    refine List.pairwise_append.mpr ⟨hrest, ht.children_sorted x, ?_⟩
    intro y hy z hz
    have hlevel := hfront y hy
    have hdepth := ht.deeper x z hz
    omega

theorem Fringe.mem_done (h : Fringe children depth start done (x :: queue))
    (ht : Tree children depth start node) (hy : node y) (hlt : depth y < depth x) : y ∈ done := by
  induction hd : depth y using Nat.strongRecOn generalizing y with
  | _ d ih =>
    rcases ht.rooted y hy with rfl | ⟨p, hp, hchild⟩
    · exact h.started
    · have hdepth := ht.deeper p y hchild
      have hparent : p ∈ done := ih (depth p) (by omega) hp (by omega) rfl
      rcases List.mem_append.mp (h.complete p hparent y hchild) with hdone | hqueue
      · exact hdone
      · -- it would not wait behind what is deeper
        rcases List.mem_cons.mp hqueue with rfl | hlater
        · exact absurd hlt (Nat.lt_irrefl _)
        · have hlevel := (List.pairwise_cons.mp h.sorted).1 y hlater
          omega

theorem Fringe.mem_reached (h : Fringe children depth start done (x :: queue))
    (ht : Tree children depth start node) (hy : node y) (hle : depth y ≤ depth x) :
    y ∈ done ++ x :: queue := by
  rcases ht.rooted y hy with rfl | ⟨p, hp, hchild⟩
  · exact List.mem_append_left _ h.started
  · have hdepth := ht.deeper p y hchild
    exact h.complete p (h.mem_done ht hp (by omega)) y hchild

theorem Fringe.all_done (h : Fringe children depth start done [])
    (ht : Tree children depth start node) (hy : node y) : y ∈ done := by
  induction hd : depth y using Nat.strongRecOn generalizing y with
  | _ d ih =>
    rcases ht.rooted y hy with rfl | ⟨p, hp, hchild⟩
    · exact h.started
    · have hdepth := ht.deeper p y hchild
      have hparent := ih (depth p) (by omega) hp rfl
      have hmem := h.complete p hparent y hchild
      rw [List.append_nil] at hmem
      exact hmem

end FlyBoard.BreadthFirst
