import FlyBoard.Lib.Bytes
import Mathlib.Tactic.Common

/-!
# Reading a byte string by offsets

A reader goes over a byte string of which it knows nothing. It stops with `reject` where it
finds that something does not fit, and with `fault` where it reads outside of the string: a
reader that checks before it reads never faults, whatever the bytes are. Numbers are stored
with their low byte first.
-/

namespace FlyBoard.Reader

inductive Stop
  | fault
  | reject
deriving DecidableEq, Repr

def fetch (blob : Bytes) (p n : ℕ) : Except Stop Bytes :=
  if p + n ≤ blob.length then .ok ((blob.drop p).take n) else .error .fault

/-- The offset after the next bytes, if there are so many. -/
def skip (blob : Bytes) (p n : ℕ) : Except Stop ℕ :=
  if blob.length - p < n then .error .reject else .ok (p + n)

def check (b : Bool) : Except Stop Unit := if b then .ok () else .error .reject

variable {α β : Type} {P : α → Prop} {Q : β → Prop} {x : Except Stop α} {f : α → Except Stop β}

theorem ok_bind (a : α) (f : α → Except Stop β) : (Except.ok a >>= f) = f a := rfl

theorem check_of {p : Prop} [Decidable p] (h : p) : check (decide p) = .ok () := by
  rw [check, decide_eq_true h, if_pos rfl]

theorem check_of_not {p : Prop} [Decidable p] (h : ¬ p) : check (decide p) = .error .reject := by
  rw [check, decide_eq_false h, if_neg Bool.false_ne_true]

/-! ## Readers that do not fault -/

/-- The reader does not fault, and what it returns meets the condition. -/
def Safe (P : α → Prop) : Except Stop α → Prop
  | .ok a => P a
  | .error .reject => True
  | .error .fault => False

theorem Safe.bind (hx : Safe P x) (hf : ∀ a, P a → Safe Q (f a)) : Safe Q (x >>= f) := by
  cases x with
  | ok a => exact hf a hx
  | error e =>
    cases e with
    | fault => exact hx.elim
    | reject => trivial

theorem safe_check_bind {b : Bool} {y : Except Stop β} (hy : b = true → Safe Q y) :
    Safe Q (check b >>= fun _ => y) := by
  cases b with
  | true => exact hy rfl
  | false => trivial

variable {blob : Bytes} {p n : ℕ}

theorem safe_fetch (h : p + n ≤ blob.length) : Safe (fun _ => True) (fetch blob p n) := by
  rw [fetch, if_pos h]
  trivial

theorem safe_skip (h : p ≤ blob.length) :
    Safe (fun q => q = p + n ∧ q ≤ blob.length) (skip blob p n) := by
  unfold skip
  split
  · trivial
  · refine ⟨rfl, ?_⟩
    omega

/-! ## What stands at an offset -/

structure RestAt (blob : Bytes) (p : ℕ) (s : Bytes) : Prop where
  inside : p ≤ blob.length
  rest : blob.drop p = s

theorem RestAt.length {s : Bytes} (h : RestAt blob p s) : p + s.length = blob.length := by
  have hdrop := congrArg List.length h.rest
  rw [List.length_drop] at hdrop
  have hinside := h.inside
  omega

theorem RestAt.skip {a s : Bytes} (h : RestAt blob p (a ++ s)) :
    RestAt blob (p + a.length) s where
  inside := by
    have hlen := h.length
    rw [List.length_append] at hlen
    omega
  rest := by rw [← List.drop_drop, h.rest, List.drop_left]

theorem RestAt.fetch_eq {a s : Bytes} (h : RestAt blob p (a ++ s)) :
    fetch blob p a.length = .ok a := by
  have hlen := h.length
  rw [List.length_append] at hlen
  rw [fetch, if_pos (by omega), h.rest, List.take_left]

theorem RestAt.skip_eq {a s : Bytes} (h : RestAt blob p (a ++ s)) :
    Reader.skip blob p a.length = .ok (p + a.length) := by
  have hlen := h.length
  rw [List.length_append] at hlen
  rw [Reader.skip, if_neg (by omega)]

theorem RestAt.fetch_take (h : RestAt blob p (a ++ s)) (hn : n ≤ a.length) :
    fetch blob p n = .ok (a.take n) := by
  have hsplit : a ++ s = a.take n ++ (a.drop n ++ s) := by
    rw [← List.append_assoc, List.take_append_drop]
  rw [hsplit] at h
  have hfetch := h.fetch_eq
  rwa [List.length_take, Nat.min_eq_left hn] at hfetch

/-! ## Numbers -/

def le : (width n : ℕ) → Bytes
  | 0, _ => []
  | w + 1, n => UInt8.ofNat (n % 256) :: le w (n / 256)

def leValue (s : Bytes) : ℕ := s.foldr (fun b v => b.toNat + 256 * v) 0

@[simp] theorem length_le (w n : ℕ) : (le w n).length = w := by
  induction w generalizing n with
  | zero => rfl
  | succ w ih => rw [le, List.length_cons, ih]

theorem leValue_le (w n : ℕ) : leValue (le w n) = n % 256 ^ w := by
  induction w generalizing n with
  | zero => rw [le, leValue, List.foldr_nil, Nat.pow_zero, Nat.mod_one]
  | succ w ih =>
    have hbyte : (UInt8.ofNat (n % 256)).toNat = n % 256 := by
      rw [UInt8.toNat_ofNat']
      omega
    have hrest : leValue (le w (n / 256)) = n / 256 % 256 ^ w := ih _
    calc leValue (le (w + 1) n)
        = (UInt8.ofNat (n % 256)).toNat + 256 * leValue (le w (n / 256)) := rfl
      _ = n % 256 + 256 * (n / 256 % 256 ^ w) := by rw [hbyte, hrest]
      _ = n % 256 ^ (w + 1) := by rw [Nat.pow_succ', Nat.mod_mul]

end FlyBoard.Reader
