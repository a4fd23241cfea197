import FlyBoard.Lib.Bytes

/-!
# What crosses the wire between two sites

Sites exchange JSON documents that cJSON prints on one side and parses on the other.
cJSON is a parameter here (`CJson`): what the sources rely on is that it reads back the
objects it printed. The numbers of a document are doubles, so an integer arrives
rounded to 53 significant bits (`doubleOfInt`).

A payload is stored as text, sent as a parsed value and stored as text again on the
other side. `servePayload` and `receivePayload` are the two ends; `received` is their
composition.
-/

namespace FlyBoard.Wire

open Bytes

/-- cJSON over the values `J` that it parses. -/
structure CJson (J : Type*) where
  /-- `cJSON_Parse`. -/
  parse : Bytes → Option J
  /-- `cJSON_PrintUnformatted`. -/
  print : J → Bytes
  /-- `cJSON_IsObject`. -/
  isObject : J → Bool
  /-- `cJSON_CreateObject`. -/
  emptyObject : J
  isObject_emptyObject : isObject emptyObject = true
  print_ne_nil : ∀ v, isObject v = true → print v ≠ []
  parse_print : ∀ v, isObject v = true → parse (print v) = some v

/-- The double nearest to a natural number, ties to even. -/
def toDouble (n : Nat) : Nat :=
  let unit := 2 ^ (n.log2 - 52)
  let q := n / unit
  let r := n % unit
  (if unit < 2 * r ∨ 2 * r = unit ∧ q % 2 = 1 then q + 1 else q) * unit

theorem toDouble_of_lt {n : Nat} (h : n < 2 ^ 53) : toDouble n = n := by
  have hlog : n.log2 - 52 = 0 := by
    rcases Nat.eq_zero_or_pos n with rfl | hpos
    · rfl
    · have hlt : n.log2 < 53 := (Nat.log2_lt (Nat.ne_of_gt hpos)).mpr h
      omega
  simp [toDouble, hlog, Nat.mod_one]

theorem toDouble_le {n k : Nat} (h : n < 2 ^ k) : toDouble n ≤ 2 ^ k := by
  rcases Nat.eq_zero_or_pos n with rfl | hpos
  · exact Nat.zero_le _
  · have hlog : n.log2 < k := (Nat.log2_lt (Nat.ne_of_gt hpos)).mpr h
    -- the quotient of 53 bits can only round up to its own power of two
    have hsplit : 2 ^ k = 2 ^ (k - (n.log2 - 52)) * 2 ^ (n.log2 - 52) := by
      rw [← Nat.pow_add]
      congr 1
      omega
    have hq : n / 2 ^ (n.log2 - 52) < 2 ^ (k - (n.log2 - 52)) := by
      rw [Nat.div_lt_iff_lt_mul (Nat.two_pow_pos _), ← hsplit]
      exact h
    rw [toDouble, hsplit]
    apply Nat.mul_le_mul_right
    split
    · exact hq
    · exact Nat.le_of_lt hq

def doubleOfInt (n : Int) : Int := n.sign * toDouble n.natAbs

theorem doubleOfInt_of_lt {n : Int} (h : n.natAbs < 2 ^ 53) : doubleOfInt n = n := by
  rw [doubleOfInt, toDouble_of_lt h]
  exact Int.sign_mul_natAbs n

section Payload

variable {J : Type*} (cjson : CJson J)

/-- The payload member of a served row: the stored text parsed, or an empty object when
there is no text or cJSON does not take it. -/
def servePayload (payload : Bytes) : J :=
  if payload.isEmpty then cjson.emptyObject
  else (cjson.parse payload).getD cjson.emptyObject

/-- The payload text that a received row is stored with: the member printed when it is an
object, else nothing. -/
def receivePayload (v : J) : Bytes := if cjson.isObject v then cjson.print v else []

def received (payload : Bytes) : Bytes := receivePayload cjson (servePayload cjson payload)

/-- A payload survives exactly when it is the text that cJSON prints for some object. -/
theorem received_eq_iff {payload : Bytes} :
    received cjson payload = payload ↔
      ∃ v, cjson.isObject v = true ∧ cjson.print v = payload := by
  constructor
  · intro h
    rw [received, receivePayload] at h
    split at h
    · rename_i hobj
      exact ⟨_, hobj, h⟩
    · -- nothing is stored, so nothing was sent, and that is served as an object
      rename_i hobj
      subst h
      exact absurd cjson.isObject_emptyObject hobj
  · rintro ⟨v, hobj, rfl⟩
    have hne : (cjson.print v).isEmpty = false := by
      simpa using cjson.print_ne_nil v hobj
    simp [received, receivePayload, servePayload, hne, cjson.parse_print v hobj, hobj]

end Payload

/-! ## An instance -/

/-- A text that begins with `{` and ends with `}`. -/
def isBraced (s : Bytes) : Bool := s.head? == some 123 && s.getLast? == some 125

/-- The objects cJSON printed, each as the text it printed: on those texts, and on texts
that are no object, it does what cJSON does. -/
def printedObjects : CJson { s : Bytes // isBraced s = true } where
  parse s := if h : isBraced s = true then some ⟨s, h⟩ else none
  print v := v.val
  isObject _ := true
  emptyObject := ⟨[123, 125], rfl⟩
  isObject_emptyObject := rfl
  print_ne_nil := by
    intro v _ hnil
    have hbraced := v.property
    rw [hnil] at hbraced
    exact absurd hbraced (by decide)
  parse_print := by
    intro v _
    exact dif_pos v.property

end FlyBoard.Wire
