import FlyBoard.Lib.Bytes
import FlyBoard.Lib.Scan

/-!
# The word matcher (`src/utils/aho_moderation.c`)

The lines of a rules text become the words of an automaton over code points: a trie,
failure links in breadth-first order, and at each state the words that end there. A byte
that starts no well-formed sequence counts as a code point of its own, beyond all others.
-/

namespace FlyBoard.AhoModeration

def maxRules : ℕ := 256

def maxStates : ℕ := 2048

def rulesMaxBytes : ℕ := 16384

/-- `fold_codepoint` -/
def foldCodepoint (cp : ℕ) (enabled : Bool) : ℕ :=
  if !enabled then cp
  else if 0x41 ≤ cp ∧ cp ≤ 0x5a then cp + 0x20
  else if 0xc0 ≤ cp ∧ cp ≤ 0xd6 ∨ 0xd8 ≤ cp ∧ cp ≤ 0xde then cp + 0x20
  else if 0x391 ≤ cp ∧ cp ≤ 0x3a1 ∨ 0x3a3 ≤ cp ∧ cp ≤ 0x3ab then cp + 0x20
  else if 0x400 ≤ cp ∧ cp ≤ 0x40f then cp + 0x50
  else if 0x410 ≤ cp ∧ cp ≤ 0x42f then cp + 0x20
  else cp

def cont (b : UInt8) : Bool := b &&& 0xc0 == 0x80

def low (b mask : UInt8) : ℕ := (b &&& mask).toNat

/-- `utf8_next`: the code point that starts with this byte, and what follows it. -/
def utf8Next (a : UInt8) (rest : Bytes) : ℕ × Bytes :=
  let malformed := (0x110000 + a.toNat, rest)
  if a < 0x80 then (a.toNat, rest)
  else if 0xc2 ≤ a ∧ a ≤ 0xdf then
    match rest with
    | b :: rest' =>
      if cont b then (low a 0x1f * 64 + low b 0x3f, rest') else malformed
    | _ => malformed
  else if 0xe0 ≤ a ∧ a ≤ 0xef then
    match rest with
    | b :: c :: rest' =>
      if cont b && cont c && !(a == 0xe0 && b < 0xa0) && !(a == 0xed && 0xa0 ≤ b) then
        ((low a 0x0f * 64 + low b 0x3f) * 64 + low c 0x3f, rest')
      else malformed
    | _ => malformed
  else if 0xf0 ≤ a ∧ a ≤ 0xf4 then
    match rest with
    | b :: c :: d :: rest' =>
      if cont b && cont c && cont d && !(a == 0xf0 && b < 0x90) && !(a == 0xf4 && 0x90 ≤ b) then
        (((low a 0x07 * 64 + low b 0x3f) * 64 + low c 0x3f) * 64 + low d 0x3f, rest')
      else malformed
    | _ => malformed
  else malformed

def next : Bytes → Option (ℕ × Bytes)
  | [] => none
  | a :: rest => some (utf8Next a rest)

def codepoints (s : Bytes) : List ℕ := (Scan.scan next s).1

/-- `valid_utf8` -/
def validUtf8 (s : Bytes) : Bool := (codepoints s).all (· < 0x110000)

/-- `aho_state_t` -/
structure State where
  edges : List (ℕ × ℕ)
  failure : ℕ
  outputs : List ℕ
deriving DecidableEq, Repr

/-- `struct aho_moderation` -/
structure Automaton where
  states : List State
  caseFold : Bool
deriving DecidableEq, Repr

def root : State := ⟨[], 0, []⟩

def stateAt (states : List State) (i : ℕ) : State := states.getD i root

def transition (states : List State) (state cp : ℕ) : Option ℕ :=
  ((stateAt states state).edges.find? fun e => e.1 == cp).map Prod.snd

def modifyState (states : List State) (i : ℕ) (f : State → State) : List State :=
  states.set i (f (stateAt states i))

/-- The walk along a word, which adds the states that are missing; it stops when there
would be too many. -/
def insertFrom (states : List State) (state : ℕ) : List ℕ → Option (ℕ × List State)
  | [] => some (state, states)
  | cp :: cps =>
    match transition states state cp with
    | some next => insertFrom states next cps
    | none =>
      if maxStates ≤ states.length then none
      else
        let added := modifyState (states ++ [root]) state fun s =>
          { s with edges := s.edges ++ [(cp, states.length)] }
        insertFrom added states.length cps

/-- The rules of a text: its lines, without a final carriage return, but for empty ones. -/
def ruleLines (rules : Bytes) : List Bytes :=
  ((rules.splitOn 10).map fun line =>
    if line.getLast? = some 13 then line.dropLast else line).filter (!·.isEmpty)

def addRule (caseFold : Bool) (acc : Option (List State × ℕ)) (line : Bytes) :
    Option (List State × ℕ) := do
  let (states, rule) ← acc
  if maxRules < rule + 1 || !validUtf8 line then none
  else
    let (state, states) ← insertFrom states 0 ((codepoints line).map (foldCodepoint · caseFold))
    some (modifyState states state fun s => { s with outputs := s.outputs ++ [rule] }, rule + 1)

/-- The state on the failure path of a state that can go on with the code point. -/
def failureFor (states : List State) (cp : ℕ) : ℕ → ℕ → ℕ
  | 0, f => f
  | fuel + 1, f =>
    if f ≠ 0 ∧ transition states f cp = none then
      failureFor states cp fuel (stateAt states f).failure
    else f

def linkChild (state : ℕ) (states : List State) (edge : ℕ × ℕ) : List State :=
  let failure := failureFor states edge.1 states.length (stateAt states state).failure
  let fallback := (transition states failure edge.1).getD 0
  modifyState states edge.2 fun s =>
    { s with failure := fallback, outputs := s.outputs ++ (stateAt states fallback).outputs }

def linkAll : ℕ → List ℕ → List State → List State
  | 0, _, states => states
  | _, [], states => states
  | fuel + 1, state :: queue, states =>
    let edges := (stateAt states state).edges
    linkAll fuel (queue ++ edges.map Prod.snd) (edges.foldl (linkChild state) states)

/-- `aho_moderation_build` -/
def build (rules : Bytes) (caseFold : Bool) : Option Automaton := do
  if rulesMaxBytes < rules.length then none
  else
    let (states, _) ← (ruleLines rules).foldl (addRule caseFold) (some ([root], 0))
    let queue := (stateAt states 0).edges.map Prod.snd
    some ⟨linkAll states.length queue states, caseFold⟩

def advance (states : List State) (state cp : ℕ) : ℕ :=
  (transition states (failureFor states cp states.length state) cp).getD 0

def searchFrom (a : Automaton) (matchLimit : ℕ) (state count : ℕ) : List ℕ → ℕ × Bool
  | [] => (count, false)
  | cp :: cps =>
    let state := advance a.states state (foldCodepoint cp a.caseFold)
    let count := count + (stateAt a.states state).outputs.length
    if matchLimit ≤ count then (matchLimit, true) else searchFrom a matchLimit state count cps

/-- `aho_moderation_search`: the number of matches, and whether the limit was reached. -/
def search (a : Automaton) (text : Bytes) (matchLimit : ℕ) : ℕ × Bool :=
  if matchLimit = 0 then (0, false) else searchFrom a matchLimit 0 0 (codepoints text)

example : (build (bytes "he\nshe\nhers\nhis") true).map (search · (bytes "ushers") 1024) =
    some (3, false) := by decide +kernel

example : (build (bytes "he\nshe\nhers\nhis") true).map (search · (bytes "ushers") 2) =
    some (2, true) := by decide +kernel

end FlyBoard.AhoModeration
