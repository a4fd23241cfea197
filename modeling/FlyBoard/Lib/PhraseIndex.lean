import Mathlib.Data.List.Basic

/-!
# Phrases in tokenized text

A tokenizer emits the tokens of a text in order; a token is `colocated` when it stands at
the place of the one before it. So a text is a list of places, each with its tokens, and a
phrase is one, too: of a phrase the tokens of one place are alternatives. A phrase occurs
where its places are found one after the other.
-/

namespace FlyBoard.PhraseIndex

variable {τ : Type*}

structure Token (τ : Type*) where
  text : τ
  colocated : Bool
deriving DecidableEq

/-- A token in front of the places, at the first of them when that is `shared`. -/
def put (w : τ) (shared : Bool) : List (List τ) → List (List τ)
  | [] => [[w]]
  | q :: qs => if shared then (w :: q) :: qs else [w] :: q :: qs

def places : List (Token τ) → List (List τ)
  | [] => []
  | t :: ts => put t.text ((ts.head?.map Token.colocated).getD false) (places ts)

section Occurs

variable [DecidableEq τ]

def begins : List (List τ) → List (List τ) → Bool
  | [], _ => true
  | _ :: _, [] => false
  | q :: qs, d :: ds => q.any (· ∈ d) && begins qs ds

def occurs (phrase text : List (List τ)) : Bool := text.tails.any (begins phrase)

end Occurs

end FlyBoard.PhraseIndex
