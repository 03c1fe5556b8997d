import TopicModel.Error

/-!
# Documents

A document is a bag of words: distinct word ids with their numbers of occurrence. `tokens` spells
the bag out, each word as often as it is counted, in the order of the list. `checkWords` accepts
exactly the bags whose two lists match, whose words lie in the vocabulary and whose counts are
positive.
-/

namespace TopicModel

/-- A document as a bag of words; `counts` holds the number of occurrences of each of `words`. -/
structure Document where
  id : Int
  words : List Nat
  counts : List Nat
deriving DecidableEq, Repr

namespace Document

def tokenCount (d : Document) : Nat := d.counts.foldr (· + ·) 0

/-- Whether the document has no token. -/
def isEmpty (d : Document) : Bool := d.tokenCount == 0

def entries (d : Document) : List (Nat × Nat) := d.words.zip d.counts

/-- The word of every token: each word repeated as often as it occurs. -/
def tokens (d : Document) : List Nat :=
  d.entries.flatMap fun (word, count) => List.replicate count word

/-- The first `limit` tokens, without spelling out the others. -/
def firstTokens (d : Document) (limit : Nat) : List Nat :=
  go limit d.entries
where
  go : Nat → List (Nat × Nat) → List Nat
    | _, [] => []
    | limit, (word, count) :: rest =>
      List.replicate (min limit count) word ++ go (limit - count) rest

/-- The first fault among the entries: a word outside the vocabulary, else a zero count. -/
def checkEntries {α : Type} (id : Int) (vocSize : Nat) : List (Nat × Nat) → Except (Error α) Unit
  | [] => .ok ()
  | (word, count) :: rest =>
    if vocSize ≤ word then .error (.wordOutOfRange id word vocSize)
    else if count = 0 then .error (.zeroCount id word)
    else checkEntries id vocSize rest

/-- Checks a document against a vocabulary of `vocSize` words. -/
def checkWords {α : Type} (d : Document) (vocSize : Nat) : Except (Error α) Unit :=
  if d.words.length ≠ d.counts.length then
    .error (.lengthMismatch d.id d.words.length d.counts.length)
  else checkEntries d.id vocSize d.entries

theorem firstTokens_eq_take (d : Document) (limit : Nat) :
    d.firstTokens limit = d.tokens.take limit := by
  unfold firstTokens tokens
  induction d.entries generalizing limit with
  | nil => simp [firstTokens.go]
  | cons e rest ih =>
    obtain ⟨word, count⟩ := e
    simp [firstTokens.go, ih, List.take_append, List.take_replicate]

end Document

end TopicModel
