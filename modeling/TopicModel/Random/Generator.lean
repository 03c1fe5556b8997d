import TopicModel.Error

/-!
# Random words

A `Generator` gives one 64-bit word after another; every random choice of the library is a function
of such words. `below` turns them into an index below `n`, each index equally likely on uniform
words: the upper half of `word * n` is taken as soon as the lower half falls into a zone that the
indices share evenly.
-/

namespace TopicModel

/-- A source of 64-bit words. -/
class Generator (γ : Type) where
  next : γ → UInt64 × γ

variable {γ : Type} [Generator γ]

/-- The largest lower half of `word * n` that is accepted: a multiple of `n`, less one. -/
def acceptedZone (n : Nat) : Nat := n <<< (63 - Nat.log2 n) - 1

/-- How often an index is drawn again at most. No run comes near it; a generator that stays outside
the zone for so long still yields an index in range. -/
def redrawLimit : Nat := 1 <<< 62

/-- Draws an index below `n` with at most `fuel` words refused. -/
def drawBelow (n : Nat) : Nat → γ → Nat × γ
  | 0, g =>
    let (word, g) := Generator.next g
    (word.toNat * n / UInt64.size, g)
  | fuel + 1, g =>
    let (word, g) := Generator.next g
    let product := word.toNat * n
    if product % UInt64.size ≤ acceptedZone n then (product / UInt64.size, g)
    else drawBelow n fuel g

/-- A uniform index below `n`; there is none below zero. -/
def below (n : Nat) (g : γ) : Except Fault (Nat × γ) :=
  if n = 0 then .error .emptyRange else .ok (drawBelow n redrawLimit g)

theorem drawBelow_lt {n : Nat} (h : 0 < n) (fuel : Nat) (g : γ) : (drawBelow n fuel g).1 < n := by
  have key (w : UInt64) : w.toNat * n / UInt64.size < n := by
    apply Nat.div_lt_of_lt_mul
    exact Nat.mul_lt_mul_of_pos_right w.toNat_lt h
  induction fuel generalizing g with
  | zero => exact key _
  | succ fuel ih =>
    simp only [drawBelow]
    split
    · exact key _
    · exact ih _

/-- A list of words followed by the words of another generator. -/
structure Scripted (γ : Type) where
  script : List UInt64
  rest : γ

instance : Generator (Scripted γ) where
  next
    | ⟨word :: script, rest⟩ => (word, ⟨script, rest⟩)
    | ⟨[], rest⟩ =>
      let (word, rest) := Generator.next rest
      (word, ⟨[], rest⟩)

end TopicModel
