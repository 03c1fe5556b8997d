import TopicModel.Text.Lines

/-!
# Quoted texts

The content of a JSON string, as far as a lexer can tell without looking at its meaning: bytes, and
the 16-bit units of numeric escapes. `Quoted.bytes?` joins surrogate pairs and refuses lone ones,
`Quoted.text?` also asks for valid UTF-8. A string that nobody reads may be neither.
-/

namespace TopicModel.Json

/-- A part of a string: a byte that stands for itself or was escaped, or a unit by its number. -/
inductive Piece where
  | byte (value : UInt8)
  | unit (value : Nat)
deriving DecidableEq, Repr

abbrev Quoted := List Piece

namespace Quoted

def ofText (text : String) : Quoted := (Text.encode text).map .byte

/-- Whether a unit is the first of a surrogate pair. -/
def isLeading (unit : Nat) : Bool := 0xd800 ≤ unit && unit < 0xdc00

def isTrailing (unit : Nat) : Bool := 0xdc00 ≤ unit && unit < 0xe000

def joined (leading trailing : Nat) : Char :=
  Char.ofNat (0x10000 + (leading - 0xd800) * 0x400 + (trailing - 0xdc00))

/-- The bytes of a content, its units encoded; none if a surrogate stands alone. -/
def bytes? : Quoted → Option Bytes
  | [] => some []
  | .byte b :: rest => (bytes? rest).map (b :: ·)
  | .unit u :: .unit v :: rest =>
    if isLeading u then
      if isTrailing v then (bytes? rest).map (String.utf8EncodeChar (joined u v) ++ ·) else none
    else if isTrailing u then none
    else (bytes? (.unit v :: rest)).map (String.utf8EncodeChar (Char.ofNat u) ++ ·)
  | .unit u :: rest =>
    if isLeading u || isTrailing u then none
    else (bytes? rest).map (String.utf8EncodeChar (Char.ofNat u) ++ ·)

def text? (q : Quoted) : Option String := q.bytes?.bind Text.decode?

end Quoted

end TopicModel.Json
