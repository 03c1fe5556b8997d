import TopicModel.Json.Token

/-!
# From bytes to tokens

The lexer takes one byte at a time. `Pending` is the lexeme it stands in; `Lexer.feed` takes a byte
or refuses it; `lex?` is the fold over all bytes. Literals and words are collected as runs and
looked at when the run ends.
-/

namespace TopicModel.Json

/-- The lexeme that the last bytes belong to. What it collects is kept latest first. -/
inductive Pending where
  | between
  | bare (run : List UInt8)
  | inQuotes (pieces : List Piece)
  | escape (pieces : List Piece)
  /-- Inside a numeric escape, with so many digits to come and a value so far. -/
  | unit (pieces : List Piece) (missing value : Nat)

/-- The lexemes so far, latest first, and the one that is pending. -/
structure Lexer where
  tokens : List Token := []
  pending : Pending := .between

def isBlank (b : UInt8) : Bool := b == 0x20 || b == 0x0a || b == 0x0d || b == 0x09

def isBare (b : UInt8) : Bool :=
  (0x30 ≤ b && b ≤ 0x39) || (0x61 ≤ b && b ≤ 0x7a) || (0x41 ≤ b && b ≤ 0x5a) ||
    b == 0x2b || b == 0x2d || b == 0x2e

def punctuation? : UInt8 → Option Token
  | 0x7b => some .openBrace
  | 0x7d => some .closeBrace
  | 0x5b => some .openBracket
  | 0x5d => some .closeBracket
  | 0x3a => some .colon
  | 0x2c => some .comma
  | _ => none

/-- The lexeme of a run of bare bytes: one of the three words, or a number. -/
def word? (run : List Char) : Option Token :=
  if run = ['n', 'u', 'l', 'l'] then some .null
  else if run = ['t', 'r', 'u', 'e'] then some (.boolean true)
  else if run = ['f', 'a', 'l', 's', 'e'] then some (.boolean false)
  else (Number.parse? run).map .number

/-- What a byte after a backslash stands for, numeric escapes aside. -/
def escaped? : UInt8 → Option UInt8
  | 0x22 => some 0x22
  | 0x5c => some 0x5c
  | 0x2f => some 0x2f
  | 0x62 => some 0x08
  | 0x66 => some 0x0c
  | 0x6e => some 0x0a
  | 0x72 => some 0x0d
  | 0x74 => some 0x09
  | _ => none

def hexValue? (b : UInt8) : Option Nat :=
  if 0x30 ≤ b ∧ b ≤ 0x39 then some (b.toNat - 0x30)
  else if 0x61 ≤ b ∧ b ≤ 0x66 then some (b.toNat - 0x57)
  else if 0x41 ≤ b ∧ b ≤ 0x46 then some (b.toNat - 0x37)
  else none

namespace Lexer

def push (l : Lexer) (t : Token) : Lexer := { tokens := t :: l.tokens }

/-- The first byte of a lexeme, or a blank. -/
def start (l : Lexer) (b : UInt8) : Option Lexer :=
  if isBlank b then some l
  else if b = quote then some { l with pending := .inQuotes [] }
  else if isBare b then some { l with pending := .bare [b] }
  else (punctuation? b).map l.push

def endBare (l : Lexer) (run : List UInt8) : Option Lexer :=
  (word? (run.reverse.map Char.ofUInt8)).map l.push

def feed (l : Lexer) (b : UInt8) : Option Lexer :=
  match l.pending with
  | .between => l.start b
  | .bare run =>
    if isBare b then some { l with pending := .bare (b :: run) }
    else do
      let l ← l.endBare run
      l.start b
  | .inQuotes pieces =>
    if b = quote then some (l.push (.quoted pieces.reverse))
    else if b = backslash then some { l with pending := .escape pieces }
    else if b < 0x20 then none
    else some { l with pending := .inQuotes (.byte b :: pieces) }
  | .escape pieces =>
    if b = 'u'.toUInt8 then some { l with pending := .unit pieces 4 0 }
    else (escaped? b).map fun c => { l with pending := .inQuotes (.byte c :: pieces) }
  | .unit pieces missing value => do
    let digit ← hexValue? b
    let value := 16 * value + digit
    if missing = 1 then some { l with pending := .inQuotes (.unit value :: pieces) }
    else some { l with pending := .unit pieces (missing - 1) value }

def finish (l : Lexer) : Option (List Token) :=
  match l.pending with
  | .between => some l.tokens.reverse
  | .bare run => (l.endBare run).map fun l => l.tokens.reverse
  | _ => none

end Lexer

def lex? (bytes : Bytes) : Option (List Token) :=
  (bytes.foldlM Lexer.feed {}).bind Lexer.finish

end TopicModel.Json
