import TopicModel.Json.Number
import TopicModel.Json.Quoted

/-!
# Tokens

The lexemes of JSON and how they are written.
-/

namespace TopicModel.Json

/-- A lexeme. -/
inductive Token where
  | openBrace
  | closeBrace
  | openBracket
  | closeBracket
  | colon
  | comma
  | null
  | boolean (value : Bool)
  | number (value : Number)
  | quoted (content : Quoted)
deriving DecidableEq, Repr

def ascii (cs : List Char) : Bytes := cs.map Char.toUInt8

@[match_pattern] def quote : UInt8 := 0x22

@[match_pattern] def backslash : UInt8 := 0x5c

def hexDigit (n : Nat) : UInt8 := (Nat.digitChar (n % 16)).toUInt8

def Piece.written : Piece → Bytes
  | .byte b => if b = quote ∨ b = backslash then [backslash, b] else [b]
  | .unit u =>
    [backslash, 'u'.toUInt8, hexDigit (u / 0x1000), hexDigit (u / 0x100), hexDigit (u / 0x10),
      hexDigit u]

def Token.written : Token → Bytes
  | .openBrace => ['{'.toUInt8]
  | .closeBrace => ['}'.toUInt8]
  | .openBracket => ['['.toUInt8]
  | .closeBracket => [']'.toUInt8]
  | .colon => [':'.toUInt8]
  | .comma => [','.toUInt8]
  | .null => ascii ['n', 'u', 'l', 'l']
  | .boolean true => ascii ['t', 'r', 'u', 'e']
  | .boolean false => ascii ['f', 'a', 'l', 's', 'e']
  | .number n => ascii n.text
  | .quoted content => quote :: content.flatMap Piece.written ++ [quote]

end TopicModel.Json
