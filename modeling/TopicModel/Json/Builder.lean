import TopicModel.Json.Lexer
import TopicModel.Json.Value

/-!
# From tokens to values

The builder takes one token at a time. It holds the arrays and objects that are open, innermost
first, and what it waits for; `Value.ofTokens?` is the fold over all tokens. The nesting may be as
deep as it likes.
-/

namespace TopicModel.Json

/-- An array or object that is open, its parts so far latest first. -/
inductive Frame where
  | array (items : List Value)
  | object (members : List (Quoted × Value))
  /-- An object with a name whose value is awaited. -/
  | member (members : List (Quoted × Value)) (name : Quoted)

/-- What may come next. -/
inductive Awaited where
  | value
  /-- The first item of an array, or its end. -/
  | firstItem
  /-- The first name of an object, or its end. -/
  | firstName
  | name
  | colon (name : Quoted)
  /-- A comma, or the end of what is open. -/
  | separator
  /-- Nothing: the value is complete. -/
  | nothing (value : Value)

/-- The open arrays and objects, innermost first, and what may come next. -/
structure Builder where
  frames : List Frame := []
  awaited : Awaited := .value

namespace Builder

def complete (v : Value) : List Frame → Option Builder
  | [] => some ⟨[], .nothing v⟩
  | .array items :: rest => some ⟨.array (v :: items) :: rest, .separator⟩
  | .member members name :: rest => some ⟨.object ((name, v) :: members) :: rest, .separator⟩
  | .object _ :: _ => none

/-- The first token of a value. -/
def begin (frames : List Frame) : Token → Option Builder
  | .null => complete .null frames
  | .boolean b => complete (.boolean b) frames
  | .number n => complete (.number n) frames
  | .quoted q => complete (.quoted q) frames
  | .openBracket => some ⟨.array [] :: frames, .firstItem⟩
  | .openBrace => some ⟨.object [] :: frames, .firstName⟩
  | _ => none

def closeArray : List Frame → Option Builder
  | .array items :: rest => complete (.array items.reverse) rest
  | _ => none

def closeObject : List Frame → Option Builder
  | .object members :: rest => complete (.object members.reverse) rest
  | _ => none

/-- What follows a comma. -/
def next : List Frame → Option Builder
  | frames@(.array _ :: _) => some ⟨frames, .value⟩
  | frames@(.object _ :: _) => some ⟨frames, .name⟩
  | _ => none

def openMember (name : Quoted) : List Frame → Option Builder
  | .object members :: rest => some ⟨.member members name :: rest, .value⟩
  | _ => none

def feed (b : Builder) (t : Token) : Option Builder :=
  match b.awaited, t with
  | .firstItem, .closeBracket => closeArray b.frames
  | .firstItem, t | .value, t => begin b.frames t
  | .firstName, .closeBrace => closeObject b.frames
  | .firstName, .quoted name | .name, .quoted name => some { b with awaited := .colon name }
  | .colon name, .colon => openMember name b.frames
  | .separator, .comma => next b.frames
  | .separator, .closeBracket => closeArray b.frames
  | .separator, .closeBrace => closeObject b.frames
  | _, _ => none

def finish (b : Builder) : Option Value :=
  match b.awaited with
  | .nothing v => some v
  | _ => none

end Builder

def Value.ofTokens? (ts : List Token) : Option Value :=
  (ts.foldlM Builder.feed {}).bind Builder.finish

def Value.parse? (bytes : Bytes) : Option Value := (lex? bytes).bind Value.ofTokens?

end TopicModel.Json
