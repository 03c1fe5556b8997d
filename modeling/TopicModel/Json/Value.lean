import TopicModel.Json.Token

/-!
# JSON values

Values as trees, and how they are written: `Value.written` takes a `Layout`, which says what stands
before the parts of an array or object and after a colon. There are two layouts, without any blank
and with every part on a line of its own.
-/

namespace TopicModel.Json

/-- A JSON value. Members keep their order, and a name may come twice. -/
inductive Value where
  | null
  | boolean (value : Bool)
  | number (value : Number)
  | quoted (content : Quoted)
  | array (items : List Value)
  | object (members : List (Quoted × Value))

/-- Blanks that carry no meaning. -/
structure Layout where
  /-- What stands before a part and before a closing bracket, at a depth. -/
  lineBreak : Nat → Bytes
  /-- What stands between a colon and the value. -/
  afterColon : Bytes

def Layout.compact : Layout := ⟨fun _ => [], []⟩

/-- Every part on a line of its own, two spaces in for each depth. -/
def Layout.indented : Layout := ⟨fun depth => 0x0a :: List.replicate (2 * depth) 0x20, [0x20]⟩

namespace Value

mutual

def written (l : Layout) (depth : Nat) : Value → Bytes
  | null => Token.null.written
  | boolean b => (Token.boolean b).written
  | number n => (Token.number n).written
  | quoted q => (Token.quoted q).written
  | array [] => Token.openBracket.written ++ Token.closeBracket.written
  | array (v :: vs) =>
    Token.openBracket.written ++ l.lineBreak (depth + 1) ++ written l (depth + 1) v ++
      writtenItems l (depth + 1) vs ++ l.lineBreak depth ++ Token.closeBracket.written
  | object [] => Token.openBrace.written ++ Token.closeBrace.written
  | object (m :: ms) =>
    Token.openBrace.written ++ l.lineBreak (depth + 1) ++ writtenMember l (depth + 1) m ++
      writtenMembers l (depth + 1) ms ++ l.lineBreak depth ++ Token.closeBrace.written

/-- The items of an array after the first. -/
def writtenItems (l : Layout) (depth : Nat) : List Value → Bytes
  | [] => []
  | v :: vs =>
    Token.comma.written ++ l.lineBreak depth ++ written l depth v ++ writtenItems l depth vs

def writtenMember (l : Layout) (depth : Nat) : Quoted × Value → Bytes
  | (name, v) =>
    (Token.quoted name).written ++ Token.colon.written ++ l.afterColon ++ written l depth v

/-- The members of an object after the first. -/
def writtenMembers (l : Layout) (depth : Nat) : List (Quoted × Value) → Bytes
  | [] => []
  | m :: ms =>
    Token.comma.written ++ l.lineBreak depth ++ writtenMember l depth m ++
      writtenMembers l depth ms

end

/-! ## Parts of values -/

def record (fields : List (String × Value)) : Value :=
  object (fields.map fun (name, v) => (Quoted.ofText name, v))

def ofInt (n : Int) : Value := number (.ofInt n)

def ofNat (n : Nat) : Value := ofInt n

/-- A finite double; a value that is not finite has no literal and is null. -/
def ofFloat (x : Float) : Value := if x.isFinite then number (.ofFloat x) else null

def ofInts (ns : List Int) : Value := array (ns.map ofInt)

def ofNats (ns : List Nat) : Value := array (ns.map ofNat)

end Value

end TopicModel.Json
