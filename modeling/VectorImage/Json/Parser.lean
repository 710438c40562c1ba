import VectorImage.Input.Text
import VectorImage.Json.Basic
import VectorImage.Number.Decimal

/-!
The JSON grammar. Only the four JSON blanks separate tokens; numbers have no leading zeros;
strings hold no control characters; a surrogate escape that is not half of a pair leaves its
string without a text.
-/

set_option autoImplicit false
set_option relaxedAutoImplicit false

namespace VectorImage

namespace Json

open TextScan

/-- Take exactly this text. -/
def literal (text : List Char) : TextScan Unit := do
  if !(← acceptText text) then fault

/-- At least one digit. -/
def digits : TextScan (List Char) := do
  let ds ← Parser.takeWhile isDigit
  if ds.isEmpty then fault
  return ds

/-- Digits without a superfluous leading zero. -/
def wholeDigits : TextScan (List Char) := do
  let ds ← digits
  if ds.head? = some '0' && ds.length != 1 then fault
  return ds

def fraction : TextScan (Option (List Char)) := do
  if ← accept '.' then some <$> digits else return none

/-- The exponent: whether it is negative, and its digits. -/
def exponent : TextScan (Option (Bool × List Char)) := do
  let e ← accept 'e'
  let e ← if e then pure true else accept 'E'
  if !e then return none
  let negative ← accept '-'
  if !negative then
    let _ ← accept '+'
  let ds ← digits
  return some (negative, ds)

def numeral : TextScan Numeral := do
  let negative ← accept '-'
  let whole ← wholeDigits
  let fraction ← fraction
  let exponent ← exponent
  return ⟨negative, whole, fraction, exponent⟩

/-- The four hexadecimal digits of an escape. -/
def codeUnit : TextScan Nat := do
  let cs ← Parser.takeExactly 4 fun _ => ()
  match cs.mapM hexDigit? with
  | some ds => return ds.foldl (fun n d => 16 * n + d) 0
  | none => fault

def isLeadSurrogate (unit : Nat) : Bool := 0xd800 ≤ unit && unit < 0xdc00

def isTrailSurrogate (unit : Nat) : Bool := 0xdc00 ≤ unit && unit < 0xe000

/-- The characters of one escape letter. -/
def simpleEscape? : Char → Option Char
  | '"' => some '"'
  | '\\' => some '\\'
  | '/' => some '/'
  | 'b' => some '\x08'
  | 'f' => some '\x0c'
  | 'n' => some '\n'
  | 'r' => some '\r'
  | 't' => some '\t'
  | _ => none

/-- What a string holds so far: its characters in reverse, unless some escape stands for none,
the first half of a pair that waits for the second, and whether the closing quote has come. -/
structure Content where
  reversed : Option (List Char)
  lead : Option Nat
  closed : Bool

namespace Content

def empty : Content := ⟨some [], none, false⟩

/-- A first half that no second half followed stands for nothing. -/
def settle (c : Content) : Content :=
  match c.lead with
  | none => c
  | some _ => { c with reversed := none, lead := none }

def push (c : Content) (ch : Char) : Content :=
  let c := c.settle
  { c with reversed := c.reversed.map (ch :: ·) }

/-- Add the code unit of an escape. -/
def pushUnit (c : Content) (unit : Nat) : Content :=
  match c.lead with
  | some high =>
    if isTrailSurrogate unit then
      let ch := Char.ofNat (0x10000 + (high - 0xd800) * 1024 + (unit - 0xdc00))
      { c with reversed := c.reversed.map (ch :: ·), lead := none }
    else if isLeadSurrogate unit then { c with reversed := none, lead := some unit }
    else c.push (Char.ofNat unit)
  | none =>
    if isLeadSurrogate unit then { c with lead := some unit }
    else if isTrailSurrogate unit then { c with reversed := none }
    else c.push (Char.ofNat unit)

def text (c : Content) : Option String :=
  c.settle.reversed.map fun cs => String.ofList cs.reverse

end Content

/-- Take one character or escape of a string, or its closing quote. -/
def stringStep (c : Content) : TextScan (Option Content) := do
  if c.closed then return none
  match ← Parser.next? with
  | none => fault
  | some '"' => return some { c with closed := true }
  | some '\\' =>
    match ← Parser.next? with
    | none => fault
    | some 'u' => return some (c.pushUnit (← codeUnit))
    | some e =>
      match simpleEscape? e with
      | some ch => return some (c.push ch)
      | none => fault
  | some ch => if ch.toNat < 0x20 then fault else return some (c.push ch)

/-- A string after its opening quote. -/
def stringBody : TextScan (Option String) := do
  let c ← Parser.iterate stringStep Content.empty
  return c.text

/-- The items of a bracketed list after its opening bracket: in reverse, and whether the closing
bracket has come. -/
def items {α : Type} (item : TextScan α) (close : Char) : TextScan (List α) := do
  skipBlanks
  if ← accept close then return []
  let first ← item
  let (reversed, _) ← Parser.iterate (fun (s : List α × Bool) => do
    if s.2 then return none
    skipBlanks
    if ← accept close then return some (s.1, true)
    if !(← accept ',') then fault
    skipBlanks
    let next ← item
    return some (next :: s.1, false)) ([first], false)
  return reversed.reverse

/-- A field of an object, whose value `value` reads. -/
def field {α : Type} (value : TextScan α) : TextScan (Option String × α) := do
  if !(← accept '"') then fault
  let name ← stringBody
  skipBlanks
  if !(← accept ':') then fault
  let v ← value
  return (name, v)

/-- A value nested less deep than the fuel. -/
def value : Nat → TextScan Json
  | 0 => fault
  | fuel + 1 => do
    skipBlanks
    match ← Parser.peek? with
    | some 'n' =>
      literal ['n', 'u', 'l', 'l']
      return .null
    | some 't' =>
      literal ['t', 'r', 'u', 'e']
      return .bool true
    | some 'f' =>
      literal ['f', 'a', 'l', 's', 'e']
      return .bool false
    | some '"' =>
      let _ ← Parser.next?
      return .string (← stringBody)
    | some '[' =>
      let _ ← Parser.next?
      return .array (← items (value fuel) ']')
    | some '\x7b' =>
      let _ ← Parser.next?
      return .object (← items (field (value fuel)) '\x7d')
    | _ => return .number (← numeral)

/-- A value with nothing but blanks around it. Every level of nesting takes a character, so the
length of the text bounds the depth. -/
def document (length : Nat) : TextScan Json := do
  let v ← value (length + 1)
  skipBlanks
  return v

/-- Read a JSON text. -/
def ofText? (text : String) : Option Json :=
  (document text.toList.length).whole? text.toList

end Json

end VectorImage
