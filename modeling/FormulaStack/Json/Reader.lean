import FormulaStack.Fault
import FormulaStack.Json.Numeral

/-!
Reading JSON texts. A fault says whether the text stops too early, is not JSON, or holds other data
than expected; the first fault from the left counts.
-/
namespace FormulaStack.Json

/-- What is left to read, and a fault or a result. -/
abbrev Reader := StateT (List Char) (Except JsonFault)

/-- White space between tokens. -/
def isGap (c : Char) : Bool := c == ' ' || c == '\n' || c == '\t' || c == '\r'

/-- Skips white space; the next character, if there is one, stays. -/
def peek : Reader (Option Char) := do
  modify (·.dropWhile isGap)
  return (← get).head?

/-- Takes the next character. -/
def next (onEnd : JsonFault) : Reader Char := do
  match ← get with
  | [] => throw onEnd
  | c :: rest =>
    set rest
    return c

def drop : Reader Unit := modify (·.drop 1)

/-- Takes a text that must follow. -/
def exactly : List Char → Reader Unit
  | [] => return ()
  | c :: cs => do
    if (← next .ended) ≠ c then throw .malformed
    exactly cs

/-- Takes the characters of a class. -/
def takeWhile (p : Char → Bool) : Reader (List Char) := do
  let cs ← get
  set (cs.dropWhile p)
  return cs.takeWhile p

def hexValue? (c : Char) : Option Nat :=
  if c.isDigit then some (c.toNat - '0'.toNat)
  else if 'a' ≤ c ∧ c ≤ 'f' then some (c.toNat - 'a'.toNat + 10)
  else if 'A' ≤ c ∧ c ≤ 'F' then some (c.toNat - 'A'.toNat + 10)
  else none

/-- Four hexadecimal digits. With fewer than four bytes left the text has ended. -/
def unit16 : Reader Nat := do
  let cs := (← get).take 4
  if (cs.map Char.utf8Size).foldl (· + ·) 0 < 4 then throw .ended
  match cs.mapM hexValue? with
  | some ds =>
    modify (·.drop 4)
    return Text.ofDigits 16 ds
  | none => throw .malformed

/-- The character of one or two UTF-16 units; a half of a pair alone is refused. -/
def escapedUnits : Reader Char := do
  let high ← unit16
  if 0xDC00 ≤ high ∧ high ≤ 0xDFFF then throw .malformed
  if high < 0xD800 ∨ 0xDFFF < high then return Char.ofNat high
  if (← next .ended) ≠ '\\' then throw .malformed
  if (← next .ended) ≠ 'u' then throw .malformed
  let low ← unit16
  if low < 0xDC00 ∨ 0xDFFF < low then throw .malformed
  return Char.ofNat ((high - 0xD800) * 0x400 + (low - 0xDC00) + 0x10000)

/-- The character that a backslash and a letter stand for. -/
def escaped? : Char → Option Char
  | '"' => some '"'
  | '\\' => some '\\'
  | '/' => some '/'
  | 'b' => some '\x08'
  | 'f' => some '\x0c'
  | 'n' => some '\n'
  | 'r' => some '\r'
  | 't' => some '\t'
  | _ => none

/-- The rest of a string behind its opening quote. A string that is skipped may hold halves of
pairs. The fuel is the length of the text. -/
def stringFrom (skip : Bool) : (fuel : Nat) → (done : List Char) → Reader (List Char)
  | 0, _ => throw .ended
  | fuel + 1, done => do
    match ← next .ended with
    | '"' => return done.reverse
    | '\\' =>
      match ← next .ended with
      | 'u' =>
        if skip then
          let _ ← unit16
          stringFrom skip fuel done
        else
          stringFrom skip fuel ((← escapedUnits) :: done)
      | c =>
        match escaped? c with
        | some c => stringFrom skip fuel (c :: done)
        | none => throw .malformed
    | c => if c < ' ' then throw .malformed else stringFrom skip fuel (c :: done)

/-- The rest of a string. -/
def string : Reader String := do
  return String.ofList (← stringFrom false (← get).length [])

def skipString : Reader Unit := do
  let _ ← stringFrom true (← get).length []

/-- What is expected next, with the fault if the text has ended. -/
def expect (c : Char) : Reader Unit := do
  match ← peek with
  | some d => if d = c then drop else throw .malformed
  | none => throw .ended

/-- At least one digit. -/
def digits (onEnd : JsonFault) : Reader (List Char) := do
  let ds ← takeWhile Char.isDigit
  if ds.isEmpty then
    let _ ← next onEnd
    throw .malformed
  return ds

/-- A number behind its sign. `onEnd` is the fault for a text that ends inside of it. -/
def numeral (onEnd : JsonFault) : Reader Numeral := do
  let whole ← digits onEnd
  if whole.head? = some '0' ∧ whole.length > 1 then throw .malformed
  let fraction ←
    if (← get).head? = some '.' then do
      drop
      digits onEnd
    else pure []
  if (← get).head? = some 'e' ∨ (← get).head? = some 'E' then
    drop
    let negative := (← get).head? = some '-'
    if negative ∨ (← get).head? = some '+' then drop
    let n := (Text.natural? (← digits onEnd)).getD 0
    return ⟨whole, fraction, some (if negative then -n else n)⟩
  return ⟨whole, fraction, none⟩

/-- A scalar, or the opening of a list or an object, which is left where it is. -/
inductive Token where
  | null
  | bool (value : Bool)
  | word (value : Nat)
  /-- Any other number. -/
  | number
  | string (value : String)
  | list
  | object
  deriving DecidableEq

/-- A number that is to be read; a huge one is refused. -/
def number (negative : Bool) : Reader Token := do
  let n ← numeral .ended
  if n.isHuge then throw .malformed
  match n.word? with
  | some k => return if negative then .number else .word k
  | none => return .number

def token : Reader Token := do
  match ← peek with
  | none => throw .ended
  | some 'n' =>
    drop
    exactly ['u', 'l', 'l']
    return .null
  | some 't' =>
    drop
    exactly ['r', 'u', 'e']
    return .bool true
  | some 'f' =>
    drop
    exactly ['a', 'l', 's', 'e']
    return .bool false
  | some '-' =>
    drop
    number true
  | some '"' =>
    drop
    return .string (← string)
  | some '[' => return .list
  | some '{' => return .object
  | some c => if c.isDigit then number false else throw .malformed

/-- Skips a value of any shape. The fuel exceeds the length of the text. -/
def skipFrom : (fuel : Nat) → Reader Unit
  | 0 => throw .ended
  | fuel + 1 => do
    match ← peek with
    | none => throw .ended
    | some 'n' =>
      drop
      exactly ['u', 'l', 'l']
    | some 't' =>
      drop
      exactly ['r', 'u', 'e']
    | some 'f' =>
      drop
      exactly ['a', 'l', 's', 'e']
    | some '-' =>
      drop
      let _ ← numeral .malformed
    | some '"' =>
      drop
      skipString
    | some '[' =>
      drop
      if (← peek) = some ']' then drop else items fuel fuel
    | some '{' =>
      drop
      if (← peek) = some '}' then drop else members fuel fuel
    | some c =>
      if c.isDigit then
        let _ ← numeral .malformed
      else throw .malformed
where
  /-- The values of a list up to its end. -/
  items (fuel : Nat) : (count : Nat) → Reader Unit
    | 0 => throw .ended
    | count + 1 => do
      skipFrom fuel
      if ← another ']' then items fuel count
  /-- The members of an object up to its end. -/
  members (fuel : Nat) : (count : Nat) → Reader Unit
    | 0 => throw .ended
    | count + 1 => do
      expect '"'
      skipString
      expect ':'
      skipFrom fuel
      if ← another '}' then members fuel count
  /-- Whether a comma follows, and not the closing bracket. -/
  another (close : Char) : Reader Bool := do
    match ← peek with
    | some ',' =>
      drop
      return true
    | some c => if c = close then drop; return false else throw .malformed
    | none => throw .ended

def skip : Reader Unit := do
  skipFrom ((← get).length + 1)

/-- Reads a whole text. -/
def read (r : Reader α) (text : String) : Except JsonFault α := do
  let (a, rest) ← r text.toList
  if (rest.dropWhile isGap).isEmpty then return a else throw .malformed

end FormulaStack.Json
