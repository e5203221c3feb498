import Nessus.Lib.Utf8
import Nessus.Parser.Json

/-!
# `Json::Reader`

The reader with the features of `strictMode`, on the bytes of a document.  A pointer into the document is what is left of
it from there; behind the end is the NUL of `c_str()`.  The values that `nodes_` points to are passed along, and the
conversion of a text to a `double` is a parameter.

* `readToken` — the tokens;
* `decodeString`, `decodeNumber` — what the text of a token stands for;
* `readValue`, `readObject`, `readItems` — the descent, with a bound on the calls and rounds one in another;
* `parse` — a whole document.
-/

namespace Nessus.Parser.Reader

open Nessus.Lib Nessus.Abi

/-- `Json::Value` with the bytes of its strings.  The members of an object stand in the order of their keys. -/
inductive Value where
  | null
  | int (i : Int64)
  | uint (u : UInt64)
  | real (q : ℚ)
  | string (s : List UInt8)
  | bool (b : Bool)
  | array (items : List Value)
  | object (members : List (List UInt8 × Value))

/-- `Reader::Location`: what is left of the document from there. -/
abbrev Location := List UInt8

/-! ## Tokens -/

inductive TokenType where
  | endOfStream
  | objectBegin
  | objectEnd
  | arrayBegin
  | arrayEnd
  | string
  | number
  | true
  | false
  | null
  | arraySeparator
  | memberSeparator
  | comment
  | error
  deriving DecidableEq, Repr

structure Token where
  type : TokenType
  start : Location
  stop : Location
  deriving DecidableEq

/-- The characters from `start_` to `end_`. -/
def Token.text (token : Token) : List UInt8 := token.start.take (token.start.length - token.stop.length)

def getNextChar : Location → Char × Location
  | [] => ('\x00', [])
  | c :: rest => (charOf c, rest)

/-- `*current_`. -/
def peek (current : Location) : Char := (getNextChar current).1

def skipSpaces : Location → Location
  | [] => []
  | c :: rest =>
    if charOf c = ' ' ∨ charOf c = '\t' ∨ charOf c = '\r' ∨ charOf c = '\n' then skipSpaces rest else c :: rest

/-- `Reader::match`. -/
def matchPattern (pattern : List Char) (current : Location) : Bool × Location :=
  if pattern.length ≤ current.length ∧ (current.take pattern.length).map charOf = pattern then
    (true, current.drop pattern.length)
  else (false, current)

def readCStyleComment : Location → Bool × Location
  | [] => (false, [])
  | c :: rest => if charOf c = '*' ∧ peek rest = '/' then (true, rest.tail) else readCStyleComment rest

/-- `Reader::readCppStyleComment`, which returns true. -/
def readCppStyleComment : Location → Location
  | [] => []
  | c :: rest =>
    if charOf c = '\n' then rest
    else if charOf c = '\r' then if peek rest = '\n' then rest.tail else rest
    else readCppStyleComment rest

/-- `Reader::readComment`, after the slash. -/
def readComment (current : Location) : Bool × Location :=
  match getNextChar current with
  | ('*', rest) => readCStyleComment rest
  | ('/', rest) => (true, readCppStyleComment rest)
  | (_, rest) => (false, rest)

/-- The digits at a pointer are skipped. -/
def skipDigits (current : Location) : Location := current.dropWhile fun c => (charOf c).isDigit

/-- `Reader::readNumber`, after the first character. -/
def readNumber (current : Location) : Location :=
  let integral := skipDigits current
  let fractional := if peek integral = '.' then skipDigits integral.tail else integral
  if peek fractional = 'e' ∨ peek fractional = 'E' then
    let exponent := fractional.tail
    skipDigits (if peek exponent = '+' ∨ peek exponent = '-' then exponent.tail else exponent)
  else fractional

/-- `Reader::readString`, after the first quote: at the end of the document the last character is no quote. -/
def readString : Location → Bool × Location
  | [] => (false, [])
  | c :: rest =>
    if charOf c = '\\' then
      match rest with
      | [] => (false, [])
      | _ :: rest => readString rest
    else if charOf c = '"' then (true, rest)
    else readString rest

/-- The token of that type, if `ok`. -/
def Token.checked (type : TokenType) (start : Location) (r : Bool × Location) : Token :=
  ⟨if r.1 then type else .error, start, r.2⟩

/-- `Reader::readToken`, which returns true. -/
def readToken (current : Location) : Token :=
  let start := skipSpaces current
  let (c, rest) := getNextChar start
  match c with
  | '{' => ⟨.objectBegin, start, rest⟩
  | '}' => ⟨.objectEnd, start, rest⟩
  | '[' => ⟨.arrayBegin, start, rest⟩
  | ']' => ⟨.arrayEnd, start, rest⟩
  | '"' => .checked .string start (readString rest)
  | '/' => .checked .comment start (readComment rest)
  | '-' => ⟨.number, start, readNumber rest⟩
  | 't' => .checked .true start (matchPattern ['r', 'u', 'e'] rest)
  | 'f' => .checked .false start (matchPattern ['a', 'l', 's', 'e'] rest)
  | 'n' => .checked .null start (matchPattern ['u', 'l', 'l'] rest)
  | ',' => ⟨.arraySeparator, start, rest⟩
  | ':' => ⟨.memberSeparator, start, rest⟩
  | '\x00' => ⟨.endOfStream, start, rest⟩
  | c => if c.isDigit then ⟨.number, start, readNumber rest⟩ else ⟨.error, start, rest⟩

/-! ## Errors -/

structure ErrorInfo where
  token : Token
  message : List UInt8
  extra : Option Location
  deriving DecidableEq

/-- A `std::string` made of a literal. -/
def text (s : String) : List UInt8 := utf8 s.toList

/-! ## Strings -/

def codePointToUTF8 (cp : ℕ) : List UInt8 :=
  if cp ≤ 0x7f then [.ofNat cp]
  else if cp ≤ 0x7FF then [.ofNat (0xC0 ||| (0x1f &&& cp >>> 6)), .ofNat (0x80 ||| (0x3f &&& cp))]
  else if cp ≤ 0xFFFF then
    [.ofNat (0xE0 ||| (0xf &&& cp >>> 12)), .ofNat (0x80 ||| (0x3f &&& cp >>> 6)), .ofNat (0x80 ||| (0x3f &&& cp))]
  else if cp ≤ 0x10FFFF then
    [.ofNat (0xF0 ||| (0x7 &&& cp >>> 18)), .ofNat (0x80 ||| (0x3f &&& cp >>> 12)),
      .ofNat (0x80 ||| (0x3f &&& cp >>> 6)), .ofNat (0x80 ||| (0x3f &&& cp))]
  else []

/-- The value of a hexadecimal digit. -/
def hexDigit (c : UInt8) : Option ℕ :=
  if '0' ≤ charOf c ∧ charOf c ≤ '9' then some (c.toNat - '0'.toNat)
  else if 'a' ≤ charOf c ∧ charOf c ≤ 'f' then some (c.toNat - 'a'.toNat + 10)
  else if 'A' ≤ charOf c ∧ charOf c ≤ 'F' then some (c.toNat - 'A'.toNat + 10)
  else none

/-- What a part of `decodeString` comes to, where `current` is what is left before the closing quote: a value and the new
`current`, or the message of the error and its `current`. -/
abbrev Decoded (α : Type) := Except (String × List UInt8) (α × List UInt8)

/-- The loop of `decodeUnicodeEscapeSequence`; there are characters enough. -/
def decodeHexDigits : ℕ → ℕ → List UInt8 → Decoded ℕ
  | 0, unicode, current => .ok (unicode, current)
  | _ + 1, _, [] => .error ("Bad unicode escape sequence in string: four digits expected.", [])
  | index + 1, unicode, c :: current =>
    match hexDigit c with
    | some digit => decodeHexDigits index (unicode * 16 + digit) current
    | none => .error ("Bad unicode escape sequence in string: hexadecimal digit expected.", current)

def decodeUnicodeEscapeSequence (current : List UInt8) : Decoded ℕ :=
  if current.length < 4 then .error ("Bad unicode escape sequence in string: four digits expected.", current)
  else decodeHexDigits 4 0 current

/-- The message of `decodeUnicodeCodePoint` when no second half follows. -/
def secondHalfExpected : String :=
  "expecting another \\u token to begin the second half of a unicode surrogate pair"

/-- `Reader::decodeUnicodeCodePoint`.  The second half of a pair may be any escape. -/
def decodeUnicodeCodePoint (current : List UInt8) : Decoded ℕ :=
  match decodeUnicodeEscapeSequence current with
  | .error e => .error e
  | .ok (unicode, current) =>
    if 0xD800 ≤ unicode ∧ unicode ≤ 0xDBFF then
      if current.length < 6 then
        .error ("additional six characters expected to parse unicode surrogate pair.", current)
      else if peek current ≠ '\\' then .error (secondHalfExpected, current.tail)
      else if peek current.tail ≠ 'u' then .error (secondHalfExpected, current.tail.tail)
      else
        match decodeUnicodeEscapeSequence current.tail.tail with
        | .error e => .error e
        | .ok (surrogatePair, current) =>
          .ok (0x10000 + (unicode &&& 0x3FF) <<< 10 + (surrogatePair &&& 0x3FF), current)
    else .ok (unicode, current)

/-- An escape sequence of `decodeString`, after the backslash: the bytes it stands for. -/
def decodeEscape : List UInt8 → Decoded (List UInt8)
  | [] => .error ("Empty escape sequence in string", [])
  | escape :: current =>
    match charOf escape with
    | '"' => .ok ([byteOf '"'], current)
    | '/' => .ok ([byteOf '/'], current)
    | '\\' => .ok ([byteOf '\\'], current)
    | 'b' => .ok ([8], current)
    | 'f' => .ok ([12], current)
    | 'n' => .ok ([byteOf '\n'], current)
    | 'r' => .ok ([byteOf '\r'], current)
    | 't' => .ok ([byteOf '\t'], current)
    | 'u' =>
      match decodeUnicodeCodePoint current with
      | .error e => .error e
      | .ok (unicode, current) => .ok (codePointToUTF8 unicode, current)
    | _ => .error ("Bad escape sequence in string", current)

/-- The loop of `decodeString`, with a bound on its rounds: each uses up a character. -/
def decodeChars : ℕ → List UInt8 → List UInt8 → Decoded (List UInt8)
  | 0, decoded, current => .ok (decoded, current)
  | _ + 1, decoded, [] => .ok (decoded, [])
  | n + 1, decoded, c :: current =>
    if charOf c = '"' then .ok (decoded, current)
    else if charOf c = '\\' then
      match decodeEscape current with
      | .error e => .error e
      | .ok (bytes, current) => decodeChars n (decoded ++ bytes) current
    else decodeChars n (decoded ++ [c]) current

def decodeString (token : Token) : Except ErrorInfo (List UInt8) :=
  let characters := (token.text.drop 1).dropLast
  match decodeChars characters.length [] characters with
  | .error (message, current) =>
    .error ⟨token, text message, some (current ++ token.start.drop (token.text.length - 1))⟩
  | .ok (decoded, _) => .ok decoded

/-! ## Numbers -/

/-- The loop of `decodeNumber`: the digits as an integer, or `none` where the number is left to `decodeDouble`. -/
def decodeDigits (maxIntegerValue : ℕ) : ℕ → List UInt8 → Option ℕ
  | value, [] => some value
  | value, c :: current =>
    if (charOf c).isDigit then
      let digit := c.toNat - '0'.toNat
      let threshold := maxIntegerValue / 10
      if value ≥ threshold ∧ (value > threshold ∨ current ≠ [] ∨ digit > maxIntegerValue % 10) then none
      else decodeDigits maxIntegerValue (value * 10 + digit) current
    else none

/-- `Value::maxLargestInt` and `Value::maxLargestUInt`. -/
def maxLargestInt : ℕ := 2 ^ 63 - 1
def maxLargestUInt : ℕ := 2 ^ 64 - 1

/-- `Reader::decodeDouble`, where `toDouble` is `>>` of an `istringstream`. -/
def decodeDouble (toDouble : List UInt8 → Option ℚ) (token : Token) : Except ErrorInfo Value :=
  match toDouble token.text with
  | some value => .ok (.real value)
  | none => .error ⟨token, text "'" ++ token.text ++ text "' is not a number.", none⟩

def decodeNumber (toDouble : List UInt8 → Option ℚ) (token : Token) : Except ErrorInfo Value :=
  if peek token.text = '-' then
    match decodeDigits (maxLargestInt + 1) 0 token.text.tail with
    | some value => .ok (.int (if value = maxLargestInt + 1 then Int64.minValue else -Int64.ofNat value))
    | none => decodeDouble toDouble token
  else
    match decodeDigits maxLargestUInt 0 token.text with
    | some value => .ok (if (value : ℤ) ≤ maxInt then .int (Int64.ofNat value) else .uint (UInt64.ofNat value))
    | none => decodeDouble toDouble token

/-! ## Values -/

/-- The key of a member: `CZString` keeps 30 bits of the length. -/
def czString (name : List UInt8) : List UInt8 := name.take (name.length &&& 0x3FFFFFFF)

/-- `currentValue()[name] = value`: the members are in the order of their keys. -/
def insertMember (key : List UInt8) (value : Value) : List (List UInt8 × Value) → List (List UInt8 × Value)
  | [] => [(key, value)]
  | (k, v) :: members =>
    if key = k then (k, value) :: members
    else if key < k then (key, value) :: (k, v) :: members
    else (k, v) :: insertMember key value members

/-- The variables of a reader, and `stackDepth_g`. -/
structure State where
  current : Location
  errors : List ErrorInfo
  stackDepth : ℕ
  deriving DecidableEq

abbrev Read (α : Type) := Eff State Exn α

/-- A loop that does not end has no defined behaviour. -/
def Read.undefined {α : Type} : Read α := fun s => (s, .undefined)

/-- `stackLimit_g`. -/
def stackLimit : ℕ := 1000

/-- `throwRuntimeError`. -/
def runtimeError (message : String) : Exn := .std .jsonRuntimeError message

/-- The check at the beginning of `readValue`, and `++stackDepth_g`. -/
def enter : Read Unit := fun s =>
  if stackLimit ≤ s.stackDepth then (s, .thrown (runtimeError "Exceeded stackLimit in readValue()."))
  else ({ s with stackDepth := s.stackDepth + 1 }, .ok ())

/-- `--stackDepth_g` at the end of `readValue`. -/
def leave {α : Type} (x : Read α) : Read α :=
  x >>= fun r => Eff.modify (fun s => { s with stackDepth := s.stackDepth - 1 }) >>= fun _ => pure r

/-- `readToken(token)`. -/
def nextToken : Read Token := fun s =>
  let token := readToken s.current
  ({ s with current := token.stop }, .ok token)

/-- `while (token.type_ == tokenComment) readToken(token)`. -/
def pastComments : ℕ → Token → Option Token
  | 0, _ => none
  | n + 1, token => if token.type = .comment then pastComments n (readToken token.stop) else some token

/-- `readToken(token)`, and again while it is a comment. -/
def nextTokenPastComments : Read Token := fun s =>
  match pastComments (s.current.length + 1) (readToken s.current) with
  | some token => ({ s with current := token.stop }, .ok token)
  | none => (s, .undefined)

def addError (error : ErrorInfo) : Read Unit := Eff.modify fun s => { s with errors := s.errors ++ [error] }

/-- The loop of `recoverFromError`. -/
def skipUntil (type : TokenType) : ℕ → Location → Option Location
  | 0, _ => none
  | n + 1, current =>
    let skip := readToken current
    if skip.type = type ∨ skip.type = .endOfStream then some skip.stop else skipUntil type n skip.stop

/-- `recoverFromError`: `readToken` adds no error and returns true, so the errors are as before. -/
def recoverFromError (skipUntilToken : TokenType) : Read Unit := fun s =>
  match skipUntil skipUntilToken (s.current.length + 1) s.current with
  | some current => ({ s with current := current }, .ok ())
  | none => (s, .undefined)

def addErrorAndRecover (message : String) (token : Token) (skipUntilToken : TokenType) : Read Unit :=
  addError ⟨token, text message, none⟩ >>= fun _ => recoverFromError skipUntilToken

/-- `Value(const std::string&)`: `duplicateAndPrefixStringValue` makes room for the length, which is an `unsigned`, the
bytes and a NUL. -/
def stringValue (s : List UInt8) : Read Value :=
  let length : ℕ := s.length % 2 ^ 32
  if (length : ℤ) ≤ maxInt - 4 - 1 then pure (.string (s.take length))
  else Eff.throw (logicError "in Json::Value::duplicateAndPrefixStringValue(): length too big for prefixing")

/-- The new value, or the error and the value as it was. -/
def decoded {α : Type} (currentValue : Value) (r : Except ErrorInfo α) (newValue : α → Read Value) :
    Read (Value × Bool) :=
  match r with
  | .ok a => newValue a >>= fun value => pure (value, true)
  | .error e => addError e >>= fun _ => pure (currentValue, false)

section Descent

variable (toDouble : List UInt8 → Option ℚ)

/-- `Reader::readValue` after the token: what becomes of the current value, and what is returned. -/
def readTyped (readObject readArray : Read (Value × Bool)) (currentValue : Value) (token : Token) :
    Read (Value × Bool) :=
  match token.type with
  | .objectBegin => leave readObject
  | .arrayBegin => leave readArray
  | .number => leave (decoded currentValue (decodeNumber toDouble token) pure)
  | .string => leave (decoded currentValue (decodeString token) stringValue)
  | .true => leave (pure (.bool true, true))
  | .false => leave (pure (.bool false, true))
  | .null => leave (pure (.null, true))
  | _ =>
    -- the depth stays as it is
    addError ⟨token, text "Syntax error: value, object or array expected.", none⟩ >>= fun _ =>
    pure (currentValue, false)

/-- `Reader::readArray` before its loop. -/
def readArray (readItems : Read (Value × Bool)) : Read (Value × Bool) :=
  Eff.modify (fun s => { s with current := skipSpaces s.current }) >>= fun _ =>
  Eff.get >>= fun s =>
  if peek s.current = ']' then nextToken >>= fun _ => pure (.array [], true) else readItems

/-- A round of `Reader::readObject` up to the colon. -/
def readName (members : List (List UInt8 × Value)) (tokenName : Token) (readMember : List UInt8 → Read (Value × Bool)) :
    Read (Value × Bool) :=
  match decodeString tokenName with
  | .error e => addError e >>= fun _ => recoverFromError .objectEnd >>= fun _ => pure (.object members, false)
  | .ok name =>
    nextToken >>= fun colon =>
    if colon.type ≠ .memberSeparator then
      addErrorAndRecover "Missing ':' after object member name" colon .objectEnd >>= fun _ =>
      pure (.object members, false)
    else readMember name

/-- The rest of the round, where `readValue` has returned `ok`.  After a comment any token goes for a comma. -/
def endMember (members : List (List UInt8 × Value)) (ok : Bool) (readObject : Read (Value × Bool)) :
    Read (Value × Bool) :=
  if ok then
    nextToken >>= fun comma =>
    if comma.type ≠ .objectEnd ∧ comma.type ≠ .arraySeparator ∧ comma.type ≠ .comment then
      addErrorAndRecover "Missing ',' or '\x7d' in object declaration" comma .objectEnd >>= fun _ =>
      pure (.object members, false)
    else
      (if comma.type = .comment then nextTokenPastComments else pure comma) >>= fun comma =>
      if comma.type = .objectEnd then pure (.object members, true) else readObject
  else recoverFromError .objectEnd >>= fun _ => pure (.object members, false)

/-- The rest of a round of `Reader::readArray`, where `readValue` has returned `ok`. -/
def endItem (items : List Value) (ok : Bool) (readItems : Read (Value × Bool)) : Read (Value × Bool) :=
  if ok then
    nextTokenPastComments >>= fun token =>
    if token.type ≠ .arraySeparator ∧ token.type ≠ .arrayEnd then
      addErrorAndRecover "Missing ',' or ']' in array declaration" token .arrayEnd >>= fun _ =>
      pure (.array items, false)
    else if token.type = .arrayEnd then pure (.array items, true)
    else readItems
  else recoverFromError .arrayEnd >>= fun _ => pure (.array items, false)

mutual

def readValue : ℕ → Value → Read (Value × Bool)
  | 0, _ => Read.undefined
  | n + 1, currentValue =>
    enter >>= fun _ => nextToken >>= fun token =>
    readTyped toDouble (readObject n [] []) (readArray (readItems n [])) currentValue token
termination_by structural n => n

/-- The loop of `Reader::readObject`, with the last name and the members. -/
def readObject : ℕ → List UInt8 → List (List UInt8 × Value) → Read (Value × Bool)
  | 0, _, _ => Read.undefined
  | n + 1, name, members =>
    nextTokenPastComments >>= fun tokenName =>
    -- also after a comma, if the last name is empty
    if tokenName.type = .objectEnd ∧ name = [] then pure (.object members, true)
    else if tokenName.type = .string then
      readName members tokenName fun name =>
      readValue n ((members.lookup (czString name)).getD .null) >>= fun r =>
      let members := insertMember (czString name) r.1 members
      endMember members r.2 (readObject n name members)
    else
      addErrorAndRecover "Missing '\x7d' or object member name" tokenName .objectEnd >>= fun _ =>
      pure (.object members, false)
termination_by structural n => n

/-- The loop of `Reader::readArray`, with the items; `index++` is undefined past the greatest `int`. -/
def readItems : ℕ → List Value → Read (Value × Bool)
  | 0, _ => Read.undefined
  | n + 1, items =>
    if maxInt ≤ items.length then Read.undefined
    else
      readValue n .null >>= fun r =>
      endItem (items ++ [r.1]) r.2 (readItems n (items ++ [r.1]))
termination_by structural n => n

end

/-! ## Documents -/

/-- `isArray() || isObject()`. -/
def Value.isContainer : Value → Bool
  | .array _ => true
  | .object _ => true
  | _ => false

/-- `Reader::parse`, where the root is null before.  What comes after the root is read up to the end of one token. -/
def parseDocument (document : List UInt8) : Read (Value × Bool) :=
  readValue toDouble (2 * document.length + 1) .null >>= fun r =>
  nextToken >>= fun _ =>
  if r.1.isContainer then pure r
  else
    addError ⟨⟨.error, document, []⟩, text "A valid JSON document must be either an array or an object value.", none⟩
      >>= fun _ => pure (r.1, false)

/-- A document is parsed: the root, what `parse` returns, and the errors. -/
def parse (document : List UInt8) : Outcome Exn (Value × Bool × List ErrorInfo) :=
  match parseDocument toDouble document ⟨document, [], 0⟩ with
  | (s, .ok (root, successful)) => .ok (root, successful, s.errors)
  | (_, .thrown e) => .thrown e
  | (_, .terminated) => .terminated
  | (_, .undefined) => .undefined

end Descent

end Nessus.Parser.Reader
