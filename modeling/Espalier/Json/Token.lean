/-
The tokens of a JSON text: how each is spelled, and how a text is cut into them.

The text is read one character at a time.  A character at a time is enough because
a token ends either with its own last character or before one that cannot go on
with it.
-/
import Espalier.Json.Value

namespace Espalier.Json

/-- A token of a JSON text. -/
inductive Token where
  | beginArray
  | endArray
  | beginObject
  | endObject
  | comma
  | colon
  | null
  | bool (value : Bool)
  | number (literal : String)
  | string (text : Option String)
deriving DecidableEq, Repr, Inhabited

/-! ### Spelling -/

/-- A digit of a hexadecimal number, in lower case. -/
def hexDigit (n : Nat) : Char :=
  Nat.digitChar (n % 16)

/-- A character inside a string.  Only the quote mark, the backslash and the
control characters are escaped. -/
def escape (c : Char) : List Char :=
  if c = '"' then ['\\', '"']
  else if c = '\\' then ['\\', '\\']
  else if c = '\x08' then ['\\', 'b']
  else if c = '\t' then ['\\', 't']
  else if c = '\n' then ['\\', 'n']
  else if c = '\x0c' then ['\\', 'f']
  else if c = '\r' then ['\\', 'r']
  else if c.toNat < 0x20 then
    ['\\', 'u', '0', '0', hexDigit (c.toNat / 16), hexDigit c.toNat]
  else [c]

/-- A string literal.  One that spells no text is a lone half of a surrogate
pair. -/
def spellString : Option String → List Char
  | some text => '"' :: (text.toList.flatMap escape ++ ['"'])
  | none => "\"\\ud800\"".toList

/-- A token as it is written. -/
def Token.spell : Token → List Char
  | .beginArray => ['[']
  | .endArray => [']']
  | .beginObject => ['{']
  | .endObject => ['}']
  | .comma => [',']
  | .colon => [':']
  | .null => "null".toList
  | .bool true => "true".toList
  | .bool false => "false".toList
  | .number literal => literal.toList
  | .string text => spellString text

/-! ### Words: numbers and names without quotes -/

/-- The end of a number: nothing, or an exponent. -/
def isExponentPart : List Char → Bool
  | [] => true
  | c :: cs =>
      let digits :=
        match cs with
        | '+' :: rest => rest
        | '-' :: rest => rest
        | rest => rest
      (c == 'e' || c == 'E') && !digits.isEmpty && digits.all (·.isDigit)

/-- What may follow the digits before the point of a number. -/
def isFractionPart : List Char → Bool
  | '.' :: cs =>
      (cs.head?.any (·.isDigit)) && isExponentPart (cs.dropWhile (·.isDigit))
  | cs => isExponentPart cs

/-- A number without a sign.  It does not begin with a zero, unless that is all
there is before the point. -/
def isUnsignedNumber : List Char → Bool
  | '0' :: cs => isFractionPart cs
  | c :: cs => c.isDigit && isFractionPart (cs.dropWhile (·.isDigit))
  | [] => false

def isNumber : List Char → Bool
  | '-' :: cs => isUnsignedNumber cs
  | cs => isUnsignedNumber cs

/-- The token that a word is. -/
def wordToken? (word : String) : Option Token :=
  if word = "null" then some .null
  else if word = "true" then some (.bool true)
  else if word = "false" then some (.bool false)
  else if isNumber word.toList then some (.number word)
  else none

/-! ### Strings -/

/-- Where a scan stands inside an escape sequence. -/
inductive Escape where
  | outside
  /-- Behind the backslash. -/
  | letter
  /-- Behind `\u` and some hexadecimal digits: their number and their value. -/
  | digits (count value : Nat)
deriving DecidableEq, Repr, Inhabited

/-- A scan through a string: the text so far, unless it is spoilt, and the first
half of a surrogate pair that waits for its second. -/
structure StringScan where
  text : Option String := some ""
  half : Option Nat := none
  escape : Escape := .outside
deriving DecidableEq, Repr, Inhabited

def isHighSurrogate (unit : Nat) : Bool :=
  0xD800 ≤ unit && unit ≤ 0xDBFF

def isLowSurrogate (unit : Nat) : Bool :=
  0xDC00 ≤ unit && unit ≤ 0xDFFF

/-- The value of a hexadecimal digit of either case. -/
def hexValue? (c : Char) : Option Nat :=
  if c.isDigit then some (c.toNat - '0'.toNat)
  else if 'a' ≤ c ∧ c ≤ 'f' then some (c.toNat - 'a'.toNat + 10)
  else if 'A' ≤ c ∧ c ≤ 'F' then some (c.toNat - 'A'.toNat + 10)
  else none

namespace StringScan

/-- Take a character in.  Half a pair that still waits spoils the text. -/
def push (scan : StringScan) (c : Char) : StringScan :=
  { text := if scan.half.isNone then scan.text.map (·.push c) else none }

/-- Take a 16-bit unit in that four hexadecimal digits wrote. -/
def pushUnit (scan : StringScan) (unit : Nat) : StringScan :=
  match scan.half with
  | some high =>
      if isLowSurrogate unit then
        let code := 0x10000 + (high - 0xD800) * 0x400 + (unit - 0xDC00)
        { text := scan.text.map (·.push (Char.ofNat code)) }
      else { text := none }
  | none =>
      if isHighSurrogate unit then { text := scan.text, half := some unit }
      else if isLowSurrogate unit then { text := none }
      else { text := scan.text.map (·.push (Char.ofNat unit)) }

/-- Read a character behind a backslash. -/
def feedLetter (scan : StringScan) (c : Char) : Option StringScan :=
  if c = '"' ∨ c = '\\' ∨ c = '/' then some (scan.push c)
  else if c = 'b' then some (scan.push '\x08')
  else if c = 'f' then some (scan.push '\x0c')
  else if c = 'n' then some (scan.push '\n')
  else if c = 'r' then some (scan.push '\r')
  else if c = 't' then some (scan.push '\t')
  else if c = 'u' then some { scan with escape := .digits 0 0 }
  else none

/-- Read a character that is not the closing quote mark. -/
def feed (scan : StringScan) (c : Char) : Option StringScan :=
  match scan.escape with
  | .outside =>
      if c = '\\' then some { scan with escape := .letter }
      else if c.toNat < 0x20 then none
      else some (scan.push c)
  | .letter => scan.feedLetter c
  | .digits count value => do
      let digit ← hexValue? c
      let value := value * 16 + digit
      if count = 3 then return scan.pushUnit value
      else return { scan with escape := .digits (count + 1) value }

/-- The text at the end of the string. -/
def finish (scan : StringScan) : Option String :=
  if scan.half.isNone then scan.text else none

end StringScan

/-! ### Texts -/

/-- The token that a scan is reading. -/
inductive Lexeme where
  /-- Between tokens. -/
  | gap
  | word (word : String)
  | string (scan : StringScan)
deriving DecidableEq, Repr, Inhabited

/-- A scan through a JSON text. -/
structure TokenScan where
  lexeme : Lexeme := .gap
  tokens : Array Token := #[]
deriving DecidableEq, Repr, Inhabited

/-- The four characters that may stand between tokens. -/
def isSpace (c : Char) : Bool :=
  c == ' ' || c == '\t' || c == '\n' || c == '\r'

/-- The token that one character is. -/
def mark? (c : Char) : Option Token :=
  if c = '[' then some .beginArray
  else if c = ']' then some .endArray
  else if c = '{' then some .beginObject
  else if c = '}' then some .endObject
  else if c = ',' then some .comma
  else if c = ':' then some .colon
  else none

namespace TokenScan

/-- Read a character between tokens. -/
def feedGap (tokens : Array Token) (c : Char) : TokenScan :=
  if isSpace c then { tokens }
  else if c = '"' then { lexeme := .string {}, tokens }
  else
    match mark? c with
    | some token => { tokens := tokens.push token }
    | none => { lexeme := .word (String.singleton c), tokens }

/-- Whether a character ends a word. -/
def endsWord (c : Char) : Bool :=
  isSpace c || c == '"' || (mark? c).isSome

/-- Read a character. -/
def feed (scan : TokenScan) (c : Char) : Option TokenScan :=
  match scan.lexeme with
  | .gap => some (feedGap scan.tokens c)
  | .word word =>
      if endsWord c then do
        let token ← wordToken? word
        return feedGap (scan.tokens.push token) c
      else some { scan with lexeme := .word (word.push c) }
  | .string inner =>
      if c = '"' ∧ inner.escape = .outside then
        some { tokens := scan.tokens.push (.string inner.finish) }
      else do
        let inner ← inner.feed c
        return { scan with lexeme := .string inner }

/-- The tokens at the end of the text.  The end may end a word, but no string. -/
def finish (scan : TokenScan) : Option (List Token) :=
  match scan.lexeme with
  | .gap => some scan.tokens.toList
  | .word word => do
      let token ← wordToken? word
      return (scan.tokens.push token).toList
  | .string _ => none

end TokenScan

/-- Cut a text into tokens; `none` when it is not made of tokens. -/
def tokens? (text : List Char) : Option (List Token) := do
  let scan ← text.foldlM TokenScan.feed {}
  scan.finish

end Espalier.Json
