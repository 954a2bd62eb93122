/-!
# Tokens of JSON texts

A text is cut into tokens by a machine that reads it once, a character at a time, and holds only
what the token under way needs: so reading ends with the text, and needs no look-ahead.

* Blanks are the space, the tab and the two line ends.
* A run of characters that are neither blank, punctuation nor quote is a *word*. It is judged as a
  whole when it ends: `null`, `true`, `false`, a number, or nothing at all.
* A string is a run of *pieces*: characters and 16-bit units from `\u` escapes. When the string
  ends, pairs of units are joined; a unit that has no partner leaves the string without a text.
-/

namespace WordLang.Json

/-- A token of a JSON text. -/
inductive Token where
  | openArray
  | closeArray
  | openObject
  | closeObject
  | comma
  | colon
  | null
  | bool (value : Bool)
  | int (value : Int)
  /-- a number that is not written as an integer -/
  | otherNumber
  /-- a string, with its text if its escapes spell one -/
  | str (text : Option String)
deriving DecidableEq

/-! ## Words -/

/-- A decimal digit. -/
def isDigit (c : Char) : Bool :=
  '0' ≤ c && c ≤ '9'

/-- The number that decimal digits spell. -/
def digitsValue (digits : List Char) : Nat :=
  digits.foldl (fun value c => 10 * value + (c.toNat - '0'.toNat)) 0

/-- A whole part: one digit, or several of which the first is not zero. -/
def isWholePart : List Char → Bool
  | [] => false
  | [_] => true
  | first :: _ => first != '0'

/-- An exponent with its mark and sign, or nothing. -/
def isExponent : List Char → Bool
  | [] => true
  | mark :: rest =>
    let digits :=
      match rest with
      | '+' :: digits => digits
      | '-' :: digits => digits
      | digits => digits
    (mark == 'e' || mark == 'E') && ! digits.isEmpty && digits.all isDigit

/-- A fraction, an exponent, both or nothing. -/
def isFraction : List Char → Bool
  | '.' :: rest => ! (rest.takeWhile isDigit).isEmpty && isExponent (rest.dropWhile isDigit)
  | rest => isExponent rest

/-- The token of a number without its sign. Negative zero is not an integer. -/
def unsigned? (negative : Bool) (word : List Char) : Option Token :=
  let digits := word.takeWhile isDigit
  let rest := word.dropWhile isDigit
  if isWholePart digits && isFraction rest then
    if rest.isEmpty && ! (negative && digits == ['0']) then
      let value : Int := digitsValue digits
      some (.int (if negative then -value else value))
    else some .otherNumber
  else none

/-- The token that a word spells. -/
def Token.ofWord? (word : List Char) : Option Token :=
  if word = "null".toList then some .null
  else if word = "true".toList then some (.bool true)
  else if word = "false".toList then some (.bool false)
  else
    match word with
    | '-' :: rest => unsigned? true rest
    | rest => unsigned? false rest

/-! ## Strings -/

/-- A part of a string: a character, or a 16-bit unit from an escape. -/
inductive Piece where
  | char (c : Char)
  | unit (value : Nat)

/-- A unit that opens a pair. -/
def isHighUnit (value : Nat) : Bool :=
  0xD800 ≤ value && value < 0xDC00

/-- A unit that closes a pair. -/
def isLowUnit (value : Nat) : Bool :=
  0xDC00 ≤ value && value < 0xE000

/-- The characters that the pieces spell, if every unit of a pair has its partner. -/
def joinPieces : List Piece → Option (List Char)
  | [] => some []
  | .char c :: rest => (joinPieces rest).map (c :: ·)
  | .unit high :: .unit low :: rest =>
    if isHighUnit high then
      if isLowUnit low then
        (joinPieces rest).map
          (Char.ofNat (0x10000 + (high - 0xD800) * 0x400 + (low - 0xDC00)) :: ·)
      else none
    else if isLowUnit high then none
    else (joinPieces (.unit low :: rest)).map (Char.ofNat high :: ·)
  | .unit value :: rest =>
    if isHighUnit value || isLowUnit value then none
    else (joinPieces rest).map (Char.ofNat value :: ·)

/-- The character that a one-letter escape stands for. -/
def escape? : Char → Option Char
  | '"' => some '"'
  | '\\' => some '\\'
  | '/' => some '/'
  | 'b' => some (Char.ofNat 8)
  | 'f' => some (Char.ofNat 12)
  | 'n' => some '\n'
  | 'r' => some '\r'
  | 't' => some '\t'
  | _ => none

/-- The value of a hexadecimal digit. -/
def hexDigit? (c : Char) : Option Nat :=
  if isDigit c then some (c.toNat - '0'.toNat)
  else if 'a' ≤ c && c ≤ 'f' then some (c.toNat - 'a'.toNat + 10)
  else if 'A' ≤ c && c ≤ 'F' then some (c.toNat - 'A'.toNat + 10)
  else none

/-! ## The machine -/

/-- What is being read. Characters, pieces and digits are kept with the newest first. -/
inductive Mode where
  | between
  | word (chars : List Char)
  | text (pieces : List Piece)
  | escape (pieces : List Piece)
  | hex (pieces : List Piece) (digits : List Nat)

/-- The state of the machine: what is being read, and the tokens so far, the newest first. -/
structure Lexer where
  mode : Mode := .between
  tokens : List Token := []

/-- A blank. -/
def isBlankChar (c : Char) : Bool :=
  c == ' ' || c == '\t' || c == '\n' || c == '\r'

/-- The token of a punctuation character. -/
def punctuation? : Char → Option Token
  | '[' => some .openArray
  | ']' => some .closeArray
  | '\x7b' => some .openObject
  | '\x7d' => some .closeObject
  | ',' => some .comma
  | ':' => some .colon
  | _ => none

namespace Lexer

/-- A character outside every token. -/
def between (tokens : List Token) (c : Char) : Lexer :=
  if isBlankChar c then { tokens }
  else if c = '"' then { mode := .text [], tokens }
  else
    match punctuation? c with
    | some token => { tokens := token :: tokens }
    | none => { mode := .word [c], tokens }

/-- Whether a character ends a word. -/
def endsWord (c : Char) : Bool :=
  isBlankChar c || c = '"' || (punctuation? c).isSome

/-- Reads one character. -/
def step (lexer : Lexer) (c : Char) : Option Lexer :=
  match lexer.mode with
  | .between => some (between lexer.tokens c)
  | .word chars =>
    if endsWord c then do
      let token ← Token.ofWord? chars.reverse
      some (between (token :: lexer.tokens) c)
    else some { lexer with mode := .word (c :: chars) }
  | .text pieces =>
    if c = '"' then
      let text := (joinPieces pieces.reverse).map String.ofList
      some { tokens := .str text :: lexer.tokens }
    else if c = '\\' then some { lexer with mode := .escape pieces }
    else if c < ' ' then none
    else some { lexer with mode := .text (.char c :: pieces) }
  | .escape pieces =>
    if c = 'u' then some { lexer with mode := .hex pieces [] }
    else (escape? c).map fun e => { lexer with mode := .text (.char e :: pieces) }
  | .hex pieces digits => do
    let digit ← hexDigit? c
    match digits with
    | [d2, d1, d0] =>
      let value := ((d0 * 16 + d1) * 16 + d2) * 16 + digit
      some { lexer with mode := .text (.unit value :: pieces) }
    | _ => some { lexer with mode := .hex pieces (digit :: digits) }

/-- The tokens read, once the text has ended. -/
def finish? (lexer : Lexer) : Option (List Token) :=
  match lexer.mode with
  | .between => some lexer.tokens.reverse
  | .word chars => (Token.ofWord? chars.reverse).map fun token => (token :: lexer.tokens).reverse
  | _ => none

end Lexer

/-- The tokens of a text, if it can be cut into tokens. -/
def tokens? (text : String) : Option (List Token) := do
  let lexer ← text.toList.foldlM Lexer.step {}
  lexer.finish?

end WordLang.Json
