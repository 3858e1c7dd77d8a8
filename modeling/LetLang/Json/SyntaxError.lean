/-!
# Faults in JSON text

Each way in which a text can fail to be JSON is a cause of its own; `SyntaxError.message` gives
its wording.  The place of a fault in the text is no part of either.
-/

namespace LetLang.Json

/-- Why a text is not JSON. -/
inductive SyntaxError where
  /-- The text ends where a value should stand or go on. -/
  | endInValue
  /-- The text ends inside an array. -/
  | endInList
  /-- The text ends inside an object. -/
  | endInObject
  /-- The text ends inside a string. -/
  | endInText
  /-- No value starts here. -/
  | expectedValue
  /-- A word starts like `null`, `true` or `false` and goes on differently. -/
  | expectedWord
  | expectedCommaOrBracket
  | expectedCommaOrBrace
  | expectedColon
  /-- A field does not start with a string. -/
  | keyNotText
  | trailingComma
  /-- Something follows the value. -/
  | trailingCharacters
  | nestingTooDeep
  | controlCharacter
  | invalidEscape
  /-- A low surrogate without a high one before it, or a high one followed by no low one. -/
  | loneSurrogate
  /-- A high surrogate that no further escape follows. -/
  | unfinishedPair
  | invalidNumber
  | numberOutOfRange
deriving DecidableEq

/-- The wording of a fault, without its place. -/
def SyntaxError.message : SyntaxError → String
  | .endInValue => "EOF while parsing a value"
  | .endInList => "EOF while parsing a list"
  | .endInObject => "EOF while parsing an object"
  | .endInText => "EOF while parsing a string"
  | .expectedValue => "expected value"
  | .expectedWord => "expected ident"
  | .expectedCommaOrBracket => "expected `,` or `]`"
  | .expectedCommaOrBrace => "expected `,` or `\x7d`"
  | .expectedColon => "expected `:`"
  | .keyNotText => "key must be a string"
  | .trailingComma => "trailing comma"
  | .trailingCharacters => "trailing characters"
  | .nestingTooDeep => "recursion limit exceeded"
  | .controlCharacter => "control character (\\u0000-\\u001F) found while parsing a string"
  | .invalidEscape => "invalid escape"
  | .loneSurrogate => "lone leading surrogate in hex escape"
  | .unfinishedPair => "unexpected end of hex escape"
  | .invalidNumber => "invalid number"
  | .numberOutOfRange => "number out of range"

end LetLang.Json
