import LetLang.Json.Token

/-!
# Reading JSON text

The tokens of a text are read from left to right, with the containers that are still open on a
stack.  At most `maxNesting` of them may be open at once.
-/

namespace LetLang.Json

/-- The number of containers that may be open at once. -/
def maxNesting : Nat := 127

/-- A container that waits for the value inside it. -/
inductive Enclosing where
  /-- An array, with its earlier items, the last one first. -/
  | list (items : List Json)
  /-- An object, with its earlier fields and the name of the field whose value is due. -/
  | field (fields : List (String × Json)) (name : String)

/-- What may come next.  Each state holds the containers around it, the innermost first. -/
inductive Expecting where
  /-- A value. -/
  | value (around : List Enclosing)
  /-- An item or the end of an array, right behind its bracket or behind a comma. -/
  | item (afterComma : Bool) (items : List Json) (around : List Enclosing)
  /-- A field or the end of an object, right behind its brace or behind a comma. -/
  | key (afterComma : Bool) (fields : List (String × Json)) (around : List Enclosing)
  /-- The colon behind the name of a field. -/
  | colon (fields : List (String × Json)) (name : String) (around : List Enclosing)
  /-- What follows the value `v`. -/
  | after (v : Json) (around : List Enclosing)

namespace Expecting

/-- Opens a container, unless too many are open. -/
def opened (around : List Enclosing) (inside : Expecting) : Except SyntaxError Expecting :=
  if around.length < maxNesting then .ok inside else .error .nestingTooDeep

/-- A value starts with the token. -/
def start (around : List Enclosing) : Token → Except SyntaxError Expecting
  | .openList => opened around (.item false [] around)
  | .openObject => opened around (.key false [] around)
  | .text s => .ok (.after (.string s) around)
  | .scalar v => .ok (.after v around)
  | .malformed _ fault => .error fault
  | .closeList | .closeObject | .comma | .colon => .error .expectedValue

/-- An item or the end of an array. -/
def stepItem (afterComma : Bool) (items : List Json) (around : List Enclosing) :
    Token → Except SyntaxError Expecting
  | .closeList =>
    if afterComma then .error .trailingComma else .ok (.after (.array items.reverse) around)
  | t => start (.list items :: around) t

/-- A field or the end of an object. -/
def stepKey (afterComma : Bool) (fields : List (String × Json)) (around : List Enclosing) :
    Token → Except SyntaxError Expecting
  | .closeObject =>
    if afterComma then .error .trailingComma else .ok (.after (.object fields) around)
  | .text name => .ok (.colon fields name around)
  | .malformed true fault => .error fault
  | _ => .error .keyNotText

/-- What follows a value. -/
def stepAfter (v : Json) : List Enclosing → Token → Except SyntaxError Expecting
  | [], _ => .error .trailingCharacters
  | .list items :: around, .comma => .ok (.item true (v :: items) around)
  | .list items :: around, .closeList => .ok (.after (.array (v :: items).reverse) around)
  | .list _ :: _, _ => .error .expectedCommaOrBracket
  | .field fields name :: around, .comma => .ok (.key true (insertField name v fields) around)
  | .field fields name :: around, .closeObject =>
    .ok (.after (.object (insertField name v fields)) around)
  | .field _ _ :: _, _ => .error .expectedCommaOrBrace

/-- Reads one token. -/
def step : Expecting → Token → Except SyntaxError Expecting
  | .value around, t => start around t
  | .item afterComma items around, t => stepItem afterComma items around t
  | .key afterComma fields around, t => stepKey afterComma fields around t
  | .colon fields name around, .colon => .ok (.value (.field fields name :: around))
  | .colon _ _ _, _ => .error .expectedColon
  | .after v around, t => stepAfter v around t

/-- What the end of the text gives. -/
def finish : Expecting → Except SyntaxError Json
  | .value _ => .error .endInValue
  | .item afterComma _ _ => .error (if afterComma then .endInValue else .endInList)
  | .key afterComma _ _ => .error (if afterComma then .endInValue else .endInObject)
  | .colon _ _ _ => .error .endInObject
  | .after v [] => .ok v
  | .after _ (.list _ :: _) => .error .endInList
  | .after _ (.field _ _ :: _) => .error .endInObject

/-- Reads all tokens that are left. -/
def run (state : Expecting) : List Token → Except SyntaxError Json
  | [] => state.finish
  | t :: rest =>
    match state.step t with
    | .error e => .error e
    | .ok state' => run state' rest

end Expecting

/-- The value that a text stands for, or its first fault. -/
def parse (text : String) : Except SyntaxError Json :=
  Expecting.run (.value []) (Token.scan text.toList)

end LetLang.Json
