import LetLang.Json.Numeral

/-!
# JSON tokens

`Token.scan` cuts a text into tokens.  A fault ends the list as a token of its own, which keeps the
cause, so that whoever reads the tokens from the left meets the first fault of the text.
-/

namespace LetLang.Json

/-- A token of JSON text. -/
inductive Token where
  | openList
  | closeList
  | openObject
  | closeObject
  | comma
  | colon
  /-- A string, without its quotes and escapes. -/
  | text (s : String)
  /-- `null`, a truth value or a number. -/
  | scalar (v : Json)
  /-- A fault.  `quoted` says that it lies in what starts as a string. -/
  | malformed (quoted : Bool) (fault : SyntaxError)

namespace Token

/-- Blanks separate tokens. -/
def isBlank (c : Char) : Bool := c == ' ' || c == '\n' || c == '\t' || c == '\r'

/-! ## Words -/

/-- Takes the rest of a word off the front of a text, character by character. -/
def readWord : (word : List Char) → List Char → Except SyntaxError (List Char)
  | [], s => .ok s
  | _ :: _, [] => .error .endInValue
  | w :: word, c :: s => if c = w then readWord word s else .error .expectedWord

theorem readWord_length {word s r : List Char} (h : readWord word s = .ok r) :
    r.length ≤ s.length := by
  fun_induction readWord word s with
  | case1 s => cases h; exact Nat.le_refl _
  | case2 => cases h
  | case3 w word s ih => exact Nat.le_succ_of_le (ih h)
  | case4 => cases h

/-! ## Strings -/

/-- The value of a hexadecimal digit. -/
def hexValue? (c : Char) : Option Nat :=
  if c.isDigit then some (c.toNat - '0'.toNat)
  else if 'a' ≤ c ∧ c ≤ 'f' then some (c.toNat - 'a'.toNat + 10)
  else if 'A' ≤ c ∧ c ≤ 'F' then some (c.toNat - 'A'.toNat + 10)
  else none

/-- The number of bytes of a text in UTF-8. -/
def byteLength : List Char → Nat
  | [] => 0
  | c :: rest => c.utf8Size + byteLength rest

/-- Takes the four hexadecimal digits of a code unit.  A text with fewer than four bytes left has
ended too early; any other text that does not start with four digits is at fault. -/
def readUnit (s : List Char) : Except SyntaxError (Nat × List Char) :=
  if byteLength (s.take 4) < 4 then .error .endInText
  else match s with
    | a :: b :: c :: d :: rest =>
      match hexValue? a, hexValue? b, hexValue? c, hexValue? d with
      | some i, some j, some k, some l => .ok (((i * 16 + j) * 16 + k) * 16 + l, rest)
      | _, _, _, _ => .error .invalidEscape
    | _ => .error .invalidEscape

/-- The code unit is the second of a surrogate pair. -/
def isLowSurrogate (unit : Nat) : Bool := 0xDC00 ≤ unit && unit ≤ 0xDFFF

/-- The code unit is the first of a surrogate pair. -/
def isHighSurrogate (unit : Nat) : Bool := 0xD800 ≤ unit && unit ≤ 0xDBFF

/-- Reads the code unit of the second half of a surrogate pair. -/
def readLowUnit (high : Nat) (s : List Char) : Except SyntaxError (Char × List Char) :=
  match readUnit s with
  | .error e => .error e
  | .ok (low, rest) =>
    if isLowSurrogate low then
      .ok (Char.ofNat (0x10000 + (high - 0xD800) * 0x400 + (low - 0xDC00)), rest)
    else .error .loneSurrogate

/-- Reads the second half of a surrogate pair, which has to be an escape of its own. -/
def readLow (high : Nat) : List Char → Except SyntaxError (Char × List Char)
  | [] => .error .endInText
  | [c] => .error (if c = '\\' then .endInText else .unfinishedPair)
  | c :: d :: rest =>
    if c = '\\' ∧ d = 'u' then readLowUnit high rest else .error .unfinishedPair

/-- Reads the character that a code unit stands for, with the second unit of a pair. -/
def readCode (s : List Char) : Except SyntaxError (Char × List Char) :=
  match readUnit s with
  | .error e => .error e
  | .ok (unit, rest) =>
    if isLowSurrogate unit then .error .loneSurrogate
    else if isHighSurrogate unit then readLow unit rest
    else .ok (Char.ofNat unit, rest)

/-- The character that an escape of one letter stands for. -/
def letterEscape? (c : Char) : Option Char :=
  if c = '"' then some '"'
  else if c = '\\' then some '\\'
  else if c = '/' then some '/'
  else if c = 'b' then some '\x08'
  else if c = 'f' then some '\x0c'
  else if c = 'n' then some '\n'
  else if c = 'r' then some '\r'
  else if c = 't' then some '\t'
  else none

/-- Reads an escape, behind its backslash. -/
def readEscape : List Char → Except SyntaxError (Char × List Char)
  | [] => .error .endInText
  | c :: rest =>
    if c = 'u' then readCode rest
    else match letterEscape? c with
      | some d => .ok (d, rest)
      | none => .error .invalidEscape

theorem readUnit_length {s r : List Char} {n : Nat} (h : readUnit s = .ok (n, r)) :
    r.length ≤ s.length := by
  unfold readUnit at h
  split at h
  · cases h
  · split at h
    · split at h
      · cases h
        simp only [List.length_cons]
        omega
      · cases h
    · cases h

theorem readLowUnit_length {high : Nat} {s r : List Char} {c : Char}
    (h : readLowUnit high s = .ok (c, r)) : r.length ≤ s.length := by
  unfold readLowUnit at h
  split at h
  · cases h
  · next hu =>
    split at h
    · simp only [Except.ok.injEq, Prod.mk.injEq] at h
      obtain ⟨_, rfl⟩ := h
      exact readUnit_length hu
    · cases h

theorem readLow_length {high : Nat} {s r : List Char} {c : Char}
    (h : readLow high s = .ok (c, r)) : r.length ≤ s.length := by
  unfold readLow at h
  split at h
  · cases h
  · cases h
  · split at h
    · exact Nat.le_succ_of_le (Nat.le_succ_of_le (readLowUnit_length h))
    · cases h

theorem readCode_length {s r : List Char} {c : Char} (h : readCode s = .ok (c, r)) :
    r.length ≤ s.length := by
  unfold readCode at h
  split at h
  · cases h
  · next hu =>
    split at h
    · cases h
    · split at h
      · exact Nat.le_trans (readLow_length h) (readUnit_length hu)
      · simp only [Except.ok.injEq, Prod.mk.injEq] at h
        obtain ⟨_, rfl⟩ := h
        exact readUnit_length hu

theorem readEscape_length {s r : List Char} {c : Char} (h : readEscape s = .ok (c, r)) :
    r.length ≤ s.length := by
  unfold readEscape at h
  split at h
  · cases h
  · split at h
    · exact Nat.le_succ_of_le (readCode_length h)
    · split at h
      · cases h
        exact Nat.le_succ _
      · cases h

/-- Reads a string behind its opening quote; `before` holds the characters read so far, the last one
first. -/
def readText (before : List Char) (s : List Char) : Except SyntaxError (String × List Char) :=
  match s with
  | [] => .error .endInText
  | c :: rest =>
    if c = '"' then .ok (String.ofList before.reverse, rest)
    else if c = '\\' then
      match h : readEscape rest with
      | .error e => .error e
      | .ok (d, rest') =>
        have := readEscape_length h
        readText (d :: before) rest'
    else if c.toNat < 32 then .error .controlCharacter
    else readText (c :: before) rest
termination_by s.length

theorem readText_length {before s r : List Char} {t : String}
    (h : readText before s = .ok (t, r)) : r.length ≤ s.length := by
  fun_induction readText before s with
  | case1 => cases h
  | case2 => cases h; exact Nat.le_succ _
  | case3 => cases h
  | case4 before rest d rest' he hle _ ih =>
    exact Nat.le_succ_of_le (Nat.le_trans (ih h) (readEscape_length he))
  | case5 => cases h
  | case6 before c rest _ _ _ ih => exact Nat.le_succ_of_le (ih h)

/-! ## Tokens -/

/-- Reads the rest of a word that stands for `v`. -/
def wordToken (v : Json) (word : List Char) (s : List Char) :
    Except SyntaxError (Token × List Char) :=
  match readWord word s with
  | .error e => .error e
  | .ok rest => .ok (.scalar v, rest)

/-- Reads a string behind its opening quote. -/
def textToken (s : List Char) : Except SyntaxError (Token × List Char) :=
  match readText [] s with
  | .error e => .error e
  | .ok (t, rest) => .ok (.text t, rest)

/-- Reads a number. -/
def numberToken (s : List Char) : Except SyntaxError (Token × List Char) :=
  match Numeral.read s with
  | .error e => .error e
  | .ok (n, rest) =>
    match n.value with
    | .error e => .error e
    | .ok v => .ok (.scalar (.number v), rest)

/-- The token that a single character is. -/
def punctuation? (c : Char) : Option Token :=
  if c = '[' then some .openList
  else if c = ']' then some .closeList
  else if c = '\x7b' then some .openObject
  else if c = '\x7d' then some .closeObject
  else if c = ',' then some .comma
  else if c = ':' then some .colon
  else none

/-- The word that starts with a character: what it stands for, and its other letters. -/
def word? (c : Char) : Option (Json × List Char) :=
  if c = 'n' then some (.null, ['u', 'l', 'l'])
  else if c = 't' then some (.bool true, ['r', 'u', 'e'])
  else if c = 'f' then some (.bool false, ['a', 'l', 's', 'e'])
  else none

/-- Reads the token that starts with `c`. -/
def next (c : Char) (rest : List Char) : Except SyntaxError (Token × List Char) :=
  match punctuation? c with
  | some t => .ok (t, rest)
  | none =>
    if c = '"' then textToken rest
    else match word? c with
      | some (v, word) => wordToken v word rest
      | none => if c = '-' || c.isDigit then numberToken (c :: rest) else .error .expectedValue

theorem wordToken_length {v : Json} {word s r : List Char} {t : Token}
    (h : wordToken v word s = .ok (t, r)) : r.length ≤ s.length := by
  unfold wordToken at h
  split at h
  · cases h
  · next hw =>
    cases h
    exact readWord_length hw

theorem textToken_length {s r : List Char} {t : Token} (h : textToken s = .ok (t, r)) :
    r.length ≤ s.length := by
  unfold textToken at h
  split at h
  · cases h
  · next ht =>
    cases h
    exact readText_length ht

theorem numberToken_length {s r : List Char} {t : Token} (h : numberToken s = .ok (t, r)) :
    r.length < s.length := by
  unfold numberToken at h
  split at h
  · cases h
  · next hn =>
    split at h
    · cases h
    · cases h
      exact Numeral.read_length hn

/-- A token takes its first character, and what is left follows it. -/
theorem next_length {c : Char} {rest r : List Char} {t : Token} (h : next c rest = .ok (t, r)) :
    r.length ≤ rest.length := by
  unfold next at h
  split at h
  · cases h
    exact Nat.le_refl _
  · split at h
    · exact textToken_length h
    · split at h
      · exact wordToken_length h
      · split at h
        · exact Nat.le_of_lt_succ (numberToken_length h)
        · cases h

/-- The tokens of a text, up to the first fault. -/
def scan (s : List Char) : List Token :=
  match s with
  | [] => []
  | c :: rest =>
    if isBlank c then scan rest
    else match h : next c rest with
      | .error e => [.malformed (c == '"') e]
      | .ok (t, rest') =>
        have := next_length h
        t :: scan rest'
termination_by s.length

end Token

end LetLang.Json
