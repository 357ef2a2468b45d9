import AgentUE.Protocol.Envelope
import Mathlib.Algebra.GroupWithZero.Nat

/-!
# Go SDK: the JSON texts of `encoding/json`

What `Decode` with `UseNumber` makes of a text that `Valid` accepts, and how long a string is that `Marshal`
writes. A number is the text it was written as. Of a name that occurs twice the last member counts.
-/

namespace AgentUE.Go.Json

open Data

/-! ## Reading -/

/-- White space between tokens. -/
def isSpace (c : Char) : Bool := c == ' ' || c == '\t' || c == '\r' || c == '\n'

def skipSpace (text : List Char) : List Char := text.dropWhile isSpace

def isDigit (c : Char) : Bool := '0' ≤ c && c ≤ '9'

/-- The value of a hexadecimal digit. -/
def hexValue (c : Char) : Option ℕ :=
  if isDigit c then some (c.toNat - 0x30)
  else if 'a' ≤ c && c ≤ 'f' then some (c.toNat - 0x57)
  else if 'A' ≤ c && c ≤ 'F' then some (c.toNat - 0x37)
  else none

/-- `getu4` behind the `\u`: a UTF-16 code unit. -/
def getu4 : List Char → Option (ℕ × List Char)
  | a :: b :: c :: d :: rest => do
    return ((← hexValue a) * 0x1000 + (← hexValue b) * 0x100 + (← hexValue c) * 0x10 + (← hexValue d), rest)
  | _ => none

def isHighSurrogate (unit : ℕ) : Bool := decide (0xD800 ≤ unit) && decide (unit < 0xDC00)

def isLowSurrogate (unit : ℕ) : Bool := decide (0xDC00 ≤ unit) && decide (unit < 0xE000)

/-- A code unit behind `\u` and what is behind it: a pair of surrogates is one character, and a surrogate
that stands alone is U+FFFD. -/
def codePoint (unit : ℕ) (rest : List Char) : Char × List Char :=
  if isHighSurrogate unit then
    match rest with
    | '\\' :: 'u' :: next =>
      match getu4 next with
      | some (low, behind) =>
        if isLowSurrogate low then (Char.ofNat (0x10000 + (unit - 0xD800) * 0x400 + (low - 0xDC00)), behind)
        else ('\uFFFD', rest)
      | none => ('\uFFFD', rest)
    | _ => ('\uFFFD', rest)
  else if isLowSurrogate unit then ('\uFFFD', rest)
  else (Char.ofNat unit, rest)

/-- The character of an escape of one letter. -/
def escaped : Char → Option Char
  | '"' => some '"'
  | '\\' => some '\\'
  | '/' => some '/'
  | 'b' => some '\x08'
  | 'f' => some '\x0c'
  | 'n' => some '\n'
  | 'r' => some '\r'
  | 't' => some '\t'
  | _ => none

/-- A string behind its opening quote. Every step takes a character at least. -/
def stringBody : ℕ → List Char → Option (List Char × List Char)
  | 0, _ | _, [] => none
  | fuel + 1, c :: rest =>
    if c = '"' then some ([], rest)
    else if c = '\\' then
      match rest with
      | 'u' :: rest =>
        match getu4 rest with
        | none => none
        | some (unit, rest) =>
          let (c, rest) := codePoint unit rest
          (stringBody fuel rest).map fun (cs, rest) => (c :: cs, rest)
      | letter :: rest =>
        match escaped letter with
        | none => none
        | some c => (stringBody fuel rest).map fun (cs, rest) => (c :: cs, rest)
      | [] => none
    else if c < ' ' then none
    else (stringBody fuel rest).map fun (cs, rest) => (c :: cs, rest)

/-- One digit or more. -/
def digits (text : List Char) : Option (List Char × List Char) :=
  match text.takeWhile isDigit with
  | [] => none
  | ds => some (ds, text.dropWhile isDigit)

/-- The integer part of a number: no further digit follows a leading zero. -/
def integerPart : List Char → Option (List Char × List Char)
  | '0' :: rest => some (['0'], rest)
  | text => digits text

/-- The fraction, if there is one. -/
def fraction : List Char → Option (List Char × List Char)
  | '.' :: rest => (digits rest).map fun (ds, rest) => ('.' :: ds, rest)
  | text => some ([], text)

/-- The exponent, if there is one. -/
def exponent : List Char → Option (List Char × List Char)
  | e :: rest =>
    if e = 'e' ∨ e = 'E' then
      match rest with
      | sign :: behind =>
        if sign = '+' ∨ sign = '-' then (digits behind).map fun (ds, rest) => (e :: sign :: ds, rest)
        else (digits rest).map fun (ds, rest) => (e :: ds, rest)
      | [] => none
    else some ([], e :: rest)
  | [] => some ([], [])

/-- A number, as the text of its literal. -/
def number (text : List Char) : Option (String × List Char) := do
  let (sign, rest) := match text with
    | '-' :: rest => (['-'], rest)
    | _ => ([], text)
  let (int, rest) ← integerPart rest
  let (frac, rest) ← fraction rest
  let (exp, rest) ← exponent rest
  return (String.ofList (sign ++ int ++ frac ++ exp), rest)

mutual

/-- A value and what is behind it; `depth` is how many lists and objects may still be opened. Every step
takes a character at least. -/
def value : ℕ → ℕ → List Char → Option (Json String × List Char)
  | 0, _, _ => none
  | fuel + 1, depth, text =>
    match skipSpace text with
    | 'n' :: 'u' :: 'l' :: 'l' :: rest => some (.leaf .null, rest)
    | 't' :: 'r' :: 'u' :: 'e' :: rest => some (.leaf (.bool true), rest)
    | 'f' :: 'a' :: 'l' :: 's' :: 'e' :: rest => some (.leaf (.bool false), rest)
    | '"' :: rest => (stringBody rest.length rest).map fun (s, rest) => (.leaf (.str (String.ofList s)), rest)
    | '[' :: rest =>
      if depth = 0 then none
      else match skipSpace rest with
      | ']' :: rest => some (.arr [], rest)
      | rest => (elements fuel (depth - 1) rest).map fun (xs, rest) => (.arr xs, rest)
    | '\x7b' :: rest =>
      if depth = 0 then none
      else match skipSpace rest with
      | '\x7d' :: rest => some (.obj [], rest)
      | rest => (members fuel (depth - 1) [] rest).map fun (fs, rest) => (.obj fs, rest)
    | text => (number text).map fun (n, rest) => (.leaf (.num n), rest)

/-- The elements of a list behind its bracket. -/
def elements : ℕ → ℕ → List Char → Option (List (Json String) × List Char)
  | 0, _, _ => none
  | fuel + 1, depth, text =>
    match value fuel depth text with
    | none => none
    | some (x, rest) =>
      match skipSpace rest with
      | ',' :: rest => (elements fuel depth rest).map fun (xs, rest) => (x :: xs, rest)
      | ']' :: rest => some ([x], rest)
      | _ => none

/-- The members of an object behind those that have been read. -/
def members : ℕ → ℕ → JsonObject String → List Char → Option (JsonObject String × List Char)
  | 0, _, _, _ => none
  | fuel + 1, depth, fs, text =>
    match skipSpace text with
    | '"' :: rest =>
      match stringBody rest.length rest with
      | none => none
      | some (k, rest) =>
        match skipSpace rest with
        | ':' :: rest =>
          match value fuel depth rest with
          | none => none
          | some (v, rest) =>
            let fs := Fields.set fs (String.ofList k) v
            match skipSpace rest with
            | ',' :: rest => members fuel depth fs rest
            | '\x7d' :: rest => some (fs, rest)
            | _ => none
        | _ => none
    | _ => none

end

/-- `maxNestingDepth` -/
def maxNestingDepth : ℕ := 10000

/-- The document of a text, `none` when `Valid` refuses it. -/
def parse (text : List Char) : Option (Json String) :=
  match value (text.length + 1) maxNestingDepth text with
  | some (v, rest) => if skipSpace rest = [] then some v else none
  | none => none

/-- `Decode` of a document into a `map[string]any`: `null` leaves the map nil. -/
def toMap : Json String → Option (JsonObject String)
  | .obj fs => some fs
  | .leaf .null => some []
  | _ => none

/-! ## Writing -/

/-- The length of a rune in a string that `Marshal` writes: quotes, backslashes and control characters are
escaped, the characters that HTML reserves, the two line separators and bytes that are no UTF-8 as `\uXXXX`. -/
def encodedRune : Option Char → ℕ
  | none => 6
  | some c =>
    if c = '"' ∨ c = '\\' ∨ c = '\x08' ∨ c = '\x0c' ∨ c = '\n' ∨ c = '\r' ∨ c = '\t' then 2
    else if c < ' ' ∨ c = '<' ∨ c = '>' ∨ c = '&' ∨ c = '\u2028' ∨ c = '\u2029' then 6
    else c.utf8Size

/-- The length of the string that `Marshal` writes, with its quotes. -/
def encodedString (runes : List (Option Char)) : ℕ := 2 + (runes.map encodedRune).sum

end AgentUE.Go.Json
