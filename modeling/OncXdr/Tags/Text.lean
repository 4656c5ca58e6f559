import Mathlib.Data.List.Basic
import Mathlib.Algebra.Group.Int

/-!
# OncXdr.Tags.Text — the string functions `ParseTag` calls

`ParseTag` reads the text of an `xdr:"…"` struct tag with `strings.TrimSpace`,
`strings.Split`, `strings.HasPrefix`/`TrimPrefix` and `strconv.ParseUint(s, 0, 32)`. They are
given here over the tag's characters. Every byte `ParseUint` accepts is ASCII, and on any other
input the byte and the character readings fail alike.
-/

namespace OncXdr

namespace Text

/-- `unicode.IsSpace`. -/
def isSpace (c : Char) : Bool :=
  let n := c.toNat
  (9 ≤ n && n ≤ 13) || n == 32 || n == 0x85 || n == 0xA0 || n == 0x1680 ||
    (0x2000 ≤ n && n ≤ 0x200A) || n == 0x2028 || n == 0x2029 || n == 0x202F ||
    n == 0x205F || n == 0x3000

/-- `strings.TrimSpace`. -/
def trimSpace (s : List Char) : List Char :=
  ((s.dropWhile isSpace).reverse.dropWhile isSpace).reverse

/-- `strings.Split(s, sep)` for a one-character separator. -/
def split (sep : Char) : List Char → List (List Char)
  | [] => [[]]
  | c :: cs =>
    if c = sep then [] :: split sep cs
    else match split sep cs with
      | w :: ws => (c :: w) :: ws
      | [] => [[c]]

/-- `strings.HasPrefix`. -/
def hasPrefix (s p : List Char) : Bool := p.isPrefixOf s

/-- `strings.TrimPrefix`. -/
def trimPrefix (s p : List Char) : List Char := if hasPrefix s p then s.drop p.length else s

/-! ## `strconv.ParseUint(s, 0, 32)` -/

/-- `lower(c)`: `c | ('x' - 'X')`. -/
def lower (c : Char) : Nat := c.toNat ||| 0x20

/-- The digit a character stands for in bases up to 36. -/
def digitVal (c : Char) : Option Nat :=
  if '0' ≤ c && c ≤ '9' then some (c.toNat - '0'.toNat)
  else if 'a'.toNat ≤ lower c && lower c ≤ 'z'.toNat then some (lower c - 'a'.toNat + 10)
  else none

/-- The digit loop of `ParseUint` with base prefix already taken off: `_` is skipped (base 0
admits it), a digit not below the base is a syntax error, and a value past `maxVal` a range
error. -/
def parseDigits (base maxVal : Nat) : List Char → Nat → Option Nat
  | [], n => some n
  | c :: cs, n =>
    if c = '_' then parseDigits base maxVal cs n
    else match digitVal c with
      | none => none
      | some d =>
        if base ≤ d then none
        else if maxVal < n * base + d then none
        else parseDigits base maxVal cs (n * base + d)

/-- The scan of `underscoreOK` after the optional sign and base prefix: `saw` is the class of
the last character, `'^'` (start), `'0'` (digit or prefix), `'_'` or `'!'`. -/
def underscoreScan (hex : Bool) : Char → List Char → Bool
  | saw, [] => saw != '_'
  | saw, c :: cs =>
    if ('0' ≤ c && c ≤ '9') || (hex && 'a'.toNat ≤ lower c && lower c ≤ 'f'.toNat) then
      underscoreScan hex '0' cs
    else if c = '_' then
      if saw != '0' then false else underscoreScan hex '_' cs
    else if saw = '_' then false
    else underscoreScan hex '!' cs

/-- `underscoreOK`: underscores only between digits (or after a base prefix). -/
def underscoreOK (s : List Char) : Bool :=
  let s := match s with
    | '-' :: r | '+' :: r => r
    | _ => s
  match s with
  | '0' :: c :: rest =>
    if lower c == 'b'.toNat || lower c == 'o'.toNat || lower c == 'x'.toNat then
      underscoreScan (lower c == 'x'.toNat) '0' rest
    else underscoreScan false '^' s
  | _ => underscoreScan false '^' s

/-- The base `ParseUint` reads for base `0`, and the digits after the prefix. -/
def basePrefix (s : List Char) : Nat × List Char :=
  match s with
  | '0' :: c :: rest =>
    if 3 ≤ s.length && lower c == 'b'.toNat then (2, rest)
    else if 3 ≤ s.length && lower c == 'o'.toNat then (8, rest)
    else if 3 ≤ s.length && lower c == 'x'.toNat then (16, rest)
    else (8, c :: rest)
  | ['0'] => (8, [])
  | _ => (10, s)

/-- `strconv.ParseUint(s, 0, 32)`: the value, or `none` on a syntax or range error. -/
def parseUint32 (s : List Char) : Option Nat :=
  if s.isEmpty then none
  else
    let (base, body) := basePrefix s
    match parseDigits base (2 ^ 32 - 1) body 0 with
    | none => none
    | some n => if body.contains '_' && !underscoreOK s then none else some n

/-- `parseU32s`: comma-separated values, each parsed with `parseU32`. -/
def parseU32s (s : List Char) : Option (List Nat) := (split ',' s).mapM parseUint32

end Text

end OncXdr
