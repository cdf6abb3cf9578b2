import Mathlib.Data.List.Basic

/-!
# JSON texts

The values of JSON, and a reader of their texts.  A number keeps its spelling, and an object its
members in the order of the text, repeated names included: what a decoder makes of either is its
own decision.

## Main definitions

* `Json` : the values.
* `Json.read` : the value of a text, which white space may surround.
-/

/-- A JSON value. -/
inductive Json where
  | null
  | bool (b : Bool)
  | num (text : String)
  | str (s : String)
  | arr (elems : List Json)
  | obj (members : List (String × Json))
  deriving Repr

namespace Json

/-- White space of a JSON text. -/
def isSpace (c : Char) : Bool := c = ' ' || c = '\t' || c = '\n' || c = '\r'

/-- Drop leading white space. -/
def skip (cs : List Char) : List Char := cs.dropWhile isSpace

/-! ### Strings -/

/-- The value of a hexadecimal digit. -/
def hexDigit (c : Char) : Option ℕ :=
  if '0' ≤ c ∧ c ≤ '9' then some (c.toNat - '0'.toNat)
  else if 'a' ≤ c ∧ c ≤ 'f' then some (c.toNat - 'a'.toNat + 10)
  else if 'A' ≤ c ∧ c ≤ 'F' then some (c.toNat - 'A'.toNat + 10)
  else none

/-- The value of four hexadecimal digits. -/
def hex4 (a b c d : Char) : Option ℕ := do
  return (((← hexDigit a) * 16 + (← hexDigit b)) * 16 + (← hexDigit c)) * 16 + (← hexDigit d)

/-- The character of an escape of one letter. -/
def escape : Char → Option Char
  | '"' => some '"'
  | '\\' => some '\\'
  | '/' => some '/'
  | 'b' => some '\x08'
  | 'f' => some '\x0c'
  | 'n' => some '\n'
  | 'r' => some '\r'
  | 't' => some '\t'
  | _ => none

/-- The character of a code unit; half of a surrogate pair stands for the replacement
character. -/
def charOf (n : ℕ) : Char := if n.isValidChar then Char.ofNat n else '�'

/-- The rest of a string after its opening quote, with what follows its closing one.  The two halves
of a surrogate pair are read together. -/
def string : List Char → Option (List Char × List Char)
  | [] => none
  | '"' :: rest => some ([], rest)
  | '\\' :: 'u' :: a :: b :: c :: d :: '\\' :: 'u' :: e :: f :: g :: h :: rest => do
    let hi ← hex4 a b c d
    let lo ← hex4 e f g h
    let (s, rest) ← string rest
    if 0xd800 ≤ hi ∧ hi < 0xdc00 ∧ 0xdc00 ≤ lo ∧ lo < 0xe000 then
      return (charOf (0x10000 + (hi - 0xd800) * 0x400 + (lo - 0xdc00)) :: s, rest)
    else return (charOf hi :: charOf lo :: s, rest)
  | '\\' :: 'u' :: a :: b :: c :: d :: rest => do
    let n ← hex4 a b c d
    let (s, rest) ← string rest
    return (charOf n :: s, rest)
  | '\\' :: c :: rest => do
    let c ← escape c
    let (s, rest) ← string rest
    return (c :: s, rest)
  | c :: rest =>
    if c = '\\' ∨ c.toNat < 0x20 then none
    else do
      let (s, rest) ← string rest
      return (c :: s, rest)

/-! ### Numbers -/

/-- The leading digits. -/
def digits (cs : List Char) : List Char × List Char := cs.span Char.isDigit

/-- A whole part has no leading zero. -/
def intPart (cs : List Char) : Option (List Char × List Char) :=
  match digits cs with
  | ([], _) => none
  | ('0' :: _ :: _, _) => none
  | (ds, rest) => some (ds, rest)

/-- A fraction, where there is one. -/
def fracPart : List Char → Option (List Char × List Char)
  | '.' :: cs =>
    match digits cs with
    | ([], _) => none
    | (ds, rest) => some ('.' :: ds, rest)
  | cs => some ([], cs)

/-- The sign of an exponent. -/
def expSign : List Char → List Char × List Char
  | '+' :: cs => (['+'], cs)
  | '-' :: cs => (['-'], cs)
  | cs => ([], cs)

/-- An exponent, where there is one. -/
def expPart : List Char → Option (List Char × List Char)
  | [] => some ([], [])
  | c :: cs =>
    if c = 'e' ∨ c = 'E' then
      let (sign, cs) := expSign cs
      match digits cs with
      | ([], _) => none
      | (ds, rest) => some (c :: sign ++ ds, rest)
    else some ([], c :: cs)

/-- A number, as it is spelled. -/
def number (cs : List Char) : Option (Json × List Char) := do
  let (sign, cs) := match cs with
    | '-' :: cs => (['-'], cs)
    | cs => ([], cs)
  let (whole, cs) ← intPart cs
  let (frac, cs) ← fracPart cs
  let (exp, cs) ← expPart cs
  return (.num (String.ofList (sign ++ whole ++ frac ++ exp)), cs)

/-! ### Values -/

/-- The rest after a comma or the end of a list. -/
inductive Next where
  | more (rest : List Char)
  | done (rest : List Char)

/-- What follows an element: a comma, or the closing bracket. -/
def next (close : Char) (cs : List Char) : Option Next :=
  match skip cs with
  | ',' :: rest => some (.more rest)
  | c :: rest => if c = close then some (.done rest) else none
  | [] => none

mutual

/-- A value of bounded depth and length, with what follows it. -/
def value : ℕ → List Char → Option (Json × List Char)
  | 0, _ => none
  | n + 1, cs =>
    match skip cs with
    | 'n' :: 'u' :: 'l' :: 'l' :: rest => some (.null, rest)
    | 't' :: 'r' :: 'u' :: 'e' :: rest => some (.bool true, rest)
    | 'f' :: 'a' :: 'l' :: 's' :: 'e' :: rest => some (.bool false, rest)
    | '"' :: rest => (string rest).map fun (s, rest) => (.str (String.ofList s), rest)
    | '[' :: rest =>
      match skip rest with
      | ']' :: rest => some (.arr [], rest)
      | rest => (elements n rest).map fun (xs, rest) => (.arr xs, rest)
    | '{' :: rest =>
      match skip rest with
      | '}' :: rest => some (.obj [], rest)
      | rest => (members n rest).map fun (ms, rest) => (.obj ms, rest)
    | rest => number rest

/-- The elements of an array, to its closing bracket. -/
def elements : ℕ → List Char → Option (List Json × List Char)
  | 0, _ => none
  | n + 1, cs => do
    let (x, rest) ← value n cs
    match ← next ']' rest with
    | .done rest => return ([x], rest)
    | .more rest =>
      let (xs, rest) ← elements n rest
      return (x :: xs, rest)

/-- The members of an object, to its closing brace. -/
def members : ℕ → List Char → Option (List (String × Json) × List Char)
  | 0, _ => none
  | n + 1, cs =>
    match skip cs with
    | '"' :: rest => do
      let (k, rest) ← string rest
      match skip rest with
      | ':' :: rest =>
        let (x, rest) ← value n rest
        match ← next '}' rest with
        | .done rest => return ([(String.ofList k, x)], rest)
        | .more rest =>
          let (ms, rest) ← members n rest
          return ((String.ofList k, x) :: ms, rest)
      | _ => none
    | _ => none

end

/-- The value of a text: a call that consumes no character is followed by one that does, so twice
the length bounds the recursion. -/
def read (text : String) : Option Json :=
  match value (2 * text.toList.length + 2) text.toList with
  | some (v, rest) => if skip rest = [] then some v else none
  | none => none

/-- The value of a member of an object; of repeated names the last one counts. -/
def member (members : List (String × Json)) (name : String) : Option Json :=
  (members.reverse.find? (·.1 = name)).map Prod.snd

end Json
