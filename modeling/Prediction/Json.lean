/-!
Reading JSON texts. Numbers are kept apart only as far as sets of alternatives need it. A reader
takes the characters ahead and gives what it read with the characters left; it fails on anything
that is not JSON.
-/

namespace Prediction

inductive Json where
  | null
  | bool (value : Bool)
  /-- A number written with digits alone. -/
  | natural (value : Nat)
  /-- A number with a sign, a fraction or an exponent. -/
  | number
  /-- The text is missing if it holds half of a surrogate pair. -/
  | string (text : Option String)
  | array (elements : List Json)
  | object (members : List (Option String × Json))

namespace Json

def isBlank (c : Char) : Bool :=
  c == ' ' || c == '\n' || c == '\t' || c == '\r'

def skipBlanks (cs : List Char) : List Char :=
  cs.dropWhile isBlank

def decimal (digits : List Char) : Nat :=
  digits.foldl (fun n c => 10 * n + (c.toNat - '0'.toNat)) 0

/-- Digits, one at least. -/
def digits (cs : List Char) : Option (List Char × List Char) :=
  match cs.span Char.isDigit with
  | ([], _) => none
  | read => some read

/-- Digits without a leading zero. -/
def whole : List Char → Option (List Char × List Char)
  | '0' :: cs => some (['0'], cs)
  | cs => digits cs

def fraction : List Char → Option (Bool × List Char)
  | '.' :: cs => (digits cs).map fun read => (true, read.2)
  | cs => some (false, cs)

def unsigned : List Char → List Char
  | '+' :: cs => cs
  | '-' :: cs => cs
  | cs => cs

def exponent : List Char → Option (Bool × List Char)
  | 'e' :: cs => (digits (unsigned cs)).map fun read => (true, read.2)
  | 'E' :: cs => (digits (unsigned cs)).map fun read => (true, read.2)
  | cs => some (false, cs)

def readUnsigned (cs : List Char) : Option (Json × List Char) := do
  let (ds, afterWhole) ← whole cs
  let (hasFraction, afterFraction) ← fraction afterWhole
  let (hasExponent, rest) ← exponent afterFraction
  return (if hasFraction || hasExponent then .number else .natural (decimal ds), rest)

def readNumber : List Char → Option (Json × List Char)
  | '-' :: cs => (readUnsigned cs).map fun read => (.number, read.2)
  | cs => readUnsigned cs

def hexDigit? (c : Char) : Option Nat :=
  if c.isDigit then some (c.toNat - '0'.toNat)
  else if 'a' ≤ c && c ≤ 'f' then some (c.toNat - 'a'.toNat + 10)
  else if 'A' ≤ c && c ≤ 'F' then some (c.toNat - 'A'.toNat + 10)
  else none

def codeUnit? (a b c d : Char) : Option Nat := do
  let a ← hexDigit? a
  let b ← hexDigit? b
  let c ← hexDigit? c
  let d ← hexDigit? d
  return ((a * 16 + b) * 16 + c) * 16 + d

/-- What stands for itself, or for a control character, after a backslash. -/
def escape? : Char → Option Char
  | '\x22' => some '\x22'
  | '\x5c' => some '\x5c'
  | '/' => some '/'
  | 'b' => some '\x08'
  | 'f' => some '\x0c'
  | 'n' => some '\n'
  | 'r' => some '\r'
  | 't' => some '\t'
  | _ => none

/-- The rest of a string up to its closing quote, as code points and escaped code units. -/
def readCodes : List Char → Option (List Nat × List Char)
  | '\x22' :: cs => some ([], cs)
  | '\x5c' :: 'u' :: a :: b :: c :: d :: cs => do
    let unit ← codeUnit? a b c d
    let (codes, rest) ← readCodes cs
    return (unit :: codes, rest)
  | '\x5c' :: c :: cs => do
    let escaped ← escape? c
    let (codes, rest) ← readCodes cs
    return (escaped.toNat :: codes, rest)
  | c :: cs =>
    if c == '\x5c' || c.toNat < 0x20 then none
    else (readCodes cs).map fun read => (c.toNat :: read.1, read.2)
  | [] => none

def isHighHalf (code : Nat) : Bool := 0xD800 ≤ code && code < 0xDC00

def isLowHalf (code : Nat) : Bool := 0xDC00 ≤ code && code < 0xE000

/-- Joins surrogate halves, which have to come in pairs. -/
def decode? : List Nat → Option (List Char)
  | [] => some []
  | high :: low :: codes =>
    if isHighHalf high && isLowHalf low then
      (decode? codes).map
        (Char.ofNat (0x10000 + (high - 0xD800) * 0x400 + (low - 0xDC00)) :: ·)
    else if isHighHalf high || isLowHalf high then none
    else (decode? (low :: codes)).map (Char.ofNat high :: ·)
  | [code] => if isHighHalf code || isLowHalf code then none else some [Char.ofNat code]

/-- The rest of a string up to its closing quote. -/
def readText (cs : List Char) : Option (Option String × List Char) :=
  (readCodes cs).map fun read => ((decode? read.1).map String.ofList, read.2)

mutual

/-- The first argument bounds the depth of the recursion. -/
def readValue : Nat → List Char → Option (Json × List Char)
  | 0, _ => none
  | fuel + 1, cs =>
    match skipBlanks cs with
    | 'n' :: 'u' :: 'l' :: 'l' :: rest => some (.null, rest)
    | 't' :: 'r' :: 'u' :: 'e' :: rest => some (.bool true, rest)
    | 'f' :: 'a' :: 'l' :: 's' :: 'e' :: rest => some (.bool false, rest)
    | '\x22' :: rest => (readText rest).map fun read => (.string read.1, read.2)
    | '[' :: rest =>
      match skipBlanks rest with
      | ']' :: rest => some (.array [], rest)
      | rest => (readElements fuel rest).map fun read => (.array read.1, read.2)
    | '\x7b' :: rest =>
      match skipBlanks rest with
      | '\x7d' :: rest => some (.object [], rest)
      | rest => (readMembers fuel rest).map fun read => (.object read.1, read.2)
    | rest => readNumber rest

def readElements : Nat → List Char → Option (List Json × List Char)
  | 0, _ => none
  | fuel + 1, cs => do
    let (first, rest) ← readValue fuel cs
    match skipBlanks rest with
    | ']' :: rest => return ([first], rest)
    | ',' :: rest =>
      let (others, rest) ← readElements fuel rest
      return (first :: others, rest)
    | _ => none

def readMembers : Nat → List Char → Option (List (Option String × Json) × List Char)
  | 0, _ => none
  | fuel + 1, cs =>
    match skipBlanks cs with
    | '\x22' :: rest => do
      let (key, rest) ← readText rest
      match skipBlanks rest with
      | ':' :: rest =>
        let (first, rest) ← readValue fuel rest
        match skipBlanks rest with
        | '\x7d' :: rest => return ([(key, first)], rest)
        | ',' :: rest =>
          let (others, rest) ← readMembers fuel rest
          return ((key, first) :: others, rest)
        | _ => none
      | _ => none
    | _ => none

end

/-- Every level of the recursion but every second one reads a character. -/
def parse? (text : String) : Option Json :=
  let cs := text.toList
  match readValue (2 * cs.length + 2) cs with
  | some (value, rest) => if skipBlanks rest = [] then some value else none
  | none => none

end Json

end Prediction
