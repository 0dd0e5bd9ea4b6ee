import Flowscript.Number.Decimal
import Flowscript.Text.Hex

/-! # Settings files

Settings are written as key-value lines under table headers. A table may be spelled by a header, by
dotted keys or inline, but not twice, and what one spelling has closed no other may extend. Only the
shape of floating-point numbers, booleans, dates and times is kept. A positive number beyond double
precision is refused; a negative one is not.
-/
namespace Flowscript.Toml

/-- How a table came about. -/
inductive Spelling where
  /-- As a prefix of a table header. -/
  | implied
  /-- By its own header. -/
  | header
  /-- By a dotted key. -/
  | dotted
deriving DecidableEq, Repr

/-- A value of a settings file. -/
inductive Node where
  | text (s : String)
  | int (n : Int)
  /-- A floating-point number or truth value of no further interest. -/
  | other
  /-- A date, a time or both. -/
  | moment
  | arr (items : List Node)
  | inline (entries : List (String × Node))
  | table (spelling : Spelling) (entries : List (String × Node))
  /-- Tables with a repeated header; the latest comes first. -/
  | tables (items : List (List (String × Node)))
deriving Inhabited, Repr

abbrev Entries := List (String × Node)

/-- A reader takes characters and leaves the rest; `none` is a fault. -/
abbrev Reader (α : Type) := List Char → Option (α × List Char)

def isBlank (c : Char) : Bool := c = ' ' || c = '\t'

def skipBlanks (cs : List Char) : List Char := cs.dropWhile isBlank

def isDigit (c : Char) : Bool := '0' ≤ c && c ≤ '9'

/-- Control characters that may stand nowhere, the tab apart. -/
def isControl (c : Char) : Bool := (c.toNat < 0x20 && c ≠ '\t') || c.toNat = 0x7f

def readNewline : Reader Unit
  | '\n' :: rest => some ((), rest)
  | '\r' :: '\n' :: rest => some ((), rest)
  | _ => none

def skipBreaks : List Char → List Char
  | ' ' :: rest => skipBreaks rest
  | '\t' :: rest => skipBreaks rest
  | '\n' :: rest => skipBreaks rest
  | '\r' :: '\n' :: rest => skipBreaks rest
  | cs => cs

def skipComment : List Char → List Char
  | '#' :: rest => rest.dropWhile fun c => !isControl c
  | cs => cs

def skipLines : Nat → List Char → List Char
  | 0, cs => cs
  | fuel + 1, cs =>
    let cs := skipComment (skipBlanks cs)
    match readNewline cs with
    | some (_, rest) => skipLines fuel rest
    | none => cs

def readLineEnd (cs : List Char) : Option (List Char) :=
  match skipComment (skipBlanks cs) with
  | [] => some []
  | cs => (readNewline cs).map (·.2)

def readCode (count : Nat) (cs : List Char) : Option (Char × List Char) := do
  let digits ← (cs.take count).mapM Text.hexValue?
  let n := digits.foldl (fun n d => n * 16 + d) 0
  if digits.length = count ∧ n.isValidChar then some (Char.ofNat n, cs.drop count) else none

def readEscape : Reader Char
  | 'b' :: rest => some ('\x08', rest)
  | 't' :: rest => some ('\t', rest)
  | 'n' :: rest => some ('\n', rest)
  | 'f' :: rest => some ('\x0c', rest)
  | 'r' :: rest => some ('\r', rest)
  | '"' :: rest => some ('"', rest)
  | '\\' :: rest => some ('\\', rest)
  | 'u' :: rest => readCode 4 rest
  | 'U' :: rest => readCode 8 rest
  | _ => none

def readBasic : Nat → List Char → Reader String
  | 0, _, _ => none
  | _ + 1, _, [] => none
  | _ + 1, out, '"' :: rest => some (String.ofList out.reverse, rest)
  | fuel + 1, out, '\\' :: rest => do
    let (c, rest) ← readEscape rest
    readBasic fuel (c :: out) rest
  | fuel + 1, out, c :: rest => if isControl c then none else readBasic fuel (c :: out) rest

def readLiteral : List Char → Reader String
  | _, [] => none
  | out, '\'' :: rest => some (String.ofList out.reverse, rest)
  | out, c :: rest => if isControl c then none else readLiteral (c :: out) rest

/-- The rest of a text over several lines, closed by three of `quote`; up to two more may precede. -/
def readLong (quote : Char) (escapes : Bool) : Nat → List Char → Reader String
  | 0, _, _ => none
  | fuel + 1, out, cs =>
    match cs with
    | [] => none
    | c :: rest =>
      if c = quote then
        let run := (cs.takeWhile (· = quote)).length
        if run < 3 then readLong quote escapes fuel (c :: out) rest
        else if run ≤ 5 then
          some (String.ofList ((List.replicate (run - 3) quote ++ out).reverse), cs.drop run)
        else none
      else if c = '\\' && escapes then
        match readNewline (skipBlanks rest) with
        | some (_, rest) => readLong quote escapes fuel out (skipBreaks rest)
        | none =>
          match readEscape rest with
          | some (d, rest) => readLong quote escapes fuel (d :: out) rest
          | none => none
      else match readNewline cs with
        | some (_, rest) => readLong quote escapes fuel ('\n' :: out) rest
        | none => if isControl c then none else readLong quote escapes fuel (c :: out) rest

/-- A line break directly after the opening quotes does not count. -/
def dropFirstNewline (cs : List Char) : List Char :=
  match readNewline cs with
  | some (_, rest) => rest
  | none => cs

def readText? (fuel : Nat) : List Char → Option (Option (String × List Char))
  | '"' :: '"' :: '"' :: rest => some (readLong '"' true fuel [] (dropFirstNewline rest))
  | '\'' :: '\'' :: '\'' :: rest => some (readLong '\'' false fuel [] (dropFirstNewline rest))
  | '"' :: rest => some (readBasic fuel [] rest)
  | '\'' :: rest => some (readLiteral [] rest)
  | _ => none

def isBare (c : Char) : Bool :=
  isDigit c || ('a' ≤ c && c ≤ 'z') || ('A' ≤ c && c ≤ 'Z') || c = '_' || c = '-'

def readKeyPart (fuel : Nat) : Reader String
  | '"' :: rest => readBasic fuel [] rest
  | '\'' :: rest => readLiteral [] rest
  | cs =>
    let part := cs.takeWhile isBare
    if part.isEmpty then none else some (String.ofList part, cs.dropWhile isBare)

/-- Values nest less deep than this, and a key has fewer parts. -/
def depthLimit : Nat := 80

def readKeyParts : Nat → Reader (List String)
  | 0, _ => none
  | fuel + 1, cs => do
    let (part, rest) ← readKeyPart fuel (skipBlanks cs)
    match skipBlanks rest with
    | '.' :: rest =>
      let (parts, rest) ← readKeyParts fuel rest
      some (part :: parts, rest)
    | rest => some ([part], rest)

def readKey (fuel : Nat) : Reader (List String) := fun cs =>
  (readKeyParts fuel cs).filter fun (parts, _) => parts.length < depthLimit

def digitsValue? (base : Nat) (cs : List Char) : Option Nat :=
  go true 0 cs
where
  go (gap : Bool) (n : Nat) : List Char → Option Nat
    | [] => if gap then none else some n
    | '_' :: rest => if gap then none else go true n rest
    | c :: rest =>
      match Text.hexValue? c with
      | some d => if d < base then go false (n * base + d) rest else none
      | none => none

/-- Whether digits are written without a superfluous leading zero. -/
def plainDigits (cs : List Char) : Bool :=
  match cs with
  | '0' :: _ :: _ => false
  | _ => (digitsValue? 10 cs).isSome

def asInt? (cs : List Char) : Option Int := do
  let n : Int ← match cs with
    | '0' :: 'x' :: ds => (digitsValue? 16 ds).map Int.ofNat
    | '0' :: 'o' :: ds => (digitsValue? 8 ds).map Int.ofNat
    | '0' :: 'b' :: ds => (digitsValue? 2 ds).map Int.ofNat
    | '+' :: ds => if plainDigits ds then (digitsValue? 10 ds).map Int.ofNat else none
    | '-' :: ds => if plainDigits ds then (digitsValue? 10 ds).map (- Int.ofNat ·) else none
    | ds => if plainDigits ds then (digitsValue? 10 ds).map Int.ofNat else none
  if -0x8000000000000000 ≤ n ∧ n < 0x8000000000000000 then some n else none

def dropSign : List Char → List Char
  | '+' :: cs => cs
  | '-' :: cs => cs
  | cs => cs

def asDecimal? (cs : List Char) : Option Decimal := do
  let isMark c := c = 'e' || c = 'E'
  let mantissa := cs.takeWhile fun c => !isMark c
  let whole := mantissa.takeWhile (· ≠ '.')
  let n ← if plainDigits whole then digitsValue? 10 whole else none
  let fraction := (mantissa.dropWhile (· ≠ '.')).drop 1
  let places := (fraction.filter isDigit).length
  let f ← if mantissa.contains '.' then digitsValue? 10 fraction else some 0
  let e ← match cs.dropWhile fun c => !isMark c with
    | [] => if mantissa.contains '.' then some 0 else none
    | _ :: '-' :: ds => (digitsValue? 10 ds).map (- Int.ofNat ·)
    | _ :: ds => (digitsValue? 10 (dropSign ds)).map Int.ofNat
  some ⟨n * Nat.pow 10 places + f, e - places⟩

/-- Whether characters spell a floating-point number. Of those too large, only a negative one is
taken. -/
def isFloat (cs : List Char) : Bool :=
  let magnitude := dropSign cs
  if magnitude = "inf".toList || magnitude = "nan".toList then true
  else match asDecimal? magnitude with
    | none => false
    | some d => cs.head? = some '-' || !d.overflows

/-- A number of exactly two digits within bounds. -/
def twoDigits? (low high : Nat) (cs : List Char) : Option (Nat × List Char) :=
  match cs with
  | a :: b :: rest =>
    if isDigit a && isDigit b then
      let n := (a.toNat - '0'.toNat) * 10 + (b.toNat - '0'.toNat)
      if low ≤ n ∧ n ≤ high then some (n, rest) else none
    else none
  | _ => none

def daysOf (year month : Nat) : Nat :=
  if month = 2 then if year % 4 = 0 ∧ (year % 100 ≠ 0 ∨ year % 400 = 0) then 29 else 28
  else if month = 4 ∨ month = 6 ∨ month = 9 ∨ month = 11 then 30
  else 31

def readDate (cs : List Char) : Option (List Char) := do
  let (century, cs) ← twoDigits? 0 99 cs
  let (year, cs) ← twoDigits? 0 99 cs
  let '-' :: cs := cs | none
  let (month, cs) ← twoDigits? 1 12 cs
  let '-' :: cs := cs | none
  let (_, cs) ← twoDigits? 1 (daysOf (century * 100 + year) month) cs
  some cs

def readTime (cs : List Char) : Option (List Char) := do
  let (_, cs) ← twoDigits? 0 23 cs
  let ':' :: cs := cs | none
  let (_, cs) ← twoDigits? 0 59 cs
  let ':' :: cs := cs | none
  let (_, cs) ← twoDigits? 0 60 cs
  match cs with
  | '.' :: c :: rest => if isDigit c then some (rest.dropWhile isDigit) else none
  | '.' :: [] => none
  | cs => some cs

/-- An offset from universal time, if there is one: what follows it. -/
def readOffset (cs : List Char) : Option (List Char) :=
  let hours (cs : List Char) : Option (List Char) := do
    let (_, cs) ← twoDigits? 0 23 cs
    let ':' :: cs := cs | none
    let (_, cs) ← twoDigits? 0 59 cs
    some cs
  match cs with
  | 'Z' :: rest => some rest
  | 'z' :: rest => some rest
  | '+' :: rest => hours rest
  | '-' :: rest => hours rest
  | cs => some cs

def readMoment (cs : List Char) : Option (List Char) :=
  match readDate cs with
  | none => readTime cs
  | some rest =>
    match rest with
    | c :: time =>
      if c = 'T' || c = 't' || c = ' ' then
        match readTime time with
        | some rest => readOffset rest
        | none => if c = ' ' then some rest else none
      else some rest
    | [] => some []

def startsMoment (cs : List Char) : Bool :=
  let digits := (cs.takeWhile isDigit).length
  match cs.drop digits with
  | '-' :: _ => digits = 4
  | ':' :: _ => digits = 2
  | _ => false

def isNumeral (c : Char) : Bool :=
  isBare c || c = '+' || c = '.'

def readPlain (cs : List Char) : Option (Node × List Char) :=
  if startsMoment cs then (readMoment cs).map (Node.moment, ·)
  else
    let word := cs.takeWhile isNumeral
    let rest := cs.dropWhile isNumeral
    if word = "true".toList || word = "false".toList then some (.other, rest)
    else match asInt? word with
      | some n => some (.int n, rest)
      | none => if isFloat word then some (.other, rest) else none

def insertInline (path : List String) (value : Node) (entries : Entries) : Option Entries :=
  match path with
  | [] => none
  | [key] => if (entries.lookup key).isSome then none else some (entries ++ [(key, value)])
  | key :: path =>
    match entries.lookup key with
    | none => (insertInline path value []).map fun sub => entries ++ [(key, .table .dotted sub)]
    | some (.table .dotted sub) =>
      (insertInline path value sub).map fun sub =>
        entries.map fun e => if e.1 = key then (key, .table .dotted sub) else e
    | some _ => none

mutual

def readValue : Nat → Nat → Reader Node
  | 0, _, _ => none
  | fuel + 1, depth, cs =>
    match readText? fuel cs with
    | some (some (s, rest)) => some (.text s, rest)
    | some none => none
    | none =>
      match cs with
      | '[' :: rest =>
        if depth + 1 < depthLimit then
          match readItems fuel (depth + 1) rest with
          | some (items, rest) => some (.arr items, rest)
          | none => none
        else none
      | '\x7b' :: rest =>
        if depth + 1 < depthLimit then
          match skipBlanks rest with
          | '\x7d' :: rest => some (.inline [], rest)
          | rest =>
            match readInline fuel (depth + 1) [] rest with
            | some (entries, rest) => some (.inline entries, rest)
            | none => none
        else none
      | cs => readPlain cs

/-- The items of a list up to its closing bracket; the last may be followed by a comma. -/
def readItems : Nat → Nat → Reader (List Node)
  | 0, _, _ => none
  | fuel + 1, depth, cs =>
    match skipLines fuel cs with
    | ']' :: rest => some ([], rest)
    | cs =>
      match readValue fuel depth cs with
      | none => none
      | some (item, rest) =>
        match skipLines fuel rest with
        | ']' :: rest => some ([item], rest)
        | ',' :: rest =>
          match readItems fuel depth rest with
          | some (items, rest) => some (item :: items, rest)
          | none => none
        | _ => none

def readInline : Nat → Nat → Entries → Reader Entries
  | 0, _, _, _ => none
  | fuel + 1, depth, entries, cs =>
    match readKey fuel cs with
    | some (path, '=' :: rest) =>
      match readValue fuel depth (skipBlanks rest) with
      | none => none
      | some (value, rest) =>
        match insertInline path value entries with
        | none => none
        | some entries =>
          match skipBlanks rest with
          | '\x7d' :: rest => some (entries, rest)
          | ',' :: rest => readInline fuel depth entries rest
          | _ => none
    | _ => none

end

def put (key : String) (node : Node) (entries : Entries) : Entries :=
  if (entries.lookup key).isSome then entries.map fun e => if e.1 = key then (key, node) else e
  else entries ++ [(key, node)]

/-- Changes the table that a path leads to. Tables on the way are made as needed; a dotted path may
not enter a table that has a header. -/
def descend (dotted : Bool) (change : Bool → Entries → Option Entries) :
    List String → Bool → Entries → Option Entries
  | [], self, entries => change self entries
  | key :: path, _, entries =>
    match entries.lookup key with
    | none => do
      let spelling := if dotted then Spelling.dotted else .implied
      let sub ← descend dotted change path dotted []
      some (put key (.table spelling sub) entries)
    | some (.table spelling sub) => do
      if dotted ∧ spelling = .header then none
      else
        let sub ← descend dotted change path (spelling = .dotted) sub
        some (put key (.table spelling sub) entries)
    | some (.tables (latest :: earlier)) => do
      let latest ← descend dotted change path false latest
      some (put key (.tables (latest :: earlier)) entries)
    | some _ => none

def setKey (path : List String) (value : Node) (entries : Entries) : Option Entries :=
  match path.getLast? with
  | none => none
  | some key =>
    let way := path.dropLast
    descend true (fun isDotted entries =>
      if isDotted = way.isEmpty || (entries.lookup key).isSome then none
      else some (entries ++ [(key, value)])) way false entries

def openTable (path : List String) (root : Entries) : Option Entries :=
  match path.getLast? with
  | none => none
  | some key =>
    descend false (fun _ entries =>
      match entries.lookup key with
      | none => some (entries ++ [(key, .table .header [])])
      | some (.table .implied sub) => some (put key (.table .header sub) entries)
      | some _ => none) path.dropLast false root

def openRepeated (path : List String) (root : Entries) : Option Entries :=
  match path.getLast? with
  | none => none
  | some key =>
    descend false (fun _ entries =>
      match entries.lookup key with
      | none => some (entries ++ [(key, .tables [[]])])
      | some (.tables items) => some (put key (.tables ([] :: items)) entries)
      | some _ => none) path.dropLast false root

def changeCurrent (change : Entries → Option Entries) : List String → Entries → Option Entries
  | [], entries => change entries
  | key :: path, entries =>
    match entries.lookup key with
    | some (.table spelling sub) => do
      let sub ← changeCurrent change path sub
      some (put key (.table spelling sub) entries)
    | some (.tables (latest :: earlier)) => do
      let latest ← changeCurrent change path latest
      some (put key (.tables (latest :: earlier)) entries)
    | _ => none

def readLines : Nat → List String → Entries → List Char → Option Entries
  | 0, _, _, _ => none
  | fuel + 1, current, root, cs =>
    match skipLines fuel cs with
    | [] => some root
    | '[' :: '[' :: rest => do
      let (path, rest) ← readKey fuel rest
      let ']' :: ']' :: rest := rest | none
      let root ← openRepeated path root
      let rest ← readLineEnd rest
      readLines fuel path root rest
    | '[' :: rest => do
      let (path, rest) ← readKey fuel rest
      let ']' :: rest := rest | none
      let root ← openTable path root
      let rest ← readLineEnd rest
      readLines fuel path root rest
    | cs => do
      let (path, rest) ← readKey fuel cs
      let '=' :: rest := rest | none
      let (value, rest) ← readValue fuel 0 (skipBlanks rest)
      let root ← changeCurrent (setKey path value) current root
      let rest ← readLineEnd rest
      readLines fuel current root rest

/-- The top table of a settings file. Every line read takes a character, so the length bounds the
fuel. -/
def parse? (text : String) : Option Entries :=
  let cs := match text.toList with
    | '\ufeff' :: rest => rest
    | cs => cs
  readLines (2 * cs.length + 4) [] [] cs

end Flowscript.Toml
