import Flowscript.Json.Basic
import Flowscript.Text.Hex

/-! # Reading documents

Reading turns characters into a draft: the tree as far as the text is well formed, with a mark at the
place where it breaks off. Whoever interprets the draft walks it in text order, and so meets a
misplaced value or the broken place, whichever comes first. Containers nested more than 127 deep are
marked; they may be walked past but not interpreted. The same goes for numbers that are too large and
for texts, keys among them, with half a surrogate pair.
-/
namespace Flowscript

inductive ReadFault where
  /-- Well-formed text of the wrong shape. -/
  | mismatch
  /-- Text that is not a document. -/
  | malformed
  /-- Text that ends too early. -/
  | truncated
deriving DecidableEq, Repr, Inhabited

/-- What those who come to a broken place meet there. -/
structure Break where
  /-- Met by whoever interprets it. -/
  fault : ReadFault
  /-- Met by whoever expects one of several names. -/
  choice : ReadFault
  /-- Met by whoever only walks past, if anything. -/
  passing : Option ReadFault
deriving DecidableEq, Repr, Inhabited

/-- The key of an entry as far as it could be read. -/
inductive EntryKey where
  | text (s : String)
  | broken (b : Break)
deriving DecidableEq, Repr, Inhabited

def Break.pass (b : Break) : Except ReadFault Unit :=
  match b.passing with
  | some fault => .error fault
  | none => .ok ()

def EntryKey.skip : EntryKey → Except ReadFault Unit
  | .text _ => .ok ()
  | .broken b => b.pass

def EntryKey.asText : EntryKey → Except ReadFault String
  | .text s => .ok s
  | .broken b => .error b.fault

/-- A document as far as it could be read, entries in text order. -/
inductive Draft where
  | null
  | bool (b : Bool)
  | num (n : Number)
  | str (s : String)
  | arr (items : List Draft) (ending : Option ReadFault)
  | obj (entries : List (EntryKey × Draft)) (ending : Option ReadFault)
  /-- Nothing that can be interpreted. -/
  | broken (b : Break)
  | tooDeep (inner : Draft)
deriving Inhabited

namespace Draft

def maxDepth : Nat := 127

def isBlank (c : Char) : Bool := c = ' ' || c = '\n' || c = '\t' || c = '\r'

def skipBlanks (cs : List Char) : List Char := cs.dropWhile isBlank

/-- Bytes that the leading characters take in the text's encoding, at most those of four. -/
def leadingBytes (cs : List Char) : Nat := (cs.take 4).foldl (fun n c => n + c.utf8Size) 0

def readHex4 : List Char → Except ReadFault (Nat × List Char)
  | a :: b :: c :: d :: rest =>
    match Text.hexValue? a, Text.hexValue? b, Text.hexValue? c, Text.hexValue? d with
    | some a, some b, some c, some d => .ok (((a * 16 + b) * 16 + c) * 16 + d, rest)
    | _, _, _, _ => .error .malformed
  | cs => .error (if leadingBytes cs < 4 then .truncated else .malformed)

/-- The character of a `\u` escape; a leading surrogate needs a trailing one after it. -/
def readUnicode (cs : List Char) : Except ReadFault (Char × List Char) := do
  let (n, rest) ← readHex4 cs
  if 0xdc00 ≤ n ∧ n ≤ 0xdfff then .error .malformed
  else if 0xd800 ≤ n ∧ n ≤ 0xdbff then
    match rest with
    | [] => .error .truncated
    | '\\' :: rest =>
      match rest with
      | [] => .error .truncated
      | 'u' :: rest => do
        let (m, rest) ← readHex4 rest
        if 0xdc00 ≤ m ∧ m ≤ 0xdfff then
          .ok (Char.ofNat (0x10000 + (n - 0xd800) * 0x400 + (m - 0xdc00)), rest)
        else .error .malformed
      | _ => .error .malformed
    | _ => .error .malformed
  else .ok (Char.ofNat n, rest)

def readText : Nat → List Char → List Char → Except ReadFault (String × List Char)
  | 0, _, _ => .error .truncated
  | _ + 1, _, [] => .error .truncated
  | _ + 1, out, '"' :: rest => .ok (String.ofList out.reverse, rest)
  | fuel + 1, out, '\\' :: rest =>
    match rest with
    | [] => .error .truncated
    | '"' :: rest => readText fuel ('"' :: out) rest
    | '\\' :: rest => readText fuel ('\\' :: out) rest
    | '/' :: rest => readText fuel ('/' :: out) rest
    | 'b' :: rest => readText fuel ('\x08' :: out) rest
    | 'f' :: rest => readText fuel ('\x0c' :: out) rest
    | 'n' :: rest => readText fuel ('\n' :: out) rest
    | 'r' :: rest => readText fuel ('\r' :: out) rest
    | 't' :: rest => readText fuel ('\t' :: out) rest
    | 'u' :: rest =>
      match readUnicode rest with
      | .ok (c, rest) => readText fuel (c :: out) rest
      | .error e => .error e
    | _ => .error .malformed
  | fuel + 1, out, c :: rest =>
    if c.toNat < 0x20 then .error .malformed else readText fuel (c :: out) rest

/-- Walks past the rest of a quoted text; its escapes need not stand for characters. -/
def passText : Nat → List Char → Except ReadFault (List Char)
  | 0, _ => .error .truncated
  | _ + 1, [] => .error .truncated
  | _ + 1, '"' :: rest => .ok rest
  | fuel + 1, '\\' :: rest =>
    match rest with
    | [] => .error .truncated
    | 'u' :: rest =>
      match readHex4 rest with
      | .ok (_, rest) => passText fuel rest
      | .error e => .error e
    | c :: rest =>
      if ['"', '\\', '/', 'b', 'f', 'n', 'r', 't'].contains c then passText fuel rest
      else .error .malformed
  | fuel + 1, c :: rest => if c.toNat < 0x20 then .error .malformed else passText fuel rest

/-- Digits collected into a significand, and how many were left out because it was full. -/
structure Digits where
  significand : Nat
  taken : Nat
  dropped : Nat

/-- Collects digits while the significand stays below `2 ^ 64`; the rest is only counted. -/
def Digits.collect (d : Digits) : List Char → Digits
  | [] => d
  | c :: rest =>
    let next := d.significand * 10 + (c.toNat - '0'.toNat)
    if d.dropped = 0 ∧ next < 0x10000000000000000 then collect ⟨next, d.taken + 1, 0⟩ rest
    else collect { d with dropped := d.dropped + 1 } rest

def isDigit (c : Char) : Bool := '0' ≤ c && c ≤ '9'

/-- The value of exponent digits, or `none` when it does not fit 31 bits. -/
def exponentValue (cs : List Char) : Option Nat :=
  cs.foldl (fun n c => n.bind fun n =>
    let next := n * 10 + (c.toNat - '0'.toNat)
    if next < 0x80000000 then some next else none) (some 0)

def floating (negative : Bool) (significand : Nat) (exponent : Int) : Except ReadFault Number :=
  match F64.ofDecimal? (UInt64.ofNat significand) exponent with
  | some x => .ok (.double (if negative then ⟨x.bits ||| 0x8000000000000000⟩ else x))
  | none => .error .malformed

def readExponent (negative : Bool) (significand : Nat) (start : Int) (cs : List Char) :
    Except ReadFault (Number × List Char) :=
  let (down, cs) := match cs with
    | '+' :: rest => (false, rest)
    | '-' :: rest => (true, rest)
    | cs => (false, cs)
  let digits := cs.takeWhile isDigit
  let rest := cs.dropWhile isDigit
  if digits.isEmpty then .error (if rest.isEmpty then .truncated else .malformed)
  else match exponentValue digits with
    | none =>
      if significand ≠ 0 ∧ !down then .error .malformed
      else .ok (.double ⟨if negative then 0x8000000000000000 else 0⟩, rest)
    | some e => do
      let n ← floating negative significand (if down then start - e else start + e)
      .ok (n, rest)

def readFraction (negative : Bool) (whole : Digits) (cs : List Char) :
    Except ReadFault (Number × List Char) :=
  match cs with
  | '.' :: rest =>
    let digits := rest.takeWhile isDigit
    let rest := rest.dropWhile isDigit
    if digits.isEmpty then .error (if rest.isEmpty then .truncated else .malformed)
    else
      let all := Digits.collect ⟨whole.significand, 0, 0⟩ digits
      let exponent : Int := whole.dropped - all.taken
      match rest with
      | 'e' :: rest => readExponent negative all.significand exponent rest
      | 'E' :: rest => readExponent negative all.significand exponent rest
      | rest => do
        let n ← floating negative all.significand exponent
        .ok (n, rest)
  | 'e' :: rest => readExponent negative whole.significand whole.dropped rest
  | 'E' :: rest => readExponent negative whole.significand whole.dropped rest
  | rest =>
    let n : Int := if negative then -whole.significand else whole.significand
    if whole.dropped ≠ 0 ∨ (negative ∧ (whole.significand = 0 ∨ n < -0x8000000000000000)) then do
      let n ← floating negative whole.significand whole.dropped
      .ok (n, rest)
    else .ok (.int n, rest)

/-- Reads a number. A whole number has no leading zeros and is an integer if it fits 64 bits. -/
def readNumber (cs : List Char) : Except ReadFault (Number × List Char) :=
  let (negative, cs) := match cs with
    | '-' :: rest => (true, rest)
    | cs => (false, cs)
  match cs with
  | [] => .error .truncated
  | '0' :: rest =>
    match rest with
    | c :: _ => if isDigit c then .error .malformed else readFraction negative ⟨0, 1, 0⟩ rest
    | [] => readFraction negative ⟨0, 1, 0⟩ rest
  | c :: _ =>
    if isDigit c then
      let digits := cs.takeWhile isDigit
      readFraction negative (Digits.collect ⟨0, 0, 0⟩ digits) (cs.dropWhile isDigit)
    else .error .malformed

def passDigits : List Char → Option (List Char)
  | c :: rest => if isDigit c then some (rest.dropWhile isDigit) else none
  | [] => none

def passExponent (cs : List Char) : Option (List Char) :=
  match cs with
  | c :: rest =>
    if c = 'e' || c = 'E' then
      match rest with
      | '+' :: rest => passDigits rest
      | '-' :: rest => passDigits rest
      | rest => passDigits rest
    else some cs
  | [] => some []

def passNumber (cs : List Char) : Option (List Char) := do
  let cs := match cs with
    | '-' :: rest => rest
    | cs => cs
  let rest ← match cs with
    | '0' :: rest => if rest.head?.any isDigit then none else some rest
    | cs => passDigits cs
  match rest with
  | '.' :: rest => passExponent (← passDigits rest)
  | rest => passExponent rest

def breakOff (fault : ReadFault) : Draft := .broken ⟨fault, fault, some fault⟩

/-- An unfinished or misspelled keyword. Its first letter already shows that it is no choice. -/
def garbled (fault : ReadFault) : Draft := .broken ⟨fault, .malformed, some fault⟩

def readWord (draft : Draft) : List Char → List Char → Draft × List Char
  | [], cs => (draft, cs)
  | _, [] => (garbled .truncated, [])
  | w :: ws, c :: cs => if w = c then readWord draft ws cs else (garbled .malformed, [])

def readQuoted (fuel : Nat) (cs : List Char) : Draft × List Char :=
  match readText fuel [] cs with
  | .ok (s, rest) => (.str s, rest)
  | .error fault =>
    match passText fuel cs with
    | .ok rest => (.broken ⟨fault, fault, none⟩, rest)
    | .error passing => (.broken ⟨fault, fault, some passing⟩, [])

def readKey (fuel : Nat) (cs : List Char) : EntryKey × List Char :=
  match readQuoted fuel cs with
  | (.str s, rest) => (.text s, rest)
  | (.broken b, rest) => (.broken b, rest)
  | (_, rest) => (.broken ⟨.malformed, .malformed, some .malformed⟩, rest)

/-- The key of an object that starts with a value other than a text. Where a choice is expected the
value counts as misplaced. -/
def foreignKey (d : Draft) : EntryKey :=
  let choice : ReadFault := match d with
    | .broken b => b.fault
    | _ => .mismatch
  .broken ⟨.malformed, choice, some .malformed⟩

def readNumeral (cs : List Char) : Draft × List Char :=
  match readNumber cs with
  | .ok (n, rest) => (.num n, rest)
  | .error fault =>
    match passNumber cs with
    | some rest => (.broken ⟨fault, .malformed, none⟩, rest)
    | none => (.broken ⟨fault, .malformed, some .malformed⟩, [])

def bounded (depth : Nat) (d : Draft) : Draft := if depth < maxDepth then d else .tooDeep d

mutual

/-- Reads a value. A break that cannot be walked past leaves no characters behind. -/
def readValue : Nat → Nat → List Char → Draft × List Char
  | 0, _, _ => (breakOff .truncated, [])
  | fuel + 1, depth, cs =>
    match skipBlanks cs with
    | [] => (breakOff .truncated, [])
    | 'n' :: rest => readWord .null ['u', 'l', 'l'] rest
    | 't' :: rest => readWord (.bool true) ['r', 'u', 'e'] rest
    | 'f' :: rest => readWord (.bool false) ['a', 'l', 's', 'e'] rest
    | '"' :: rest => readQuoted (fuel + 1) rest
    | '[' :: rest =>
      let (items, ending, rest) := readItems fuel (depth + 1) true rest
      (bounded depth (.arr items ending), rest)
    | '\x7b' :: rest =>
      let (entries, ending, rest) := readEntries fuel (depth + 1) true rest
      (bounded depth (.obj entries ending), rest)
    | c :: rest =>
      if c = '-' || isDigit c then readNumeral (c :: rest) else (breakOff .malformed, [])

/-- Reads the items of a list up to its closing bracket. A text that ends after a comma breaks off in
the next item. -/
def readItems : Nat → Nat → Bool → List Char → List Draft × Option ReadFault × List Char
  | 0, _, _, _ => ([], some .truncated, [])
  | fuel + 1, depth, first, cs =>
    let item := fun (cs : List Char) =>
      let (d, rest) := readValue fuel depth cs
      let (items, ending, rest) := readItems fuel depth false rest
      (d :: items, ending, rest)
    match skipBlanks cs with
    | [] => ([], some .truncated, [])
    | ']' :: rest => ([], none, rest)
    | c :: rest =>
      if first then item (c :: rest)
      else if c = ',' then
        match skipBlanks rest with
        | [] => ([breakOff .truncated], none, [])
        | ']' :: _ => ([], some .malformed, [])
        | rest => item rest
      else ([], some .malformed, [])

/-- Reads the entries of an object up to its closing brace. A text that ends after a comma breaks off
in the next entry. -/
def readEntries :
    Nat → Nat → Bool → List Char → List (EntryKey × Draft) × Option ReadFault × List Char
  | 0, _, _, _ => ([], some .truncated, [])
  | fuel + 1, depth, first, cs =>
    let entry := fun (cs : List Char) =>
      let (key, rest) := readKey (fuel + 1) cs
      match skipBlanks rest with
      | [] => ([(key, breakOff .truncated)], none, [])
      | ':' :: rest =>
        let (d, rest) := readValue fuel depth rest
        let (entries, ending, rest) := readEntries fuel depth false rest
        ((key, d) :: entries, ending, rest)
      | _ => ([(key, breakOff .malformed)], none, [])
    match skipBlanks cs with
    | [] => ([], some .truncated, [])
    | '\x7d' :: rest => ([], none, rest)
    | '"' :: rest => if first then entry rest else ([], some .malformed, [])
    | c :: rest =>
      if first then
        let (d, _) := readValue fuel depth (c :: rest)
        ([(foreignKey d, breakOff .malformed)], none, [])
      else if c = ',' then
        match skipBlanks rest with
        | [] => ([(.text "", breakOff .truncated)], none, [])
        | '"' :: rest => entry rest
        | _ => ([], some .malformed, [])
      else ([], some .malformed, [])

end

mutual

/-- Walks past a draft: only a break is a fault. -/
def skip : Draft → Except ReadFault Unit
  | .broken b => b.pass
  | .tooDeep inner => skip inner
  | .arr items ending => do
    skipItems items
    match ending with
    | some fault => .error fault
    | none => .ok ()
  | .obj entries ending => do
    skipEntries entries
    match ending with
    | some fault => .error fault
    | none => .ok ()
  | _ => .ok ()

def skipItems : List Draft → Except ReadFault Unit
  | [] => .ok ()
  | d :: rest => do skip d; skipItems rest

def skipEntries : List (EntryKey × Draft) → Except ReadFault Unit
  | [] => .ok ()
  | (key, d) :: rest => do key.skip; skip d; skipEntries rest

end

mutual

/-- The document of an unbroken draft, objects in key order, the last of equal keys kept. -/
def toJson : Draft → Except ReadFault Json
  | .null => .ok .null
  | .bool b => .ok (.bool b)
  | .num n => .ok (.num n)
  | .str s => .ok (.str s)
  | .arr items ending => do
    let items ← itemsToJson items
    match ending with
    | some fault => .error fault
    | none => .ok (.arr items)
  | .obj entries ending => do
    let entries ← entriesToJson entries
    match ending with
    | some fault => .error fault
    | none => .ok (.ofEntries entries)
  | .broken b => .error b.fault
  | .tooDeep _ => .error .malformed

def itemsToJson : List Draft → Except ReadFault (List Json)
  | [] => .ok []
  | d :: rest => do
    let j ← toJson d
    let rest ← itemsToJson rest
    .ok (j :: rest)

def entriesToJson : List (EntryKey × Draft) → Except ReadFault (List (String × Json))
  | [] => .ok []
  | (key, d) :: rest => do
    let k ← key.asText
    let j ← toJson d
    let rest ← entriesToJson rest
    .ok ((k, j) :: rest)

end

mutual

def ofJson : Json → Draft
  | .null => .null
  | .bool b => .bool b
  | .num n => .num n
  | .str s => .str s
  | .arr items => .arr (ofItems items) none
  | .obj entries => .obj (ofEntries entries) none

def ofItems : List Json → List Draft
  | [] => []
  | j :: rest => ofJson j :: ofItems rest

def ofEntries : List (String × Json) → List (EntryKey × Draft)
  | [] => []
  | (k, j) :: rest => (.text k, ofJson j) :: ofEntries rest

end

def record (entries : List (String × Draft)) : Draft :=
  .obj (entries.map fun e => (.text e.1, e.2)) none

/-- The draft of a whole text and the fault in what follows it, if any. Every two nested calls of
the reader take a character, so twice the length is enough fuel. -/
def read (text : String) : Draft × Option ReadFault :=
  let cs := text.toList
  let (d, rest) := readValue (2 * cs.length + 2) 0 cs
  (d, if (skipBlanks rest).isEmpty then none else some .malformed)

/-- Interprets a whole text: the value first, then what follows it. -/
def interpret {α : Type} (decode : Draft → Except ReadFault α) (text : String) :
    Except ReadFault α := do
  let (d, after) := read text
  let a ← decode d
  match after with
  | some fault => .error fault
  | none => .ok a

end Draft

def Json.parse (text : String) : Except ReadFault Json := Draft.interpret Draft.toJson text

end Flowscript
