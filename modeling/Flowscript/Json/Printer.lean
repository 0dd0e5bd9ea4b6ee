import Flowscript.Json.Basic
import Flowscript.Text.Quote

/-! # Written documents

Documents are written in one line without blanks, or over several lines indented by two blanks per
level. A number that is not finite is written as null.
-/
namespace Flowscript

def Number.text : Number → String
  | .int n => toString n
  | .double x => if x.isFinite then x.text else "null"
  | .single x => if x.isFinite then x.text else "null"

namespace Json

def scalarChars : Json → List Char
  | .bool true => "true".toList
  | .bool false => "false".toList
  | .num n => n.text.toList
  | .str s => Text.quote s
  | _ => "null".toList

mutual

def compactChars : Json → List Char
  | .arr items => '[' :: compactItems items
  | .obj entries => '\x7b' :: compactEntries entries
  | j => scalarChars j

def compactItems : List Json → List Char
  | [] => [']']
  | [j] => compactChars j ++ [']']
  | j :: rest => compactChars j ++ ',' :: compactItems rest

def compactEntries : List (String × Json) → List Char
  | [] => ['\x7d']
  | [(k, j)] => Text.quote k ++ ':' :: (compactChars j ++ ['\x7d'])
  | (k, j) :: rest => Text.quote k ++ ':' :: (compactChars j ++ ',' :: compactEntries rest)

end

def newLine (level : Nat) : List Char := '\n' :: List.replicate (2 * level) ' '

mutual

/-- The document over several lines, at an indentation level. -/
def prettyChars (level : Nat) : Json → List Char
  | .arr [] => ['[', ']']
  | .arr (j :: rest) =>
    '[' :: (newLine (level + 1) ++ (prettyChars (level + 1) j ++ prettyItems level rest))
  | .obj [] => ['\x7b', '\x7d']
  | .obj ((k, j) :: rest) =>
    '\x7b' :: (newLine (level + 1) ++ (Text.quote k ++ ':' :: ' ' ::
      (prettyChars (level + 1) j ++ prettyEntries level rest)))
  | j => scalarChars j

def prettyItems (level : Nat) : List Json → List Char
  | [] => newLine level ++ [']']
  | j :: rest =>
    ',' :: (newLine (level + 1) ++ (prettyChars (level + 1) j ++ prettyItems level rest))

def prettyEntries (level : Nat) : List (String × Json) → List Char
  | [] => newLine level ++ ['\x7d']
  | (k, j) :: rest =>
    ',' :: (newLine (level + 1) ++ (Text.quote k ++ ':' :: ' ' ::
      (prettyChars (level + 1) j ++ prettyEntries level rest)))

end

def compact (j : Json) : String := String.ofList (compactChars j)

def pretty (j : Json) : String := String.ofList (prettyChars 0 j)

end Json

end Flowscript
