import Flowscript.Text.Hex

/-! # Quoted text of data documents

A quote, a backslash and the control characters below the blank are escaped; everything else stands
for itself.
-/
namespace Flowscript.Text

/-- The characters written for `c` between quotes. -/
def escapeChar (c : Char) : List Char :=
  if c = '"' then ['\\', '"']
  else if c = '\\' then ['\\', '\\']
  else if c.toNat < 0x20 then
    match c.toNat with
    | 8 => ['\\', 'b']
    | 9 => ['\\', 't']
    | 10 => ['\\', 'n']
    | 12 => ['\\', 'f']
    | 13 => ['\\', 'r']
    | n => '\\' :: 'u' :: hexDigits 4 n
  else [c]

def quote (s : String) : List Char :=
  '"' :: (s.toList.flatMap escapeChar ++ ['"'])

end Flowscript.Text
