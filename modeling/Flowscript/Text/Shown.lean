import Flowscript.Text.Hex
import Flowscript.Text.Printable

/-! # Text shown in messages

A text inside a message stands between quotes; characters that would not be seen are shown by an
escape.
-/
namespace Flowscript.Text

/-- The characters shown for `c` between quotes. -/
def showChar (c : Char) : List Char :=
  match c with
  | '\x00' => ['\\', '0']
  | '\t' => ['\\', 't']
  | '\n' => ['\\', 'n']
  | '\r' => ['\\', 'r']
  | '"' => ['\\', '"']
  | '\\' => ['\\', '\\']
  | c =>
    if isPrintable c then [c]
    else '\\' :: 'u' :: '\x7b' :: (Nat.toDigits 16 c.toNat ++ ['\x7d'])

def shown (s : String) : String :=
  String.ofList ('"' :: (s.toList.flatMap showChar ++ ['"']))

end Flowscript.Text
