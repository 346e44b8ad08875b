import ExplicitControl.Text.Unprintable

/-!
Quoted text: how a string is shown inside a value, a name table or a frame. The marks that would end or
confuse the quotation are escaped, and so is every character without a visible form of its own.
-/

namespace ExplicitControl.Text

def quoteChar (c : Char) : List Char :=
  match c with
  | '\"' => ['\\', '\"']
  | '\\' => ['\\', '\\']
  | '\n' => ['\\', 'n']
  | '\r' => ['\\', 'r']
  | '\t' => ['\\', 't']
  | '\x00' => ['\\', '0']
  | c =>
    if isPrintable c then [c]
    else ['\\', 'u', '\x7b'] ++ Nat.toDigits 16 c.toNat ++ ['\x7d']

def quote (s : String) : String :=
  String.ofList ('\"' :: s.toList.flatMap quoteChar ++ ['\"'])

end ExplicitControl.Text
