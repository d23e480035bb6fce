import ThreeAddress.Text.Extender
import ThreeAddress.Text.Printable

namespace ThreeAddress

def hex (n : Nat) : String := String.ofList (Nat.toDigits 16 n)

def escaped : Char → String
  | '\x00' => "\\0"
  | '\t' => "\\t"
  | '\n' => "\\n"
  | '\r' => "\\r"
  | '"' => "\\\""
  | '\\' => "\\\\"
  | c =>
    if isPrintable c && !isExtender c then c.toString
    else "\\u\x7b" ++ hex c.toNat ++ "\x7d"

def quoted (s : String) : String := "\"" ++ String.join (s.toList.map escaped) ++ "\""

end ThreeAddress
