/-!
Escapes for characters that a one-line message cannot show as they are.
-/

namespace SearchQuery.Text

/-- The escape of a character by its code point in lower-case hexadecimal digits. -/
def codePointEscape (c : Char) : String :=
  "\\u\x7b" ++ String.ofList (Nat.toDigits 16 c.toNat) ++ "\x7d"

/-- The spelling of a character inside a message: the six characters with a short escape take
it, other printable ASCII characters stand for themselves, and all else goes by code point. -/
def escape (c : Char) : String :=
  if c = '\t' then "\\t"
  else if c = '\r' then "\\r"
  else if c = '\n' then "\\n"
  else if c = '\'' then "\\'"
  else if c = '"' then "\\\""
  else if c = '\\' then "\\\\"
  else if 0x20 ≤ c.toNat ∧ c.toNat ≤ 0x7E then String.singleton c
  else codePointEscape c

example : escape '=' = "=" ∧ escape '\'' = "\\'" ∧ escape '\u00e9' = "\\u\x7be9\x7d" := by decide

end SearchQuery.Text
