import SearchQuery.Text.Escape
import SearchQuery.Text.Visible

/-!
Texts and characters between quotes, with everything escaped that would not be seen.
-/

namespace SearchQuery.Text

/-- The spelling of a character between quotes of the given sort: the quote and the characters
with a short escape take a backslash, and hidden characters go by code point. -/
def showChar (quote c : Char) : String :=
  if c = '\x00' then "\\0"
  else if c = '\t' then "\\t"
  else if c = '\r' then "\\r"
  else if c = '\n' then "\\n"
  else if c = '\\' ∨ c = quote then "\\" ++ String.singleton c
  else if isHidden c then codePointEscape c
  else String.singleton c

/-- A text between double quotes. -/
def quoted (s : String) : String :=
  "\"" ++ String.join (s.toList.map (showChar '"')) ++ "\""

/-- A character between single quotes. -/
def quotedChar (c : Char) : String :=
  "'" ++ showChar '\'' c ++ "'"

example : quoted "a\"b'\n" = "\"a\\\"b'\\n\"" := by decide +kernel

end SearchQuery.Text
