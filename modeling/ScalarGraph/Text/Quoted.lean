import ScalarGraph.Text.Printable

/-! # Quoted texts

A quoted text stands between single quotes, or between double quotes where it
holds a single quote and no double one. What is not printable is escaped by the
shortest of `\x`, `\u` and `\U` that holds the code point.
-/
namespace ScalarGraph.Text

def escaped (quote c : CodePoint) : Text :=
  if c = quote || c.is '\\' then [.ofChar '\\', c]
  else if c.is '\n' then ofString "\\n"
  else if c.is '\r' then ofString "\\r"
  else if c.is '\t' then ofString "\\t"
  else if c.isPrintable then [c]
  else if c.value ≤ 0xff then ofString "\\x" ++ ofHex 2 c.value
  else if c.value ≤ 0xffff then ofString "\\u" ++ ofHex 4 c.value
  else ofString "\\U" ++ ofHex 8 c.value

def quoteFor (t : Text) : CodePoint :=
  .ofChar (if t.any (·.is '\'') && !t.any (·.is '"') then '"' else '\'')

def quoted (t : Text) : Text :=
  quoteFor t :: t.flatMap (escaped (quoteFor t)) ++ [quoteFor t]

def bracketed (items : List Text) : Text :=
  ofString "[" ++ join (ofString ", ") items ++ ofString "]"

end ScalarGraph.Text
