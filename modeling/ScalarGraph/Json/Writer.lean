import ScalarGraph.Json
import ScalarGraph.Decimal.Notation

/-! # Writing JSON

Values are written in ASCII, either without blanks or with one item a line and
two blanks of indentation a level. What is not ASCII is escaped by its units.
-/
namespace ScalarGraph.Json

def unitText (n : Nat) : Text := Text.ofString "\\u" ++ Text.ofHex 4 n

def characterText (c : CodePoint) : Text :=
  if c.isOneOf ['"', '\\'] then [.ofChar '\\', c]
  else if c.is '\n' then Text.ofString "\\n"
  else if c.is '\r' then Text.ofString "\\r"
  else if c.is '\t' then Text.ofString "\\t"
  else if c.value = 8 then Text.ofString "\\b"
  else if c.value = 12 then Text.ofString "\\f"
  else if 0x20 ≤ c.value ∧ c.value ≤ 0x7e then [c]
  else if c.value < 0x10000 then unitText c.value
  else
    unitText (0xd800 + (c.value - 0x10000) / 0x400) ++ unitText (0xdc00 + (c.value - 0x10000) % 0x400)

def quote (t : Text) : Text := .ofChar '"' :: t.flatMap characterText ++ [.ofChar '"']

def realText (x : Float) : Text :=
  if x.isNaN then Text.ofString "NaN"
  else if x.isInf then Text.ofString (if x < 0.0 then "-Infinity" else "Infinity")
  else Decimal.written x

def boolText (b : Bool) : Text := Text.ofString (if b then "true" else "false")

/-- Parts between an opening and a closing mark, nothing between them where there are none. -/
def enclosed (start stop separator : Text) (parts : List Text) : Text :=
  start ++ Text.join separator parts ++ stop

mutual
def compact : Json → Text
  | null => Text.ofString "null"
  | bool b => boolText b
  | int i => Text.ofInt i
  | real x => realText x
  | text t => quote t
  | array items => enclosed (Text.ofString "[") (Text.ofString "]") (Text.ofString ",") (compactItems items)
  | object fields =>
    enclosed (Text.ofString "\x7b") (Text.ofString "\x7d") (Text.ofString ",") (compactFields fields)

def compactItems : List Json → List Text
  | [] => []
  | v :: vs => compact v :: compactItems vs

def compactFields : List (Text × Json) → List Text
  | [] => []
  | (name, v) :: fs => (quote name ++ Text.ofString ":" ++ compact v) :: compactFields fs
end

def newLine (depth : Nat) : Text := Text.ofString "\n" ++ Text.fill ' ' (2 * depth)

/-- Parts on lines of their own, one level deeper than the marks around them. -/
def enclosedLines (depth : Nat) (start stop : Text) (parts : List Text) : Text :=
  if parts.isEmpty then start ++ stop
  else enclosed (start ++ newLine (depth + 1)) (newLine depth ++ stop)
    (Text.ofString "," ++ newLine (depth + 1)) parts

mutual
def indented (depth : Nat) : Json → Text
  | null => Text.ofString "null"
  | bool b => boolText b
  | int i => Text.ofInt i
  | real x => realText x
  | text t => quote t
  | array items =>
    enclosedLines depth (Text.ofString "[") (Text.ofString "]") (indentedItems (depth + 1) items)
  | object fields =>
    enclosedLines depth (Text.ofString "\x7b") (Text.ofString "\x7d") (indentedFields (depth + 1) fields)

def indentedItems (depth : Nat) : List Json → List Text
  | [] => []
  | v :: vs => indented depth v :: indentedItems depth vs

def indentedFields (depth : Nat) : List (Text × Json) → List Text
  | [] => []
  | (name, v) :: fs => (quote name ++ Text.ofString ": " ++ indented depth v) :: indentedFields depth fs
end

end ScalarGraph.Json
