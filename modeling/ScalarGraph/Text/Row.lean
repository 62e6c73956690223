import ScalarGraph.Text

/-! # Rows of words

The items of an array stand between brackets, in lines of limited width. Of an
array with many items only those at its ends are shown.
-/
namespace ScalarGraph.Row
variable {β : Type}

/-- A line has at most so many code points. -/
def width : Nat := 75

def limit : Nat := 1000

/-- So many items stand at each end. -/
def margin : Nat := 3

def ends (xs : List β) : List β :=
  if limit < xs.length then xs.take margin ++ xs.drop (xs.length - margin) else xs

/-- The words of an array, with three points in the place of what is left out. -/
def words (format : List β → List Text) (xs : List β) : List Text :=
  let ws := format (ends xs)
  if limit < xs.length then ws.take margin ++ Text.ofString "..." :: ws.drop margin else ws

def withoutBlanks (t : Text) : Text := (t.reverse.dropWhile (·.is ' ')).reverse

/-- Adds words to a line. A word that would end beyond `width` starts the next line. -/
def fillLines (width : Nat) (indent separator line : Text) : List Text → Text
  | [] => line
  | w :: ws =>
    let word := if ws.isEmpty then w else w ++ separator
    if width < line.length + w.length ∧ indent.length < line.length then
      withoutBlanks line ++ Text.ofString "\n" ++ fillLines width indent separator (indent ++ word) ws
    else fillLines width indent separator (line ++ word) ws

/-- Words between brackets. Their lines are indented as far as the first word stands behind a
text of `start` code points. -/
def bracketed (width start : Nat) (separator : String) (words : List Text) : Text :=
  let indent := Text.fill ' ' (start + 1)
  let lines := fillLines width indent (Text.ofString separator) indent words
  Text.ofString "[" ++ lines.drop indent.length ++ Text.ofString "]"

def plain (words : List Text) : Text := bracketed (width - 1) 0 " " words

def lastLineLength (t : Text) : Nat := (t.reverse.takeWhile fun c => !c.is '\n').length

/-- What is noted of an array of `n` items: their number where not all of them are shown, and
their kind where it cannot be seen. -/
def notes (n : Nat) (kind : Option String) : List Text :=
  let number := Text.ofString "shape=(" ++ Text.ofNat n ++ Text.ofString ",)"
  (if limit < n then [number] else []) ++
    (kind.map fun k => Text.ofString "dtype=" ++ Text.ofString k).toList

/-- The words of an array with commas between them. Its notes follow, on a line of their own
where the last one would get too long. -/
def quoted (words notes : List Text) : Text :=
  let kind := Text.ofString "array("
  let body := kind ++ bracketed (width - 2) kind.length ", " words
  if notes.isEmpty then body ++ Text.ofString ")"
  else
    let body := body ++ Text.ofString ","
    let rest := Text.join (Text.ofString ", ") notes ++ Text.ofString ")"
    let gap := if width < lastLineLength body + rest.length + 1
      then Text.ofString "\n" ++ Text.fill ' ' kind.length else Text.ofString " "
    body ++ gap ++ rest

end ScalarGraph.Row
