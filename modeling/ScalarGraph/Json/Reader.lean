import ScalarGraph.Json
import ScalarGraph.Decimal.Reading

/-! # Reading JSON

The reader takes the whole grammar of JSON and the three words for what is not a
finite number. A field that is given again replaces the earlier one. Each reader
returns what follows its own part of the text; fuel bounds the nesting, and the
length of the text is always enough of it.
-/
namespace ScalarGraph.Json

inductive Defect where
  | malformed
  | tooManyDigits

abbrev Reader (α : Type) := Text → Except Defect (α × Text)

def skipBlanks (t : Text) : Text := t.dropWhile (·.isOneOf [' ', '\t', '\n', '\r'])

def after? : List Char → Text → Option Text
  | [], t => some t
  | d :: word, c :: t => if c.is d then after? word t else none
  | _ :: _, [] => none

def hexDigit? (c : CodePoint) : Option Nat :=
  if 48 ≤ c.value ∧ c.value ≤ 57 then some (c.value - 48)
  else if 65 ≤ c.value ∧ c.value ≤ 70 then some (c.value - 55)
  else if 97 ≤ c.value ∧ c.value ≤ 102 then some (c.value - 87)
  else none

/-- The unit that four hexadecimal digits name. -/
def unit? : Text → Option (Nat × Text)
  | a :: b :: c :: d :: rest => do
    let a ← hexDigit? a
    let b ← hexDigit? b
    let c ← hexDigit? c
    let d ← hexDigit? d
    return (((a * 16 + b) * 16 + c) * 16 + d, rest)
  | _ => none

/-- The second half of a surrogate pair, where one is escaped here. -/
def lowHalf? (t : Text) : Option (Nat × Text) := do
  let (n, rest) ← unit? (← after? ['\\', 'u'] t)
  if 0xdc00 ≤ n ∧ n ≤ 0xdfff then some (n, rest) else none

def codePoint? (t : Text) : Option (CodePoint × Text) := do
  let (n, rest) ← unit? t
  if 0xd800 ≤ n ∧ n ≤ 0xdbff then
    match lowHalf? rest with
    | some (m, rest) => return (.ofNat (0x10000 + (n - 0xd800) * 0x400 + (m - 0xdc00)), rest)
    | none => return (.ofNat n, rest)
  else return (.ofNat n, rest)

/-- The code point that an escape stands for, after its backslash. -/
def escape? : Text → Option (CodePoint × Text)
  | [] => none
  | c :: rest =>
    if c.is 'u' then codePoint? rest
    else if c.isOneOf ['"', '\\', '/'] then some (c, rest)
    else if c.is 'b' then some (.ofNat 8, rest)
    else if c.is 'f' then some (.ofNat 12, rest)
    else if c.is 'n' then some (.ofNat 10, rest)
    else if c.is 'r' then some (.ofNat 13, rest)
    else if c.is 't' then some (.ofNat 9, rest)
    else none

/-- The rest of a text after its opening quote; `done` holds what was read, last first. -/
def textFrom : Nat → Text → Reader Text
  | 0, _, _ => .error .malformed
  | _ + 1, _, [] => .error .malformed
  | fuel + 1, done, c :: rest =>
    if c.is '"' then .ok (done.reverse, rest)
    else if c.is '\\' then
      match escape? rest with
      | some (d, rest) => textFrom fuel (d :: done) rest
      | none => .error .malformed
    else if c.value < 0x20 then .error .malformed
    else textFrom fuel (c :: done) rest

/-- The digits before the point: a zero alone, or digits that do not start with one. -/
def wholeDigits? (t : Text) : Option (List Nat × Text) :=
  match t with
  | c :: rest => if c.is '0' then some ([0], rest) else
    match Decimal.spanDigits t with
    | (d :: ds, rest) => some (d :: ds, rest)
    | _ => none
  | [] => none

/-- The digits of a fraction, none where no digit follows the point. -/
def fractionDigits (t : Text) : List Nat × Text :=
  match t with
  | c :: rest =>
    if c.is '.' then
      match Decimal.spanDigits rest with
      | (d :: ds, rest) => (d :: ds, rest)
      | _ => ([], t)
    else ([], t)
  | [] => ([], t)

/-- The exponent, where one follows in full. -/
def exponentFrom? (t : Text) : Option (Int × Text) :=
  match t with
  | c :: rest =>
    if c.isOneOf ['e', 'E'] then
      let (negative, rest) := Decimal.spanSign rest
      match Decimal.spanDigits rest with
      | (d :: ds, rest) =>
        let n : Int := Decimal.ofDigits (d :: ds)
        some (if negative then -n else n, rest)
      | _ => none
    else none
  | [] => none

/-- A number after its sign; one with a fraction or an exponent is a real. -/
def number (negative : Bool) : Reader Json := fun t =>
  match wholeDigits? t with
  | none => .error .malformed
  | some (whole, rest) =>
    let (part, rest) := fractionDigits rest
    match part, exponentFrom? rest with
    | [], none =>
      if Decimal.digitLimit < whole.length then .error .tooManyDigits
      else
        let n : Int := Decimal.ofDigits whole
        .ok (.int (if negative then -n else n), rest)
    | _, e =>
      let (e, rest) := e.getD (0, rest)
      let x := Binary64.ofDecimal (Decimal.ofDigits (whole ++ part)) (e - part.length)
      .ok (.real (Binary64.signed negative x), rest)

def word : Reader Json := fun t =>
  let given (w : String) (v : Json) : Option (Json × Text) := (after? w.toList t).map (v, ·)
  let found := (given "null" .null).or <| (given "true" (.bool true)).or <|
    (given "false" (.bool false)).or <| (given "NaN" (.real Binary64.notANumber)).or <|
    (given "Infinity" (.real Binary64.infinity)).or
    (given "-Infinity" (.real (-Binary64.infinity)))
  match found with
  | some r => .ok r
  | none =>
    match after? ['-'] t with
    | some rest => number true rest
    | none => number false t

mutual
/-- A value, at its first code point. -/
def valueFrom : Nat → Reader Json
  | 0, _ => .error .malformed
  | _ + 1, [] => .error .malformed
  | fuel + 1, c :: rest =>
    if c.is '"' then
      match textFrom fuel [] rest with
      | .ok (s, rest) => .ok (.text s, rest)
      | .error e => .error e
    else if c.is '[' then
      match after? [']'] (skipBlanks rest) with
      | some rest => .ok (.array [], rest)
      | none => itemsFrom fuel [] (skipBlanks rest)
    else if c.is '\x7b' then
      match after? ['\x7d'] (skipBlanks rest) with
      | some rest => .ok (.object [], rest)
      | none => fieldsFrom fuel [] (skipBlanks rest)
    else word (c :: rest)

/-- The rest of an array, at an item; `done` holds the items before it, last first. -/
def itemsFrom : Nat → List Json → Reader Json
  | 0, _, _ => .error .malformed
  | fuel + 1, done, t =>
    match valueFrom fuel t with
    | .error e => .error e
    | .ok (v, rest) =>
      match after? [','] (skipBlanks rest) with
      | some rest => itemsFrom fuel (v :: done) (skipBlanks rest)
      | none =>
        match after? [']'] (skipBlanks rest) with
        | some rest => .ok (.array (v :: done).reverse, rest)
        | none => .error .malformed

/-- The rest of an object, at a name; `done` holds the fields before it. -/
def fieldsFrom : Nat → List (Text × Json) → Reader Json
  | 0, _, _ => .error .malformed
  | fuel + 1, done, t =>
    match after? ['"'] t with
    | none => .error .malformed
    | some rest =>
      match textFrom fuel [] rest with
      | .error e => .error e
      | .ok (name, rest) =>
        match after? [':'] (skipBlanks rest) with
        | none => .error .malformed
        | some rest =>
          match valueFrom fuel (skipBlanks rest) with
          | .error e => .error e
          | .ok (v, rest) =>
            match after? [','] (skipBlanks rest) with
            | some rest => fieldsFrom fuel (Keyed.put name v done) (skipBlanks rest)
            | none =>
              match after? ['\x7d'] (skipBlanks rest) with
              | some rest => .ok (.object (Keyed.put name v done), rest)
              | none => .error .malformed
end

/-- The value that a whole text holds. Arrays and objects may be nested to any depth: the limit that the
stack of an interpreter sets, with its own fault for a text nested too deeply, is left out. -/
def read (t : Text) : Except Defect Json :=
  match valueFrom (2 * t.length + 2) (skipBlanks t) with
  | .error e => .error e
  | .ok (v, rest) => if (skipBlanks rest).isEmpty then .ok v else .error .malformed

end ScalarGraph.Json
