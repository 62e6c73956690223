import ScalarGraph.Decimal.Reading

/-! # Command lines

Arguments are first told apart: an option may be given in full, by a part of its
name that no other option starts with, and with its value after an equals sign.
Then they are taken in order. Negative numbers, and what follows two hyphens, are
no options.
-/
namespace ScalarGraph.CommandLine

/-- What the generator of fixtures is asked for. An option whose value is two hyphens is left
without any. -/
structure Request where
  seed : Option Int := some 0
  inputs : Option Int := some 4
  operators : Option Int := some 50
  target : Option Text := some (Text.ofString ".")
  smooth : Bool := false
  check : Bool := false

/-- A command line that asks for nothing: the program ends with an exit code. -/
structure Refusal where
  code : Nat

def Refusal.helped : Refusal := ⟨0⟩

def Refusal.misread : Refusal := ⟨2⟩

def separatorText : Text := Text.ofString "--"

inductive Switch where
  | help | seed | inputs | operators | target | smooth | check
deriving DecidableEq

namespace Switch

def names : List (Text × Switch) :=
  [("-h", help), ("--help", help), ("--seed", seed), ("--inputs", inputs), ("--ops", operators),
    ("--out", target), ("--smooth", smooth), ("--check", check)].map fun p => (Text.ofString p.1, p.2)

def takesValue : Switch → Bool
  | help | smooth | check => false
  | _ => true

end Switch

inductive Argument where
  | plain (t : Text)
  | option (s : Switch) (short : Bool) (value : Option Text)
  | unknown (t : Text)
  | separator

def splitValue (t : Text) : Text × Option Text :=
  match t.dropWhile fun c => !c.is '=' with
  | [] => (t, none)
  | _ :: value => (t.takeWhile fun c => !c.is '=', some value)

def startsWith (t p : Text) : Bool := t.take p.length == p

/-- The options that a shortened name may stand for. -/
def candidates (t : Text) : List Argument :=
  if (t.drop 1).head?.any (·.is '-') then
    let (name, value) := splitValue t
    (Switch.names.filter fun p => startsWith p.1 name).map fun p => .option p.2 false value
  else
    Switch.names.filterMap fun p =>
      if p.1 = t.take 2 then some (.option p.2 true (some (t.drop 2)))
      else if startsWith p.1 t then some (.option p.2 true none)
      else none

def isDigit (c : CodePoint) : Bool := (c.plain?.bind CodePoint.digit?).isSome

/-- A hyphen and digits, perhaps with a point among them; a line may end after them. -/
def isNegativeNumber (t : Text) : Bool :=
  let t := match t.getLast? with
    | some c => if c.is '\n' then t.dropLast else t
    | none => t
  match t with
  | c :: rest =>
    let after := rest.dropWhile isDigit
    let fraction := match after with
      | d :: digits => d.is '.' && !digits.isEmpty && digits.all isDigit
      | [] => !rest.isEmpty
    c.is '-' && fraction
  | [] => false

def classify (t : Text) : Except Refusal Argument :=
  if !t.head?.any (·.is '-') then .ok (.plain t)
  else
    match Switch.names.lookup t with
    | some s => .ok (.option s (t.length == 2) none)
    | none =>
      if t.length = 1 then .ok (.plain t)
      else
        let (name, value) := splitValue t
        match value, Switch.names.lookup name with
        | some v, some s => .ok (.option s (name.length == 2) (some v))
        | _, _ =>
          match candidates t with
          | _ :: _ :: _ => .error .misread
          | [a] => .ok a
          | [] =>
            if isNegativeNumber t || t.any (·.is ' ') then .ok (.plain t)
            else .ok (.unknown t)

def classifyAll : List Text → Except Refusal (List Argument)
  | [] => .ok []
  | t :: ts =>
    if t = separatorText then .ok (.separator :: ts.map .plain)
    else do return (← classify t) :: (← classifyAll ts)

def integer (t : Text) : Except Refusal (Option Int) :=
  if t = separatorText then .ok none
  else
    match Decimal.integer? t with
    | some i => .ok (some i)
    | none => .error .misread

def Request.set (r : Request) (s : Switch) (value : Text) : Except Refusal Request :=
  match s with
  | .seed => (integer value).map fun i => { r with seed := i }
  | .inputs => (integer value).map fun i => { r with inputs := i }
  | .operators => (integer value).map fun i => { r with operators := i }
  | .target => .ok { r with target := if value = separatorText then none else some value }
  | _ => .error .misread

def Request.turnOn (r : Request) : Switch → Except Refusal Request
  | .smooth => .ok { r with smooth := true }
  | .check => .ok { r with check := true }
  | _ => .error .helped

/-- The short options that may follow a hyphen and another one: only the call for help. -/
def onlyHelp (t : Text) : Bool := t.all (·.is 'h')

/-- Takes the arguments in order. `fits` tells whether all of them had a meaning so far. -/
def take (fits : Bool) (r : Request) : List Argument → Except Refusal Request
  | [] => if fits then .ok r else .error .misread
  | .option s short (some value) :: rest =>
    if s.takesValue then do take fits (← r.set s value) rest
    else if short && !value.isEmpty && onlyHelp value then .error .helped
    else .error .misread
  | .option s _ none :: rest =>
    if s.takesValue then
      match rest with
      | .plain t :: rest => do take fits (← r.set s t) rest
      | _ => .error .misread
    else do take fits (← r.turnOn s) rest
  | _ :: rest => take false r rest

def read (arguments : List Text) : Except Refusal Request := do
  take true {} (← classifyAll arguments)

end ScalarGraph.CommandLine
