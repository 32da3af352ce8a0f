import StackScript.Machine.Limits
import StackScript.Decimal.Reader

/-! # Options of the command line -/

namespace StackScript

structure Options where
  limits : Limits := {}
  /-- The arguments that are not options. -/
  inputs : List String := []

inductive OptionError
  | invalidNumber (arg : String)
  | unknownOption (arg : String)
deriving DecidableEq, Repr

def OptionError.message : OptionError → String
  | invalidNumber arg => "invalid number in '" ++ arg ++ "'"
  | unknownOption arg => "unknown option '" ++ arg ++ "'"

namespace Options

/-- A number of at most 64 bits; a plus sign may stand before it. -/
def readNumber? (cs : List Char) : Option Nat :=
  let digits := match cs with
    | '+' :: cs => cs
    | cs => cs
  if digits.isEmpty || !digits.all Char.isDigit then none
  else
    let n := Decimal.digitsValue 0 digits
    if n < 1 <<< 64 then some n else none

/-- The text behind `start`, if the argument begins with it. -/
def valueOf? (start arg : String) : Option (List Char) :=
  if start.toList.isPrefixOf arg.toList then some (arg.toList.drop start.length) else none

def number (arg : String) (cs : List Char) : Except OptionError Nat :=
  match readNumber? cs with
  | some n => .ok n
  | none => .error (.invalidNumber arg)

def add (o : Options) (arg : String) : Except OptionError Options := do
  match valueOf? "--stack-size=" arg, valueOf? "--max-frames=" arg, valueOf? "--budget=" arg with
  | some cs, _, _ => return { o with limits := { o.limits with stack := ← number arg cs } }
  | none, some cs, _ => return { o with limits := { o.limits with frames := ← number arg cs } }
  | none, none, some cs =>
    return { o with limits := { o.limits with budget := some (← number arg cs) } }
  | none, none, none =>
    if (valueOf? "--" arg).isSome then throw (.unknownOption arg)
    else return { o with inputs := o.inputs ++ [arg] }

def parse (args : List String) : Except OptionError Options := args.foldlM add {}

end Options

end StackScript
