import ScriptPress.Text.Decimal

/-! # Script dialects

A dialect is a level of the scripting language: a numbered version, or the latest one when no
version is asked for. Each level adds to the one before it.
-/
namespace ScriptPress

inductive Dialect where
  | latest | v10 | v11 | v12 | v13 | v14 | v15
  deriving Repr, DecidableEq, Inhabited

namespace Dialect

def all : List Dialect := [latest, v10, v11, v12, v13, v14, v15]

/-- A hundred times the version number; zero stands for the latest dialect. -/
def code : Dialect → Nat
  | latest => 0
  | v10 => 100
  | v11 => 110
  | v12 => 120
  | v13 => 130
  | v14 => 140
  | v15 => 150

def ofCode? (code : Nat) : Option Dialect := all.find? (·.code == code)

def name : Dialect → String
  | latest => "default"
  | v10 => "1.0"
  | v11 => "1.1"
  | v12 => "1.2"
  | v13 => "1.3"
  | v14 => "1.4"
  | v15 => "1.5"

def ofName? (name : String) : Option Dialect := all.find? (·.name == name)

/-- The latest dialect is above every numbered one, and those go by their number. -/
def atLeast (a b : Dialect) : Bool :=
  a == latest || (b != latest && b.code ≤ a.code)

def hasRegExpLiterals (d : Dialect) : Bool := d.atLeast v12

def hasSwitch (d : Dialect) : Bool := d.atLeast v12

def hasStrictEquality (d : Dialect) : Bool := d.atLeast v13

def hasExceptions (d : Dialect) : Bool := d.atLeast v14

def hasCatchGuards (d : Dialect) : Bool := d.atLeast v15

/-- The dialect with a version number, which may be off by a billionth. -/
def ofNumber? (value : Float) : Option Dialect :=
  if !value.isFinite || value < 0.0 then none else
    let code := (value * 100.0).round
    if (code / 100.0 - value).abs > 1e-9 then none
    else all.find? fun d => Float.ofNat d.code == code

/-- Reads a dialect's number or the word `default`, in any case. The error is the text of what
names no dialect. -/
def read (text : String) : Except String Dialect :=
  let text := Text.trim text.toList
  if Text.lower text = "default".toList then .ok latest else
    match Text.readDouble? text with
    | none => .error (String.ofList text)
    | some value =>
      match ofNumber? value with
      | none => .error (Text.doubleText value)
      | some d => .ok d

end Dialect
end ScriptPress
