import PlatformOverlay.Decimal.Binary64

/-!
# TOML values

A document is a table.  Keys and values know the line on which they start, and a table
knows how it came about: that decides whether it may still be extended.
-/

namespace PlatformOverlay.Toml

inductive Number where
  | finite (negative : Bool) (value : Decimal.Binary)
  | infinite (negative : Bool)
  | notANumber
deriving DecidableEq, Repr

namespace Number

def text : Number → String
  | .finite negative value =>
      (if negative then "-" else "") ++ value.shortest.positional
  | .infinite negative => if negative then "-inf" else "inf"
  | .notANumber => "NaN"

end Number

inductive Scalar where
  | string (text : String)
  | integer (value : Int)
  | float (value : Number)
  | boolean (value : Bool)
  /-- A date, a time or both.  Nothing is made of them. -/
  | datetime
deriving DecidableEq, Repr

inductive Origin where
  /-- Written in braces; it is complete. -/
  | inline
  /-- Opened by a header of its own, or the document itself. -/
  | header
  /-- Only named on the way to another table in a header. -/
  | parent
  /-- Only named in front of a dot in a key. -/
  | dotted
deriving DecidableEq, Repr

mutual

inductive Value where
  | scalar (line : Nat) (s : Scalar)
  | array (line : Nat) (items : List Value)
  | table (t : Table)
  /-- The tables under equal headers in double brackets. -/
  | tables (ts : List Table)

structure Table where
  origin : Origin
  /-- The line on which the table was opened, if it was. -/
  line : Option Nat
  entries : List Entry

structure Entry where
  key : String
  keyLine : Nat
  value : Value

end

/-- A key with the line on which it stands. -/
structure Key where
  text : String
  line : Nat
deriving DecidableEq, Repr

namespace Value

def line? : Value → Option Nat
  | .scalar line _ => some line
  | .array line _ => some line
  | .table t => t.line
  | .tables ts => ts.head?.bind Table.line

end Value

namespace Table

def empty (origin : Origin) (line : Option Nat) : Table := ⟨origin, line, []⟩

def find? (t : Table) (key : String) : Option Value :=
  (t.entries.find? (·.key = key)).map Entry.value

def add (t : Table) (key : Key) (value : Value) : Table :=
  { t with entries := t.entries ++ [⟨key.text, key.line, value⟩] }

/-- Give the entry of a key another value, at its place. -/
def set (t : Table) (key : String) (value : Value) : Table :=
  { t with entries := t.entries.map fun e ↦ if e.key = key then { e with value } else e }

def erase (t : Table) (key : String) : Table :=
  { t with entries := t.entries.filter fun e ↦ e.key ≠ key }

/-- May keys be added to the table from outside?  Dotted keys reach fewer tables than
headers do. -/
def isOpen (t : Table) (byDots : Bool) : Bool :=
  match t.origin with
  | .inline => false
  | .header => !byDots
  | .parent | .dotted => true

/-- Change the table that a path leads to.  Tables that are missing on the way are made;
an array of tables stands for its last one. -/
def modifyAt (byDots : Bool) (change : Table → Option Table) : List Key → Table → Option Table
  | [], t => change t
  | key :: path, t =>
    match t.find? key.text with
    | none => do
        let inner ← modifyAt byDots change path
          (.empty (if byDots then .dotted else .parent) none)
        return t.add key (.table inner)
    | some (.table inner) =>
        if inner.isOpen byDots then do
          return t.set key.text (.table (← modifyAt byDots change path inner))
        else none
    | some (.tables ts) =>
      match ts.getLast? with
      | some last => do
          let last ← modifyAt byDots change path last
          return t.set key.text (.tables (ts.dropLast ++ [last]))
      | none => none
    | some (.scalar _ _) | some (.array _ _) => none

/-- Add a value under a new key, which may be dotted.  The table that takes it has to be
one that dots have made, or, without dots, one that they have not. -/
def insert (t : Table) (path : List Key) (key : Key) (value : Value) : Option Table :=
  modifyAt true (fun t ↦
    if decide (t.origin = .dotted) = path.isEmpty ∨ (t.find? key.text).isSome then none
    else some (t.add key value)) path t

end Table

end PlatformOverlay.Toml
