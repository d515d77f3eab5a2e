import ByteMatch.Limits
import ByteMatch.Store
import ByteMatch.Toml.Document
import ByteMatch.Toml.Wrapped

/-!
# ByteMatch.Configuration

The configuration: what the machine has room for, and where prepared character sets are found.

A configuration file is in TOML. What it does not set takes its default. Keys are looked at in
their order as text, and the first fault counts.

* `Configuration.ofTable`: the configuration that a table describes.
* `Configuration.load`: reads a configuration file.
-/

namespace ByteMatch

structure Configuration where
  limits : Limits := {}
  /-- Where prepared character sets are found. -/
  searchPath : Option String := none
deriving DecidableEq, Repr

/-- What is wrong with a configuration file. -/
inductive ConfigurationFault where
  /-- The file does not exist, it is no TOML, or a table has a key that it cannot have. -/
  | unreadable
  | wrongType
  | outOfRange
  | tooShort
  | unknownField
deriving DecidableEq, Repr

/-- A fault of a configuration file, and the keys that lead to it. -/
structure ConfigurationError where
  fault : ConfigurationFault
  path : List String
deriving DecidableEq, Repr

namespace Configuration

open Toml (Value Entries)

/-- A step that looks at a value. The path of a fault starts at the value. -/
abbrev Extracting (α : Type) := Except ConfigurationError α

/-- A step for the value of a key. -/
def below (key : String) (step : Extracting α) : Extracting α :=
  step.mapError fun e => { e with path := key :: e.path }

/-- The key under which a date is found where a table is expected. -/
def dateKey : String := "$__toml_private_datetime"

/-- The entries of a table in the order of their keys. -/
def sortedEntries (entries : Entries) : Entries := entries.mergeSort fun a b => a.1 ≤ b.1

/-- The settings of a section: a table or the settings in a row. -/
inductive Section where
  | fields (entries : Entries)
  | row (elements : List Value)

/-- The section that a value describes. -/
def Section.ofValue : Value → Extracting Section
  | .table _ entries => pure (.fields (sortedEntries entries))
  | .dateTime text => pure (.fields [(dateKey, .string text)])
  | .array _ elements => pure (.row elements)
  | _ => throw ⟨.wrongType, []⟩

def number (bound : Nat) : Value → Extracting Nat
  | .integer n => if 0 ≤ n ∧ n < bound then pure n.toNat else throw ⟨.outOfRange, []⟩
  | _ => throw ⟨.wrongType, []⟩

def text : Value → Extracting String
  | .string s => pure s
  | _ => throw ⟨.wrongType, []⟩

/-- A setting: its name, and how a value is put into a configuration. -/
structure Setting where
  name : String
  assign : Configuration → Value → Extracting Configuration

def limitSetting (name : String) (bound : Nat) (assign : Limits → Nat → Limits) : Setting :=
  ⟨name, fun c v => do return { c with limits := assign c.limits (← number bound v) }⟩

def machineSettings : List Setting :=
  [ limitSetting "max_states" 0x100000000 ({ · with maxStates := · }),
    limitSetting "max_bytecode" 0x100000000 ({ · with maxBytecode := · }),
    limitSetting "max_counters" 0x100 ({ · with maxCounters := · }),
    limitSetting "max_mark_pairs" 0x100 ({ · with maxMarkPairs := · }),
    limitSetting "max_guards" 0x100000000 ({ · with maxGuards := · }) ]

def classSettings : List Setting :=
  [⟨"search_path", fun c v => do return { c with searchPath := some (← text v) }⟩]

def assignFields (settings : List Setting) (c : Configuration) (entries : Entries) :
    Extracting Configuration :=
  entries.foldlM
    (fun c (key, v) =>
      below key
        (match settings.find? (·.name == key) with
        | some setting => setting.assign c v
        | none => throw ⟨.unknownField, []⟩))
    c

/-- Assigns settings in their order, from position `i` on. All of them are needed. -/
def assignRow : Nat → List Setting → Configuration → List Value → Extracting Configuration
  | _, [], c, _ => pure c
  | i, setting :: settings, c, v :: rest => do
    let c ← below (toString i) (setting.assign c v)
    assignRow (i + 1) settings c rest
  | _, _ :: _, _, [] => throw ⟨.tooShort, []⟩

def assignSection (settings : List Setting) (c : Configuration) (v : Value) :
    Extracting Configuration := do
  match ← Section.ofValue v with
  | .fields entries => assignFields settings c entries
  | .row elements => assignRow 0 settings c elements

/-- Assigns a key of the file. Other sections than those of the program are left alone. -/
def assignKey (c : Configuration) (key : String) (v : Value) : Extracting Configuration :=
  if key = "classes" then below key (assignSection classSettings c v)
  else if key = "vm" then below key (assignSection machineSettings c v)
  else pure c

/-- The highest number of states. The next number stands for the end of a character. -/
def stateLimit : Nat := 0xFFFF

/-- The configuration with limits that do not exceed what a machine can have. -/
def clamped (c : Configuration) : Configuration :=
  { c with
    limits :=
      { c.limits with
        maxMarkPairs := min c.limits.maxMarkPairs markBits
        maxStates := min c.limits.maxStates stateLimit } }

def ofTable (entries : Entries) : Extracting Configuration := do
  let c ← (sortedEntries entries).foldlM (fun (c : Configuration) (key, v) => c.assignKey key v) {}
  pure c.clamped

def ofText (s : String) : Extracting Configuration :=
  match (Toml.parse? s).bind Toml.unwrappedEntries? with
  | some entries => ofTable entries
  | none => throw ⟨.unreadable, []⟩

def load (store : Store) (path : Path) : Extracting Configuration :=
  match store.read path with
  | .ok bytes =>
    match String.fromUTF8? ⟨bytes.toArray⟩ with
    | some s => ofText s
    | none => throw ⟨.unreadable, []⟩
  | .error _ => throw ⟨.unreadable, []⟩

end Configuration
end ByteMatch
