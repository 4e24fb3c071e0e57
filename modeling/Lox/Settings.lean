import Lox.Directory
import Lox.Failure
import Lox.Text.Quoted
import Lox.Toml.Document

/-!
# Settings

The settings of the interpreter come from defaults, from a file, and from the command line. A file
must be well formed, give each setting a value of its type, and hold no other keys; the resulting
verbosity must be a level of the log and the stack must have room for a value.
-/

namespace Lox

/-- The settings of the interpreter. -/
structure Settings where
  verbosity : String := "INFO"
  prompt : String := ">> "
  stackMax : Int := 256
  strictDivision : Bool := false
  trace : Bool := false
  /-- The file they were read from, if any. -/
  origin : String := ""
  deriving DecidableEq, Repr

namespace Settings

/-- Why settings are rejected. -/
inductive Error where
  /-- The file cannot be read. -/
  | unreadable (path : String) (fault : Directory.Fault)
  /-- The file is not well formed, or a setting has a value of the wrong type. -/
  | illFormed (path : String)
  /-- The file has other keys. -/
  | unknownKeys (path : String) (keys : List String)
  /-- The verbosity is no level. -/
  | badVerbosity (origin given : String)
  /-- The stack would have no room. -/
  | badStackMax (origin : String)
  deriving DecidableEq, Repr

/-- The failure that an error is reported as. -/
def Error.failure : Error → Failure
  | unreadable path fault =>
    .context ("cannot read " ++ path) (.file (Directory.readText path fault))
  | illFormed path => .settings path "toml: not a settings file"
  | unknownKeys path keys => .settings path ("unknown keys: " ++ ", ".intercalate keys)
  | badVerbosity origin given =>
    .settings origin ("bad verbosity " ++ Text.quoted (Utf8.ofString given))
  | badStackMax origin => .settings origin "stack_max must be positive"

/-- The settings that a file may hold. -/
inductive Field where
  | verbosity | prompt | stackMax | strictDivision | trace
  deriving DecidableEq, Repr

namespace Field

/-- The fields and their names. -/
def all : List (String × Field) :=
  [("verbosity", verbosity), ("prompt", prompt), ("stack_max", stackMax),
   ("strict_division", strictDivision), ("trace", trace)]

/-- A character without regard to case, as far as it matters for the names of the fields. Besides
the ASCII capitals, the long s and the Kelvin sign are other cases of ASCII letters. -/
def fold (c : Char) : Char :=
  if c = 'ſ' then 's'
  else if c = 'K' then 'k'
  else if 'A' ≤ c ∧ c ≤ 'Z' then Char.ofNat (c.toNat + 32)
  else c

/-- The field with a name, whatever the case of its letters. -/
def ofName? (name : String) : Option Field :=
  (all.find? fun entry => entry.1.toList = name.toList.map fold).map Prod.snd

end Field

/-- Sets a field, if the value is of its type. -/
def set? (s : Settings) : Field → Toml.Node → Option Settings
  | .verbosity, .scalar (.text v) => some { s with verbosity := v }
  | .prompt, .scalar (.text v) => some { s with prompt := v }
  | .stackMax, .scalar (.integer i) => some { s with stackMax := i }
  | .strictDivision, .scalar (.boolean b) => some { s with strictDivision := b }
  | .trace, .scalar (.boolean b) => some { s with trace := b }
  | _, _ => none

/-- Sets the fields that a table holds. A table may spell one field in several ways, as `trace` and
`Trace`. Nothing says which of them is meant then; it is a choice that the last one stays. -/
def setAll? (s : Settings) : Toml.Table → Option Settings
  | [] => some s
  | (name, node) :: rest =>
    match Field.ofName? name with
    | none => setAll? s rest
    | some f =>
      match s.set? f node with
      | none => none
      | some s => setAll? s rest

/-- Whether a key of a file is that of a field. -/
def isKnown : Toml.Key → Bool
  | [name] => (Field.ofName? name).isSome
  | _ => false

/-- The texts of the keys that are not those of fields, in order. -/
def strangers (d : Toml.Document) : List String :=
  ((d.keys.filter (!isKnown ·)).map Toml.Key.text).mergeSort fun a b => !decide (b < a)

/-- Checks the settings. -/
def validate (s : Settings) : Except Error Unit :=
  if (Log.Level.ofName? s.verbosity).isNone then .error (.badVerbosity s.origin s.verbosity)
  else if s.stackMax ≤ 0 then .error (.badStackMax s.origin)
  else .ok ()

/-- The settings of a file, on top of the defaults. -/
def ofFile (path : String) (content : Bytes) : Except Error Settings :=
  match Toml.Document.read? content with
  | none => .error (.illFormed path)
  | some d =>
    match setAll? {} d.root with
    | none => .error (.illFormed path)
    | some s =>
      let others := strangers d
      if !others.isEmpty then .error (.unknownKeys path others)
      else
        let s := { s with origin := path }
        match s.validate with
        | .error e => .error e
        | .ok () => .ok s

/-- The file that is read when no other is asked for. It may be absent. -/
def defaultPath : String := "loxide.toml"

/-- The file that is read when a path is given: the default one if the path is empty. -/
def placeOf (path : String) : String :=
  if path.isEmpty then defaultPath else path

/-- The settings in a directory: those of the file at a path or, if the path is empty, of the
default one. -/
def load (d : Directory) (path : String) : Except Error Settings :=
  match d.read (placeOf path) with
  | .ok content => ofFile (placeOf path) content
  | .error fault =>
    if path.isEmpty && fault = .missing then .ok {} else .error (.unreadable (placeOf path) fault)

end Settings

end Lox
