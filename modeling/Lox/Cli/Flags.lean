import Lox.Cli.Number
import Lox.Settings

/-!
# Flags

The command line is a list of arguments: flags, their values, and files, in any order. A long flag
begins with two dashes and may have its value after an equals sign; short flags begin with one
dash and may be written together, the last of them with its value. A switch takes a value only
after an equals sign. Two dashes alone end the flags, and a dash alone is a file. Of repeated
flags the last one counts.
-/

namespace Lox.Cli

/-- The flags. -/
inductive Flag where
  | config | verbosity | disassemble | emit | image | strictDivision | stackMax | trace | help
  deriving DecidableEq, Repr

namespace Flag

/-- The flags, in the order of their names. -/
def all : List Flag :=
  [config, disassemble, emit, help, image, stackMax, strictDivision, trace, verbosity]

/-- The long name of a flag. -/
def name : Flag → String
  | config => "config"
  | verbosity => "verbosity"
  | disassemble => "disassemble"
  | emit => "emit"
  | image => "image"
  | strictDivision => "strict-div"
  | stackMax => "stack-max"
  | trace => "trace"
  | help => "help"

/-- The short name of a flag. -/
def short? : Flag → Option Char
  | config => some 'c'
  | verbosity => some 'v'
  | disassemble => some 'd'
  | emit => some 'o'
  | help => some 'h'
  | _ => none

/-- Whether a flag is on or off, and so needs no value. -/
def isSwitch : Flag → Bool
  | disassemble | image | strictDivision | trace | help => true
  | _ => false

/-- How an error names a flag. -/
def title (f : Flag) : String :=
  match f.short? with
  | some c => "-" ++ String.singleton c ++ ", --" ++ f.name
  | none => "--" ++ f.name

/-- The flag with a long name. -/
def ofName? (name : List Char) : Option Flag :=
  all.find? fun f => f.name.toList = name

/-- The flag with a short name. -/
def ofShort? (c : Char) : Option Flag :=
  all.find? fun f => f.short? = some c

end Flag

/-- What can be wrong with a command line. -/
inductive UsageError where
  | badSyntax (argument : String)
  | unknown (name : String)
  | unknownShort (c : Char) (group : String)
  | needsValue (argument : String)
  | needsValueShort (c : Char) (group : String)
  | badInteger (flag : Flag) (value : String) (problem : Problem)
  | badTruth (flag : Flag) (value : String) (problem : Problem)
  | tooManyFiles (count : Nat)
  deriving DecidableEq, Repr

namespace UsageError

/-- A text in quotes. -/
def inQuotes (s : String) : String :=
  Text.quoted (Utf8.ofString s)

/-- A short flag in quotes. Short flags are single bytes, so a longer character is shown by its
first byte. -/
def shortText (c : Char) : String :=
  Text.quotedChar (Char.ofNat ((Utf8.encode [c]).headD 0).toNat)

/-- The wording of a bad value. -/
def badValue (flag : Flag) (value reader : String) (problem : Problem) : String :=
  "invalid argument " ++ inQuotes value ++ " for " ++ inQuotes flag.title ++ " flag: strconv." ++
    reader ++ ": parsing " ++ inQuotes value ++ ": " ++ problem.text

/-- The text of an error. -/
def message : UsageError → String
  | badSyntax argument => "bad flag syntax: " ++ argument
  | unknown name => "unknown flag: --" ++ name
  | unknownShort c group => "unknown shorthand flag: " ++ shortText c ++ " in -" ++ group
  | needsValue argument => "flag needs an argument: " ++ argument
  | needsValueShort c group => "flag needs an argument: " ++ shortText c ++ " in -" ++ group
  | badInteger flag value problem => badValue flag value "ParseInt" problem
  | badTruth flag value problem => badValue flag value "ParseBool" problem
  | tooManyFiles count => s!"accepts at most 1 arg(s), received {count}"

end UsageError

/-- The flags that were given. -/
structure Flags where
  config : String := ""
  verbosity : Option String := none
  disassemble : Bool := false
  emit : String := ""
  image : Bool := false
  strictDivision : Option Bool := none
  stackMax : Option Int := none
  trace : Option Bool := none
  help : Bool := false
  deriving DecidableEq, Repr

namespace Flags

/-- The truth value given for a flag. -/
def truthOf (f : Flag) (value : String) : Except UsageError Bool :=
  (truth value).mapError (.badTruth f value)

/-- The integer given for a flag. -/
def integerOf (f : Flag) (value : String) : Except UsageError Int :=
  (integer value).mapError (.badInteger f value)

/-- Gives a flag a value. -/
def set (fs : Flags) (f : Flag) (value : String) : Except UsageError Flags :=
  match f with
  | .config => .ok { fs with config := value }
  | .verbosity => .ok { fs with verbosity := some value }
  | .emit => .ok { fs with emit := value }
  | .stackMax => (integerOf f value).map fun i => { fs with stackMax := some i }
  | .disassemble => (truthOf f value).map fun b => { fs with disassemble := b }
  | .image => (truthOf f value).map fun b => { fs with image := b }
  | .strictDivision => (truthOf f value).map fun b => { fs with strictDivision := some b }
  | .trace => (truthOf f value).map fun b => { fs with trace := some b }
  | .help => (truthOf f value).map fun b => { fs with help := b }

/-- The value of a switch that is given none. -/
def switchedOn : String := "true"

/-- What one argument comes to. -/
inductive Step where
  /-- It is complete. -/
  | done (fs : Flags)
  /-- The next argument is the value of a flag; if there is none, that is an error. -/
  | wants (fs : Flags) (f : Flag) (orElse : UsageError)

/-- A long flag, given by the characters after its dashes. -/
def long (fs : Flags) (cs : List Char) : Except UsageError Step :=
  let argument := "--" ++ String.ofList cs
  let name := cs.takeWhile (· ≠ '=')
  if name.isEmpty || name.head? = some '-' then .error (.badSyntax argument)
  else
    match Flag.ofName? name with
    | none => .error (.unknown (String.ofList name))
    | some f =>
      match cs.drop name.length with
      | _ :: value => (fs.set f (String.ofList value)).map .done
      | [] =>
        if f.isSwitch then (fs.set f switchedOn).map .done
        else .ok (.wants fs f (.needsValue argument))

/-- Whether short flags are meant for a run of tests, which is no business of the command. -/
def isForTests (cs : List Char) : Bool :=
  cs.take 5 = "test.".toList

/-- Short flags written together. Those meant for a run of tests are passed over. -/
def group (fs : Flags) : List Char → Except UsageError Step
  | [] => .ok (.done fs)
  | c :: cs =>
    if isForTests (c :: cs) then .ok (.done fs)
    else
      match Flag.ofShort? c with
      | none => .error (.unknownShort c (String.ofList (c :: cs)))
      | some f =>
        match cs with
        | '=' :: v :: value => (fs.set f (String.ofList (v :: value))).map .done
        | cs =>
          if f.isSwitch then
            match fs.set f switchedOn with
            | .error e => .error e
            | .ok fs => group fs cs
          else if cs.isEmpty then
            .ok (.wants fs f (.needsValueShort c (String.ofList (c :: cs))))
          else (fs.set f (String.ofList cs)).map .done

/-- What an argument comes to, if there are flags in it. -/
def step? (fs : Flags) (argument : String) : Option (Except UsageError Step) :=
  match argument.toList with
  | '-' :: '-' :: cs => if cs.isEmpty then none else some (fs.long cs)
  | '-' :: c :: cs => some (fs.group (c :: cs))
  | _ => none

/-- Reads the arguments; `files` are the files so far, last first. -/
def parseFrom (fs : Flags) (files : List String) :
    List String → Except UsageError (Flags × List String)
  | [] => .ok (fs, files.reverse)
  | argument :: rest =>
    match fs.step? argument with
    | none =>
      if argument = "--" then .ok (fs, files.reverse ++ rest)
      else parseFrom fs (argument :: files) rest
    | some (.error e) => .error e
    | some (.ok (.done fs)) => parseFrom fs files rest
    | some (.ok (.wants fs f orElse)) =>
      match rest with
      | [] => .error orElse
      | value :: rest =>
        match fs.set f value with
        | .error e => .error e
        | .ok fs => parseFrom fs files rest

/-- Reads the arguments: the flags and the files. -/
def parse (arguments : List String) : Except UsageError (Flags × List String) :=
  parseFrom {} [] arguments

/-- Settings overridden by the flags that were given. Tracing calls for the verbosity that shows
it. -/
def apply (fs : Flags) (s : Settings) : Settings :=
  let trace := fs.trace.getD s.trace
  { s with
    verbosity := if trace then "trace" else fs.verbosity.getD s.verbosity
    stackMax := fs.stackMax.getD s.stackMax
    strictDivision := fs.strictDivision.getD s.strictDivision
    trace := trace }

/-- The settings that hold under some flags. -/
def settings (fs : Flags) (d : Directory) : Except Settings.Error Settings :=
  match Settings.load d fs.config with
  | .error e => .error e
  | .ok s =>
    let s := fs.apply s
    match s.validate with
    | .error e => .error e
    | .ok () => .ok s

end Flags

/-- The text of `--help`. -/
def helpText : String :=
  "loxide: a bytecode Lox interpreter.\n\n" ++
  "Usage:\n" ++
  "  loxide [FILE] [flags]\n\n" ++
  "Flags:\n" ++
  "  -c, --config string      config file (default ./loxide.toml if present)\n" ++
  "  -d, --disassemble        print the compiled chunk before running it\n" ++
  "  -o, --emit string        write the compiled chunk image to this path instead of running it\n" ++
  "  -h, --help               help for loxide\n" ++
  "      --image              treat FILE as a compiled chunk image\n" ++
  "      --stack-max int      operand stack size limit (default 256)\n" ++
  "      --strict-div         make division by zero a runtime error\n" ++
  "      --trace              trace execution at TRACE verbosity\n" ++
  "  -v, --verbosity string   logging verbosity (default \"INFO\")\n"

end Lox.Cli
