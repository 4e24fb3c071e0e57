import Lox.Toml.Grammar

/-!
# The document that a settings file defines

The lines of a file define tables, one after another. A header or a key in parts makes the tables
on its way that do not exist yet; such a table is *provisional*. A provisional table may be
written out once, which settles it. A key in parts that passes through a name makes the name
provisional again and settles it at once, so it may lead into any table that exists already and
add to it. Apart from that, what is defined may not be defined again.

Writing out a provisional name leaves the table there as it is, unless the name is known to stand
for an array: then the new value takes the place of the old one. Names are known by their paths,
and a path that was once known to lead to an array stays so until its name is given a value of
another kind, even if the table that held the array is out of reach by then.

A table that is written within a line is made twice: in its place in the document, and on its own,
as the value of its key. The value is what takes the place of an array, and then one and the same
table stands in the document and in the table around it. This is why tables are known by numbers.

Besides the tables, a document keeps the list of all keys that were written, each with the full
path to it.
-/

namespace Lox.Toml

/-- What a name in a table stands for. -/
inductive Node where
  | scalar (s : Scalar)
  | array
  /-- The table of a number. -/
  | table (number : Nat)
  /-- A list of tables; the number is that of the newest, and no other can be added to. -/
  | tables (newest : Nat)
  deriving DecidableEq, Repr

/-- A table: names and what they stand for, in order of definition. -/
abbrev Table := List (String × Node)

/-- Puts a node in the place of a name, or at the end. -/
def Table.put (name : String) (node : Node) : Table → Table
  | [] => [(name, node)]
  | (other, n) :: rest =>
    if other = name then (name, node) :: rest else (other, n) :: put name node rest

/-- The document so far. -/
structure Document where
  /-- The tables by their numbers. The first is that of the whole file. -/
  tables : Array Table := #[[]]
  /-- The paths of what is provisional. -/
  provisional : List Key := []
  /-- The paths that are known to lead to arrays. -/
  arrays : List Key := []
  /-- The keys that were written, newest first. -/
  keys : List Key := []

namespace Document

/-- The table of a number. -/
def table (d : Document) (number : Nat) : Table :=
  d.tables.getD number []

/-- The table of the whole file. -/
def root (d : Document) : Table :=
  d.table 0

/-- The number of the next table. -/
def next (d : Document) : Nat :=
  d.tables.size

/-- The document with one more table, an empty one. -/
def make (d : Document) : Document :=
  { d with tables := d.tables.push [] }

/-- Puts a node under a name of a table. -/
def put (d : Document) (number : Nat) (name : String) (node : Node) : Document :=
  { d with tables := d.tables.modify number (Table.put name node) }

/-- The table that a name of a table leads into. Of a list of tables it is the newest. -/
def enter? (d : Document) (number : Nat) (name : String) : Option Nat :=
  match (d.table number).lookup name with
  | some (.table n) => some n
  | some (.tables n) => some n
  | _ => none

/-- The table at a path. -/
def reach? (d : Document) (path : Key) : Option Nat :=
  path.foldlM d.enter? 0

/-- What a name of the table at a path stands for. -/
def find? (d : Document) (path : Key) (name : String) : Option Node := do
  (d.table (← d.reach? path)).lookup name

/-- Marks a path as provisional. -/
def mark (d : Document) (path : Key) : Document :=
  { d with provisional := path :: d.provisional }

/-- Takes the mark of a provisional path away. -/
def settle (d : Document) (path : Key) : Document :=
  { d with provisional := d.provisional.filter (· ≠ path) }

/-- Notes a key that was written. -/
def note (d : Document) (key : Key) : Document :=
  { d with keys := key :: d.keys }

/-- Notes whether a path leads to an array. -/
def classify (d : Document) (path : Key) (isArray : Bool) : Document :=
  let others := d.arrays.filter (· ≠ path)
  { d with arrays := if isArray then path :: others else others }

/-- The path under which the kind of a name's value is noted. For the empty name of a table other
than the root it is the path of the table. -/
def kindPath (path : Key) (name : String) : Key :=
  if name.isEmpty && !path.isEmpty then path else path ++ [name]

/-- Defines a name of the table at a path. If it is provisional, that is settled: an array gives
way to the new value, and anything else stays. If it is defined already, the definition fails. -/
def define? (d : Document) (path : Key) (name : String) (node : Node) : Option Document :=
  match d.reach? path with
  | none => none
  | some number =>
    let full := path ++ [name]
    if ((d.table number).lookup name).isNone then some (d.put number name node)
    else if d.provisional.contains full then
      if d.arrays.contains full then some ((d.settle full).put number name node)
      else some (d.settle full)
    else none

/-- Defines a name of the table at a path as an empty table. -/
def defineTable? (d : Document) (path : Key) (name : String) : Option Document :=
  d.make.define? path name (.table d.next)

/-- Passes through a name of the table at a path. -/
def pass? (d : Document) (path : Key) (name : String) : Option Document :=
  (d.mark (path ++ [name])).defineTable? path name

/-- Passes through the names of the parts of a key. -/
def passAll? (d : Document) (path : Key) : Key → Option Document
  | [] => some d
  | name :: names =>
    match d.pass? path name with
    | none => none
    | some d => passAll? d (path ++ [name]) names

/-- Makes the tables on the way of a header that do not exist yet. -/
def approach? (d : Document) (path : Key) : Key → Option Document
  | [] => some d
  | name :: names =>
    if (d.find? path name).isSome then approach? d (path ++ [name]) names
    else
      match d.pass? path name with
      | none => none
      | some d => approach? d (path ++ [name]) names

/-- Adds a table to the list of tables of a name. -/
def extend? (d : Document) (path : Key) (name : String) : Option Document :=
  match d.reach? path with
  | none => none
  | some number =>
    match (d.table number).lookup name with
    | none => some (d.make.put number name (.tables d.next))
    | some (.tables _) => some (d.make.put number name (.tables d.next))
    | some _ => none

/-- Opens the table of a header. -/
def open? (d : Document) (list : Bool) (key : Key) : Option Document :=
  let path := key.dropLast
  let name := key.getLastD ""
  match d.approach? [] path with
  | none => none
  | some d =>
    (if list then d.extend? path name else d.defineTable? path name).map fun d =>
      (d.classify key false).note key

/-- Opens a table that is written within a line: in an array it is one more of a list. The name is
provisional until its value is complete. -/
def openInline? (d : Document) (inArray : Bool) (path : Key) (name : String) : Option Document :=
  if inArray then (d.mark (path ++ [name])).extend? path name else d.pass? path name

/-- Puts a node under a key of a table, making the tables on the way that do not exist yet. -/
def putAt? (d : Document) (number : Nat) : Key → String → Node → Option Document
  | [], name, node => some (d.put number name node)
  | first :: path, name, node =>
    match (d.table number).lookup first with
    | none => putAt? (d.make.put number first (.table d.next)) d.next path name node
    | some (.table n) => putAt? d n path name node
    | some _ => none

mutual

/-- Takes in a value for a name of the table at a path, before the name is defined as that value.
It gives the value; the tables within it are put in place, and their keys are noted. -/
def takeValue? (d : Document) (inArray : Bool) (path : Key) (name : String) :
    Raw → Option (Node × Document)
  | .scalar s => some (.scalar s, d)
  | .array items =>
    match takeItems? (d.classify (kindPath path name) true) path name items with
    | none => none
    | some d => some (.array, d)
  | .table entries =>
    match d.openInline? inArray path name with
    | none => none
    | some d =>
      match takeEntries? d.make d.next (path ++ [name]) entries with
      | none => none
      | some e => some (.table d.next, e)

/-- Takes in the items of an array. -/
def takeItems? (d : Document) (path : Key) (name : String) : List Raw → Option Document
  | [] => some d
  | v :: vs =>
    match takeValue? d true path name v with
    | none => none
    | some (_, d) => takeItems? d path name vs

/-- Takes in the entries of a table within a line, whose value is the table of a number. -/
def takeEntries? (d : Document) (number : Nat) (path : Key) :
    List (Key × Raw) → Option Document
  | [] => some d
  | e :: rest =>
    match takePair? d path e with
    | none => none
    | some (node, d) =>
      match d.putAt? number e.1.dropLast (e.1.getLastD "") node with
      | none => none
      | some d => takeEntries? d number path rest

/-- Takes in a key and its value, written in the table at a path. It gives the value. -/
def takePair? (d : Document) (path : Key) : Key × Raw → Option (Node × Document)
  | (key, v) =>
    let within := path ++ key.dropLast
    let name := key.getLastD ""
    match d.passAll? path key.dropLast with
    | none => none
    | some d =>
      match takeValue? (d.note (within ++ [name])) false within name v with
      | none => none
      | some (node, d) =>
        match d.define? within name node with
        | none => none
        | some d => some (node, d.classify (kindPath within name) (node = .array))

end

/-- Takes in a line, when the last header opened the table at `path`; gives the document and the
path for the next line. -/
def take? (d : Document) (path : Key) : Statement → Option (Document × Key)
  | .header list key => (d.open? list key).map (·, key)
  | .assign key v => (d.takePair? path (key, v)).map fun taken => (taken.2, path)

/-- Takes in some lines. -/
def takeAll? (d : Document) (path : Key) : List Statement → Option Document
  | [] => some d
  | s :: rest =>
    match d.take? path s with
    | none => none
    | some (d, path) => takeAll? d path rest

/-- The document of a file, if there is one. -/
def read? (file : Bytes) : Option Document := do
  takeAll? {} [] (← statements? file)

end Document

namespace Key

/-- A character of a key part in quotes. -/
def quotedChar (c : Char) : List Char :=
  match c with
  | '"' => ['\\', '"']
  | '\\' => ['\\', '\\']
  | '\x08' => ['\\', 'b']
  | '\t' => ['\\', 't']
  | '\n' => ['\\', 'n']
  | '\x0c' => ['\\', 'f']
  | '\r' => ['\\', 'r']
  | c =>
    if c < ' ' || c = '\x7f' then
      let digit (n : Nat) : Char := (Nat.digitChar n)
      ['\\', 'u', '0', '0', digit (c.toNat / 16), digit (c.toNat % 16)]
    else [c]

/-- A part of a key: as it is if quotes are not needed. -/
def partText (part : String) : String :=
  if !part.isEmpty && part.toList.all isBare then part
  else "\"" ++ String.ofList (part.toList.flatMap quotedChar) ++ "\""

/-- A key as it may be written. -/
def text (key : Toml.Key) : String :=
  ".".intercalate (key.map partText)

end Key

end Lox.Toml
