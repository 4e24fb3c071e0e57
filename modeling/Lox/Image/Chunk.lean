import Lox.Image.Basic

/-!
# Saving and loading chunks

Saving a chunk writes its image. Loading reads an image and checks it: the version must be the
current one, every constant must be of a known kind, and the chunk must pass verification.
-/

namespace Lox

namespace Image

/-- A section is saved unless it is empty and was not kept. -/
def section? {α : Type} (kept : Bool) (xs : List α) : Option (List α) :=
  if xs.isEmpty && !kept then none else some xs

/-- The image of a chunk. -/
def ofChunk (c : Chunk) : Image where
  version := currentVersion
  code := section? c.keepsCode c.code
  lines := section? c.keepsLines c.lines
  consts := c.consts.map Constant.ofValue

/-- Why an image cannot be loaded. -/
inductive LoadError where
  /-- The bytes are no image. -/
  | unreadable (why : Cbor.Rejection)
  /-- The version is not the current one. -/
  | version (found : Int)
  /-- A constant is of a kind that is not known. -/
  | constant (index : Nat) (kind : Int)
  /-- The chunk does not pass verification. -/
  | invalid (defect : Chunk.Defect)

namespace LoadError

/-- The wording of a rejection. -/
def rejectionText : Cbor.Rejection → String
  | .truncated => "unexpected end of data"
  | .malformed => "malformed data item"
  | .extraneous => "data after the end of the image"
  | .mismatch => "data item of the wrong kind"

/-- The text of an error. -/
def message : LoadError → String
  | unreadable why => "vm: unmarshal image: " ++ rejectionText why
  | version found => s!"vm: image version {found}, want {currentVersion}"
  | constant index kind => s!"vm: constant {index} has unknown kind {kind}"
  | invalid defect => s!"vm: invalid image: {defect.message}"

end LoadError

/-- The values of some constants, the first of which has the index `index`. -/
def values (index : Nat) : List Constant → List Value → Except LoadError (List Value)
  | [], seen => .ok seen.reverse
  | c :: cs, seen =>
    match c.toValue? with
    | some v => values (index + 1) cs (v :: seen)
    | none => .error (.constant index c.kind)

/-- The chunk of an image, if it is a good one. -/
def toChunk (m : Image) : Except LoadError Chunk := do
  if m.version ≠ currentVersion then .error (.version m.version)
  let c : Chunk :=
    { code := m.code.getD []
      lines := m.lines.getD []
      consts := ← values 0 m.consts []
      keepsCode := m.code = some []
      keepsLines := m.lines = some [] }
  match c.defect? with
  | some d => .error (.invalid d)
  | none => return c

end Image

namespace Chunk

/-- The bytes of the image of a chunk. -/
def save (c : Chunk) : Bytes :=
  (Image.ofChunk c).toBytes

/-- The chunk whose image some bytes are. -/
def load (bs : Bytes) : Except Image.LoadError Chunk := do
  let m ← (Image.ofBytes bs).mapError .unreadable
  m.toChunk

end Chunk

end Lox
