import Mathlib.Data.List.Infix
import Mathlib.Data.Int.Notation
import Mathlib.Data.UInt
import Thcdb.Files.Volume
import Thcdb.Images.Parser
import Thcdb.Interleaving.System
import Thcdb.Relational.Table

namespace Thcdb.Images
open Files Interleaving Relational

abbrev Path := List Char

namespace Path

def isAbsolute (p : Path) : Bool := p.head? = some '/'

def push (p q : Path) : Path :=
  if q.isAbsolute ∨ p = [] then q
  else if p.getLast? = some '/' then p ++ q
  else p ++ '/' :: q

def ofList (ps : List Path) : Path := ps.foldl push []

/-- What stands before the last component, with its separator, and that component. -/
def splitFileName (p : Path) : Path × Path :=
  let name := (p.reverse.takeWhile (· ≠ '/')).reverse
  (p.take (p.length - name.length), name)

/-- The name without its extension; a name that only begins with a dot has none. -/
def fileStem (name : Path) : Path :=
  let extension := name.reverse.takeWhile (· ≠ '.')
  let stem := name.take (name.length - extension.length - 1)
  if '.' ∈ name ∧ stem ≠ [] ∧ name ≠ ['.', '.'] then stem else name

def withExtension (p extension : Path) : Path :=
  let (parent, name) := p.splitFileName
  parent ++ fileStem name ++ if extension = [] then [] else '.' :: extension

end Path

inductive StorageBackend
  | Fs
  deriving DecidableEq, Repr

structure Image where
  filename : Path
  directory : Path
  uploadedBy : ℤ
  uploadedAt : ℕ
  backend : StorageBackend
  deriving DecidableEq, Repr

def Image.fullPath (image : Image) : Path := .ofList [image.directory, image.filename]

structure NewImage where
  directory : Path
  uploadedBy : ℤ
  backend : StorageBackend
  bytes : Bytes
  fileHash : Path
  extension : Path
  deriving DecidableEq, Repr

structure Storage where
  /-- `xxh3_128` of the bytes, in base64 -/
  fileHash : Bytes → Path
  length_fileHash : ∀ bytes, (fileHash bytes).length = 22
  fileHash_urlSafe : ∀ bytes, ∀ c ∈ fileHash bytes, c.isAlphanum ∨ c = '-' ∨ c = '_'
  basePath : Path

namespace NewImage

def fromParsed (X : Storage) (parsed : ParsedImage) (uploadedBy : ℤ) (backend : StorageBackend) :
    NewImage :=
  let fileHash := X.fileHash parsed.bytes
  { directory := Path.push (fileHash.take 2) ((fileHash.drop 2).take 2)
    uploadedBy := uploadedBy
    backend := backend
    bytes := parsed.bytes
    fileHash := fileHash
    extension := parsed.extension.toList }

def fullPath (new : NewImage) : Path :=
  Path.withExtension (.ofList [new.directory, new.fileHash]) new.extension

def filename (new : NewImage) : Path := new.fileHash ++ '.' :: new.extension

def image (new : NewImage) (uploadedAt : ℕ) : Image where
  filename := new.filename
  directory := new.directory
  uploadedBy := new.uploadedBy
  uploadedAt := uploadedAt
  backend := new.backend

end NewImage

structure World where
  clock : ℕ
  image : List (Row Image)
  nextId : ℤ
  volume : Volume Path UInt8

/-- Where an upload stands, with the locals it still needs. The last stage is the rest of the
transaction, which refers to an image that was found, or to the one that it made. -/
inductive Call
  | idle
  | finding (new : NewImage)
  | inserting (new : NewImage)
  | creatingDir (new : NewImage) (row : Row Image)
  | opening (new : NewImage) (row : Row Image)
  | writing (new : NewImage) (row : Row Image) (node offset : ℕ)
  | removing (new : NewImage)
  | finishing (image : Row Image) (made : Bool)
  | done (ok : Bool)
  deriving DecidableEq, Repr

/-- `upload` brings what the parser made of the bytes. `ok` runs the next statement, `found` is a row
that the query returns and `write` puts some more bytes into the file. `fail` lets a statement fail,
and `cancel` drops the call where it stands. -/
inductive Input
  | upload (parsed : ParsedImage) (uploadedBy : ℤ)
  | ok
  | found (image : Row Image)
  | write (n : ℕ)
  | commit
  | fail
  | cancel

inductive Env
  | tick (d : ℕ)

section

variable (X : Storage)

/-- The path that `FsStorage::create` opens. -/
def Storage.newPath (new : NewImage) : Path := .ofList [X.basePath, new.fullPath]

/-- The path at which the file of a row is looked for. -/
def Storage.imagePath (image : Image) : Path := .ofList [X.basePath, image.fullPath]

def statement (w : World) : Call → Option (World × Call)
  | .finding new =>
    if w.image.any fun r => r.cols.filename = new.filename then none else some (w, .inserting new)
  | .inserting new =>
    some ({ w with nextId := w.nextId + 1 }, .creatingDir new ⟨w.nextId, new.image w.clock⟩)
  | .creatingDir new row => some (w, .opening new row)
  | .opening new row =>
    let (volume, node) := w.volume.create (X.newPath new)
    some ({ w with volume }, .writing new row node 0)
  | .writing new row _ offset =>
    if offset = new.bytes.length then some (w, .finishing row true) else none
  | .removing new =>
    some ({ w with volume := w.volume.remove (X.newPath new) }, .done false)
  | .idle | .finishing .. | .done _ => none

/-- Below an absolute base path, the removal of a file that could not be written panics. -/
def fails : Call → Option Call
  | .writing new .. =>
    some (if (X.newPath new).isAbsolute then .done false else .removing new)
  | .idle | .done _ => none
  | _ => some (.done false)

def exec (x : Input) (w : World) (l : Call) : Option (World × Call) :=
  match x with
  | .upload parsed uploadedBy =>
    if l = .idle then some (w, .finding (.fromParsed X parsed uploadedBy .Fs)) else none
  | .ok => statement X w l
  | .found image =>
    match l with
    | .finding new =>
      if image ∈ w.image ∧ image.cols.filename = new.filename then
        some (w, .finishing image false)
      else none
    | _ => none
  | .write n =>
    match l with
    | .writing new row node offset =>
      if 0 < n ∧ offset + n ≤ new.bytes.length then
        some ({ w with volume :=
            w.volume.write node offset ((new.bytes.drop offset).take n) },
          .writing new row node (offset + n))
      else none
    | _ => none
  | .commit =>
    match l with
    | .finishing image made =>
      some (if made then { w with image := w.image ++ [image] } else w, .done true)
    | _ => none
  | .fail => (fails X l).map fun l' => (w, l')
  | .cancel => if l = .idle ∨ l = .done true ∨ l = .done false then none else some (w, .done false)

/-- Any number of uploads, cut at their statements and file operations. -/
def system : System World Call Input Env Empty where
  exec _ x w l := (exec X x w l).map fun r => (r.1, r.2, [])
  env
    | .tick d, w => some { w with clock := w.clock + d }

end

abbrev Config := Interleaving.Config World Call Empty

/-- A database without images. What lies on the volume does not matter. -/
structure Config.Initial (c : Config) : Prop where
  image : c.shared.image = []
  volume : c.shared.volume.Sound
  calls : ∀ i, c.calls i = .idle

end Thcdb.Images
