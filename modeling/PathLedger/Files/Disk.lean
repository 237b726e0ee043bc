import PathLedger.Dict
import PathLedger.Files.Basic
import PathLedger.Files.Place

/-!
# Files in memory

A disk holds the files and folders below one working folder, each under its names joined by slashes. Of what
is around that folder only its folders are known.

* `Disk.find` — what a place leads to.
* `Disk.files` — the operations, on a disk that is passed along.
-/

namespace PathLedger

/-- A file or a folder. -/
inductive Item where
  | file (content : Bytes)
  | folder
deriving DecidableEq, Repr

/-- The full place of the working folder, and what is in it. -/
structure Disk where
  top : String
  items : Dict String Item
deriving DecidableEq

namespace Disk

/-- What a place leads to; what can be made there counts too. -/
inductive Found where
  | file (key : String) (content : Bytes)
  | folder (key : String)
  /-- A folder around the working folder. -/
  | around
  /-- Nothing is there, but the folder around it is. -/
  | free (key : String)
  | fault (f : FileFault)
deriving DecidableEq, Repr

/-- A name below a folder. -/
def below (key name : String) : String := if key.isEmpty then name else key ++ "/" ++ name

/-- The folder around a name. -/
def above (key : String) : String :=
  String.ofList ((((key.toList.reverse).dropWhile (· != '/')).drop 1).reverse)

/-- What stands under a key. -/
def at? (d : Disk) (key : String) : Found :=
  if key.isEmpty then .folder ""
  else
    match d.items.get? key with
    | some (.file content) => .file key content
    | some .folder => .folder key
    | none => .free key

/-- The most bytes in a name. -/
def maxName : Nat := 255

/-- The most bytes in a place. -/
def maxPlace : Nat := 4095

/-- One step further. -/
def advance (d : Disk) (found : Found) (step : Place.Step) : Found :=
  match found with
  | .fault f => .fault f
  | .file _ _ => .fault .notFolder
  | .free _ => .fault .missing
  | .folder key =>
    match step with
    | .into name => if maxName < name.utf8ByteSize then .fault .nameTooLong else d.at? (below key name)
    | .up => if key.isEmpty then .around else .folder (above key)
  | .around =>
    match step with
    | .into name => if maxName < name.utf8ByteSize then .fault .nameTooLong else .fault .missing
    | .up => .around

/-- Where the steps of a place start, and the place as seen from there. -/
def start (d : Disk) (place : String) : Found × String :=
  match Text.behind? (d.top ++ "/").toList place.toList with
  | some rest => (.folder "", String.ofList rest)
  | none =>
    if place = d.top then (.folder "", "")
    else if Place.isAbsolute place then (.around, place)
    else if place.isEmpty then (.fault .missing, "")
    else (.folder "", place)

/-- What a place leads to. A place that ends with a separator leads to no file. -/
def find (d : Disk) (place : String) : Found :=
  if place.toList.contains '\x00' then .fault .nulByte
  else if maxPlace < place.utf8ByteSize then .fault .nameTooLong
  else
    let (origin, place) := d.start place
    match (Place.steps place).foldl d.advance origin with
    | .file key content =>
      if Place.mustBeFolder place then .fault .notFolder else .file key content
    | found => found

/-- The disk with a file written at a place. -/
def write (d : Disk) (place : String) (content : Bytes) : Except FileFault Disk :=
  match d.find place with
  | .file key _ => .ok { d with items := d.items.insert key (.file content) }
  | .free key =>
    if Place.mustBeFolder place then .error .isFolder
    else .ok { d with items := d.items.insert key (.file content) }
  | .folder _ | .around => .error .isFolder
  | .fault f => .error f

/-- The disk without the file at a place. -/
def delete (d : Disk) (place : String) : Except FileFault Disk :=
  match d.find place with
  | .file key _ => .ok { d with items := d.items.erase key }
  | .free _ => .error .missing
  | .folder _ | .around => .error .isFolder
  | .fault f => .error f

def read (d : Disk) (place : String) : Except FileFault Bytes :=
  match d.find place with
  | .file _ content => .ok content
  | .free _ => .error .missing
  | .folder _ | .around => .error .isFolder
  | .fault f => .error f

def standing (d : Disk) (place : String) : Standing :=
  match d.find place with
  | .file _ _ => .file
  | .folder _ | .around => .folder
  | _ => .nothing

/-- The full place of what stands at a place. -/
def fullPlace (d : Disk) (place : String) : Except FileFault String :=
  match d.find place with
  | .file key _ => .ok (d.top ++ "/" ++ key)
  | .folder key => .ok (if key.isEmpty then d.top else d.top ++ "/" ++ key)
  | .around => .ok place
  | .free _ => .error .missing
  | .fault f => .error f

/-- The disk with a folder at a place and around it. -/
def makeFolder (d : Disk) (place : String) : Disk :=
  let make := fun (acc : String × Dict String Item) (step : Place.Step) =>
    match step with
    | .into name =>
      let key := below acc.1 name
      (key, if acc.2.has key then acc.2 else acc.2.insert key .folder)
    | .up => (above acc.1, acc.2)
  { d with items := ((Place.steps place).foldl make ("", d.items)).2 }

/-- A change of the disk that may be refused, and then leaves it as it was. -/
def change (f : Disk → Except FileFault Disk) : StateM Disk (Except FileFault Unit) := fun d =>
  match f d with
  | .ok d => (.ok (), d)
  | .error e => (.error e, d)

/-- The operations on a disk. -/
def files : Files (StateM Disk) where
  standing place := fun d => (d.standing place, d)
  fullPlace place := fun d => (d.fullPlace place, d)
  read place := fun d => (d.read place, d)
  write place content := change fun d => d.write place content
  delete place := change fun d => d.delete place

end Disk

end PathLedger
