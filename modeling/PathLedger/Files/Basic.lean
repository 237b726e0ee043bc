import PathLedger.Bytes.Basic

/-!
# Files

What the command line needs of a file system, as a record of operations in any monad, so that commands
are the same definitions on real files and on files in memory.
-/

namespace PathLedger

/-- Why a file could not be used. -/
inductive FileFault where
  | missing
  | isFolder
  | notFolder
  | nameTooLong
  | nulByte
  | other (text : String)
deriving DecidableEq, Repr

def FileFault.message : FileFault → String
  | .missing => "No such file or directory (os error 2)"
  | .isFolder => "Is a directory (os error 21)"
  | .notFolder => "Not a directory (os error 20)"
  | .nameTooLong => "File name too long (os error 36)"
  | .nulByte => "file name contained an unexpected NUL byte"
  | .other text => text

/-- What stands at a place. -/
inductive Standing where
  | nothing
  | file
  | folder
deriving DecidableEq, Repr

/-- Operations on files, each at a place given as text. -/
structure Files (m : Type → Type) where
  standing : String → m Standing
  /-- The full place without steps up and without links. -/
  fullPlace : String → m (Except FileFault String)
  read : String → m (Except FileFault Bytes)
  write : String → Bytes → m (Except FileFault Unit)
  delete : String → m (Except FileFault Unit)

end PathLedger
