import DocxTemplate.Disk.Path

/-! # Faults of the file system

    What an operation on files reports when it fails.
-/

namespace DocxTemplate

/-- Why the system refuses an operation. -/
inductive SystemFault where
  | notFound
  | alreadyExists
  | notDirectory
  | isDirectory
  | invalidArgument
  | nameTooLong
  /-- A path with a NUL byte, which no name has. -/
  | nulByte
  deriving DecidableEq, Repr

/-- Why reading or writing files fails. -/
inductive FileFault where
  | system (fault : SystemFault)
  /-- A directory that cannot be listed. -/
  | listing (path : Path) (fault : SystemFault)
  /-- Text that is not UTF-8. -/
  | notText
  /-- A directory where a file was to be copied. -/
  | notRegular
  /-- An archive entry whose name leads out of its directory. -/
  | unsafeName (name : String)
  /-- An archive entry whose data are not those that were written. -/
  | badChecksum
  /-- An archive entry whose packed data end too early. -/
  | cutData
  /-- An archive entry whose packed data contradict themselves. -/
  | corruptData
  deriving DecidableEq, Repr

/-- The wording of a refusal. -/
def SystemFault.message : SystemFault → String
  | notFound => "No such file or directory (os error 2)"
  | alreadyExists => "File exists (os error 17)"
  | notDirectory => "Not a directory (os error 20)"
  | isDirectory => "Is a directory (os error 21)"
  | invalidArgument => "Invalid argument (os error 22)"
  | nameTooLong => "File name too long (os error 36)"
  | nulByte => "file name contained an unexpected NUL byte"

/-- The wording of a fault. -/
def FileFault.message : FileFault → String
  | system fault => fault.message
  | listing path fault => s!"IO error for operation on {path.text}: {fault.message}"
  | notText => "stream did not contain valid UTF-8"
  | notRegular =>
    "the source path is neither a regular file nor a symlink to a regular file"
  | unsafeName name => s!"unsafe entry name: {name}"
  | badChecksum => "Invalid checksum"
  | cutData => "unexpected end of file"
  | corruptData => "corrupt deflate stream"

end DocxTemplate
