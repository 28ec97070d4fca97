/-!
# What keeps a file from being used
-/

namespace TaggedWire

/-- Why a file or directory cannot be used. -/
inductive FileFault where
  | absent
  /-- There is a file where a directory is to be. -/
  | occupied
  | notDirectory
  | isDirectory
  /-- No file can have this name. -/
  | badName
  /-- Any other reason, in the words of the file system. -/
  | other (reason : String)
  deriving DecidableEq, Repr

/-- The text of a fault. -/
def FileFault.reason : FileFault → String
  | absent => "no such file or directory"
  | occupied => "file exists"
  | notDirectory => "not a directory"
  | isDirectory => "is a directory"
  | badName => "invalid file name"
  | other reason => reason

end TaggedWire
