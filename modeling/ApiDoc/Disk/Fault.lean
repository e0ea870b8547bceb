/-!
# Why a file operation fails

The causes for which reading or writing the project directory can fail, with the text under which
each of them is reported.
-/

namespace ApiDoc.Disk

/-- The cause of a failed file operation; `other` carries the words it was reported with. -/
inductive Fault
  | notFound
  | alreadyExists
  | notADirectory
  | isADirectory
  | notEmpty
  | invalidArgument
  | nameTooLong
  | nulInName
  | notText
  | other (message : String)
deriving DecidableEq, Inhabited

def Fault.message : Fault → String
  | .notFound => "No such file or directory (os error 2)"
  | .alreadyExists => "File exists (os error 17)"
  | .notADirectory => "Not a directory (os error 20)"
  | .isADirectory => "Is a directory (os error 21)"
  | .notEmpty => "Directory not empty (os error 39)"
  | .invalidArgument => "Invalid argument (os error 22)"
  | .nameTooLong => "File name too long (os error 36)"
  | .nulInName => "file name contained an unexpected NUL byte"
  | .notText => "stream did not contain valid UTF-8"
  | .other message => message

end ApiDoc.Disk
