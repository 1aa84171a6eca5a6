import Mcs51.Text.Basic

/-! # Refusals

The ways in which a disk turns down a request for a path, with the wording and the numbers of the
Linux kernel. -/

namespace Mcs51

/-- Why a path cannot be opened. -/
inductive Refusal where
  | missing
  | notDirectory
  | isDirectory
  | nameTooLong
  | nulInPath
deriving DecidableEq, Repr

/-- The wording of a refusal. -/
def Refusal.message : Refusal → Text
  | .missing => "No such file or directory (os error 2)".toList
  | .notDirectory => "Not a directory (os error 20)".toList
  | .isDirectory => "Is a directory (os error 21)".toList
  | .nameTooLong => "File name too long (os error 36)".toList
  | .nulInPath => "file name contained an unexpected NUL byte".toList

end Mcs51
