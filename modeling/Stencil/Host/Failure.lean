namespace Stencil

/-! What goes wrong outside of the documents. -/

inductive FileFault where
  | missing
  | denied
  | notDirectory
  | directory
  | nameTooLong
  | notText
  | nulInName
  | nulInArgument
deriving DecidableEq, Repr

def FileFault.message : FileFault → String
  | .missing => "No such file or directory (os error 2)"
  | .denied => "Permission denied (os error 13)"
  | .notDirectory => "Not a directory (os error 20)"
  | .directory => "Is a directory (os error 21)"
  | .nameTooLong => "File name too long (os error 36)"
  | .notText => "stream did not contain valid UTF-8"
  | .nulInName => "file name contained an unexpected NUL byte"
  | .nulInArgument => "nul byte found in provided data"

/-- How a command ended. -/
inductive ExitStatus where
  | code (value : Nat)
  | signal (number : Nat) (name : String)
deriving DecidableEq, Repr

namespace ExitStatus

def successful (status : ExitStatus) : Bool := status = .code 0

def text : ExitStatus → String
  | .code value => "exit status: " ++ toString value
  | .signal number name => "signal: " ++ toString number ++ " (" ++ name ++ ")"

end ExitStatus

/-- Why a file or a command gave no text. -/
inductive Failure where
  | unreadable (path : String) (fault : FileFault)
  | noCommand
  | notStarted (program : String) (fault : FileFault)
  | unsuccessful (program : String) (status : ExitStatus) (errors : String)
  | outputNotText (program : String)
  | reported (text : String)
deriving DecidableEq, Repr

def Failure.message : Failure → String
  | .unreadable path fault => "read: " ++ path ++ ": " ++ fault.message
  | .noCommand => "exec: no command given"
  | .notStarted program fault => "exec: " ++ program ++ ": " ++ fault.message
  | .unsuccessful program status errors =>
      "exec: " ++ program ++ " failed (" ++ status.text ++ "): " ++ errors
  | .outputNotText program => "exec: " ++ program ++ ": output is no utf-8"
  | .reported text => text

end Stencil
