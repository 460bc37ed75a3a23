/-! What the operating system says when it refuses a request. -/
namespace TypedCommands

structure SystemError where
  reason : String
  number : Nat
  deriving DecidableEq

namespace SystemError

def message (e : SystemError) : String := s!"{e.reason} (os error {e.number})"

def noSuchFile : SystemError := ⟨"No such file or directory", 2⟩
def notDirectory : SystemError := ⟨"Not a directory", 20⟩
def isDirectory : SystemError := ⟨"Is a directory", 21⟩
def addressInUse : SystemError := ⟨"Address already in use", 98⟩

end SystemError
end TypedCommands
