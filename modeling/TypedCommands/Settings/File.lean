import TypedCommands.Settings
import TypedCommands.SystemError

/-! Settings files. A file that was asked for must hold settings; the one in the home directory may
be missing, and is passed over if it is broken. Why a text holds no settings is for the reader of its
document to say, in words of its own: `reason` stands for what it says of a text. -/
namespace TypedCommands.Settings

inductive FileError where
  | unreadable (cause : SystemError)
  | notText
  | invalid (reason : String := "")
  deriving DecidableEq

/-- What is said of the file at `path`. -/
def FileError.message (path : String) : FileError → String
  | .unreadable cause => s!"cannot read {path}: {cause.message}"
  | .notText => s!"cannot read {path}: stream did not contain valid UTF-8"
  | .invalid reason => s!"invalid config {path}: {reason}"

/-- The settings in a file, given what reading it brought. -/
def ofFile (content : Except SystemError ByteArray) (reason : String → String := fun _ => "") :
    Except FileError Settings :=
  match content with
  | .error cause => .error (.unreadable cause)
  | .ok bytes =>
    match String.fromUTF8? bytes with
    | none => .error .notText
    | some text =>
      match ofText? text with
      | some s => .ok s
      | none => .error (.invalid (reason text))

/-- The settings in the file in the home directory, if it holds any. -/
def ofHome? (content : Except SystemError ByteArray) : Option Settings := (ofFile content).toOption

end TypedCommands.Settings
