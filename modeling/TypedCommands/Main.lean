import Std.Async.Signal
import Std.Async.TCP
import TypedCommands.CommandLine

/-! The program: finds its files, does what its arguments ask for, and prints the outcome. A bridge
listens on the loopback address until the program is interrupted. -/
namespace TypedCommands.Program

open Std.Async Std.Net

/-- An error's reason begins with a capital letter. The runtime's network functions negate the
number. -/
def systemError (code : UInt32) (details : String) : SystemError :=
  ⟨details.capitalize, (if code < 0x80000000 then code else 0 - code).toNat⟩

def causeOf : IO.Error → SystemError
  | .resourceBusy code details | .permissionDenied _ code details
  | .noFileOrDirectory _ code details | .inappropriateType _ code details
  | .invalidArgument _ code details | .otherError code details => systemError code details
  | e => ⟨toString e, 0⟩

def readFile (path : String) : IO (Except SystemError ByteArray) := do
  try
    return .ok (← IO.FS.readBinFile path)
  catch e => return .error (causeOf e)

/-- Reads the files that the arguments ask for. -/
def readFiles (args : List String) : IO CommandLine.Files := do
  let home ← match ← IO.getEnv "HOME" with
    | some dir => readFile (dir ++ "/.cmdlang/config.yaml")
    | none => pure (.error .noSuchFile)
  match Invocation.parse args with
  | .ok ⟨_, some path, _⟩ =>
    let content ← readFile path
    return ⟨fun _ => content, home⟩
  | _ => return ⟨fun _ => .error .noSuchFile, home⟩

def report (r : CommandLine.Result) : IO UInt32 := do
  IO.print r.output
  IO.eprint r.error
  return r.exit

/-- Sends what the connection has to say, and reads on until it is closed. -/
partial def converse (b : Bridge Unit) (peer : TCP.Socket.Client)
    (c : Bridge.Connection Unit) : Async Unit := do
  unless c.written.isEmpty do peer.send ⟨c.output.toArray⟩
  let c := { c with written := [] }
  unless c.phase = .closed do
    match ← peer.recv? 4096 with
    | some chunk => converse b peer (b.handle c (.bytes chunk.toList))
    | none => converse b peer (b.handle c .close)

partial def accept (b : Bridge Unit) (server : TCP.Socket.Server) : Async Unit := do
  let peer ← server.accept
  background (converse b peer (.opened ()))
  accept b server

def serve (s : CommandLine.Service) : IO Unit := do
  let interrupt ← (← Signal.Waiter.mk .sigint false).wait
  let server ← TCP.Socket.Server.mk
  server.bind (.v4 ⟨.ofParts 127 0 0 1, s.port⟩)
  server.listen 128
  let .v4 address ← server.getSockName | return
  IO.println (CommandLine.banner (toString address.port.toNat))
  (← IO.getStdout).flush
  (background (accept s.bridge server) : Async Unit).block
  discard interrupt.block

end TypedCommands.Program

open TypedCommands Program in
def main (args : List String) : IO UInt32 := do
  match CommandLine.start (← readFiles args) args with
  | .done r => report r
  | .serve s =>
    try
      serve s
      return 0
    catch e => report (CommandLine.refused (causeOf e))
