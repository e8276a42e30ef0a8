import RubyMachine.Cli.Command
import Std.Time.DateTime.Timestamp

/-! The program: arguments in, texts and an exit code out. -/

namespace RubyMachine

/-- Access to the files of the system. -/
def systemFiles : Files IO where
  here := do return (← IO.currentDir).toString
  has path := do
    try
      let _ ← IO.FS.Handle.mk path .read
      return true
    catch _ => return false
  read path := do
    try
      return .ok (← IO.FS.readBinFile path).data
    catch
      | .noFileOrDirectory .. => return .error ⟨"open", path, .missing⟩
      | e => return .error ⟨"open", path, .other (toString e)⟩
  makeDirectory path := do
    try
      IO.FS.createDirAll path
      return .ok ()
    catch e => return .error ⟨"mkdir", path, .other (toString e)⟩
  write path bytes := do
    try
      IO.FS.writeBinFile path ⟨bytes⟩
      return .ok ()
    catch e => return .error ⟨"open", path, .other (toString e)⟩

/-- A random identifier of version 4. -/
def randomId : IO Uuid := do
  let bytes := (← IO.getRandomBytes 16).data
  return ⟨bytes.mapIdx fun i b =>
    if i = 6 then b &&& 0x0f ||| 0x40 else if i = 8 then b &&& 0x3f ||| 0x80 else b⟩

def world : Cli.World IO where
  files := systemFiles
  now := do return (← Std.Time.Timestamp.now).toNanosecondsSinceUnixEpoch.val
  newId := randomId

end RubyMachine

def main (args : List String) : IO UInt32 := do
  let r ← RubyMachine.Cli.execute RubyMachine.world args
  IO.print r.out
  IO.eprint r.err
  return UInt32.ofNat r.code
