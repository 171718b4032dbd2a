import CMinus.CommandLine.Session

namespace CMinus

def fileError : IO.Error → FileError
  | .noFileOrDirectory .. => .notFound
  | e => .other (toString e)

def systemDisk : Disk IO where
  read path := do
    try return .ok (← IO.FS.readBinFile path)
    catch e => return .error (fileError e)
  write path text := do
    try
      IO.FS.writeFile path text
      return .ok ()
    catch e => return .error (fileError e)

end CMinus

def main (args : List String) : IO UInt32 := do
  let report ← CMinus.session CMinus.systemDisk args
  IO.print report.stdout
  IO.eprint report.stderr
  return report.exit
