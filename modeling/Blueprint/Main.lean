import Blueprint.Command.Lint

/-!
The program: it reads the files that a command line is about, carries the command line out on them,
and writes back the files that have changed.
-/

namespace Blueprint.Command

/-- What is at a path; what cannot be read counts as a file without text. -/
def readEntry (path : String) : IO (Option FileEntry) := do
  try
    let content ← IO.FS.readBinFile path
    return some (((String.fromUTF8? content).map FileEntry.text).getD .binary)
  catch e =>
    match e with
    | .noFileOrDirectory _ _ _ => return none
    | _ => return some .binary

def load (fs : Files) (path : String) : IO Files := do
  if path = "" || fs.exists? path then return fs
  return ((← readEntry path).map (fs.create path)).getD fs

/-- The files that a command line names, and those that they import. -/
def loadAll (args : Args) : IO Files := do
  let fs ← (namedFiles args).foldlM load .empty
  (args.files.flatMap (importedFiles fs)).foldlM load fs

/-- Writes a file unless it is as it was before. -/
def store (before after : Files) (path : String) : IO Unit := do
  match after.read? path with
  | some text => if before.read? path != some text then IO.FS.writeFile path text
  | none => return

def runOnDisk (args : Args) : IO UInt32 := do
  let before ← loadAll args
  let (after, result) := run before args
  args.files.forM (store before after)
  match result with
  | .ok (report, verdict) =>
    IO.print report
    return verdict.exitCode.toUInt32
  | .error e =>
    IO.eprintln ("Error: " ++ e.message)
    return 2

end Blueprint.Command

def main (words : List String) : IO UInt32 := do
  match Blueprint.Args.ofWords words with
  | .ok args => Blueprint.Command.runOnDisk args
  | .error fault =>
    if fault.isRequest then
      IO.println fault.message
      return 0
    else
      IO.eprintln ("Error: " ++ fault.message)
      return 2
