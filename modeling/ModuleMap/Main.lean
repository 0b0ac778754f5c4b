import ModuleMap.CommandLine.Run
import ModuleMap.FileTree.Edit

/-!
# The program

The outer layer reads the part of the disk that a run may look at into a `FileTree`, hands the
arguments to `runArguments`, prints what comes back and exits with its code.

What is read: all below the working directory, and for each directory above it the files in it and
all below its `node_modules`.  Symbolic links are not followed.
-/

namespace ModuleMap.Disk

/-- How deep directories are read. -/
def depthLimit : Nat := 32

/-- The entries below a directory, which themselves are read to the given depth, and the directory
itself.  What cannot be read is left out. -/
def below : Nat → String → IO (List (Path × Content))
  | 0, directory => return [(.ofText directory, .directory)]
  | depth + 1, directory => do
    let here ← IO.currentDir
    let entries ← try (here / directory).readDir catch _ => pure #[]
    let mut found := [(Path.ofText directory, Content.directory)]
    for entry in entries do
      let name := entry.path.toString
      let kind ← try pure (some (← entry.path.symlinkMetadata).type) catch _ => pure none
      match kind with
      | some .dir => found := found ++ (← below depth name)
      | some .file =>
        let bytes ← try pure (← IO.FS.readBinFile entry.path).toList catch _ => pure []
        found := found ++ [(.ofText name, .file bytes)]
      | _ => pure ()
    return found

/-- The files of a directory and all below its `node_modules`. -/
def around (directory : Path) : IO (List (Path × Content)) := do
  let direct ← below 1 directory.display
  let packages ← below depthLimit (directory.join packagesName).display
  return direct ++ packages

/-- The tree of what a run in the given directory may look at. -/
def snapshot (directory : String) : IO FileTree := do
  let cwd := Path.ofText directory
  let inside ← below depthLimit directory
  let above ← cwd.properAncestors.mapM around
  return .ofEntries cwd (inside ++ above.flatten)

end ModuleMap.Disk

/-- Runs the command line. -/
def main (args : List String) : IO UInt32 := do
  let project ← IO.getEnv "TSMAP_PROJECT"
  let tree ← ModuleMap.Disk.snapshot (← IO.currentDir).toString
  -- On a disk every command comes to an end, since the length of paths is bounded.
  let some outcome := ModuleMap.runArguments tree project args | return 1
  match outcome with
  | .printed text => IO.print text
  | .failed report => IO.eprintln report.message
  | .misused cause => IO.eprintln cause.message
  return outcome.exitCode.toUInt32
