import LintReport.Command

set_option autoImplicit false

/- The command line. The analyzer is started by the caller, who passes on what it
wrote: `clang-tidy a.cpp --export-fixes=- | lint-report a.cpp`. Each start of the
analyzer therefore ends at once with the text on standard input. The files that may
be asked for are put into a `Disk` before. -/
namespace LintReport.Main

open Command (Arguments Request)

/-- Puts a file into a disk if it can be read. -/
def fetch (disk : Disk) (p : Path) : IO Disk := do
  try
    let content ← IO.FS.readBinFile p.text
    pure (disk.write p content.toList)
  catch _ => pure disk

def fetchAll (disk : Disk) (paths : List Path) : IO Disk := paths.foldlM fetch disk

def inputs (workingFolder home : Path) (a : Arguments) : List Path :=
  let folders := (Command.foldersOf workingFolder a).map WorkspaceFolder.path
  Configuration.userFile home :: folders.map (fun f => f.child Configuration.projectFile) ++
    folders.map Companion.fileIn ++ a.config.toList ++ a.files

/-- The paths in the output of the analyzer that positions are looked up in. -/
def mentioned (workingFolder : Path) (a : Arguments) (output : List Char) : List Path :=
  let policies := a.files.map fun file =>
    PathPolicy.mk [] false [] (Command.absolute workingFolder file).normalize
  let texts := (Finding.scan output).flatMap fun f =>
    f.filePath :: f.replacements.map RawReplacement.filePath
  policies.flatMap fun policy => texts.map policy.absolutize

/-- Where the analyzer is said to lie when its name has no directories. -/
def standInFolder : Path := ⟨"/analyzer"⟩

def host (output : List UInt8) : Host where
  searchPath := [standInFolder]
  respond := fun _ disk _ => (.finished 0 output [], disk)

/-- Puts something to start where the analyzer is looked for. -/
def addAnalyzer (disk : Disk) (h : Host) (home : Path) (a : Arguments) : Disk :=
  match Command.loadConfiguration disk home a with
  | .error _ => disk
  | .ok c =>
      let names := (h.candidates disk ⟨c.executable⟩).map disk.namesOf
      { disk with root := names.foldl (fun root name =>
          root.alter (fun _ => some (.file [] true)) name) disk.root }

def world (home : Path) (a : Arguments) (output : List UInt8) : IO World := do
  let folder : Path := ⟨(← IO.currentDir).toString⟩
  let empty : Disk := ⟨.directory [], folder⟩
  let paths := inputs folder home a ++ mentioned folder a (Utf8.decodeLossy output)
  let disk ← fetchAll empty paths
  pure ⟨addAnalyzer disk (host output) home a, []⟩

def run (args : List String) : IO Command.Output := do
  let home : Path := ⟨(← IO.getEnv "HOME").getD "/"⟩
  let args := args.map fun arg => Utf8.encode arg.toList
  match Request.ofList args with
  | .analysis a =>
      let output ← (← IO.getStdin).readBinToEnd
      let w ← world home a output.toList
      pure (Command.run (host output.toList) home args w).1
  | _ => pure (Command.run (host []) home args ⟨⟨.directory [], ⟨"/"⟩⟩, []⟩).1

end LintReport.Main

def main (args : List String) : IO UInt32 := do
  let output ← LintReport.Main.run args
  (← IO.getStdout).putStr output.stdout
  output.stderr.forM fun line => IO.eprintln line
  pure output.status.toUInt32
