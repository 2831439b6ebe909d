import LintReport.Command.Arguments
import LintReport.Command.Output
import LintReport.Configuration.Layers
import LintReport.Fallback

set_option autoImplicit false

/- The command: it loads the configuration, reads all documents, and only then
analyzes them. -/
namespace LintReport.Command

def languageNames : List (String × String) :=
  [("c", "c"), ("cc", "cpp"), ("cpp", "cpp"), ("cxx", "cpp"), ("c++", "cpp"), ("h", "cpp"),
    ("hh", "cpp"), ("hpp", "cpp"), ("hxx", "cpp")]

/-- The language of a file; capital letters in its extension do not count. -/
def languageOf? (p : Path) : Option String :=
  (p.extension.bind Utf8.text?).bind fun e =>
    languageNames.lookup (String.ofList (e.toList.map Char.toLower))

inductive Failure where
  | configuration (e : ConfigurationError)
  | document (path : Path) (reason : DiskError)
  deriving DecidableEq, Repr

namespace Failure

/-- The message names the reason once more where a file could not be read. -/
def message : Failure → String
  | .configuration (.unreadable path reason) =>
      "loading configuration: " ++ (ConfigurationError.unreadable path reason).message ++
        ": " ++ reason.message
  | .configuration (.malformed path) =>
      "loading configuration: " ++ (ConfigurationError.malformed path).message
  | .document path reason => "reading " ++ path.text ++ ": " ++ reason.message

end Failure

def absolute (workingFolder p : Path) : Path := (Path.absolute? workingFolder p).getD p

/-- The workspace folders; without any the working folder is one. -/
def foldersOf (workingFolder : Path) (a : Arguments) : List WorkspaceFolder :=
  let given := if a.workspaces.isEmpty then [workingFolder] else a.workspaces
  given.map fun p => WorkspaceFolder.ofPath (absolute workingFolder p)

/-- Reads the files of a known language, or of the one that was asked for. The others
are passed over. -/
def readDocuments (disk : Disk) (language : Option String) :
    List Path → Except Failure (List Document)
  | [] => .ok []
  | file :: rest =>
      match language.or (languageOf? file) with
      | none => readDocuments disk language rest
      | some name =>
          let path := absolute disk.workingFolder file
          match Document.read disk path name with
          | .error reason => .error (.document path reason)
          | .ok d => (readDocuments disk language rest).map (d :: ·)

def loadConfiguration (disk : Disk) (home : Path) (a : Arguments) :
    Except Failure Configuration :=
  let workspace := (foldersOf disk.workingFolder a).head?.map WorkspaceFolder.path
  match Configuration.load disk home workspace a.config with
  | .error e => .error (.configuration e)
  | .ok c => .ok { c with executable := a.executable.getD c.executable }

def analyzeAll (analyzer : Analyzer) : List Document → World → List Event × World
  | [], w => ([], w)
  | d :: rest, w =>
      let first := analyzer.analyze d w
      let others := analyzeAll analyzer rest first.2
      (Event.ofResult d first.1 :: others.1, others.2)

/-- Analyzes documents one by one, each with a second try. -/
def retryAll (analyzer : Analyzer) :
    Associations → List Document → World → List Event × World
  | _, [], w => ([], w)
  | associations, d :: rest, w =>
      let first := Fallback.analyze analyzer d associations w
      let others := retryAll analyzer first.associations rest first.world
      (Event.ofResult d first.result :: others.1, others.2)

/-- The analyzer and the documents that the arguments ask for. -/
def prepare (host : Host) (home : Path) (a : Arguments) (disk : Disk) :
    Except Failure (Analyzer × List Document) :=
  match loadConfiguration disk home a with
  | .error e => .error e
  | .ok c =>
      let profile := Profile.ofConfiguration disk c (foldersOf disk.workingFolder a)
      (readDocuments disk a.language a.files).map fun documents => (⟨profile, host⟩, documents)

def refuse (e : Failure) : Output := ⟨"", [complaint e.message], 2⟩

def analysis (host : Host) (home : Path) (a : Arguments) (w : World) : Output × World :=
  match prepare host home a w.disk with
  | .error e => (refuse e, w)
  | .ok (analyzer, documents) =>
      let r := if a.fallback then retryAll analyzer Associations.empty documents w
        else analyzeAll analyzer documents w
      (conclude a.json r.1, r.2)

def version : String := "tidyscan 0.0.0\n"

def run (host : Host) (home : Path) (args : List Argument) (w : World) : Output × World :=
  match Request.ofList args with
  | .analysis a => analysis host home a w
  | .version => (⟨version, [], 0⟩, w)
  | .help => (⟨"", [], 0⟩, w)
  | .misuse => (⟨"", [], 2⟩, w)

end LintReport.Command
