import LintReport.Path

set_option autoImplicit false

/- The arguments of the command, as bytes. They are read from left to right, and the
first one that is wrong, or asks for the version, decides. -/
namespace LintReport.Command

/-- An argument as the system passes it on. -/
abbrev Argument := List UInt8

@[match_pattern] abbrev dash : UInt8 := 0x2D

structure Arguments where
  config : Option Path
  workspaces : List Path
  language : Option String
  executable : Option String
  fallback : Bool
  json : Bool
  verbose : Bool
  files : List Path
  deriving DecidableEq, Repr

/-- What the arguments ask for. -/
inductive Request where
  | analysis (a : Arguments)
  | version
  | help
  | misuse
  deriving DecidableEq, Repr

namespace Arguments

def none : Arguments := ⟨.none, [], .none, .none, false, false, false, []⟩

def addFile (a : Arguments) (file : Argument) : Option Arguments :=
  if file.isEmpty then .none else some { a with files := a.files ++ [⟨file⟩] }

def addFiles (a : Arguments) (files : List Argument) : Option Arguments := files.foldlM addFile a

def isValued (name : String) : Bool :=
  ["config", "workspace", "language", "executable"].contains name

/-- Sets what a long name stands for. All but workspaces are given once, and only paths
may be other than UTF-8. -/
def setValue (a : Arguments) (name : String) (value : Argument) : Option Arguments :=
  match name with
  | "config" =>
      if a.config.isSome || value.isEmpty then .none else some { a with config := some ⟨value⟩ }
  | "workspace" =>
      if value.isEmpty then .none else some { a with workspaces := a.workspaces ++ [⟨value⟩] }
  | "language" =>
      if a.language.isSome then .none
      else (Utf8.text? value).map fun text => { a with language := some text }
  | "executable" =>
      if a.executable.isSome then .none
      else (Utf8.text? value).map fun text => { a with executable := some text }
  | _ => .none

/-- Sets a flag that is not set yet. -/
def setFlag (a : Arguments) (name : String) : Option Arguments :=
  match name with
  | "fallback" => if a.fallback then .none else some { a with fallback := true }
  | "json" => if a.json then .none else some { a with json := true }
  | "verbose" => if a.verbose then .none else some { a with verbose := true }
  | _ => .none

/-- Reads the letters behind a single dash; either goes on or is done. -/
def setLetters (a : Arguments) : List Char → Arguments ⊕ Request
  | [] => .inl a
  | 'v' :: rest =>
      match a.setFlag "verbose" with
      | some a => setLetters a rest
      | .none => .inr .misuse
  | 'V' :: _ => .inr .version
  | 'h' :: _ => .inr .help
  | _ => .inr .misuse

def isOption (arg : Argument) : Bool := arg.head? = some dash && arg ≠ [dash]

/-- A long option cut at its first equals sign. -/
def splitLong (arg : Argument) : String × Option Argument :=
  match Text.splitFirst 0x3D (arg.drop 2) with
  | some (name, value) => (Utf8.lossy name, some value)
  | .none => (Utf8.lossy (arg.drop 2), .none)

/-- Reads a long option that has no value. -/
def setLong (a : Arguments) (arg : Argument) : Arguments ⊕ Request :=
  match splitLong arg with
  | ("help", .none) => .inr .help
  | ("version", .none) => .inr .version
  | (name, .none) => ((a.setFlag name).map Sum.inl).getD (.inr .misuse)
  | (name, some value) => ((a.setValue name value).map Sum.inl).getD (.inr .misuse)

def finish (a : Option Arguments) : Request :=
  match a with
  | some a => if a.files.isEmpty then .misuse else .analysis a
  | .none => .misuse

/-- Reads arguments behind those that `a` stands for. -/
def readFrom (a : Arguments) : List Argument → Request
  | [] => finish (some a)
  | arg :: rest =>
      if arg = [dash, dash] then finish (a.addFiles rest)
      else if [dash, dash].isPrefixOf arg then
        if isValued (splitLong arg).1 && (splitLong arg).2.isNone then
          match rest with
          | value :: rest =>
              if isOption value then .misuse
              else
                match a.setValue (splitLong arg).1 value with
                | some a => readFrom a rest
                | .none => .misuse
          | [] => .misuse
        else
          match a.setLong arg with
          | .inl a => readFrom a rest
          | .inr request => request
      else if isOption arg then
        match a.setLetters (Utf8.decodeLossy (arg.drop 1)) with
        | .inl a => readFrom a rest
        | .inr request => request
      else
        match a.addFile arg with
        | some a => readFrom a rest
        | .none => .misuse

end Arguments

def Request.ofList (args : List Argument) : Request := Arguments.readFrom Arguments.none args

end LintReport.Command
