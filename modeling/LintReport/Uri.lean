import LintReport.Path.Normal
import LintReport.Uri.Host

set_option autoImplicit false

/- Addresses of files on this machine. An address names a file when it has a path
that starts with a slash and no host but the local one; its scheme does not count. -/
namespace LintReport.Uri

/-- Schemes by the way their addresses are read. -/
inductive Kind where
  | file
  | special
  | plain
  deriving DecidableEq, Repr

def isIgnored (c : Char) : Bool := c = '\t' || c = '\n' || c = '\r'

def dropIgnored (s : List Char) : List Char := s.filter fun c => !isIgnored c

def trimControls (s : List Char) : List Char :=
  let isControl (c : Char) : Bool := c.toNat ≤ 0x20
  ((s.dropWhile isControl).reverse.dropWhile isControl).reverse

def isLetter (c : Char) : Bool := ('a' ≤ c && c ≤ 'z') || ('A' ≤ c && c ≤ 'Z')

def isSchemeChar (c : Char) : Bool :=
  isLetter c || Text.isDigit c || c = '+' || c = '-' || c = '.'

def kindOf (scheme : List Char) : Kind :=
  let name := String.ofList (scheme.map Char.toLower)
  if name = "file" then .file
  else if ["http", "https", "ws", "wss", "ftp"].contains name then .special
  else .plain

/-- The kind of the scheme in front of a text, and what follows its colon. -/
def scheme? (s : List Char) : Option (Kind × List Char) :=
  match Text.splitFirst ':' s with
  | some (before, rest) =>
      let name := dropIgnored before
      if name.head?.any isLetter ∧ name.all isSchemeChar then some (kindOf name, rest) else none
  | none => none

def isSlash (kind : Kind) (c : Char) : Bool := c = '/' || (kind ≠ .plain && c = '\\')

def endsPath (c : Char) : Bool := c = '?' || c = '#'

def dropSlash? (kind : Kind) (s : List Char) : Option (List Char) :=
  match s.dropWhile isIgnored with
  | c :: rest => if isSlash kind c then some rest else none
  | [] => none

def dropSlash (kind : Kind) (s : List Char) : List Char := (dropSlash? kind s).getD s

def isDrive (segment : List Char) : Bool :=
  match segment with
  | [c, ':'] => isLetter c
  | _ => false

/-- A segment in small letters with the escapes of its dots resolved. -/
def dotForm (segment : List Char) : List Char :=
  match segment with
  | '%' :: '2' :: e :: rest =>
      if e = 'e' ∨ e = 'E' then '.' :: dotForm rest else '%' :: '2' :: e :: rest
  | '.' :: rest => '.' :: dotForm rest
  | s => s

/-- Puts a segment onto those before it, the last in front. A double dot takes one
away, but never a drive. -/
def push (segments : List (List Char)) (segment : List Char) : List (List Char) :=
  if dotForm segment = ['.'] then segments
  else if dotForm segment = ['.', '.'] then
    match segments with
    | last :: before => if isDrive last then segments else before
    | [] => []
  else segment :: segments

/-- The segments of a path, the last in front. `segment` is the one that is being
read, backwards, and `gap` tells that an ignored character came last. In the address
of a file a drive at the start that such a gap follows ends there, and then what
follows is taken as it is. -/
def segmentsFrom (kind : Kind) (segments : List (List Char)) (segment : List Char)
    (gap verbatim : Bool) : List Char → List (List Char)
  | [] => if verbatim then segment.reverse :: segments else push segments segment.reverse
  | c :: rest =>
      let closed := if verbatim then segment.reverse :: segments else push segments segment.reverse
      if isIgnored c then segmentsFrom kind segments segment true verbatim rest
      else if isSlash kind c then segmentsFrom kind closed [] false false rest
      else if endsPath c then closed
      else if kind = .file ∧ gap ∧ segments.isEmpty ∧ isDrive segment.reverse then
        segmentsFrom kind [segment.reverse] [c] false true rest
      else segmentsFrom kind segments (c :: segment) false verbatim rest

def segments (kind : Kind) (s : List Char) : List (List Char) :=
  (segmentsFrom kind [] [] false false s).reverse

/-- The path that some segments name; none at all name the root. -/
def pathOf (segments : List (List Char)) : Path :=
  Path.normalize ⟨Path.separator :: segments.flatMap fun s => Path.separator :: percentDecode 0 s⟩

def localPath (kind : Kind) (s : List Char) : Path := pathOf (segments kind (dropSlash kind s))

def isDriveHost (host : List Char) : Bool :=
  match host with
  | [c, d] => isLetter c && (d = ':' || d = '|')
  | _ => false

def startsWithDrive (s : List Char) : Bool :=
  match (segments .file (dropIgnored (dropSlash .file s))).head? with
  | some segment => isDrive segment
  | none => false

/-- The path of a file address, behind its colon. A host gives way to a drive. -/
def filePath? (s : List Char) : Option Path :=
  match (dropSlash? .file s).bind (dropSlash? .file) with
  | none => some (localPath .file s)
  | some rest =>
      let isHostChar (c : Char) : Bool := !isSlash .file c && !endsPath c
      let host := dropIgnored (rest.takeWhile isHostChar)
      let path := rest.dropWhile isHostChar
      if isDriveHost host then some (localPath .file rest)
      else if host.isEmpty ∨ isLocalHost host ∨ (isHost host ∧ startsWithDrive path) then
        some (localPath .file path)
      else none

/-- An address cut behind its slashes: the user, if one is given, the host, the port
with the rest of that part, and the path. -/
structure Authority where
  user : Option (List Char)
  host : List Char
  port : Option (List Char)
  path : List Char

namespace Authority

def splitUser (s : List Char) : Option (List Char) × List Char :=
  let host := (s.reverse.takeWhile (· ≠ '@')).reverse
  if host.length = s.length then (none, s)
  else (some (s.take (s.length - host.length - 1)), host)

def ofText (kind : Kind) (s : List Char) : Authority :=
  let isOwn (c : Char) : Bool := !(c = '/' || endsPath c || (kind = .special && c = '\\'))
  let p := splitUser (dropIgnored (s.takeWhile isOwn))
  let path := s.dropWhile isOwn
  match Text.splitFirst ':' p.2 with
  | some (host, port) => ⟨p.1, host, some port, path⟩
  | none => ⟨p.1, p.2, none, path⟩

def isPersonal (a : Authority) : Bool := a.user.any fun u => !u.isEmpty && u ≠ [':']

/-- Whether the host, with what may stand around it, is the local one or none. -/
def isLocal (kind : Kind) (a : Authority) : Bool :=
  if a.host.isEmpty then
    kind = .plain && !a.isPersonal && a.port.isNone &&
      (a.user ≠ some [] || a.path.isEmpty)
  else if kind = .special then isLocalHost a.host
  else a.host = localName

/-- What follows a port number of sixteen bits. In a plain address a backslash ends
the number, and belongs to the path. -/
def behindPort? (kind : Kind) (a : Authority) : Option (List Char) :=
  match a.port with
  | none => some a.path
  | some port =>
      let digits := port.takeWhile Text.isDigit
      let rest := port.drop digits.length
      if (Text.number? 10 digits).any (65535 < ·) then none
      else if rest.isEmpty ∨ (kind = .plain ∧ rest.head? = some '\\') then some (rest ++ a.path)
      else none

end Authority

/-- The path of an address whose host follows. A plain address may have no path. -/
def hostedPath? (kind : Kind) (s : List Char) : Option Path :=
  let a := Authority.ofText kind s
  if a.isLocal kind then
    match a.behindPort? kind with
    | none => none
    | some path =>
        if kind = .plain ∧ (path.dropWhile isIgnored).head?.all endsPath then none
        else some (localPath kind path)
  else none

/-- The path of an address of a special scheme; slashes in front do not count. -/
def specialPath? (s : List Char) : Option Path :=
  hostedPath? .special (s.dropWhile fun c => isIgnored c || isSlash .special c)

/-- The path of any other address. -/
def plainPath? (s : List Char) : Option Path :=
  match dropSlash? .plain s with
  | none => none
  | some rest =>
      match dropSlash? .plain rest with
      | some host => hostedPath? .plain host
      | none => some (localPath .plain s)

/-- The path of the file that an address names. -/
def toPath? (uri : String) : Option Path :=
  match scheme? (trimControls uri.toList) with
  | none => none
  | some (.file, rest) => filePath? rest
  | some (.special, rest) => specialPath? rest
  | some (.plain, rest) => plainPath? rest

end LintReport.Uri
