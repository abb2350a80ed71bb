import SemanticLayer.Url.Host

/-!
Reading URLs, alone or relative to a base. Segments that are dots are resolved while a path is read.
-/
namespace SemanticLayer.Url

/-- What is read: control characters and spaces at both ends are dropped, and so are tabs and line ends
everywhere. -/
def significant (text : String) : List Char :=
  let isEdge : Char → Bool := fun c => c.toNat ≤ 0x20
  let cs := ((text.toList.dropWhile isEdge).reverse.dropWhile isEdge).reverse
  cs.filter fun c => c != '\t' && c != '\n' && c != '\r'

def isSchemeChar (c : Char) : Bool := c.isAlphanum || c == '+' || c == '-' || c == '.'

def scheme? (cs : List Char) : Option (String × List Char) :=
  match cs.span isSchemeChar with
  | (c :: name, ':' :: rest) =>
    if c.isAlpha then some ((String.ofList (c :: name)).toLower, rest) else none
  | _ => none

/-! Paths -/

def isSlash (special : Bool) (c : Char) : Bool := c == '/' || (special && c == '\x5c')

def isDrive (segment : String) : Bool :=
  match segment.toList with
  | [c, mark] => c.isAlpha && (mark == ':' || mark == '|')
  | _ => false

def isNormalDrive (segment : String) : Bool := isDrive segment && segment.endsWith ":"

def isDoubleDot (segment : String) : Bool :=
  ["..", ".%2e", "%2e.", "%2e%2e"].contains segment.toLower

def isSingleDot (segment : String) : Bool := [".", "%2e"].contains segment.toLower

/-- Segments of a path up to and including one more. A dot adds nothing, two dots take the last segment
away unless it is a drive, and where they stand last an empty segment follows. -/
def addSegment (isFile : Bool) (before : List String) (segment : String) (isLast : Bool) :
    List String :=
  let closing := if isLast then [""] else []
  if isDoubleDot segment then
    (if before.getLast?.any isDrive then before else before.dropLast) ++ closing
  else if isSingleDot segment then before ++ closing
  else if isFile && before.isEmpty && isDrive segment then
    [String.ofList (segment.toList.take 1) ++ ":"]
  else before ++ [segment]

def addSegments (isFile : Bool) : List String → List (List Char) → List String
  | before, [] => before
  | before, segment :: rest =>
    addSegments isFile (addSegment isFile before (encoded inPath segment) rest.isEmpty) rest

def splitSlashes (special : Bool) : List Char → List (List Char)
  | [] => [[]]
  | c :: rest =>
    match splitSlashes special rest with
    | [] => [[c]]
    | first :: others => if isSlash special c then [] :: first :: others else (c :: first) :: others

def withoutEmptyFront (names : List String) : List String :=
  match names.dropWhile String.isEmpty with
  | [] => [""]
  | names => names

def pathPart (cs : List Char) : List Char × List Char := cs.span fun c => c != '?' && c != '#'

def continued (scheme : String) (before : List String) (cs : List Char) : Path :=
  let names := addSegments (scheme == "file") before (splitSlashes (isSpecial scheme) cs)
  .segments (if scheme == "file" then withoutEmptyFront names else names)

def Path.parent (isFile : Bool) : Path → List String
  | .whole _ => []
  | .segments names => if isFile && names.getLast?.any isNormalDrive then names else names.dropLast

/-! Query and fragment -/

def withEnding (u : Url) (cs : List Char) : Url :=
  match cs with
  | '?' :: rest =>
    let (query, rest) := rest.span (· != '#')
    { u with query := some (encoded (inQuery (isSpecial u.scheme)) query)
             fragment := match rest with
               | '#' :: rest => some (encoded inFragment rest)
               | _ => none }
  | '#' :: rest => { u with query := none, fragment := some (encoded inFragment rest) }
  | _ => { u with query := none, fragment := none }

def withFragment (base : Url) (cs : List Char) : Url :=
  { base with fragment := some (encoded inFragment cs) }

/-! Authorities -/

def isAuthorityEnd (special : Bool) (c : Char) : Bool := isSlash special c || c == '?' || c == '#'

def splitLast (mark : Char) (cs : List Char) : Option (List Char) × List Char :=
  match cs.reverse.span (· != mark) with
  | (back, _ :: front) => (some front.reverse, back.reverse)
  | (back, []) => (none, back.reverse)

def hostLength (inBrackets : Bool) : List Char → Nat
  | [] => 0
  | c :: rest =>
    if c == ':' && !inBrackets then 0
    else hostLength (c == '[' || (c != ']' && inBrackets)) rest + 1

def readPort (scheme : String) (cs : List Char) : Except Fault (Option Nat) := do
  if !cs.all Char.isDigit then throw .invalidPort
  let value := cs.foldl (fun value c => value * 10 + (c.toNat - 48)) 0
  if 65535 < value then throw .invalidPort
  return if cs.isEmpty ∨ defaultPort? scheme = some value then none else some value

/-- Reads what stands between two slashes and the path; `isEnd` tells that nothing follows. An at sign
alone takes a host after it, unless it ends the text. -/
def readAuthority (scheme : String) (isEnd : Bool) (cs : List Char) : Except Fault Authority := do
  let special := isSpecial scheme
  let (credentials, rest) := splitLast '@' cs
  let (username, password) := match (credentials.getD []).span (· != ':') with
    | (username, _ :: password) => (username, password)
    | (username, []) => (username, [])
  let length := hostLength false rest
  let name := String.ofList (rest.take length)
  let after := rest.drop length
  let hasCredentials := !username.isEmpty || !password.isEmpty || (credentials == some [] && !isEnd)
  if name.isEmpty && (special || !after.isEmpty || hasCredentials) then throw .emptyHost
  let host ← if special then readHost name else readPlainHost name
  let number ← readPort scheme (after.drop 1)
  return ⟨encoded inCredentials username, encoded inCredentials password, host, number⟩

def afterSlashes (scheme : String) (cs : List Char) : Except Fault Url := do
  let special := isSpecial scheme
  let (front, rest) := cs.span (fun c => !isAuthorityEnd special c)
  let authority ← readAuthority scheme rest.isEmpty front
  let (body, ending) := pathPart rest
  let path := match body with
    | [] => if special then .segments [""] else .segments []
    | _ :: body => continued scheme [] body
  return withEnding ⟨scheme, some authority, path, none, none⟩ ending

/-! Files -/

def fileAuthority (host : Host) : Authority := ⟨"", "", host, none⟩

def noHost : Host := .domain ""

/-- A file URL from what follows `file://`. A drive is never a host, and no host goes with a drive. -/
def fileWithHost (cs : List Char) : Except Fault Url := do
  let (name, rest) := cs.span (fun c => !isAuthorityEnd true c)
  let name := String.ofList name
  if isDrive name then
    let (body, ending) := pathPart cs
    return withEnding ⟨"file", some (fileAuthority noHost), continued "file" [] body, none, none⟩ ending
  let host ← if name.isEmpty then pure noHost else readHost name
  let host := if host = .domain "localhost" then noHost else host
  let (body, ending) := pathPart rest
  let path := continued "file" [] (body.drop 1)
  let host := match path with
    | .segments (first :: _) => if isDrive first then noHost else host
    | _ => host
  return withEnding ⟨"file", some (fileAuthority host), path, none, none⟩ ending

def startsWithDrive (cs : List Char) : Bool :=
  isDrive (String.ofList (cs.takeWhile fun c => !isAuthorityEnd true c))

def readFile (base : Option Url) (cs : List Char) : Except Fault Url := do
  let (body, ending) := pathPart cs
  let fresh (host : Host) (before : List String) (body : List Char) : Url :=
    withEnding ⟨"file", some (fileAuthority host), continued "file" before body, none, none⟩ ending
  match cs with
  | a :: rest =>
    if isSlash true a then
      if rest.head?.any (isSlash true) then fileWithHost (rest.drop 1)
      else
        match base with
        | some base =>
          let drive := match base.path with
            | .segments (first :: _) => if isNormalDrive first then [first] else []
            | _ => []
          let host := match base.authority with
            | some a => if drive.isEmpty then a.host else noHost
            | none => noHost
          if startsWithDrive rest then return fresh noHost [] (body.drop 1)
          else return fresh host drive (body.drop 1)
        | none => return fresh noHost [] (body.drop 1)
    else
      match base with
      | some base =>
        if a == '?' then return withEnding base cs
        else if a == '#' then return withFragment base rest
        else if startsWithDrive cs then return fresh noHost [] body
        else
          let path := continued "file" (base.path.parent true) body
          return withEnding { base with path := path } ending
      | none => return fresh noHost [] body
  | [] =>
    match base with
    | some base => return { base with fragment := none }
    | none => return fresh noHost [] []

/-! References -/

def readRelative (base : Url) (cs : List Char) : Except Fault Url := do
  match cs with
  | [] => return { base with fragment := none }
  | '?' :: _ => return withEnding base cs
  | '#' :: rest => return withFragment base rest
  | c :: rest =>
    if isSlash true c then
      if rest.head?.any (isSlash true) then
        match cs with
        | '/' :: '/' :: after => afterSlashes base.scheme after
        | _ => afterSlashes base.scheme (cs.dropWhile (isSlash true))
      else
        let (body, ending) := pathPart rest
        return withEnding { base with path := continued base.scheme [] body } ending
    else
      let (body, ending) := pathPart cs
      let path := continued base.scheme (base.path.parent false) body
      return withEnding { base with path := path } ending

def readScheme (base : Option Url) (scheme : String) (cs : List Char) : Except Fault Url := do
  let base := base.filter (·.scheme == scheme)
  if scheme == "file" then readFile base cs
  else if isSpecial scheme then
    let slashes := cs.takeWhile (isSlash true)
    match base with
    | some base =>
      if slashes.length < 2 then readRelative base cs
      else afterSlashes scheme (cs.drop slashes.length)
    | none => afterSlashes scheme (cs.drop slashes.length)
  else
    match cs with
    | '/' :: '/' :: rest => afterSlashes scheme rest
    | '/' :: rest =>
      let (body, ending) := pathPart rest
      return withEnding ⟨scheme, none, continued scheme [] body, none, none⟩ ending
    | _ =>
      let (body, ending) := pathPart cs
      return withEnding ⟨scheme, none, .whole (encoded isControl body), none, none⟩ ending

def isWhole (u : Url) : Bool :=
  match u.path with
  | .whole _ => true
  | .segments _ => false

def readFrom (base : Option Url) (text : String) : Except Fault Url := do
  let cs := significant text
  match scheme? cs, base with
  | some (scheme, rest), _ => readScheme base scheme rest
  | none, none => throw .relativeWithoutBase
  | none, some base =>
    match cs with
    | '#' :: rest => return withFragment base rest
    | _ =>
      if base.isWhole then throw .relativeToWhole
      else if base.scheme == "file" then readFile (some base) cs
      else readRelative base cs

def read (text : String) : Except Fault Url := readFrom none text

/-- The URL that a text means in a document; where the document has no URL itself, the text must be one. -/
def resolve (document text : String) : Except Fault String := do
  match read document with
  | .ok base => return (← readFrom (some base) text).text
  | .error _ => return (← read text).text

/-! Names of files -/

def ofFileName (segments : List String) : Url :=
  let names := segments.map fun name => encoded inFileName name.toList
  ⟨"file", some (fileAuthority noHost), .segments (if names.isEmpty then [""] else names), none, none⟩

def fileName? (u : Url) : Option String :=
  match u.path with
  | .whole _ => none
  | .segments names =>
    match u.authority.map Authority.host with
    | none | some (.domain "") | some (.domain "localhost") =>
      let name := "".intercalate (names.map ("/" ++ ·))
      (decoded? name).map fun name =>
        match name.toList.reverse with
        | mark :: letter :: _ :: _ =>
          if letter.isAlpha && (mark == ':' || mark == '|') then name ++ "/" else name
        | _ => name
    | _ => none

end SemanticLayer.Url
