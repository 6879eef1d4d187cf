import CypherAssist.Text.Utf8
import CypherAssist.Workspace.Address
import CypherAssist.Workspace.Path

/-! URIs of documents and folders, and the paths that they name: the part between the authority and
the query, with its escaped bytes read as UTF-8. -/
namespace CypherAssist.Workspace

/-- The parts of a URI that matter to paths, as they are spelt. -/
structure Uri where
  scheme : List Char
  authority : List Char
  path : List Char
  deriving DecidableEq, Repr

/-- Why a text is no URI. -/
inductive UriError where
  | unbalancedBrackets
  | futureAddress
  | dottedAddress
  | noAddress (host : String)
  | confusable (authority : String)
  deriving DecidableEq, Repr

/-- The wording of an error. -/
def UriError.message : UriError → String
  | .unbalancedBrackets => "Invalid IPv6 URL"
  | .futureAddress => "IPvFuture address is invalid"
  | .dottedAddress => "An IPv4 address cannot be in brackets"
  | .noAddress host => Text.quoted host ++ " does not appear to be an IPv4 or IPv6 address"
  | .confusable authority =>
    "netloc '" ++ authority ++ "' contains invalid characters under NFKC normalization"

namespace Uri

/-- Whether a character may stand in a scheme behind the first letter. -/
def isSchemeChar (c : Char) : Bool :=
  c.isAlphanum || c == '+' || c == '-' || c == '.'

/-- The scheme in lower case and what follows its colon; no scheme where the text starts with
none. -/
def splitScheme (text : List Char) : List Char × List Char :=
  let scheme := text.takeWhile (· ≠ ':')
  match scheme.head?, text.dropWhile (· ≠ ':') with
  | some first, _ :: rest =>
    if first.isAlpha && scheme.all isSchemeChar then (scheme.map Char.toLower, rest) else ([], text)
  | _, _ => ([], text)

/-- Whether a character ends an authority. -/
def endsAuthority (c : Char) : Bool := c == '/' || c == '?' || c == '#'

/-- The authority behind two slashes, and what follows it. -/
def splitAuthority : List Char → List Char × List Char
  | '/' :: '/' :: rest =>
    (rest.takeWhile fun c => !endsAuthority c, rest.dropWhile fun c => !endsAuthority c)
  | text => ([], text)

/-- The characters that are equivalent to a text with a delimiter in it. -/
def confusables : List Char :=
  ['⁇', '⁈', '⁉', '℀', '℁', '℅', '℆', '⩴', '︓', '︖', '﹕', '﹖', '﹟', '﹫', '＃', '／', '：', '？',
   '＠']

/-- Checks what an authority has in brackets. -/
def checkHost (host : List Char) : Except UriError Unit :=
  if host.head? = some 'v' then
    if Address.isFuture host then .ok () else .error .futureAddress
  else if Address.isDotted host then .error .dottedAddress
  else if Address.isGrouped host then .ok ()
  else .error (.noAddress (String.ofList host))

/-- A text without what stands up to the last mark in it. -/
def behindLast (mark : Char) (text : List Char) : List Char :=
  (text.reverse.takeWhile (· ≠ mark)).reverse

/-- The host of an authority with brackets. Behind the last sign of a user nothing stands in front
of the brackets, and nothing but a colon and its number behind them. -/
def bracketedHost? (authority : List Char) : Except UriError (List Char) :=
  let server := behindLast '@' authority
  if server.contains '[' then
    let bracketed := (server.dropWhile (· ≠ '[')).drop 1
    let behind := (bracketed.dropWhile (· ≠ ']')).drop 1
    if server.head? ≠ some '[' ∨ ¬ (behind = [] ∨ behind.head? = some ':') then
      .error .unbalancedBrackets
    else .ok (bracketed.takeWhile (· ≠ ']'))
  else .ok (server.takeWhile (· ≠ ':'))

/-- Checks an authority: brackets come together and hold an address, and no character is a
delimiter in disguise. -/
def checkAuthority (authority : List Char) : Except UriError Unit := do
  if authority.contains '[' != authority.contains ']' then throw .unbalancedBrackets
  if authority.contains '[' then checkHost (← bracketedHost? authority)
  if authority.any confusables.contains then throw (.confusable (String.ofList authority))

/-- The schemes whose last path segment may carry parameters. -/
def parameterSchemes : List String :=
  ["", "ftp", "hdl", "prospero", "http", "imap", "https", "shttp", "rtsp", "rtspu", "sip", "sips",
   "mms", "sftp", "tel"]

/-- A path without the parameters of its last segment. -/
def dropParameters : List Char → List Char
  | [] => []
  | c :: rest => if c = ';' ∧ !rest.contains '/' then [] else c :: dropParameters rest

/-- A text as it is read as a URI: without the controls and blanks in front, and without tabs and
line breaks. -/
def cleaned (text : List Char) : List Char :=
  (text.dropWhile fun c => c.toNat ≤ 0x20).filter fun c => c != '\t' && c != '\r' && c != '\n'

/-- Reads a URI. -/
def ofText? (text : String) : Except UriError Uri := do
  let (scheme, rest) := splitScheme (cleaned text.toList)
  let (authority, rest) := splitAuthority rest
  checkAuthority authority
  let path := (rest.takeWhile (· ≠ '#')).takeWhile (· ≠ '?')
  return ⟨scheme, authority,
    if parameterSchemes.contains (String.ofList scheme) then dropParameters path else path⟩

/-- The value of a hexadecimal digit. -/
def hexDigit? (c : Char) : Option Nat :=
  if c.isDigit then some (c.toNat - '0'.toNat)
  else if 'a' ≤ c && c ≤ 'f' then some (c.toNat - 'a'.toNat + 10)
  else if 'A' ≤ c && c ≤ 'F' then some (c.toNat - 'A'.toNat + 10)
  else none

/-- The bytes of an ASCII text in which a percent sign and two digits stand for one byte. -/
def unescapeBytes : List Char → List UInt8
  | [] => []
  | '%' :: high :: low :: rest =>
    match hexDigit? high, hexDigit? low with
    | some h, some l => UInt8.ofNat (h * 16 + l) :: unescapeBytes rest
    | _, _ => UInt8.ofNat '%'.toNat :: unescapeBytes (high :: low :: rest)
  | c :: rest => UInt8.ofNat c.toNat :: unescapeBytes rest

/-- The text that an escaped text stands for. The bytes of each run of ASCII characters are read by
themselves, and those that are no UTF-8 are replaced. -/
def unescapeRun (run : List Char) : List Char → List Char
  | [] => Text.Utf8.lenient (unescapeBytes run.reverse)
  | c :: rest =>
    if c.toNat < 0x80 then unescapeRun (c :: run) rest
    else Text.Utf8.lenient (unescapeBytes run.reverse) ++ c :: unescapeRun [] rest

/-- The text that an escaped text stands for. -/
def unescape (text : List Char) : List Char := unescapeRun [] text

/-- The path that a URI names. -/
def toPath (uri : Uri) : Path := Path.ofText (Text.WideText.ofChars (unescape uri.path))

end Uri

/-- The path that a text names as a URI. -/
def pathOfUri? (text : String) : Except UriError Path := (Uri.ofText? text).map Uri.toPath

end CypherAssist.Workspace
