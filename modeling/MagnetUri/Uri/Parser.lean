import MagnetUri.Text
import MagnetUri.Uri.Basic

set_option autoImplicit false

/-! Reading identifiers. Each reader takes the longest beginning of a text that is
its component and gives what is left; a reader that fails tells the place from
the start of its own text, in UTF-16 units. An absolute identifier is one without a fragment. -/

namespace MagnetUri.Text.Quoted

open Character (hexDigit)

def escapeUnit (value : Nat) : Text :=
  ['\\', 'u', hexDigit (value / 0x1000 % 16), hexDigit (value / 0x100 % 16),
    hexDigit (value / 0x10 % 16), hexDigit (value % 16)]

def escape (char : Char) : Text :=
  if char = '"' then ['\\', '"']
  else if char = '\\' then ['\\', '\\']
  else if char = '\x08' then ['\\', 'b']
  else if char = '\t' then ['\\', 't']
  else if char = '\n' then ['\\', 'n']
  else if char = '\x0c' then ['\\', 'f']
  else if char = '\r' then ['\\', 'r']
  else if char.toNat < 0x20 then escapeUnit char.toNat
  else [char]

def body : Text → Nat → Text
  | _, 0 => []
  | [], _ + 1 => []
  | char :: rest, count + 1 =>
      if unitWidth char = 1 then escape char ++ body rest count
      else if count = 0 then escapeUnit (0xD800 + (char.toNat - 0x10000) / 0x400)
      else char :: body rest (count - 1)

def excerpt (text : Text) (count : Nat) : Text :=
  '"' :: body text count ++ ['"']

end MagnetUri.Text.Quoted

namespace MagnetUri.Uri

inductive Fault where
  | schemeStart
  | schemeEnd
  | brokenEscape
  | secondAt
  | userinfo
  | port
  /-- An opening bracket that no bracket closes. -/
  | openLiteral
  | literal
  | name
  /-- The identifier ends before the text does. -/
  | leftover (rest : Text)
deriving DecidableEq

namespace Fault

def code : Fault → String
  | .schemeStart => "invalid-scheme"
  | .schemeEnd => "missing-scheme"
  | .brokenEscape => "bad-pct-encoding"
  | .secondAt | .userinfo | .port => "invalid-authority"
  | .openLiteral | .literal | .name => "invalid-host"
  | .leftover _ => "leftover"

def excerptLength : Nat := 16

def detail? : Fault → Option String
  | .schemeStart => some "scheme must start with a letter"
  | .schemeEnd => some "expected \":\" after scheme"
  | .brokenEscape | .name => none
  | .secondAt => some "more than one \"@\""
  | .userinfo => some "bad userinfo"
  | .port => some "bad port"
  | .openLiteral => some "unterminated IP literal"
  | .literal => some "bad IP literal"
  | .leftover rest => some (String.ofList (Text.Quoted.excerpt rest excerptLength))

end Fault

structure SyntaxError where
  fault : Fault
  position : Int
deriving DecidableEq

namespace SyntaxError

def shift (distance : Int) (error : SyntaxError) : SyntaxError :=
  { error with position := error.position + distance }

def message (error : SyntaxError) : String :=
  let place := "Invalid URI syntax (" ++ error.fault.code ++ ") at " ++ toString error.position
  match error.fault.detail? with
  | some detail => place ++ ": " ++ detail
  | none => place

end SyntaxError

open Character

/-- The longest beginning made of escapes and characters of a class, and the rest. Fails
at a percent sign that begins no escape. -/
def readRun (inClass : Char → Bool) : Text → Except Nat (Text × Text)
  | [] => .ok ([], [])
  | '%' :: high :: low :: rest =>
      if isHexDigit high && isHexDigit low then
        match readRun inClass rest with
        | .ok (run, rest) => .ok ('%' :: high :: low :: run, rest)
        | .error place => .error (place + 3)
      else .error 0
  | char :: rest =>
      if char = '%' then .error 0
      else if inClass char then
        match readRun inClass rest with
        | .ok (run, rest) => .ok (char :: run, rest)
        | .error place => .error (place + 1)
      else .ok ([], char :: rest)

def isRun (inClass : Char → Bool) (text : Text) : Bool :=
  match readRun inClass text with
  | .ok (_, rest) => rest.isEmpty
  | .error _ => false

/-- Runs a reader on the rest of a text and tells its errors from the start of the text. -/
def readAfter {α : Type} (text rest : Text) (reader : Text → Except SyntaxError α) :
    Except SyntaxError α :=
  (reader rest).mapError (·.shift (text.length - rest.length : Nat))

def readComponent (inClass : Char → Bool) (text : Text) : Except SyntaxError (Text × Text) :=
  (readRun inClass text).mapError fun (place : Nat) => { fault := .brokenEscape, position := place }

/-- A component behind its delimiter, if that is what the text begins with. -/
def readOptional (delimiter : Char) (inClass : Char → Bool) :
    Text → Except SyntaxError (Option Text × Text)
  | [] => .ok (none, [])
  | char :: rest =>
      if char = delimiter then
        match readComponent inClass rest with
        | .ok (component, rest) => .ok (some component, rest)
        | .error error => .error (error.shift 1)
      else .ok (none, char :: rest)

def readScheme : Text → Except SyntaxError (Text × Text)
  | [] => .error { fault := .schemeStart, position := 0 }
  | first :: rest =>
      if isLetter first then
        let scheme := first :: rest.takeWhile inScheme
        match rest.dropWhile inScheme with
        | ':' :: rest => .ok (scheme, rest)
        | _ => .error { fault := .schemeEnd, position := scheme.length }
      else .error { fault := .schemeStart, position := 0 }

def splitUserinfo (extent : Text) : Except SyntaxError (Option Text × Text) :=
  match Text.cut? '@' extent with
  | none => .ok (none, extent)
  | some (userinfo, rest) =>
      match Text.cut? '@' rest with
      | some (before, _) =>
          .error { fault := .secondAt, position := userinfo.length + 1 + before.length }
      | none =>
          if isRun inUserinfo userinfo then .ok (some userinfo, rest)
          else .error { fault := .userinfo, position := 0 }

def hostOfLiteral (address : Text) : Except SyntaxError Host :=
  if isIpv6 address then .ok (.ipv6 address)
  else if isIpvFuture address then .ok (.ipvFuture address)
  else .error { fault := .literal, position := 0 }

def hostOfName (name : Text) : Except SyntaxError Host :=
  match readRun inRegisteredName name with
  | .error place => .error { fault := .brokenEscape, position := place }
  | .ok (_, _ :: _) => .error { fault := .name, position := 0 }
  | .ok (_, []) => .ok (if isIpv4 name then .ipv4 name else .name name)

/-- The host that an authority's extent begins with, and what follows it. -/
def splitHost (extent : Text) : Except SyntaxError (Host × Text) :=
  match extent with
  | '[' :: inside =>
      match Text.cut? ']' inside with
      | none => .error { fault := .openLiteral, position := 0 }
      | some (address, rest) => (hostOfLiteral address).map (·, rest)
  | _ => (hostOfName (extent.takeWhile (· ≠ ':'))).map (·, extent.dropWhile (· ≠ ':'))

def readPort : Text → Except SyntaxError (Option Text)
  | [] => .ok none
  | mark :: digits =>
      if mark = ':' ∧ digits.all isDigit = true then .ok (some digits)
      else .error { fault := .port, position := 0 }

/-- The parts of an authority, given its whole extent. -/
def readAuthority (extent : Text) : Except SyntaxError Authority := do
  let (userinfo, afterUserinfo) ← splitUserinfo extent
  let (host, afterHost) ← readAfter extent afterUserinfo splitHost
  let port ← readAfter extent afterHost readPort
  return { userinfo, host, port }

def readOptionalAuthority : Text → Except SyntaxError (Option Authority × Text)
  | '/' :: '/' :: rest =>
      match readAuthority (rest.takeWhile inAuthority) with
      | .ok authority => .ok (some authority, rest.dropWhile inAuthority)
      | .error error => .error (error.shift 2)
  | text => .ok (none, text)

def readFragment (withFragment : Bool) (text : Text) : Except SyntaxError (Option Text × Text) :=
  if withFragment then readOptional '#' inFragment text else .ok (none, text)

/-- The longest beginning of a text that is an identifier, and the rest. -/
def read (withFragment : Bool) (text : Text) : Except SyntaxError (Uri × Text) := do
  let (scheme, afterScheme) ← readScheme text
  let (authority, afterAuthority) ← readAfter text afterScheme readOptionalAuthority
  let (path, afterPath) ← readAfter text afterAuthority (readComponent inPath)
  let (query, afterQuery) ← readAfter text afterPath (readOptional '?' inQuery)
  let (fragment, rest) ← readAfter text afterQuery (readFragment withFragment)
  return ({ scheme, authority, path, query, fragment }, rest)

def leftover (text rest : Text) : SyntaxError :=
  { fault := .leftover rest, position := (text.length - rest.length : Nat) }

def ofText (withFragment : Bool) (text : Text) : Except SyntaxError Uri :=
  match read withFragment text with
  | .error error => .error error
  | .ok (uri, []) => .ok uri
  | .ok (_, rest) => .error (leftover text rest)

/-- The identifier that a whole text writes, with or without a fragment. -/
def parse (text : Text) : Except SyntaxError Uri :=
  ofText true text

def parseAbsolute (text : Text) : Except SyntaxError Uri :=
  ofText false text

end MagnetUri.Uri
