import MagnetUri.Percent.InPlace
import MagnetUri.Query
import MagnetUri.Scratch
import MagnetUri.Uri.Parser

set_option autoImplicit false

/-! What single parameters mean in a magnet link. Keys are compared by their decoded
bytes. An exact topic is encoded once, so its value is an identifier as it stands;
the other identifiers are encoded twice and are decoded before they are read. -/

namespace MagnetUri.Field

inductive Error where
  | unreadable (cause : Percent.DecodeError)
  | topic (cause : Uri.SyntaxError)
deriving DecidableEq

namespace Error

def message : Error → String
  | .unreadable cause => cause.message
  | .topic cause => "exact topic is not a URI: " ++ cause.message

end Error

def isUri (text : Text) : Bool :=
  match Uri.parse text with
  | .ok _ => true
  | .error _ => false

def isDigitByte (byte : UInt8) : Bool :=
  0x30 ≤ byte && byte ≤ 0x39

/-- The bytes of `xt`, alone or before a dot and at least one digit. -/
def isTopicKey : List UInt8 → Bool
  | [0x78, 0x74] => true
  | 0x78 :: 0x74 :: 0x2E :: number => !number.isEmpty && number.all isDigitByte
  | _ => false

def isTopic (param : Param) : Bool :=
  isTopicKey param.key.bytes

/-- Whether a parameter has a value and the decoded key `x.` followed by `name`. The key
is told apart after its second byte. -/
def isExtension (name : Text) (param : Param) : Bool :=
  param.hasValue && decide (2 ≤ param.key.size) &&
    match param.key.splitAt? 2 with
    | some (first, rest) => first.spells ['x', '.'] && rest.spells name
    | none => false

def isExtensionKey (name : Text) (hasValue : Bool) (key : Percent.Stored) :
    Except (List UInt16) Bool :=
  if hasValue && decide (2 ≤ key.size) then
    match key.splitAt 2 with
    | .ok (some (first, rest)) => .ok (first.spells ['x', '.'] && rest.spells name)
    | .ok none => .ok false
    | .error cut => .error cut
  else .ok false

/-- Tells a parameter's key apart as it is kept. A part that cannot be kept would be an error. -/
def testExtension (name : Text) (param : Param) : Except Percent.DecodeError Bool :=
  ((Percent.Stored.keep (Text.units param.key.text) param.key.plusAsSpace).bind
    (isExtensionKey name param.hasValue)).mapError fun units =>
      { defect := .brokenEscape, encoded := Text.ofUnits units }

/-- Whether a parameter has a decoded key and a value that decodes to an identifier. The
decoded value is left in the scratch storage. -/
def hasUrl {ε : Type} (key : Text) (param : Param) : Effect ε Scratch Bool := fun scratch =>
  match param.value? with
  | none => (.ok false, scratch)
  | some value =>
      if param.key.spells key then
        match Scratch.decode value scratch with
        | (.ok text, scratch) => (.ok (isUri text), scratch)
        | (.error _, scratch) => (.ok false, scratch)
      else (.ok false, scratch)

/-- The text that the last decoding left in the scratch storage. -/
def lastDecoded {ε : Type} (_ : Param) : Effect ε Scratch Text := fun scratch =>
  (.ok scratch.text, scratch)

def topicUri (param : Param) : Except Error Uri :=
  (Uri.parse param.valueText).mapError .topic

/-- A topic's path around its last colon. A path without a colon is all hash. -/
def splitTopicPath (path : Text) : Text × Text :=
  (Text.cutLast? ':' path).getD ([], path)

def topicHash (param : Param) : Except Error Text :=
  (topicUri param).map fun uri => (splitTopicPath uri.path).2

def topicNamespace (param : Param) : Except Error Text :=
  (topicUri param).map fun uri => (splitTopicPath uri.path).1

end MagnetUri.Field
