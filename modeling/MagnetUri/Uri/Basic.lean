import MagnetUri.Number

set_option autoImplicit false

/-! Uniform resource identifiers as their components, each still encoded as it was
written, and the literal addresses of hosts. The text of an identifier puts the components together
again with their delimiters; an absent component and an empty one have different texts. -/

namespace MagnetUri.Uri

/-- A number from 0 to 255 without zeros in front. -/
def isOctet (text : Text) : Bool :=
  Decimal.isNumeral text && (text.length == 1 || text.head? != some '0') &&
    decide (Decimal.value text ≤ 255)

def isIpv4 (text : Text) : Bool :=
  let octets := Text.separate '.' text
  octets.length == 4 && octets.all isOctet

def isGroup (text : Text) : Bool :=
  decide (1 ≤ text.length ∧ text.length ≤ 4) && text.all Character.isHexDigit

def cutGap? : Text → Option (Text × Text)
  | ':' :: ':' :: rest => some ([], rest)
  | [] => none
  | char :: rest => (cutGap? rest).map fun parts => (char :: parts.1, parts.2)

/-- The parts between single colons. The empty text has none. -/
def groupsOf (side : Text) : List Text :=
  if side.isEmpty then [] else Text.separate ':' side

/-- How many groups of sixteen bits the parts hold. A last part with a dot is a dotted quad,
which holds two, unless the text they come from is `closed` by a colon. -/
def countGroups? (closed : Bool) : List Text → Option Nat
  | [] => some 0
  | part :: parts =>
      if parts.isEmpty && part.contains '.' && !closed then
        if isIpv4 part then some 2 else none
      else if isGroup part then (countGroups? closed parts).map (· + 1)
      else none

/-- Eight groups, or fewer with one gap that stands for at least one group of zeros. -/
def isIpv6 (text : Text) : Bool :=
  let closed := text.getLast? == some ':'
  match cutGap? text with
  | none => countGroups? closed (groupsOf text) == some 8
  | some (before, after) =>
      (cutGap? after).isNone &&
        match countGroups? closed (groupsOf before ++ groupsOf after) with
        | some count => decide (count ≤ 7)
        | none => false

def isIpvFuture : Text → Bool
  | mark :: rest =>
      (mark == 'v' || mark == 'V') &&
        match Text.cut? '.' rest with
        | some (version, address) =>
            !version.isEmpty && version.all Character.isHexDigit &&
              !address.isEmpty && address.all Character.inUserinfo
        | none => false
  | [] => false

end MagnetUri.Uri

namespace MagnetUri

inductive Host where
  | ipv4 (address : Text)
  /-- An address of version six, without its brackets. -/
  | ipv6 (address : Text)
  /-- An address of a later version, without its brackets. -/
  | ipvFuture (address : Text)
  | name (encoded : Text)
deriving DecidableEq

namespace Host

def text : Host → Text
  | .ipv4 address => address
  | .ipv6 address => '[' :: address ++ [']']
  | .ipvFuture address => '[' :: address ++ [']']
  | .name encoded => encoded

end Host

structure Authority where
  userinfo : Option Text
  host : Host
  /-- The digits of the port, none of them where the authority ends in a bare colon. -/
  port : Option Text
deriving DecidableEq

namespace Authority

def text (authority : Authority) : Text :=
  authority.userinfo.elim [] (· ++ ['@']) ++ authority.host.text ++
    authority.port.elim [] (':' :: ·)

def portNumber? (authority : Authority) : Option Binary64 :=
  match authority.port with
  | some (digit :: digits) => some (.nearest (Decimal.value (digit :: digits)))
  | _ => none

end Authority

structure Uri where
  scheme : Text
  authority : Option Authority
  path : Text
  query : Option Text
  fragment : Option Text
deriving DecidableEq

namespace Uri

def text (uri : Uri) : Text :=
  uri.scheme ++ ':' :: (uri.authority.elim [] fun authority => '/' :: '/' :: authority.text) ++
    uri.path ++ uri.query.elim [] ('?' :: ·) ++ uri.fragment.elim [] ('#' :: ·)

def smallScheme (uri : Uri) : Text :=
  uri.scheme.map Character.small

/-- Equality of all components as they are written, but of the scheme in any case. -/
def same (left right : Uri) : Bool :=
  left.smallScheme == right.smallScheme &&
    left.authority.map Authority.text == right.authority.map Authority.text &&
    left.path == right.path && left.query == right.query && left.fragment == right.fragment

end Uri
end MagnetUri
