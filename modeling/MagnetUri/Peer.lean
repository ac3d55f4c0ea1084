import MagnetUri.Number
import MagnetUri.Uri.Basic

set_option autoImplicit false

/-! Peer addresses: a dotted quad, or an address of version six in brackets, then a
colon and a port. Names of hosts are not addresses. -/

namespace MagnetUri

inductive Family where
  | ipv4
  | ipv6
deriving DecidableEq

structure Peer where
  family : Family
  /-- The address without brackets. -/
  address : Text
  port : Binary64
deriving DecidableEq

namespace Peer

structure KeyError where
  key : Text
deriving DecidableEq

namespace KeyError

def message (error : KeyError) : String :=
  "Invalid address key: " ++ String.ofList error.key

end KeyError

def portDigits? : Text → Option Text
  | ':' :: digits => if Decimal.isNumeral digits then some digits else none
  | _ => none

def bracketed? : Text → Option (Text × Text)
  | '[' :: inside =>
      match Text.cut? ']' inside with
      | some (address, rest) =>
          if address.isEmpty then none else (portDigits? rest).map (address, ·)
      | none => none
  | _ => none

/-- The address before the only colon and the digits of the port. -/
def unbracketed? (key : Text) : Option (Text × Text) :=
  match Text.cut? ':' key with
  | some (address, digits) =>
      if address.isEmpty then none else (portDigits? (':' :: digits)).map (address, ·)
  | none => none

def parse (key : Text) : Except KeyError Peer :=
  match (bracketed? key).filter fun parts => Uri.isIpv6 parts.1 with
  | some (address, digits) =>
      .ok { family := .ipv6, address, port := .nearest (Decimal.value digits) }
  | none =>
      match (unbracketed? key).filter fun parts => Uri.isIpv4 parts.1 with
      | some (address, digits) =>
          .ok { family := .ipv4, address, port := .nearest (Decimal.value digits) }
      | none => .error { key }

def isPort : Binary64 → Bool
  | .finite port => decide (1 ≤ port ∧ port ≤ 65535)
  | .infinite => false

/-- The peer that a hint names, if its port is one from 1 to 65535. -/
def ofHint? (hint : Text) : Option Peer :=
  match parse hint with
  | .ok peer => if isPort peer.port then some peer else none
  | .error _ => none

end Peer
end MagnetUri
