import MagnetUri.Field
import MagnetUri.Peer
import MagnetUri.Selection
import MagnetUri.Text
import MagnetUri.Utf8

set_option autoImplicit false

/-! Magnet links, their fields and how they are written. A link is an identifier with the
meaning of its plus signs; its fields are read from the query on demand. Fields that decode their
values do so in scratch storage of the caller's, which one selection at a time may use. In a link
that is written every value is escaped but for the unreserved characters. -/

namespace MagnetUri

structure Link where
  uri : Uri
  plusAsSpace : Bool
deriving DecidableEq

namespace Link

def query (link : Link) : Query :=
  link.uri.params link.plusAsSpace

/-- The parameters as a source of selections; every label is a source of its own. -/
def source (link : Link) (label : Nat) : Source Field.Error Param :=
  (link.query.source label).mapError .unreadable

def topics {σ α : Type} (link : Link) (label : Nat) (transform : Param → Except Field.Error α) :
    Selection Field.Error σ Param α where
  source := link.source label
  accepts := fun param => Effect.pure (Field.isTopic param)
  transform := fun param => Effect.ofExcept (transform param)

def exactTopics {σ : Type} (link : Link) (label : Nat) : Selection Field.Error σ Param Uri :=
  link.topics label Field.topicUri

def topicHashes {σ : Type} (link : Link) (label : Nat) : Selection Field.Error σ Param Text :=
  link.topics label Field.topicHash

def topicNamespaces {σ : Type} (link : Link) (label : Nat) : Selection Field.Error σ Param Text :=
  link.topics label Field.topicNamespace

def urls (link : Link) (key : Text) (label : Nat) : Selection Field.Error Scratch Param Text where
  source := link.source label
  accepts := Field.hasUrl key
  transform := Field.lastDecoded

def trackers (link : Link) (label : Nat) : Selection Field.Error Scratch Param Text :=
  link.urls ['t', 'r'] label

def exactSources (link : Link) (label : Nat) : Selection Field.Error Scratch Param Text :=
  link.urls ['x', 's'] label

def acceptableSources (link : Link) (label : Nat) : Selection Field.Error Scratch Param Text :=
  link.urls ['a', 's'] label

def manifests (link : Link) (label : Nat) : Selection Field.Error Scratch Param Text :=
  link.urls ['m', 't'] label

def webSeeds (link : Link) (label : Nat) : Selection Field.Error Scratch Param Text :=
  link.urls ['w', 's'] label

/-- The value of the first parameter with a key, if that parameter has one. -/
def namedValue? (link : Link) (key : Text) : Except Percent.DecodeError (Option Percent.Encoded) :=
  (link.query.find? key).map (·.bind Param.value?)

def keywords? (link : Link) : Except Percent.DecodeError (Option Percent.Encoded) :=
  link.namedValue? ['k', 't']

def displayName? (link : Link) : Except Percent.DecodeError (Option Percent.Encoded) :=
  link.namedValue? ['d', 'n']

/-- A decimal numeral's number, where rounding to binary64 keeps it and its neighbours apart. -/
def safeNumber? (text : Text) : Option Nat :=
  if Decimal.isNumeral text then (Binary64.nearest (Decimal.value text)).safe? else none

def exactLength? (link : Link) : Except Percent.DecodeError (Option Nat) :=
  (link.namedValue? ['x', 'l']).map (·.bind fun value => safeNumber? value.decode)

def extension? (link : Link) (name : Text) : Except Percent.DecodeError (Option Percent.Encoded) :=
  (Query.firstWhere (Field.testExtension name) link.query.params).map (·.bind Param.value?)

def hints {σ : Type} (link : Link) (label : Nat) : Selection Field.Error σ Param (Option Peer) where
  source := link.source label
  accepts := fun param =>
    Effect.ofExcept ((Field.testExtension ['p', 'e'] param).mapError .unreadable)
  transform := fun param => Effect.pure (Peer.ofHint? param.decodedValue)

/-- The peers named by hints. Hints that name none are left out. -/
def peers (link : Link) : Except Field.Error (List Peer) :=
  ((link.hints 0).toList ()).1.map (·.filterMap id)

end Link
end MagnetUri

namespace MagnetUri.Link

structure Draft where
  infoHash : Text
  name : Option Text
  trackers : Option (List Text)
  webSeeds : Option (List Text)
deriving DecidableEq

namespace Draft

def escapeByte (byte : UInt8) : Text :=
  ['%', Character.capitalHexDigit (byte.toNat / 16), Character.capitalHexDigit (byte.toNat % 16)]

def escapeChar (char : Char) : Text :=
  if Character.isUnreserved char then [char] else (Utf8.encodeChar char).flatMap escapeByte

def escapeValue (value : Text) : Text :=
  value.flatMap escapeChar

/-- A name in escaped form, with a plus for each space. -/
def escapeName (name : Text) : Text :=
  name.flatMap fun char => if char = ' ' then ['+'] else escapeChar char

def furtherParams (draft : Draft) : List Text :=
  (match draft.name with
    | some (first :: rest) => [['d', 'n', '='] ++ escapeName (first :: rest)]
    | _ => []) ++
  (draft.trackers.getD []).map (['t', 'r', '='] ++ escapeValue ·) ++
  (draft.webSeeds.getD []).map (['w', 's', '='] ++ escapeValue ·)

def query (draft : Draft) : Text :=
  Text.join '&' ((['x', 't', '=', 'u', 'r', 'n', ':', 'b', 't', 'i', 'h', ':'] ++ draft.infoHash) ::
    draft.furtherParams)

def text (draft : Draft) : Text :=
  ['m', 'a', 'g', 'n', 'e', 't', ':', '?'] ++ draft.query

end Draft
end MagnetUri.Link
