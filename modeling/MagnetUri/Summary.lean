import MagnetUri.InfoHash
import MagnetUri.Link.Parser
import MagnetUri.Text

set_option autoImplicit false

/-! Summaries of BitTorrent links. The hash is that of the first exact topic in the urn scheme
whose path names the btih namespace. Every other field may be absent, and is where there is
nothing to say: no field is an empty text or an empty list. -/

namespace MagnetUri

structure Summary where
  infoHash : InfoHash
  name : Option Text
  trackers : Option (List Text)
  webSeeds : Option (List Text)
  peers : Option (List Peer)
  exactLength : Option Nat
  keywords : Option (List Text)
deriving DecidableEq

namespace Summary

inductive Error where
  | rejected (cause : Link.Error)
  | noHash
  | badHash (cause : InfoHash.ReadError)
  /-- A field of the link cannot be given, which a link that was read has not. -/
  | field (cause : Field.Error)
deriving DecidableEq

namespace Error

def lead : String := "Invalid magnet URI"

def message : Error → String
  | .rejected .scheme => lead
  | .rejected .missingTopic => lead ++ ": missing xt"
  | .rejected (.invalidTopic _) => lead ++ ": xt is not a URN"
  | .rejected cause => lead ++ ": " ++ cause.message
  | .noHash => lead ++ ": missing xt (urn:btih)"
  | .badHash cause => lead ++ ": " ++ cause.message
  | .field cause => cause.message

def rejection? : Error → Option Link.Error
  | .rejected cause => some cause
  | _ => none

end Error

def urnScheme : Text := ['u', 'r', 'n']

def btihLead : Text := ['b', 't', 'i', 'h', ':']

/-- The rest of a topic's path behind the btih namespace, in any case of letters. -/
def btihHash? (topic : Uri) : Option Text :=
  if topic.smallScheme = urnScheme ∧
      (topic.path.take btihLead.length).map Character.small = btihLead then
    some (topic.path.drop btihLead.length)
  else none

def ifAny {α : Type} (values : List α) : Option (List α) :=
  if values.isEmpty then none else some values

def nonEmpty? (value : Option Percent.Encoded) : Option Text :=
  (value.map Percent.Encoded.decode).bind ifAny

def ofLink (link : Link) : Except Error Summary := do
  let topics ← ((link.exactTopics 0).toList ()).1.mapError .field
  let hash ←
    match topics.findSome? btihHash? with
    | some hash => (InfoHash.parse hash).mapError .badHash
    | none => .error .noHash
  let name ← link.displayName?.mapError (.field ∘ .unreadable)
  let scratch := Scratch.ofCapacity Scratch.defaultCapacity
  let (trackers, scratch) := (link.trackers 0).toList scratch
  let trackers ← trackers.mapError .field
  let webSeeds ← ((link.webSeeds 0).toList scratch).1.mapError .field
  let peers ← link.peers.mapError .field
  let keywords ← link.keywords?.mapError (.field ∘ .unreadable)
  let exactLength ← link.exactLength?.mapError (.field ∘ .unreadable)
  return { infoHash := hash
           name := nonEmpty? name
           trackers := ifAny trackers
           webSeeds := ifAny webSeeds
           peers := ifAny peers
           exactLength
           keywords := ifAny (Text.words (keywords.elim [] Percent.Encoded.decode)) }

def parse (text : Text) : Except Error Summary :=
  match Link.parse Settings.standard text with
  | .error cause => .error (.rejected cause)
  | .ok link => ofLink link

end Summary
end MagnetUri
