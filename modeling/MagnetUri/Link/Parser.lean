import MagnetUri.Link.Basic
import MagnetUri.Settings
import MagnetUri.Uri.Window

set_option autoImplicit false

/-! Reading magnet links. A link is an absolute identifier with at least one exact topic, and the
value of every exact topic is an identifier. Reading in place logs how the longest link at the
cursor came out; what is left over behind that link is found afterwards. Readers come in two
forms, those that log and those that do not. -/

namespace MagnetUri.Link

inductive Stage where
  | start
  | uriRead
  | topicFound
deriving DecidableEq

namespace Stage

def name : Stage → String
  | .start => "start"
  | .uriRead => "generic-uri-parsed"
  | .topicFound => "exact-topic-located"

end Stage

inductive Error where
  | malformed (cause : Uri.SyntaxError)
  | scheme
  | missingTopic
  /-- The exact topic at this place among all parameters is no identifier. -/
  | invalidTopic (index : Nat)
  /-- A piece of the query has a broken escape, which an identifier's query has not. -/
  | unreadable (cause : Percent.DecodeError)
deriving DecidableEq

namespace Error

def code : Error → String
  | .malformed cause => cause.fault.code
  | .scheme => "unexpected-scheme"
  | .missingTopic => "missing-exact-topic"
  | .invalidTopic _ => "invalid-exact-topic"
  | .unreadable cause => cause.defect.code

def message : Error → String
  | .malformed cause => cause.message
  | .scheme => "Invalid magnet link: scheme is not \"magnet\""
  | .missingTopic => "Invalid magnet link: missing mandatory exact topic"
  | .invalidTopic index =>
      "Invalid magnet link: exact topic value is not a valid URI (param " ++ toString index ++ ")"
  | .unreadable cause => cause.message

/-- The last stage that was reached before the error. -/
def stage : Error → Stage
  | .malformed _ => .start
  | .scheme | .missingTopic | .unreadable _ => .uriRead
  | .invalidTopic _ => .topicFound

def shift (distance : Int) : Error → Error
  | .malformed cause => .malformed (cause.shift distance)
  | error => error

end Error

def magnetScheme : Text := ['m', 'a', 'g', 'n', 'e', 't']

/-- The places of the exact topics among parameters counted from `index`. -/
def topicsFrom (index : Nat) : List Param → List (Nat × Param)
  | [] => []
  | param :: rest =>
      if Field.isTopic param then (index, param) :: topicsFrom (index + 1) rest
      else topicsFrom (index + 1) rest

def checkTopics (params : List Param) : Except Error Unit :=
  match topicsFrom 0 params with
  | [] => .error .missingTopic
  | topics =>
      match topics.find? fun topic => !Field.isUri topic.2.valueText with
      | some (index, _) => .error (.invalidTopic index)
      | none => .ok ()

def check (settings : Settings) (uri : Uri) : Except Error Link :=
  if settings.requireMagnetScheme && uri.smallScheme != magnetScheme then .error .scheme
  else
    match (uri.params settings.plusAsSpace).params.mapM id with
    | .error cause => .error (.unreadable cause)
    | .ok params =>
        (checkTopics params).map fun _ => { uri, plusAsSpace := settings.plusAsSpace }

/-- The longest beginning of a text that is an absolute identifier, as a link, and the rest. -/
def read (settings : Settings) (text : Text) : Except Error (Link × Text) :=
  match Uri.read false text with
  | .error cause => .error (.malformed cause)
  | .ok (uri, rest) => (check settings uri).map (·, rest)

def parse (settings : Settings) (text : Text) : Except Error Link :=
  match read settings text with
  | .error error => .error error
  | .ok (link, []) => .ok link
  | .ok (_, rest) => .error (.malformed (Uri.leftover text rest))

def scan (settings : Settings) : Effect Error Text.Cursor Link :=
  ((Uri.scan false).mapError Error.malformed).bind fun uri => Effect.ofExcept (check settings uri)

def topicParams (query : Query) : Selection Percent.DecodeError Unit Param Param where
  source := query.source 0
  accepts := fun param => Effect.pure (Field.isTopic param)
  transform := Effect.pure

/-- The place of the first exact topic that is no identifier, from the one a cursor stands on. -/
def badTopic? (topic : Param) (cursor : Selection.Cursor Percent.DecodeError Unit Param Param) :
    Except Percent.DecodeError (Option Nat) :=
  if Field.isUri topic.valueText then
    match _ : cursor.advance () with
    | (.error cause, _) => .error cause
    | (.ok none, _) => .ok none
    | (.ok (some next), moved, _) => badTopic? next moved
  else .ok cursor.position?
termination_by cursor.ahead.length
decreasing_by exact Selection.Cursor.advance_shortens (by assumption)

def goesOn (rest : Text) (place : Int) : Error :=
  .malformed { fault := .leftover rest, position := place }

def acceptedLine (length : Int) : String :=
  "accepted magnet link (" ++ toString length ++ " chars)"

def rejectedLine (stage : Stage) (error : Error) : String :=
  "rejected at " ++ stage.name ++ ": " ++ error.message

section Logged

variable {φ ω : Type}

def logger (settings : Settings) (base : Log.Logger φ ω String) : Log.Logger φ ω String :=
  base.inScope "MagnetLinkRule" settings.logLevel

/-- Logs a line before an outcome is given. -/
def tell (log : Log.Logger φ ω String) (line : String) (outcome : Except Error Link) :
    Effect φ ω (Except Error Link) :=
  (log { level := .debug, scopes := [], arguments := [line] }).map fun _ => outcome

def reject (log : Log.Logger φ ω String) (stage : Stage) (error : Error) :
    Effect φ ω (Except Error Link) :=
  tell log (rejectedLine stage error) (.error error)

/-- The checks, with a line for the first that fails or for the link, which takes up
`length` units. -/
def checkLogged (settings : Settings) (log : Log.Logger φ ω String) (uri : Uri) (length : Int) :
    Effect φ ω (Except Error Link) :=
  if settings.requireMagnetScheme && uri.smallScheme != magnetScheme then
    reject log .uriRead .scheme
  else
    match (topicParams (uri.params settings.plusAsSpace)).cursor.advance () with
    | (.error cause, _) => Effect.pure (.error (.unreadable cause))
    | (.ok none, _) => reject log .uriRead .missingTopic
    | (.ok (some topic), cursor, _) =>
        match badTopic? topic cursor with
        | .error cause => Effect.pure (.error (.unreadable cause))
        | .ok (some index) => reject log .topicFound (.invalidTopic index)
        | .ok none =>
            tell log (acceptedLine length) (.ok { uri, plusAsSpace := settings.plusAsSpace })

def scanLogged (settings : Settings) (base : Log.Logger φ ω String) :
    Effect φ (Text.Cursor × ω) (Except Error Link) := fun (cursor, store) =>
  let log := logger settings base
  match Uri.scan false cursor with
  | (.error cause, behind) =>
      let (told, store) := reject log .start (.malformed cause) store
      (told, behind, store)
  | (.ok uri, behind) =>
      let (told, store) := checkLogged settings log uri (behind.position - cursor.position) store
      (told, behind, store)

/-- Reads a whole text, and logs how its beginning came out. -/
def parseLogged (settings : Settings) (base : Log.Logger φ ω String) (text : Text) :
    Effect φ ω (Except Error Link) := fun store =>
  match scanLogged settings base (.whole text, store) with
  | (.ok (.ok link), behind, store) =>
      if behind.atEnd then (.ok (.ok link), store)
      else
        (.ok (.error (goesOn (text.drop behind.position.toNat) behind.position)), store)
  | (told, _, store) => (told, store)

end Logged
end MagnetUri.Link
