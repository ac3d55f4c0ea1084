import MagnetUri.Percent.Encoded
import MagnetUri.Selection
import MagnetUri.Uri.Basic

set_option autoImplicit false

/-! The parameters of a query, in their order and with all repetitions. A query is
split at its ampersands, and each piece at its first equals sign. A piece with a
broken escape ends the parameters; the pieces before it are still there. -/

namespace MagnetUri

structure Param where
  key : Percent.Encoded
  /-- There is none where the piece has no equals sign. -/
  value? : Option Percent.Encoded
deriving DecidableEq

namespace Param

def read (plusAsSpace : Bool) (piece : Text) : Except Percent.DecodeError Param :=
  match Text.cut? '=' piece with
  | none =>
      match Percent.Encoded.read piece plusAsSpace with
      | .error error => .error error
      | .ok key => .ok { key, value? := none }
  | some (key, value) =>
      match Percent.Encoded.read key plusAsSpace with
      | .error error => .error error
      | .ok key =>
          match Percent.Encoded.read value plusAsSpace with
          | .error error => .error error
          | .ok value => .ok { key, value? := some value }

def hasValue (param : Param) : Bool :=
  param.value?.isSome

/-- The value as it was written; the empty text where there is none. -/
def valueText (param : Param) : Text :=
  param.value?.elim [] Percent.Encoded.text

def decodedValue (param : Param) : Text :=
  param.value?.elim [] Percent.Encoded.decode

end Param

/-- The encoded text of a query, which may be absent, and the meaning of its plus signs. -/
structure Query where
  text : Option Text
  plusAsSpace : Bool
deriving DecidableEq

namespace Query

/-- How many parameters there are. An empty query has one, an absent query none. -/
def size (query : Query) : Nat :=
  query.text.elim 0 fun text => text.count '&' + 1

def isEmpty (query : Query) : Bool :=
  query.text.isNone

def params (query : Query) : List (Except Percent.DecodeError Param) :=
  query.text.elim [] fun text =>
    (Text.separate '&' text).map (Param.read query.plusAsSpace)

/-- A pass over steps: the elements before the first failure, and the failure if there is one. -/
def untilFailure {ε α : Type} : List (Except ε α) → List α × Option ε
  | [] => ([], none)
  | .error failure :: _ => ([], some failure)
  | .ok element :: rest =>
      let (elements, failure) := untilFailure rest
      (element :: elements, failure)

def source (query : Query) (label : Nat) : Source Percent.DecodeError Param :=
  { label, steps := query.params }

def firstWhere {ε α : Type} (test : α → Except ε Bool) : List (Except ε α) → Except ε (Option α)
  | [] => .ok none
  | .error failure :: _ => .error failure
  | .ok element :: rest =>
      match test element with
      | .error failure => .error failure
      | .ok true => .ok (some element)
      | .ok false => firstWhere test rest

def find? (query : Query) (key : Text) : Except Percent.DecodeError (Option Param) :=
  firstWhere (fun param => .ok (param.key.spells key)) query.params

def contains (query : Query) (key : Text) : Except Percent.DecodeError Bool :=
  (query.find? key).map Option.isSome

end Query

def Uri.params (uri : Uri) (plusAsSpace : Bool) : Query :=
  { text := uri.query, plusAsSpace }

end MagnetUri
