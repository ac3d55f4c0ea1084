import MagnetUri.Effect
import MagnetUri.Text
import MagnetUri.Uri.Parser

set_option autoImplicit false

/-! Reading identifiers in place, among units that may go on before and behind them. Units
are looked at one by one up to the cursor's stop. The marks of an authority are searched for
in all units, so one that is found has to be told from one that stands further on. -/

namespace MagnetUri.Uri

open Character
open Text (Cursor unitIn)

def slice (units : List UInt16) (start stop : Nat) : Text :=
  Text.ofUnits (units.extract start stop)

/-- The first place at or behind `start` where a mark stands, however far away. -/
def find? (mark : Char) (units : List UInt16) (start : Nat) : Option Nat :=
  ((units.drop start).findIdx? (unitIn (· == mark))).map (start + ·)

def standsAt (mark : Char) (units : List UInt16) (place : Nat) : Bool :=
  units[place]?.any (unitIn (· == mark))

def skipWhile (inClass : Char → Bool) (cursor : Cursor) : Cursor :=
  if _ : (cursor.peek 0).isIn inClass = true then skipWhile inClass (cursor.moveBy 1) else cursor
termination_by (cursor.stop - cursor.position).toNat
decreasing_by exact Cursor.moveBy_shortens (Cursor.lt_of_isIn (by assumption)) 0

def skipRun (inClass : Char → Bool) : Effect SyntaxError Cursor Unit := fun cursor =>
  if cursor.atEnd then (.ok (), cursor)
  else if _ : (cursor.peek 0).isIn (· == '%') = true then
    if (cursor.peek 1).isIn isHexDigit && (cursor.peek 2).isIn isHexDigit then
      skipRun inClass (cursor.moveBy 3)
    else (.error { fault := .brokenEscape, position := cursor.position }, cursor)
  else if _ : (cursor.peek 0).isIn inClass = true then skipRun inClass (cursor.moveBy 1)
  else (.ok (), cursor)
termination_by cursor => (cursor.stop - cursor.position).toNat
decreasing_by
  · exact Cursor.moveBy_shortens (Cursor.lt_of_isIn (by assumption)) 2
  · exact Cursor.moveBy_shortens (Cursor.lt_of_isIn (by assumption)) 0

def isRunBetween (inClass : Char → Bool) (units : List UInt16) (start stop : Nat) : Bool :=
  match skipRun inClass { units, position := start, stop } with
  | (.ok (), cursor) => cursor.atEnd
  | (.error _, _) => false

def scanScheme : Effect SyntaxError Cursor Text := fun cursor =>
  if (cursor.peek 0).isIn isLetter then
    let behind := skipWhile inScheme (cursor.moveBy 1)
    if (behind.peek 0).isIn (· == ':') then
      (.ok (slice cursor.units cursor.position.toNat behind.position.toNat), behind.moveBy 1)
    else (.error { fault := .schemeEnd, position := behind.position }, behind)
  else (.error { fault := .schemeStart, position := cursor.position }, cursor)

def findUserinfo (units : List UInt16) (start stop : Nat) : Except SyntaxError (Option Nat) :=
  match (find? '@' units start).filter (· < stop) with
  | none => .ok none
  | some mark =>
      match (find? '@' units (mark + 1)).filter (· < stop) with
      | some second => .error { fault := .secondAt, position := second }
      | none =>
          if isRunBetween inUserinfo units start mark then .ok (some mark)
          else .error { fault := .userinfo, position := start }

/-- The host at a place before the end of an authority, and the place behind it. -/
def scanHost (units : List UInt16) (start stop : Nat) : Except SyntaxError (Host × Nat) :=
  if standsAt '[' units start && start < stop then
    match (find? ']' units start).filter (· < stop) with
    | none => .error { fault := .openLiteral, position := start }
    | some close =>
        match hostOfLiteral (slice units (start + 1) close) with
        | .ok host => .ok (host, close + 1)
        | .error error => .error (error.shift start)
  else
    let name := (units.extract start stop).takeWhile fun unit => !unitIn (· == ':') unit
    let behind := start + name.length
    if isRunBetween inRegisteredName units start behind then
      let name := slice units start behind
      .ok (if isIpv4 name then .ipv4 name else .name name, behind)
    else
      match skipRun inRegisteredName { units, position := start, stop := behind } with
      | (.error error, _) => .error error
      | (.ok (), _) => .error { fault := .name, position := start }

def scanPort (units : List UInt16) (start stop : Nat) : Except SyntaxError (Option Text) :=
  if start < stop then
    if standsAt ':' units start && (units.extract (start + 1) stop).all (unitIn isDigit) then
      .ok (some (slice units (start + 1) stop))
    else .error { fault := .port, position := start }
  else .ok none

def authorityBetween (units : List UInt16) (start stop : Nat) : Except SyntaxError Authority := do
  let mark ← findUserinfo units start stop
  let (host, behind) ← scanHost units (mark.elim start (· + 1)) stop
  let port ← scanPort units behind stop
  return { userinfo := mark.map (slice units start), host, port }

/-- An authority, and a move behind everything that may stand in one. -/
def scanAuthority : Effect SyntaxError Cursor Authority := fun cursor =>
  let behind := skipWhile inAuthority cursor
  (authorityBetween cursor.units cursor.position.toNat behind.position.toNat, behind)

def scanOptionalAuthority : Effect SyntaxError Cursor (Option Authority) := fun cursor =>
  if (cursor.peek 0).isIn (· == '/') && (cursor.peek 1).isIn (· == '/') then
    scanAuthority.map some (cursor.moveBy 2)
  else (.ok none, cursor)

def scanComponent (inClass : Char → Bool) : Effect SyntaxError Cursor Text := fun cursor =>
  match skipRun inClass cursor with
  | (.ok (), behind) =>
      (.ok (slice cursor.units cursor.position.toNat behind.position.toNat), behind)
  | (.error error, behind) => (.error error, behind)

def scanOptional (delimiter : Char) (inClass : Char → Bool) :
    Effect SyntaxError Cursor (Option Text) := fun cursor =>
  if (cursor.peek 0).isIn (· == delimiter) then
    (scanComponent inClass).map some (cursor.moveBy 1)
  else (.ok none, cursor)

def scanFragment (withFragment : Bool) : Effect SyntaxError Cursor (Option Text) :=
  if withFragment then scanOptional '#' inFragment else Effect.pure none

/-- The longest identifier at a cursor, and a move behind it. -/
def scan (withFragment : Bool) : Effect SyntaxError Cursor Uri :=
  scanScheme.bind fun scheme =>
    scanOptionalAuthority.bind fun authority =>
      (scanComponent inPath).bind fun path =>
        (scanOptional '?' inQuery).bind fun query =>
          (scanFragment withFragment).bind fun fragment =>
            Effect.pure { scheme, authority, path, query, fragment }

/-- Reads at a cursor, and gives the cursor behind what was read. -/
def readAt (withFragment : Bool) (cursor : Cursor) : Except SyntaxError (Uri × Cursor) :=
  match scan withFragment cursor with
  | (.ok uri, behind) => .ok (uri, behind)
  | (.error error, _) => .error error

end MagnetUri.Uri
