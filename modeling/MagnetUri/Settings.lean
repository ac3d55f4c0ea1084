import MagnetUri.Log

set_option autoImplicit false

/-! The settings of link reading. Each key has a rule that says what its values are,
and any value handed in is turned into one of them: a value of another kind gives
the default, and a number outside its range the nearer end of the range. -/

namespace MagnetUri

inductive Setting where
  | truth (value : Bool)
  | number (value : Float)
  | word (value : String)
  /-- Nothing, or a value that no key takes. -/
  | other

namespace Setting

inductive Rule : Type → Type where
  | truth (fallback : Bool) : Rule Bool
  | number (fallback least greatest : Float) : Rule Float
  | level (fallback : Log.Level) : Rule Log.Level

namespace Rule

def fallback {α : Type} : Rule α → α
  | .truth fallback => fallback
  | .number fallback _ _ => fallback
  | .level fallback => fallback

def kind {α : Type} : Rule α → String
  | .truth _ => "boolean"
  | .number _ _ _ => "number"
  | .level _ => "enum"

/-- The value that stands for what was handed in. -/
def settle {α : Type} : Rule α → Setting → α
  | .truth _, .truth value => value
  | .number fallback least greatest, .number value =>
      if value.isFinite then
        if value < least then least else if greatest < value then greatest else value
      else fallback
  | .level fallback, .word name => (Log.Level.ofName? name).getD fallback
  | rule, _ => rule.fallback

end Rule
end Setting

inductive Settings.Key where
  | requireMagnetScheme
  | plusAsSpace
  | logLevel
  | decodeBufferCapacity
deriving DecidableEq

namespace Settings.Key

def all : List Key := [.requireMagnetScheme, .plusAsSpace, .logLevel, .decodeBufferCapacity]

def name : Key → String
  | .requireMagnetScheme => "requireMagnetScheme"
  | .plusAsSpace => "plusAsSpace"
  | .logLevel => "logLevel"
  | .decodeBufferCapacity => "decodeBufferCapacity"

def Value : Key → Type
  | .requireMagnetScheme => Bool
  | .plusAsSpace => Bool
  | .logLevel => Log.Level
  | .decodeBufferCapacity => Float

def rule : (key : Key) → Setting.Rule key.Value
  | .requireMagnetScheme => .truth true
  | .plusAsSpace => .truth true
  | .logLevel => .level .warn
  | .decodeBufferCapacity => .number 256 16 65536

end Settings.Key

structure Settings where
  requireMagnetScheme : Bool
  plusAsSpace : Bool
  logLevel : Log.Level
  decodeBufferCapacity : Float

namespace Settings

/-- The settings that stand for what was handed in under each key. -/
def ofRequest (request : Key → Setting) : Settings where
  requireMagnetScheme := Key.rule .requireMagnetScheme |>.settle (request .requireMagnetScheme)
  plusAsSpace := Key.rule .plusAsSpace |>.settle (request .plusAsSpace)
  logLevel := Key.rule .logLevel |>.settle (request .logLevel)
  decodeBufferCapacity := Key.rule .decodeBufferCapacity |>.settle (request .decodeBufferCapacity)

def standard : Settings :=
  ofRequest fun _ => .other

end Settings
end MagnetUri
