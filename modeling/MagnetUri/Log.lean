import MagnetUri.Effect

set_option autoImplicit false

/-! Log entries on their way to whoever takes them. A logger is any computation on a store, and
it may fail. A scope put around it adds its name to an entry and stops entries below a threshold;
scopes can be put around scopes, and the names stand in front of an entry's arguments from the
innermost outwards. -/

namespace MagnetUri.Log

inductive Level where
  | debug
  | info
  | warn
  | error
deriving DecidableEq

namespace Level

def all : List Level := [.debug, .info, .warn, .error]

def name : Level → String
  | .debug => "debug"
  | .info => "info"
  | .warn => "warn"
  | .error => "error"

def rank : Level → Nat
  | .debug => 0
  | .info => 1
  | .warn => 2
  | .error => 3

def reaches (level threshold : Level) : Bool :=
  decide (threshold.rank ≤ level.rank)

def ofName? (name : String) : Option Level :=
  all.find? fun level => level.name == name

end Level

structure Entry (α : Type) where
  level : Level
  /-- The names of the scopes it passed, the innermost first. -/
  scopes : List String
  arguments : List α
deriving DecidableEq

namespace Entry

def tags {α : Type} (entry : Entry α) : List String :=
  entry.scopes.map fun scope => "[" ++ scope ++ "]"

end Entry

inductive Sink where
  | record
  | console
deriving DecidableEq

abbrev Journal (α : Type) := List (Sink × Entry α)

abbrev Logger (φ ω α : Type) := Entry α → Effect φ ω Unit

namespace Logger

variable {φ ω α : Type}

def discard : Logger φ ω α :=
  fun _ => Effect.pure ()

def into (sink : Sink) : Logger φ (Journal α) α :=
  fun entry journal => (.ok (), journal ++ [(sink, entry)])

def inScope (inner : Logger φ ω α) (scope : String) (threshold : Level) : Logger φ ω α :=
  fun entry =>
    if entry.level.reaches threshold then inner { entry with scopes := scope :: entry.scopes }
    else Effect.pure ()

/-- Where entries go when the caller names no logger. -/
def standard : Logger φ (Journal α) α :=
  into .console

end Logger
end MagnetUri.Log
