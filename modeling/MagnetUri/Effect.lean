set_option autoImplicit false

/-! Computations that may fail and that read and write a store. A failure keeps
what was written before it. A computation on a part of a store can be run on the
whole, where it leaves all other parts alone. -/

namespace MagnetUri

abbrev Effect (ε σ α : Type) := σ → Except ε α × σ

structure Place (σ τ : Type) where
  get : σ → τ
  set : σ → τ → σ

namespace Effect

def pure {ε σ α : Type} (value : α) : Effect ε σ α :=
  fun store => (.ok value, store)

def ofExcept {ε σ α : Type} (outcome : Except ε α) : Effect ε σ α :=
  fun store => (outcome, store)

def bind {ε σ α β : Type} (effect : Effect ε σ α) (next : α → Effect ε σ β) : Effect ε σ β :=
  fun store =>
    match effect store with
    | (.ok value, store) => next value store
    | (.error failure, store) => (.error failure, store)

def map {ε σ α β : Type} (change : α → β) (effect : Effect ε σ α) : Effect ε σ β :=
  fun store =>
    let (outcome, store) := effect store
    (outcome.map change, store)

def mapError {ε ε' σ α : Type} (tell : ε → ε') (effect : Effect ε σ α) : Effect ε' σ α :=
  fun store =>
    let (outcome, store) := effect store
    (outcome.mapError tell, store)

def within {ε σ τ α : Type} (place : Place σ τ) (effect : Effect ε τ α) : Effect ε σ α :=
  fun store =>
    let (outcome, part) := effect (place.get store)
    (outcome, place.set store part)

end Effect
end MagnetUri
