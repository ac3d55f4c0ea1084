import MagnetUri.Effect
import MagnetUri.Percent.Encoded

set_option autoImplicit false

/-! Scratch storage for decoding. Each decoding replaces what the last one left, the storage grows
by doubling and never shrinks, and only well-formed UTF-8 stays in it. Every size is asked of an
allocator, and making storage or growing it fails where its size is refused. Storage asked for with
a size that is no number has no room at all and keeps nothing of what is written without a hint. -/

namespace MagnetUri

abbrev Allocator (ε : Type) := Nat → Except ε Unit

namespace Allocator

structure Refusal where
  size : Nat
deriving DecidableEq

def upTo (limit : Nat) : Allocator Refusal :=
  fun size => if size ≤ limit then .ok () else .error { size }

def unlimited : Allocator Empty :=
  fun _ => .ok ()

end Allocator

structure Scratch where
  capacity : Nat
  /-- The bytes written since the storage was last emptied. -/
  written : Array UInt8
  /-- The decoded form of the last bytes that were well-formed. -/
  text : Text
deriving DecidableEq

namespace Scratch

variable {ε : Type}

def ofCapacity (capacity : Nat) : Scratch :=
  { capacity, written := #[], text := [] }

/-- The room for a requested size: fractions are dropped, it is at least one byte, and
there is none for what is no number. -/
def room (requested : Float) : Nat :=
  if requested.isNaN then 0 else max 1 requested.toUInt64.toNat

/-- New storage, if what is requested can be had. -/
def create (allocate : Allocator ε) (requested : Float) : Except ε Scratch :=
  (allocate (room requested)).map fun _ => ofCapacity (room requested)

def defaultCapacity : Nat := 256

def largestSize : Nat := 9007199254740991

def size (scratch : Scratch) : Nat :=
  scratch.written.size

/-- The bytes that were written and found room. -/
def bytes (scratch : Scratch) : List UInt8 :=
  scratch.written.toList.take scratch.capacity

def clear (scratch : Scratch) : Scratch :=
  { scratch with written := #[], text := [] }

/-- Makes room for `needed` bytes, at least twice the room there was. -/
def reserve (allocate : Allocator ε) (needed : Nat) : Effect ε Scratch Unit := fun scratch =>
  if needed ≤ scratch.capacity then (.ok (), scratch)
  else
    let grown := max needed (2 * scratch.capacity)
    match allocate grown with
    | .ok () => (.ok (), { scratch with capacity := grown })
    | .error failure => (.error failure, scratch)

def append (byte : UInt8) : Effect ε Scratch Unit :=
  fun scratch => (.ok (), { scratch with written := scratch.written.push byte })

def push (allocate : Allocator ε) (byte : UInt8) : Effect ε Scratch Unit := fun scratch =>
  if scratch.size = scratch.capacity then
    (reserve allocate (2 * scratch.size)).bind (fun _ => append byte) scratch
  else append byte scratch

def fill (allocate : Allocator ε) : List UInt8 → Effect ε Scratch Unit
  | [] => Effect.pure ()
  | byte :: rest => (push allocate byte).bind fun _ => fill allocate rest

def settle (encoded : Text) : Effect ε Scratch (Except Percent.DecodeError Text) := fun scratch =>
  match Utf8.decode? scratch.bytes with
  | some text => (.ok (.ok text), { scratch with text })
  | none => (.ok (.error { defect := .invalidUtf8, encoded }), scratch.clear)

/-- Replaces the contents and decodes them. Ill-formed bytes leave the storage empty. -/
def assign (allocate : Allocator ε) (source : List UInt8) (sizeHint : Nat) (encoded : Text) :
    Effect ε Scratch (Except Percent.DecodeError Text) := fun scratch =>
  ((reserve allocate sizeHint).bind fun _ =>
    (fill allocate source).bind fun _ => settle encoded) scratch.clear

def decodeInto (allocate : Allocator ε) (encoded : Percent.Encoded) :
    Effect ε Scratch (Except Percent.DecodeError Text) :=
  assign allocate encoded.bytes encoded.size encoded.text

/-- Decoding where every size can be had. -/
def decode (encoded : Percent.Encoded) : Effect Percent.DecodeError Scratch Text := fun scratch =>
  match decodeInto .unlimited encoded scratch with
  | (.ok outcome, scratch) => (outcome, scratch)

end Scratch
end MagnetUri
