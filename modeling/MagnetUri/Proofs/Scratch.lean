import MagnetUri.Proofs.Utf8.Canonical
import MagnetUri.Scratch

set_option autoImplicit false

/-! Scratch storage over any history. Whatever is written to it, and however much room is asked for
in advance, there is room for what it holds, it holds well-formed bytes with their decoding, and
its room does not get smaller. What a decoding gives does not depend on the history. All this takes
an allocator that grants twice the size of what is written; a hint may be refused, and then the
storage is left empty. -/

namespace MagnetUri.Scratch

open Utf8 (Decodes)

variable {ε : Type} {allocate : Allocator ε} {scratch : Scratch} {source : List UInt8}
  {sizeHint : Nat} {encoded text : Text}

def widened (needed : Nat) (scratch : Scratch) : Scratch :=
  if needed ≤ scratch.capacity then scratch
  else { scratch with capacity := max needed (2 * scratch.capacity) }

def pushed (scratch : Scratch) (byte : UInt8) : Scratch :=
  let roomy :=
    if scratch.size = scratch.capacity then scratch.widened (2 * scratch.size) else scratch
  { roomy with written := roomy.written.push byte }

def filled (source : List UInt8) (sizeHint : Nat) (scratch : Scratch) : Scratch :=
  source.foldl pushed (scratch.clear.widened sizeHint)

/-- Every size that bytes can make storage grow to is granted. -/
def Grants (allocate : Allocator ε) (source : List UInt8) : Prop :=
  ∀ size ≤ 2 * source.length, allocate size = .ok ()

/-- A hint asks for no more than there is, or for a size that is granted. -/
def GrantsHint (allocate : Allocator ε) (sizeHint : Nat) (scratch : Scratch) : Prop :=
  sizeHint ≤ scratch.capacity ∨ allocate (max sizeHint (2 * scratch.capacity)) = .ok ()

theorem reserve_of_granted (granted : GrantsHint allocate sizeHint scratch) :
    reserve allocate sizeHint scratch = (.ok (), scratch.widened sizeHint) := by
  unfold reserve widened
  split
  next => rfl
  next short =>
    simp only [granted.resolve_left short]

theorem reserve_of_refused {failure : ε} (short : scratch.capacity < sizeHint)
    (refused : allocate (max sizeHint (2 * scratch.capacity)) = .error failure) :
    reserve allocate sizeHint scratch = (.error failure, scratch) := by
  unfold reserve
  rw [if_neg (Nat.not_le_of_lt short)]
  simp only [refused]

theorem push_of_granted (granted : allocate (2 * scratch.size) = .ok ()) (byte : UInt8) :
    push allocate byte scratch = (.ok (), scratch.pushed byte) := by
  unfold push pushed
  split
  next full =>
    have hint : GrantsHint allocate (2 * scratch.size) scratch := by
      right
      rw [← full, Nat.max_self, granted]
    rw [Effect.bind, reserve_of_granted hint]
    rfl
  next => rfl

theorem written_widened (needed : Nat) (scratch : Scratch) :
    (scratch.widened needed).written = scratch.written := by
  unfold widened
  split <;> rfl

theorem written_pushed (scratch : Scratch) (byte : UInt8) :
    (scratch.pushed byte).written = scratch.written.push byte := by
  unfold pushed
  simp only
  split
  · rw [written_widened]
  · rfl

theorem size_pushed (scratch : Scratch) (byte : UInt8) :
    (scratch.pushed byte).size = scratch.size + 1 := by
  rw [size, written_pushed, Array.size_push, size]

theorem fill_of_granted
    (granted : ∀ size ≤ 2 * (scratch.size + source.length), allocate size = .ok ()) :
    fill allocate source scratch = (.ok (), source.foldl pushed scratch) := by
  induction source generalizing scratch with
  | nil => rfl
  | cons byte rest ih =>
      rw [List.length_cons] at granted
      have here : allocate (2 * scratch.size) = .ok () := granted _ (by omega)
      have later := @ih (scratch.pushed byte) fun size small => granted size (by
        rw [size_pushed] at small
        omega)
      rw [fill, Effect.bind, push_of_granted here, List.foldl_cons]
      exact later

/-- Where all sizes are granted, the bytes are filled in and decoded. -/
theorem assign_of_granted (granted : Grants allocate source)
    (hinted : GrantsHint allocate sizeHint scratch) (encoded : Text) :
    assign allocate source sizeHint encoded scratch =
      settle encoded (filled source sizeHint scratch) := by
  have empty : (scratch.clear.widened sizeHint).size = 0 := by
    rw [size, written_widened]
    rfl
  have room : reserve allocate sizeHint scratch.clear =
      (.ok (), scratch.clear.widened sizeHint) := reserve_of_granted hinted
  have written : fill allocate source (scratch.clear.widened sizeHint) =
      (.ok (), filled source sizeHint scratch) := by
    apply fill_of_granted
    rw [empty, Nat.zero_add]
    exact granted
  rw [assign, Effect.bind, room]
  simp only [Effect.bind, written]

/-- A hint that is refused is told, and the storage is left empty. -/
theorem assign_of_refused {failure : ε} (short : scratch.capacity < sizeHint)
    (refused : allocate (max sizeHint (2 * scratch.capacity)) = .error failure)
    (source : List UInt8) (encoded : Text) :
    assign allocate source sizeHint encoded scratch = (.error failure, scratch.clear) := by
  have stopped : reserve allocate sizeHint scratch.clear = (.error failure, scratch.clear) :=
    reserve_of_refused short refused
  rw [assign, Effect.bind, stopped]

theorem le_capacity_widened (needed : Nat) (scratch : Scratch) :
    needed ≤ (scratch.widened needed).capacity := by
  unfold widened
  split
  next enough => exact enough
  next => exact Nat.le_max_left _ _

theorem capacity_le_widened (needed : Nat) (scratch : Scratch) :
    scratch.capacity ≤ (scratch.widened needed).capacity := by
  unfold widened
  split
  · exact Nat.le_refl _
  · simp only
    omega

theorem capacity_le_pushed (scratch : Scratch) (byte : UInt8) :
    scratch.capacity ≤ (scratch.pushed byte).capacity := by
  unfold pushed
  simp only
  split
  · exact capacity_le_widened _ _
  · exact Nat.le_refl _

/-- Storage with any room at all never runs out of it. -/
theorem size_pushed_le (byte : UInt8) (roomy : 1 ≤ scratch.capacity)
    (fits : scratch.size ≤ scratch.capacity) :
    (scratch.pushed byte).size ≤ (scratch.pushed byte).capacity := by
  rw [size_pushed]
  unfold pushed
  simp only
  split
  next full =>
    have enough := le_capacity_widened (2 * scratch.size) scratch
    omega
  next => omega

/-- All bytes written are kept where there is any room. -/
theorem bytes_eq_written (fits : scratch.size ≤ scratch.capacity) :
    scratch.bytes = scratch.written.toList :=
  List.take_of_length_le fits

theorem fits_foldl_pushed (source : List UInt8) (roomy : 1 ≤ scratch.capacity)
    (fits : scratch.size ≤ scratch.capacity) :
    (source.foldl pushed scratch).size ≤ (source.foldl pushed scratch).capacity ∧
      scratch.capacity ≤ (source.foldl pushed scratch).capacity ∧
      (source.foldl pushed scratch).written.toList = scratch.written.toList ++ source := by
  induction source generalizing scratch with
  | nil => simp [fits]
  | cons byte rest ih =>
      have wider := capacity_le_pushed scratch byte
      obtain ⟨fit, wide, kept⟩ :=
        ih (Nat.le_trans roomy wider) (size_pushed_le byte roomy fits)
      refine ⟨fit, Nat.le_trans wider wide, ?_⟩
      rw [List.foldl_cons, kept, written_pushed]
      simp

/-- Storage filled anew holds the source and nothing else, if there is any room at all. -/
theorem filled_of_room (source : List UInt8)
    (room : 1 ≤ (scratch.clear.widened sizeHint).capacity) :
    (filled source sizeHint scratch).size ≤ (filled source sizeHint scratch).capacity ∧
      (scratch.clear.widened sizeHint).capacity ≤ (filled source sizeHint scratch).capacity ∧
      (filled source sizeHint scratch).bytes = source := by
  have empty : (scratch.clear.widened sizeHint).written = #[] :=
    written_widened sizeHint scratch.clear
  have fits : (scratch.clear.widened sizeHint).size ≤
      (scratch.clear.widened sizeHint).capacity := by
    rw [size, empty]
    exact Nat.zero_le _
  obtain ⟨fit, wider, kept⟩ := fits_foldl_pushed source room fits
  refine ⟨fit, wider, ?_⟩
  rw [filled, bytes_eq_written fit, kept, empty]
  rfl

theorem bytes_filled_of_hint (hint : source.length ≤ sizeHint) (scratch : Scratch) :
    (filled source sizeHint scratch).bytes = source := by
  cases source with
  | nil =>
      have empty : (scratch.clear.widened sizeHint).written = #[] :=
        written_widened sizeHint scratch.clear
      rw [filled, List.foldl_nil, bytes, empty]
      exact List.take_nil
  | cons byte rest =>
      have positive : 1 ≤ sizeHint := Nat.le_trans (Nat.succ_pos rest.length) hint
      exact (filled_of_room (byte :: rest)
        (Nat.le_trans positive (le_capacity_widened sizeHint scratch.clear))).2.2

theorem decode_eq_settle (encoded : Percent.Encoded) (scratch : Scratch) :
    decode encoded scratch =
      match Utf8.decode? encoded.bytes with
      | some text => (.ok text, { filled encoded.bytes encoded.size scratch with text })
      | none => (.error { defect := .invalidUtf8, encoded := encoded.text },
          (filled encoded.bytes encoded.size scratch).clear) := by
  have same := bytes_filled_of_hint (Nat.le_of_eq encoded.length_bytes) scratch
  have granted : Grants Allocator.unlimited encoded.bytes := fun _ _ => rfl
  have decoded := assign_of_granted granted (Or.inr rfl : GrantsHint _ encoded.size scratch)
    encoded.text
  rw [decode, decodeInto, decoded, settle, same]
  cases Utf8.decode? encoded.bytes <;> rfl

theorem decode_eq (encoded : Percent.Encoded) (scratch : Scratch) :
    ∃ after, decode encoded scratch = (encoded.decodeStrict, after) ∧
      ∀ text, Utf8.decode? encoded.bytes = some text → after.text = text := by
  rw [decode_eq_settle, Percent.Encoded.decodeStrict]
  cases Utf8.decode? encoded.bytes with
  | none =>
      refine ⟨_, rfl, ?_⟩
      intro text impossible
      cases impossible
  | some text => exact ⟨_, rfl, fun other equal => Option.some.inj equal⟩

/-- What decoding leaves as text does not depend on what was there. -/
theorem text_decode (encoded : Percent.Encoded) (scratch : Scratch) :
    (decode encoded scratch).2.text = (Utf8.decode? encoded.bytes).getD [] := by
  rw [decode_eq_settle]
  cases Utf8.decode? encoded.bytes <;> rfl

inductive Act where
  | clear
  | assign (source : List UInt8) (sizeHint : Nat) (encoded : Text)
  | decode (encoded : Percent.Encoded)

def Act.payload : Act → List UInt8
  | .clear => []
  | .assign source _ _ => source
  | .decode encoded => encoded.bytes

/-- What an act leaves, whether it succeeds or not. -/
def act (allocate : Allocator ε) (scratch : Scratch) : Act → Scratch
  | .clear => scratch.clear
  | .assign source sizeHint encoded => (assign allocate source sizeHint encoded scratch).2
  | .decode encoded => (decodeInto allocate encoded scratch).2

def after (allocate : Allocator ε) (scratch : Scratch) (acts : List Act) : Scratch :=
  acts.foldl (act allocate) scratch

/-- What every act leaves: room, contents that fit, and well-formed bytes beside their decoding. -/
structure Sound (scratch : Scratch) : Prop where
  roomy : 1 ≤ scratch.capacity
  fits : scratch.size ≤ scratch.capacity
  view : scratch.bytes.length = scratch.size
  decoded : Decodes scratch.bytes scratch.text

theorem length_bytes (fits : scratch.size ≤ scratch.capacity) :
    scratch.bytes.length = scratch.size := by
  rw [bytes_eq_written fits]
  exact Array.length_toList

theorem decodes_empty (empty : scratch.written = #[]) : Decodes scratch.bytes [] := by
  refine ⟨[], ?_, rfl⟩
  rw [bytes, empty]
  exact List.take_nil

theorem sound_ofCapacity {capacity : Nat} (roomy : 1 ≤ capacity) : (ofCapacity capacity).Sound where
  roomy := roomy
  fits := Nat.zero_le _
  view := length_bytes (Nat.zero_le _)
  decoded := decodes_empty rfl

theorem sound_clear (roomy : 1 ≤ scratch.capacity) : scratch.clear.Sound :=
  sound_ofCapacity roomy

theorem fits_filled (source : List UInt8) (sizeHint : Nat) (roomy : 1 ≤ scratch.capacity) :
    (filled source sizeHint scratch).size ≤ (filled source sizeHint scratch).capacity ∧
      scratch.capacity ≤ (filled source sizeHint scratch).capacity ∧
      (filled source sizeHint scratch).bytes = source := by
  have wider : scratch.capacity ≤ (scratch.clear.widened sizeHint).capacity :=
    capacity_le_widened sizeHint scratch.clear
  obtain ⟨fits, grown, same⟩ := filled_of_room source (Nat.le_trans roomy wider)
  exact ⟨fits, Nat.le_trans wider grown, same⟩

/-- Well-formed bytes are kept with their decoding. -/
theorem assign_of_decodes (roomy : 1 ≤ scratch.capacity) (granted : Grants allocate source)
    (hinted : GrantsHint allocate sizeHint scratch) (decodes : Decodes source text)
    (encoded : Text) : assign allocate source sizeHint encoded scratch =
      (.ok (.ok text), { filled source sizeHint scratch with text }) := by
  rw [assign_of_granted granted hinted, settle, (fits_filled source sizeHint roomy).2.2,
    Utf8.decode?_eq_some_iff.2 decodes]

/-- Ill-formed bytes are told, and nothing of them is kept. -/
theorem assign_of_malformed (roomy : 1 ≤ scratch.capacity) (granted : Grants allocate source)
    (hinted : GrantsHint allocate sizeHint scratch) (malformed : ∀ text, ¬ Decodes source text)
    (encoded : Text) : assign allocate source sizeHint encoded scratch =
      (.ok (.error { defect := .invalidUtf8, encoded }),
        (filled source sizeHint scratch).clear) := by
  rw [assign_of_granted granted hinted, settle, (fits_filled source sizeHint roomy).2.2,
    Utf8.decode?_eq_none_iff.2 malformed]

theorem grantsHint_or_refused (allocate : Allocator ε) (sizeHint : Nat) (scratch : Scratch) :
    GrantsHint allocate sizeHint scratch ∨ ∃ failure, scratch.capacity < sizeHint ∧
      allocate (max sizeHint (2 * scratch.capacity)) = .error failure := by
  by_cases enough : sizeHint ≤ scratch.capacity
  · exact Or.inl (Or.inl enough)
  · cases answer : allocate (max sizeHint (2 * scratch.capacity)) with
    | ok => exact Or.inl (Or.inr answer)
    | error failure => exact Or.inr ⟨failure, Nat.lt_of_not_le enough, rfl⟩

theorem sound_assign (roomy : 1 ≤ scratch.capacity) (granted : Grants allocate source)
    (sizeHint : Nat) (encoded : Text) :
    (assign allocate source sizeHint encoded scratch).2.Sound ∧
      scratch.capacity ≤ (assign allocate source sizeHint encoded scratch).2.capacity := by
  rcases grantsHint_or_refused allocate sizeHint scratch with hinted | ⟨_, short, refused⟩
  · obtain ⟨fits, grown, same⟩ := fits_filled source sizeHint roomy
    by_cases wellFormed : ∃ text, Decodes source text
    · obtain ⟨text, decodes⟩ := wellFormed
      rw [assign_of_decodes roomy granted hinted decodes]
      refine ⟨⟨Nat.le_trans roomy grown, fits, length_bytes fits, ?_⟩, grown⟩
      change Decodes (filled source sizeHint scratch).bytes text
      rwa [same]
    · rw [assign_of_malformed roomy granted hinted (not_exists.1 wellFormed)]
      exact ⟨sound_clear (Nat.le_trans roomy grown), grown⟩
  · rw [assign_of_refused short refused]
    exact ⟨sound_clear roomy, Nat.le_refl _⟩

/-- An act keeps the storage sound and does not take room away. -/
theorem Sound.act (sound : scratch.Sound) {next : Act} (granted : Grants allocate next.payload) :
    (scratch.act allocate next).Sound ∧ scratch.capacity ≤ (scratch.act allocate next).capacity := by
  cases next with
  | clear => exact ⟨sound_clear sound.roomy, Nat.le_refl _⟩
  | assign source sizeHint encoded => exact sound_assign sound.roomy granted sizeHint encoded
  | decode encoded => exact sound_assign sound.roomy granted encoded.size encoded.text

theorem Sound.after (sound : scratch.Sound) {acts : List Act}
    (granted : ∀ next ∈ acts, Grants allocate next.payload) :
    (scratch.after allocate acts).Sound ∧
      scratch.capacity ≤ (scratch.after allocate acts).capacity := by
  induction acts generalizing scratch with
  | nil => exact ⟨sound, Nat.le_refl _⟩
  | cons next acts ih =>
      rw [List.forall_mem_cons] at granted
      obtain ⟨kept, wider⟩ := sound.act granted.1
      obtain ⟨last, widest⟩ := ih kept granted.2
      exact ⟨last, Nat.le_trans wider widest⟩

end MagnetUri.Scratch
