import MagnetUri.Proofs.Uri.Ascii
import MagnetUri.Proofs.Utf8.RoundTrip

set_option autoImplicit false

/-! One spelling for each text. An ASCII byte is a character of its own wherever it stands.
A character is read from the bytes it is written with and from no others, so bytes with no malformed
stretch are the encoding of the text that is read. -/

namespace MagnetUri.Utf8

section Ascii

variable {pending : Option Pending} {byte : UInt8} {bytes : List UInt8} {text : Text}

def Continues (pending : Option Pending) : Prop :=
  ∀ unfinished, pending = some unfinished → 0x80 ≤ unfinished.least

theorem continues_none : Continues none :=
  fun _ impossible => by cases impossible

theorem continues_some {unfinished : Pending} (least : 0x80 ≤ unfinished.least) :
    Continues (some unfinished) := by
  intro other same
  cases same
  exact least

theorem start_continues (byte : UInt8) : Continues (start byte).2 := by
  simp only [start]
  split
  · exact continues_none
  · split
    · exact continues_none
    · split
      · exact continues_some (Nat.le_refl 0x80)
      · split
        · apply continues_some
          simp only
          split <;> omega
        · split
          · apply continues_some
            simp only
            split <;> omega
          · exact continues_none

theorem step_continues (byte : UInt8) : Continues (step pending byte).2 := by
  cases pending with
  | none => exact start_continues byte
  | some unfinished =>
      unfold step
      simp only
      split
      next =>
        split
        next => exact continues_none
        next => exact continues_some (Nat.le_refl 0x80)
      next => exact start_continues byte

theorem mem_step (continues : Continues pending) (ascii : byte.toNat < 0x80) :
    some (Char.ofNat byte.toNat) ∈ (step pending byte).1 := by
  have begun : start byte = ([some (Char.ofNat byte.toNat)], none) := by
    rw [start, if_pos ascii]
  cases pending with
  | none =>
      rw [step, begun]
      exact List.mem_cons_self
  | some unfinished =>
      have least := continues unfinished rfl
      have outside : ¬ (unfinished.least ≤ byte.toNat ∧ byte.toNat ≤ unfinished.greatest) := by
        omega
      simp only [step, if_neg outside, begun]
      exact List.mem_cons_of_mem none List.mem_cons_self

theorem mem_piecesAfter (continues : Continues pending) (ascii : byte.toNat < 0x80)
    (member : byte ∈ bytes) : some (Char.ofNat byte.toNat) ∈ piecesAfter pending bytes := by
  induction bytes generalizing pending with
  | nil => cases member
  | cons first rest ih =>
      rw [piecesAfter]
      rcases List.mem_cons.1 member with same | later
      · subst same
        exact List.mem_append_left _ (mem_step continues ascii)
      · exact List.mem_append_right _ (ih (step_continues first) later)

theorem mem_unmarked_pieces (ascii : byte.toNat < 0x80) (member : byte ∈ bytes) :
    some (Char.ofNat byte.toNat) ∈ unmarked (pieces bytes) := by
  have inside : some (Char.ofNat byte.toNat) ∈ pieces bytes :=
    mem_piecesAfter continues_none ascii member
  revert inside
  cases pieces bytes with
  | nil => exact id
  | cons piece rest =>
      intro inside
      rw [unmarked]
      split
      next mark =>
        apply (List.mem_cons.1 inside).resolve_left
        intro same
        have code := Character.toNat_ofNat_of_lt ascii
        rw [Option.some.inj (same.trans mark)] at code
        have outside : '\uFEFF'.toNat = 0xFEFF := rfl
        omega
      next => exact inside

theorem mem_decodeLossy (ascii : byte.toNat < 0x80) (member : byte ∈ bytes) :
    Char.ofNat byte.toNat ∈ decodeLossy bytes :=
  List.mem_map.2 ⟨_, mem_unmarked_pieces ascii member, rfl⟩

theorem eq_map_of_mapM {pieces : List (Option Char)} (all : pieces.mapM id = some text) :
    pieces = text.map some := by
  induction pieces generalizing text with
  | nil =>
      cases all
      rfl
  | cons piece rest ih =>
      rw [List.mapM_cons] at all
      obtain ⟨char, first, all⟩ := Option.bind_eq_some_iff.1 all
      obtain ⟨others, later, all⟩ := Option.bind_eq_some_iff.1 all
      cases all
      rw [List.map_cons, ← ih later]
      exact congrArg (· :: rest) first

theorem mem_of_decode? (decoded : decode? bytes = some text) (ascii : byte.toNat < 0x80)
    (member : byte ∈ bytes) : Char.ofNat byte.toNat ∈ text := by
  have inside := mem_unmarked_pieces ascii member
  rw [eq_map_of_mapM decoded] at inside
  obtain ⟨char, found, same⟩ := List.mem_map.1 inside
  cases same
  exact found

end Ascii

section Spelling

variable {char : Char} {code value missing least greatest : Nat} {byte : UInt8}
  {bytes : List UInt8} {pending : Option Pending} {more : List (Option Char)} {text : Text}

theorem ofNat_eq_byte (byte : UInt8) (same : byte.toNat = code) : UInt8.ofNat code = byte := by
  rw [← same, UInt8.ofNat_toNat]

/-- A byte in front of a character that is read continues an unfinished character. -/
theorem exists_continued
    (read : piecesAfter (some { value, missing, least, greatest }) bytes = some char :: more) :
    ∃ byte rest, bytes = byte :: rest ∧ least ≤ byte.toNat ∧ byte.toNat ≤ greatest ∧
      if missing ≤ 1 then
        Char.ofNat (value * 0x40 + byte.toNat % 0x40) = char ∧ piecesAfter none rest = more
      else
        piecesAfter (some { value := value * 0x40 + byte.toNat % 0x40, missing := missing - 1,
                            least := 0x80, greatest := 0xBF }) rest = some char :: more := by
  cases bytes with
  | nil => cases read
  | cons byte rest =>
      simp only [piecesAfter, step] at read
      split at read
      next inside =>
        refine ⟨byte, rest, rfl, inside.1, inside.2, ?_⟩
        split at read
        next last =>
          rw [if_pos last]
          obtain ⟨first, later⟩ := List.cons.inj read
          exact ⟨Option.some.inj first, later⟩
        next unfinished =>
          rw [if_neg unfinished]
          exact read
      next => cases (List.cons.inj read).1

/-- The last byte of a character. -/
theorem exists_last
    (read : piecesAfter (some { value, missing := 1, least, greatest }) bytes =
      some char :: more) :
    ∃ byte rest, bytes = byte :: rest ∧ least ≤ byte.toNat ∧ byte.toNat ≤ greatest ∧
      Char.ofNat (value * 0x40 + byte.toNat % 0x40) = char ∧ piecesAfter none rest = more :=
  exists_continued read

/-- A byte before the last one. -/
theorem exists_next
    (read : piecesAfter (some { value, missing := missing + 2, least, greatest }) bytes =
      some char :: more) :
    ∃ byte rest, bytes = byte :: rest ∧ least ≤ byte.toNat ∧ byte.toNat ≤ greatest ∧
      piecesAfter (some { value := value * 0x40 + byte.toNat % 0x40, missing := missing + 1,
                          least := 0x80, greatest := 0xBF }) rest = some char :: more := by
  obtain ⟨byte, rest, same, lower, upper, later⟩ := exists_continued read
  rw [if_neg (by omega)] at later
  exact ⟨byte, rest, same, lower, upper, later⟩

theorem exists_rest_two {lead : UInt8} (lower : 0xC2 ≤ lead.toNat) (upper : lead.toNat < 0xE0)
    (read : piecesAfter (some { value := lead.toNat - 0xC0, missing := 1, least := 0x80,
                                greatest := 0xBF }) bytes = some char :: more) :
    ∃ rest, lead :: bytes = encodeChar char ++ rest ∧ piecesAfter none rest = more := by
  obtain ⟨low, rest, same, lowLeast, lowGreatest, value, later⟩ := exists_last read
  refine ⟨rest, ?_, later⟩
  have code : char.toNat = (lead.toNat - 0xC0) * 0x40 + low.toNat % 0x40 := by
    rw [← value]
    exact toNat_ofNat_of_code (by omega)
  rw [encodeChar, if_neg (by omega), if_pos (by omega), continuation,
    ofNat_eq_byte lead (by omega), ofNat_eq_byte low (by omega), same]
  rfl

/-- The bounds of the byte behind a first byte, which are closer behind two of them. -/
theorem second_bounds {lead second first last low high : Nat}
    (lower : (if lead = first then low else 0x80) ≤ second)
    (upper : second ≤ if lead = last then high else 0xBF) (lowLeast : 0x80 ≤ low)
    (highGreatest : high ≤ 0xBF) :
    (0x80 ≤ second ∧ second ≤ 0xBF) ∧ (lead = first → low ≤ second) ∧
      (lead = last → second ≤ high) := by
  split at lower <;> split at upper <;> omega

theorem exists_rest_three {lead : UInt8} (lower : 0xE0 ≤ lead.toNat) (upper : lead.toNat < 0xF0)
    (read : piecesAfter (some { value := lead.toNat - 0xE0, missing := 2,
                                least := if lead.toNat = 0xE0 then 0xA0 else 0x80,
                                greatest := if lead.toNat = 0xED then 0x9F else 0xBF }) bytes =
      some char :: more) :
    ∃ rest, lead :: bytes = encodeChar char ++ rest ∧ piecesAfter none rest = more := by
  obtain ⟨middle, others, same, middleLeast, middleGreatest, read⟩ := exists_next read
  obtain ⟨low, rest, behind, lowLeast, lowGreatest, value, later⟩ := exists_last read
  refine ⟨rest, ?_, later⟩
  obtain ⟨middleBounds, short, half⟩ :=
    second_bounds middleLeast middleGreatest (by omega) (by omega)
  have code : char.toNat =
      ((lead.toNat - 0xE0) * 0x40 + middle.toNat % 0x40) * 0x40 + low.toNat % 0x40 := by
    rw [← value]
    exact toNat_ofNat_of_code (by omega)
  rw [encodeChar, if_neg (by omega), if_neg (by omega), if_pos (by omega), continuation,
    continuation, ofNat_eq_byte lead (by omega), ofNat_eq_byte middle (by omega),
    ofNat_eq_byte low (by omega), same, behind]
  rfl

theorem exists_rest_four {lead : UInt8} (lower : 0xF0 ≤ lead.toNat) (upper : lead.toNat < 0xF5)
    (read : piecesAfter (some { value := lead.toNat - 0xF0, missing := 3,
                                least := if lead.toNat = 0xF0 then 0x90 else 0x80,
                                greatest := if lead.toNat = 0xF4 then 0x8F else 0xBF }) bytes =
      some char :: more) :
    ∃ rest, lead :: bytes = encodeChar char ++ rest ∧ piecesAfter none rest = more := by
  obtain ⟨high, others, same, highLeast, highGreatest, read⟩ := exists_next read
  obtain ⟨middle, others, next, middleLeast, middleGreatest, read⟩ := exists_next read
  obtain ⟨low, rest, behind, lowLeast, lowGreatest, value, later⟩ := exists_last read
  refine ⟨rest, ?_, later⟩
  obtain ⟨highBounds, short, far⟩ := second_bounds highLeast highGreatest (by omega) (by omega)
  have code : char.toNat = (((lead.toNat - 0xF0) * 0x40 + high.toNat % 0x40) * 0x40 +
      middle.toNat % 0x40) * 0x40 + low.toNat % 0x40 := by
    rw [← value]
    exact toNat_ofNat_of_code (by omega)
  rw [encodeChar, if_neg (by omega), if_neg (by omega), if_neg (by omega), continuation,
    continuation, continuation, ofNat_eq_byte lead (by omega),
    ofNat_eq_byte high (by omega), ofNat_eq_byte middle (by omega),
    ofNat_eq_byte low (by omega), same, next, behind]
  rfl

/-- What begins with a character begins with the bytes of that character. -/
theorem exists_rest (read : piecesAfter none bytes = some char :: more) :
    ∃ rest, bytes = encodeChar char ++ rest ∧ piecesAfter none rest = more := by
  cases bytes with
  | nil => cases read
  | cons lead bytes =>
      simp only [piecesAfter, step, start] at read
      split at read
      next ascii =>
        obtain ⟨first, later⟩ := List.cons.inj read
        refine ⟨bytes, ?_, later⟩
        have code : char.toNat = lead.toNat := by
          rw [← Option.some.inj first]
          exact toNat_ofNat_of_code (by omega)
        rw [encodeChar, if_pos (by omega), ofNat_eq_byte lead code.symm]
        rfl
      next =>
        split at read
        next => cases (List.cons.inj read).1
        next =>
          split at read
          next => exact exists_rest_two (by omega) (by omega) read
          next =>
            split at read
            next => exact exists_rest_three (by omega) (by omega) read
            next =>
              split at read
              next => exact exists_rest_four (by omega) (by omega) read
              next => cases (List.cons.inj read).1

/-- A byte that finishes nothing leaves something unfinished. -/
theorem isSome_step (nothing : (step pending byte).1 = []) :
    (step pending byte).2.isSome = true := by
  have started (nothing : (start byte).1 = []) : (start byte).2.isSome = true := by
    revert nothing
    simp only [start]
    repeat' split
    all_goals simp
  cases pending with
  | none => exact started nothing
  | some unfinished =>
      simp only [step] at nothing ⊢
      split at nothing
      next inside =>
        rw [if_pos inside]
        split at nothing
        next => cases nothing
        next more => rw [if_neg more, Option.isSome_some]
      next => cases nothing

theorem eq_nil_of_piecesAfter (nothing : piecesAfter pending bytes = []) :
    pending = none ∧ bytes = [] := by
  induction bytes generalizing pending with
  | nil =>
      cases pending with
      | none => exact ⟨rfl, rfl⟩
      | some unfinished => cases nothing
  | cons byte rest ih =>
      obtain ⟨found, later⟩ : (step pending byte).1 = [] ∧
          piecesAfter (step pending byte).2 rest = [] := List.append_eq_nil_iff.1 nothing
      have unfinished := isSome_step found
      rw [(ih later).1] at unfinished
      cases unfinished

/-- Bytes are read as the characters of a text where they are its encoding. -/
theorem pieces_eq_map_some_iff : pieces bytes = text.map some ↔ bytes = encode text := by
  constructor
  · intro read
    induction text generalizing bytes with
    | nil =>
        rw [(eq_nil_of_piecesAfter read).2]
        rfl
    | cons char others ih =>
        obtain ⟨rest, same, later⟩ := exists_rest read
        rw [same, encode, List.flatMap_cons, ih later]
        rfl
  · intro same
    rw [same, pieces_encode]

def markBytes : List UInt8 := [0xEF, 0xBB, 0xBF]

theorem encode_mark (text : Text) : encode ('\uFEFF' :: text) = markBytes ++ encode text :=
  rfl

theorem pieces_marked (rest : List UInt8) :
    pieces (markBytes ++ rest) = some '\uFEFF' :: pieces rest :=
  piecesAfter_encodeChar '\uFEFF' rest

theorem markBytes_prefix_encode_iff :
    markBytes <+: encode text ↔ text.head? = some '\uFEFF' := by
  constructor
  · intro marked
    obtain ⟨rest, same⟩ := marked
    have read := pieces_marked rest
    rw [same, pieces_encode] at read
    cases text with
    | nil => cases read
    | cons char others => exact (List.cons.inj read).1
  · intro first
    obtain ⟨others, same⟩ := List.head?_eq_some_iff.1 first
    rw [same, encode_mark]
    exact List.prefix_append _ _

/-- Without a byte order mark in front, what is read strictly is the text that is encoded. -/
theorem decode?_eq_some_iff_of_unmarked (other : ¬ markBytes <+: bytes) :
    decode? bytes = some text ↔ bytes = encode text := by
  constructor
  · intro decoded
    have read := eq_map_of_mapM decoded
    rw [← pieces_eq_map_some_iff, ← read]
    cases found : pieces bytes with
    | nil => rfl
    | cons piece rest =>
        have unmarked_piece : piece ≠ some '\uFEFF' := by
          intro mark
          rw [mark] at found
          obtain ⟨behind, same, _⟩ := exists_rest found
          exact other ⟨behind, same.symm⟩
        rw [unmarked, if_neg unmarked_piece]
  · intro same
    rw [same, markBytes_prefix_encode_iff] at other
    rw [same, decode?_encode other]

/-- A byte order mark in front is encoded, but it is not in the text that is read. -/
theorem decode?_eq_some_iff_of_marked (marked : markBytes <+: bytes) :
    decode? bytes = some text ↔ bytes = encode ('\uFEFF' :: text) := by
  constructor
  · intro decoded
    obtain ⟨rest, same⟩ := marked
    have read := pieces_marked rest
    rw [same] at read
    have text_read := eq_map_of_mapM decoded
    rw [read, unmarked, if_pos rfl] at text_read
    rw [← pieces_eq_map_some_iff, read, text_read]
    rfl
  · intro same
    rw [same, decode?_encode_mark]

/-- Well-formed bytes and the text they are read as: the text that they encode, but for a byte
order mark in front. -/
def Decodes (bytes : List UInt8) (text : Text) : Prop :=
  ∃ whole, bytes = encode whole ∧ text = withoutMark whole

theorem decode?_eq_some_iff : decode? bytes = some text ↔ Decodes bytes text := by
  constructor
  · intro decoded
    by_cases marked : markBytes <+: bytes
    · exact ⟨'\uFEFF' :: text, (decode?_eq_some_iff_of_marked marked).1 decoded, rfl⟩
    · have same := (decode?_eq_some_iff_of_unmarked marked).1 decoded
      rw [same, markBytes_prefix_encode_iff] at marked
      exact ⟨text, same, (withoutMark_eq_self_iff.2 marked).symm⟩
  · rintro ⟨whole, rfl, rfl⟩
    by_cases marked : whole.head? = some '\uFEFF'
    · obtain ⟨rest, rfl⟩ := List.head?_eq_some_iff.1 marked
      exact decode?_encode_mark rest
    · rw [withoutMark_eq_self_iff.2 marked, decode?_encode marked]

theorem decode?_eq_none_iff : decode? bytes = none ↔ ∀ text, ¬ Decodes bytes text := by
  simp only [Option.eq_none_iff_forall_ne_some, ne_eq, decode?_eq_some_iff]

end Spelling

end MagnetUri.Utf8
