import MagnetUri.Percent.Encoded
import MagnetUri.Proofs.Grammar.Run
import MagnetUri.Proofs.Text.Parts
import MagnetUri.Proofs.Utf8.RoundTrip

set_option autoImplicit false

/-! Pieces of encoded text. A mark that is no part of an escape falls between two tokens,
so what is cut off at such marks is as well-formed as the text it was cut from. A split behind ASCII
bytes cuts no character. -/

namespace MagnetUri.Percent

open Grammar (Run)

variable {text before after : Text} {mark : Char} {tokens : List Token}

theorem writeTokens_cons (token : Token) (tokens : List Token) :
    writeTokens (token :: tokens) = token.text ++ writeTokens tokens :=
  List.flatMap_cons

theorem writeTokens_append (left right : List Token) :
    writeTokens (left ++ right) = writeTokens left ++ writeTokens right :=
  List.flatMap_append

theorem readTokens_eq_ok_iff : readTokens text = .ok tokens ↔ writeTokens tokens = text := by
  constructor
  · exact writeTokens_of_readTokens
  · intro written
    rw [← written, readTokens_writeTokens]

def Readable (text : Text) : Prop :=
  ∃ tokens, writeTokens tokens = text

theorem readable_of_run {inClass : Char → Bool} (plain : inClass '%' = false)
    (run : Run inClass text) : Readable text := by
  induction run with
  | nil => exact ⟨[], rfl⟩
  | @plain char rest member _ ih =>
      obtain ⟨tokens, written⟩ := ih
      have literal : char ≠ '%' := by
        intro percent
        rw [percent, plain] at member
        cases member
      exact ⟨.literal char literal :: tokens, by rw [writeTokens_cons, written]; rfl⟩
  | @escape high low rest first second _ ih =>
      obtain ⟨tokens, written⟩ := ih
      exact ⟨.escape ⟨high, first⟩ ⟨low, second⟩ :: tokens,
        by rw [writeTokens_cons, written]; rfl⟩

def Separates (mark : Char) : Prop :=
  mark ≠ '%' ∧ Character.isHexDigit mark = false

theorem Separates.ne_hexDigit (separates : Separates mark) (digit : HexDigit) :
    digit.char ≠ mark := by
  intro same
  have valid := digit.valid
  rw [same, separates.2] at valid
  cases valid

/-- A separating mark in a text is a token of its own. -/
theorem exists_tokens_of_mark (separates : Separates mark)
    (written : writeTokens tokens = before ++ mark :: after) :
    ∃ left right, tokens = left ++ .literal mark separates.1 :: right ∧
      writeTokens left = before ∧ writeTokens right = after := by
  induction tokens generalizing before with
  | nil =>
      have nonempty : before ++ mark :: after ≠ [] :=
        List.append_ne_nil_of_right_ne_nil before (List.cons_ne_nil mark after)
      exact absurd written.symm nonempty
  | cons token rest ih =>
      rw [writeTokens_cons] at written
      cases token with
      | literal char plain =>
          cases before with
          | nil =>
              obtain ⟨same, later⟩ := List.cons.inj written
              subst same
              exact ⟨[], rest, rfl, rfl, later⟩
          | cons first others =>
              obtain ⟨same, later⟩ := List.cons.inj written
              subst same
              obtain ⟨left, right, split, leftWritten, rightWritten⟩ := ih later
              exact ⟨.literal char plain :: left, right, by rw [split]; rfl,
                by rw [writeTokens_cons, leftWritten]; rfl, rightWritten⟩
      | escape high low =>
          -- The mark would be one of the three characters, unless all of them stand before it.
          match before, written with
          | [], written => exact absurd (List.cons.inj written).1.symm separates.1
          | [_], written =>
              have same := (List.cons.inj (List.cons.inj written).2).1
              exact absurd same (separates.ne_hexDigit high)
          | [_, _], written =>
              have same := (List.cons.inj (List.cons.inj (List.cons.inj written).2).2).1
              exact absurd same (separates.ne_hexDigit low)
          | first :: second :: third :: others, written =>
              obtain ⟨percent, written⟩ := List.cons.inj written
              obtain ⟨highSame, written⟩ := List.cons.inj written
              obtain ⟨lowSame, later⟩ := List.cons.inj written
              obtain ⟨left, right, split, leftWritten, rightWritten⟩ := ih later
              refine ⟨.escape high low :: left, right, by rw [split]; rfl, ?_, rightWritten⟩
              rw [writeTokens_cons, leftWritten, ← percent, ← highSame, ← lowSame]
              rfl

theorem Readable.cut (separates : Separates mark) (readable : Readable (before ++ mark :: after)) :
    Readable before ∧ Readable after := by
  obtain ⟨tokens, written⟩ := readable
  obtain ⟨left, right, _, leftWritten, rightWritten⟩ := exists_tokens_of_mark separates written
  exact ⟨⟨left, leftWritten⟩, ⟨right, rightWritten⟩⟩

theorem Readable.of_join {parts : List Text} (separates : Separates mark)
    (readable : Readable (Text.join mark parts)) : ∀ part ∈ parts, Readable part := by
  induction parts with
  | nil =>
      intro part member
      cases member
  | cons first others ih =>
      intro part member
      cases others with
      | nil =>
          rw [List.mem_singleton.1 member]
          exact readable
      | cons next others =>
          obtain ⟨start, later⟩ := Readable.cut separates readable
          rcases List.mem_cons.1 member with same | inner
          · rw [same]
            exact start
          · exact ih later part inner

theorem Readable.of_separate (separates : Separates mark) (readable : Readable text) :
    ∀ part ∈ Text.separate mark text, Readable part := by
  rw [← Text.join_separate mark text] at readable
  exact readable.of_join separates

/-- In a class with all digits of escapes, a run is a readable text of its characters. -/
theorem run_iff_readable {inClass : Char → Bool} (plain : inClass '%' = false)
    (digits : ∀ char, Character.isHexDigit char = true → inClass char = true) :
    Run inClass text ↔ Readable text ∧ ∀ char ∈ text, inClass char = true ∨ char = '%' := by
  constructor
  · intro run
    refine ⟨readable_of_run plain run, fun char member => ?_⟩
    rcases run.mem member with inside | percent | digit
    · exact Or.inl inside
    · exact Or.inr percent
    · exact Or.inl (digits char digit)
  · rintro ⟨⟨tokens, written⟩, members⟩
    subst written
    induction tokens with
    | nil => exact .nil
    | cons token others ih =>
        rw [writeTokens_cons, List.forall_mem_append] at members
        rw [writeTokens_cons]
        cases token with
        | literal char literal =>
            have inside := (members.1 char List.mem_cons_self).resolve_right literal
            exact .plain inside (ih members.2)
        | escape high low => exact .escape high.valid low.valid (ih members.2)

theorem forall_mem_join (parts : List Text) (holds : Char → Prop) (marked : holds mark) :
    (∀ char ∈ Text.join mark parts, holds char) ↔ ∀ part ∈ parts, ∀ char ∈ part, holds char := by
  induction parts with
  | nil => simp [Text.join]
  | cons first others ih =>
      cases others with
      | nil => simp [Text.join]
      | cons next others =>
          rw [Text.join, List.forall_mem_append, List.forall_mem_cons, ih]
          simp only [List.forall_mem_cons, marked, true_and]

theorem Readable.join {parts : List Text} (separates : Separates mark)
    (readable : ∀ part ∈ parts, Readable part) : Readable (Text.join mark parts) := by
  induction parts with
  | nil => exact ⟨[], rfl⟩
  | cons first others ih =>
      rw [List.forall_mem_cons] at readable
      cases others with
      | nil => exact readable.1
      | cons next others =>
          obtain ⟨left, leftWritten⟩ := readable.1
          obtain ⟨right, rightWritten⟩ := ih readable.2
          refine ⟨left ++ .literal mark separates.1 :: right, ?_⟩
          rw [writeTokens_append, writeTokens_cons, leftWritten, rightWritten]
          rfl

/-- Runs joined with a mark of their class are a run, and a run comes apart into such. -/
theorem run_join_iff {inClass : Char → Bool} {parts : List Text} (separates : Separates mark)
    (marked : inClass mark = true) (plain : inClass '%' = false)
    (digits : ∀ char, Character.isHexDigit char = true → inClass char = true) :
    Run inClass (Text.join mark parts) ↔ ∀ part ∈ parts, Run inClass part := by
  have members := forall_mem_join parts (fun char => inClass char = true ∨ char = '%') (Or.inl marked)
  simp only [run_iff_readable plain digits, members]
  constructor
  · rintro ⟨readable, members⟩ part member
    exact ⟨readable.of_join separates part member, members part member⟩
  · intro each
    exact ⟨Readable.join separates fun part member => (each part member).1,
      fun part member => (each part member).2⟩

theorem append_of_splitTokens? {count : Nat} {left right : List Token}
    (found : splitTokens? tokens count = some (left, right)) : left ++ right = tokens := by
  fun_induction splitTokens? tokens count generalizing left with
  | case1 =>
      cases found
      rfl
  | case2 => cases found
  | case3 token rest count fits ih =>
      obtain ⟨⟨first, second⟩, inner, same⟩ := Option.map_eq_some_iff.1 found
      cases same
      exact congrArg (token :: ·) (ih inner)
  | case4 => cases found

namespace Encoded

theorem read_eq_ok_iff {plusAsSpace : Bool} {encoded : Encoded} :
    read text plusAsSpace = .ok encoded ↔
      encoded.text = text ∧ encoded.plusAsSpace = plusAsSpace := by
  constructor
  · intro found
    refine ⟨text_of_read found, ?_⟩
    unfold read at found
    split at found
    next =>
      cases found
      rfl
    next => cases found
  · rintro ⟨written, same⟩
    obtain ⟨tokens, plus⟩ := encoded
    rw [read, readTokens_eq_ok_iff.2 written]
    rw [← same]

theorem exists_read (readable : Readable text) (plusAsSpace : Bool) :
    ∃ encoded, read text plusAsSpace = .ok encoded := by
  obtain ⟨tokens, written⟩ := readable
  exact ⟨⟨tokens, plusAsSpace⟩, read_eq_ok_iff.2 ⟨written, rfl⟩⟩

/-- The parts around a number of bytes can be read again, and together they are the text. -/
theorem read_of_splitAt? {encoded left right : Encoded} {count : Int}
    (found : encoded.splitAt? count = some (left, right)) :
    read left.text encoded.plusAsSpace = .ok left ∧
      read right.text encoded.plusAsSpace = .ok right ∧ left.text ++ right.text = encoded.text := by
  cases count with
  | negSucc => cases found
  | ofNat count =>
      obtain ⟨⟨first, second⟩, inner, same⟩ := Option.map_eq_some_iff.1 found
      cases same
      refine ⟨read_eq_ok_iff.2 ⟨rfl, rfl⟩, read_eq_ok_iff.2 ⟨rfl, rfl⟩, ?_⟩
      rw [text, text, ← writeTokens_append, append_of_splitTokens? inner]
      rfl

theorem bytes_of_splitAt? {encoded left right : Encoded} {count : Int}
    (found : encoded.splitAt? count = some (left, right)) :
    left.bytes ++ right.bytes = encoded.bytes := by
  cases count with
  | negSucc => cases found
  | ofNat count =>
      obtain ⟨⟨first, second⟩, inner, same⟩ := Option.map_eq_some_iff.1 found
      cases same
      rw [bytes, bytes, ← List.flatMap_append, append_of_splitTokens? inner]
      rfl

end Encoded
end MagnetUri.Percent

namespace MagnetUri

/-- A character that takes several bytes begins with none of ASCII. -/
theorem Utf8.singleton_of_encodeChar {char : Char} {byte : UInt8} {rest : List UInt8}
    (encoded : encodeChar char = byte :: rest) (ascii : byte.toNat < 0x80) : rest = [] := by
  have bounds := code_bounds char
  simp only [encodeChar] at encoded
  split at encoded
  next => exact (List.cons.inj encoded).2.symm
  next =>
    exfalso
    split at encoded
    next =>
      rw [← (List.cons.inj encoded).1, toNat_byte (by omega)] at ascii
      omega
    next =>
      split at encoded
      next =>
        rw [← (List.cons.inj encoded).1, toNat_byte (by omega)] at ascii
        omega
      next =>
        rw [← (List.cons.inj encoded).1, toNat_byte (by omega)] at ascii
        omega

namespace Percent

variable {plusAsSpace : Bool} {token : Token} {tokens : List Token} {byte : UInt8}
  {left right : List UInt8}

theorem Token.exists_bytes (plusAsSpace : Bool) (token : Token) :
    ∃ byte rest, token.bytes plusAsSpace = byte :: rest := by
  apply List.exists_cons_of_length_pos
  rw [length_bytes]
  cases token with
  | escape high low => exact Nat.one_pos
  | literal char plain =>
      simp only [size, Utf8.width]
      split
      · exact Nat.one_pos
      · split
        · exact Nat.two_pos
        · split <;> omega

/-- Bytes that begin with one of ASCII begin with a token of that byte alone. -/
theorem Token.bytes_of_append {more : List UInt8} (ascii : byte.toNat < 0x80)
    (joined : token.bytes plusAsSpace ++ more = byte :: right) :
    token.bytes plusAsSpace = [byte] ∧ more = right := by
  obtain ⟨first, rest, bytes⟩ := token.exists_bytes plusAsSpace
  rw [bytes] at joined
  have same : first = byte := (List.cons.inj joined).1
  subst same
  have single : rest = [] := by
    cases token with
    | escape high low => exact (List.cons.inj bytes).2.symm
    | literal char plain =>
        simp only [Token.bytes] at bytes
        split at bytes
        next => exact (List.cons.inj bytes).2.symm
        next => exact Utf8.singleton_of_encodeChar bytes ascii
  rw [single] at bytes joined
  exact ⟨bytes, (List.cons.inj joined).2⟩

theorem exists_splitTokens? (ascii : ∀ byte ∈ left, byte.toNat < 0x80)
    (joined : tokens.flatMap (Token.bytes plusAsSpace) = left ++ right) :
    ∃ first rest, splitTokens? tokens left.length = some (first, rest) ∧
      first.flatMap (Token.bytes plusAsSpace) = left ∧
      rest.flatMap (Token.bytes plusAsSpace) = right := by
  induction left generalizing tokens with
  | nil => exact ⟨[], tokens, by rw [List.length_nil, splitTokens?], rfl, joined⟩
  | cons byte left ih =>
      rw [List.forall_mem_cons] at ascii
      cases tokens with
      | nil => cases joined
      | cons token tokens =>
          rw [List.flatMap_cons] at joined
          obtain ⟨bytes, joined⟩ := Token.bytes_of_append ascii.1 joined
          obtain ⟨before, after, split, beforeBytes, afterBytes⟩ := ih ascii.2 joined
          have size : token.size = 1 := by
            rw [← token.length_bytes plusAsSpace, bytes]
            rfl
          refine ⟨token :: before, after, ?_, ?_, afterBytes⟩
          · rw [List.length_cons, splitTokens?, size, if_pos (Nat.le_add_left 1 _),
              Nat.add_sub_cancel, split]
            rfl
          · rw [List.flatMap_cons, bytes, beforeBytes]
            rfl

theorem Encoded.exists_splitAt? {encoded : Encoded} (ascii : ∀ byte ∈ left, byte.toNat < 0x80)
    (joined : encoded.bytes = left ++ right) :
    ∃ first rest, encoded.splitAt? left.length = some (first, rest) ∧ first.bytes = left ∧
      rest.bytes = right := by
  obtain ⟨first, rest, split, firstBytes, restBytes⟩ := exists_splitTokens? ascii joined
  refine ⟨{ encoded with tokens := first }, { encoded with tokens := rest }, ?_, firstBytes,
    restBytes⟩
  change (splitTokens? encoded.tokens left.length).map _ = _
  rw [split]
  rfl

end Percent
end MagnetUri
