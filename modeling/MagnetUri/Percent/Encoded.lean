import MagnetUri.Text
import MagnetUri.Utf8

set_option autoImplicit false

/-! Percent-encoded text: a list of tokens, each a literal character or an escape of one
byte, kept as it was written. Comparing and splitting go by the decoded bytes, so two spellings of
one text are equal; the decoded text is made only on demand. -/

namespace MagnetUri.Percent

inductive Defect where
  | brokenEscape
  | invalidUtf8
deriving DecidableEq

namespace Defect

def code : Defect → String
  | .brokenEscape => "bad-pct-encoding"
  | .invalidUtf8 => "invalid-utf8"

end Defect

structure DecodeError where
  defect : Defect
  encoded : Text
deriving DecidableEq

namespace DecodeError

def message (error : DecodeError) : String :=
  "Cannot percent-decode \"" ++ String.ofList error.encoded ++ "\" (" ++ error.defect.code ++ ")"

end DecodeError

structure HexDigit where
  char : Char
  valid : Character.isHexDigit char = true
deriving DecidableEq

namespace HexDigit

def value (digit : HexDigit) : Nat :=
  (Character.hexValue? digit.char).getD 0

end HexDigit

inductive Token where
  | escape (high low : HexDigit)
  | literal (char : Char) (plain : char ≠ '%')
deriving DecidableEq

namespace Token

def text : Token → Text
  | .escape high low => ['%', high.char, low.char]
  | .literal char _ => [char]

/-- The bytes a token stands for. A plus sign is a space where `plusAsSpace` says so. -/
def bytes (plusAsSpace : Bool) : Token → List UInt8
  | .escape high low => [UInt8.ofNat (16 * high.value + low.value)]
  | .literal char _ =>
      if char = '+' ∧ plusAsSpace = true then [0x20] else Utf8.encodeChar char

def size : Token → Nat
  | .escape _ _ => 1
  | .literal char _ => Utf8.width char

end Token

/-- The tokens of a text, or the place in units of the first percent sign that
two hexadecimal digits do not follow. -/
def readTokens : Text → Except Nat (List Token)
  | [] => .ok []
  | '%' :: high :: low :: rest =>
      if valid : Character.isHexDigit high = true ∧ Character.isHexDigit low = true then
        match readTokens rest with
        | .ok tokens => .ok (.escape ⟨high, valid.1⟩ ⟨low, valid.2⟩ :: tokens)
        | .error place => .error (place + 3)
      else .error 0
  | char :: rest =>
      if plain : char ≠ '%' then
        match readTokens rest with
        | .ok tokens => .ok (.literal char plain :: tokens)
        | .error place => .error (place + Text.unitWidth char)
      else .error 0

/-- The place of the first percent sign that begins no escape. -/
def brokenEscape? (text : Text) : Option Nat :=
  match readTokens text with
  | .ok _ => none
  | .error place => some place

def writeTokens (tokens : List Token) : Text :=
  tokens.flatMap Token.text

def byteCount : List Token → Nat
  | [] => 0
  | token :: rest => token.size + byteCount rest

/-- The tokens of the first `count` bytes and the tokens of the rest, unless that
many bytes end past the end or inside a literal character. -/
def splitTokens? : List Token → Nat → Option (List Token × List Token)
  | tokens, 0 => some ([], tokens)
  | [], _ + 1 => none
  | token :: rest, count + 1 =>
      if token.size ≤ count + 1 then
        (splitTokens? rest (count + 1 - token.size)).map fun parts => (token :: parts.1, parts.2)
      else none

theorem Token.length_bytes (plusAsSpace : Bool) (token : Token) :
    (token.bytes plusAsSpace).length = token.size := by
  cases token with
  | escape high low => rfl
  | literal char plain =>
      simp only [Token.bytes, Token.size]
      split
      next plus => rw [plus.1]; rfl
      next => exact Utf8.length_encodeChar char

theorem length_flatMap_bytes (plusAsSpace : Bool) (tokens : List Token) :
    (tokens.flatMap (Token.bytes plusAsSpace)).length = byteCount tokens := by
  induction tokens with
  | nil => rfl
  | cons token rest ih =>
      simp only [List.flatMap_cons, List.length_append, Token.length_bytes, ih, byteCount]

theorem readTokens_writeTokens (tokens : List Token) :
    readTokens (writeTokens tokens) = .ok tokens := by
  induction tokens with
  | nil => rfl
  | cons token rest ih =>
      cases token with
      | escape high low =>
          simp only [writeTokens, List.flatMap_cons, Token.text, List.cons_append,
            List.nil_append] at ih ⊢
          simp [readTokens, high.valid, low.valid, ih]
      | literal char plain =>
          simp only [writeTokens, List.flatMap_cons, Token.text, List.cons_append,
            List.nil_append] at ih ⊢
          rw [readTokens]
          · rw [dif_pos plain, ih]
          · intro high low after percent
            exact absurd percent plain

theorem writeTokens_of_readTokens {text : Text} {tokens : List Token}
    (read : readTokens text = .ok tokens) : writeTokens tokens = text := by
  fun_induction readTokens text generalizing tokens with
  | case1 => simp_all [writeTokens]
  | case2 high low rest valid inner found ih =>
      simp only [Except.ok.injEq] at read
      subst read
      simp only [writeTokens, List.flatMap_cons, Token.text, List.cons_append, List.nil_append] at ih ⊢
      rw [ih found]
  | case3 => simp_all
  | case4 => simp_all
  | case5 char rest _ plain inner found ih =>
      simp only [Except.ok.injEq] at read
      subst read
      simp only [writeTokens, List.flatMap_cons, Token.text, List.cons_append, List.nil_append] at ih ⊢
      rw [ih found]
  | case6 => simp_all
  | case7 => simp_all

structure Encoded where
  tokens : List Token
  plusAsSpace : Bool
deriving DecidableEq

namespace Encoded

def read (text : Text) (plusAsSpace : Bool) : Except DecodeError Encoded :=
  match readTokens text with
  | .ok tokens => .ok { tokens, plusAsSpace }
  | .error _ => .error { defect := .brokenEscape, encoded := text }

def text (encoded : Encoded) : Text :=
  writeTokens encoded.tokens

def isEmpty (encoded : Encoded) : Bool :=
  encoded.tokens.isEmpty

def bytes (encoded : Encoded) : List UInt8 :=
  encoded.tokens.flatMap (Token.bytes encoded.plusAsSpace)

def size (encoded : Encoded) : Nat :=
  byteCount encoded.tokens

/-- Whether the decoded bytes are those of a plain text. Sizes are compared first. -/
def spells (encoded : Encoded) (plain : Text) : Bool :=
  let expected := Utf8.encode plain
  expected.length == encoded.size && encoded.bytes.isPrefixOf expected

def sameBytes (left right : Encoded) : Bool :=
  left.size == right.size && left.bytes.isPrefixOf right.bytes

/-- The parts before and after a number of decoded bytes, where they can be told
apart without cutting a literal character. -/
def splitAt? (encoded : Encoded) : Int → Option (Encoded × Encoded)
  | .ofNat count =>
      (splitTokens? encoded.tokens count).map fun parts =>
        ({ encoded with tokens := parts.1 }, { encoded with tokens := parts.2 })
  | .negSucc _ => none

/-- The decoded text, with U+FFFD for each malformed stretch of bytes. -/
def decode (encoded : Encoded) : Text :=
  Utf8.decodeLossy encoded.bytes

def decodeStrict (encoded : Encoded) : Except DecodeError Text :=
  match Utf8.decode? encoded.bytes with
  | some plain => .ok plain
  | none => .error { defect := .invalidUtf8, encoded := encoded.text }

theorem length_bytes (encoded : Encoded) : encoded.bytes.length = encoded.size :=
  length_flatMap_bytes _ _

/-- Bytes are equal where they are as many and one list begins the other. -/
theorem length_eq_and_isPrefixOf_iff {left right : List UInt8} :
    left.length = right.length ∧ left.isPrefixOf right = true ↔ left = right := by
  rw [List.isPrefixOf_iff_prefix]
  constructor
  · intro ⟨sizes, beginning⟩
    exact beginning.eq_of_length sizes
  · intro equal
    subst equal
    exact ⟨rfl, List.prefix_refl left⟩

theorem spells_iff {encoded : Encoded} {plain : Text} :
    encoded.spells plain = true ↔ encoded.bytes = Utf8.encode plain := by
  simp only [spells, Bool.and_eq_true, beq_iff_eq, ← length_bytes]
  exact (and_congr_left' eq_comm).trans length_eq_and_isPrefixOf_iff

theorem sameBytes_iff {left right : Encoded} :
    left.sameBytes right = true ↔ left.bytes = right.bytes := by
  simp only [sameBytes, Bool.and_eq_true, beq_iff_eq, ← length_bytes]
  exact length_eq_and_isPrefixOf_iff

theorem text_of_read {text : Text} {plusAsSpace : Bool} {encoded : Encoded}
    (read_ok : read text plusAsSpace = .ok encoded) : encoded.text = text := by
  unfold read at read_ok
  split at read_ok
  next tokens found =>
    cases read_ok
    exact writeTokens_of_readTokens found
  next => cases read_ok

end Encoded
end MagnetUri.Percent
