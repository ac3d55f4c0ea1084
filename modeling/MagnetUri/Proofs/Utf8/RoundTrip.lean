import MagnetUri.Utf8

set_option autoImplicit false

/-! What is written is read back: each character's bytes are read as that character,
whatever follows them, so the pieces of an encoded text are its characters. Only a
byte order mark in front is lost. -/

namespace MagnetUri.Utf8

theorem toNat_byte {value : Nat} (small : value < 0x100) : (UInt8.ofNat value).toNat = value := by
  rw [UInt8.toNat_ofNat']
  omega

theorem toNat_continuation (value : Nat) : (continuation value).toNat = 0x80 + value % 0x40 :=
  toNat_byte (by omega)

/-- A byte that continues the last place of a character finishes it. -/
theorem step_last (value : Nat) (low : Nat) :
    step (some { value, missing := 1, least := 0x80, greatest := 0xBF }) (continuation low) =
      ([some (Char.ofNat (value * 0x40 + low % 0x40))], none) := by
  have byte := toNat_continuation low
  have inside : 0x80 ≤ (continuation low).toNat ∧ (continuation low).toNat ≤ 0xBF := by omega
  have bits : (continuation low).toNat % 0x40 = low % 0x40 := by omega
  simp only [step, if_pos inside, bits]
  rfl

/-- A continuing byte inside the bounds leaves one place fewer. -/
theorem step_more {value missing least greatest : Nat} (low : Nat)
    (inside : least ≤ 0x80 + low % 0x40 ∧ 0x80 + low % 0x40 ≤ greatest) (more : 1 < missing) :
    step (some { value, missing, least, greatest }) (continuation low) =
      ([], some { value := value * 0x40 + low % 0x40, missing := missing - 1, least := 0x80,
                  greatest := 0xBF }) := by
  have byte := toNat_continuation low
  rw [← byte] at inside
  have bits : (continuation low).toNat % 0x40 = low % 0x40 := by omega
  simp only [step, if_pos inside, bits]
  rw [if_neg (by omega)]

/-- The code of a character is no half of a pair and at most U+10FFFF. -/
theorem code_bounds (char : Char) :
    char.toNat < 0xD800 ∨ 0xDFFF < char.toNat ∧ char.toNat < 0x110000 :=
  char.valid

theorem toNat_ofNat_of_code {code : Nat}
    (valid : code < 0xD800 ∨ 0xDFFF < code ∧ code < 0x110000) :
    (Char.ofNat code).toNat = code := by
  rw [Char.ofNat, dif_pos valid]
  rfl

theorem piecesAfter_encodeChar (char : Char) (rest : List UInt8) :
    piecesAfter none (encodeChar char ++ rest) = some char :: piecesAfter none rest := by
  have bounds := code_bounds char
  have same : Char.ofNat char.toNat = char := Char.ofNat_toNat char
  generalize code_eq : char.toNat = code at bounds same
  simp only [encodeChar, code_eq]
  split
  next ascii =>
    have byte : (UInt8.ofNat code).toNat = code := toNat_byte (by omega)
    simp [piecesAfter, step, start, byte, ascii, same]
  next =>
    split
    next two =>
      have byte : (UInt8.ofNat (0xC0 + code / 0x40)).toNat = 0xC0 + code / 0x40 :=
        toNat_byte (by omega)
      have lead : start (UInt8.ofNat (0xC0 + code / 0x40)) =
          ([], some { value := code / 0x40, missing := 1, least := 0x80, greatest := 0xBF }) := by
        simp only [start, byte]
        rw [if_neg (by omega), if_neg (by omega), if_pos (by omega), Nat.add_sub_cancel_left]
      have joined : code / 0x40 * 0x40 + code % 0x40 = code := by omega
      simp only [List.cons_append, List.nil_append, piecesAfter]
      rw [show step none (UInt8.ofNat (0xC0 + code / 0x40)) = _ from lead]
      simp only [List.nil_append, step_last, joined, same, List.cons_append]
    next =>
      split
      next three =>
        have byte : (UInt8.ofNat (0xE0 + code / 0x1000)).toNat = 0xE0 + code / 0x1000 :=
          toNat_byte (by omega)
        have lead : start (UInt8.ofNat (0xE0 + code / 0x1000)) =
            ([], some { value := code / 0x1000, missing := 2,
                        least := if code / 0x1000 = 0 then 0xA0 else 0x80,
                        greatest := if code / 0x1000 = 13 then 0x9F else 0xBF }) := by
          have first : 0xE0 + code / 0x1000 = 0xE0 ↔ code / 0x1000 = 0 := by omega
          have last : 0xE0 + code / 0x1000 = 0xED ↔ code / 0x1000 = 13 := by omega
          simp only [start, byte]
          rw [if_neg (by omega), if_neg (by omega), if_neg (by omega), if_pos (by omega),
            Nat.add_sub_cancel_left]
          simp only [first, last]
        have joined : (code / 0x1000 * 0x40 + code / 0x40 % 0x40) * 0x40 + code % 0x40 = code := by
          omega
        simp only [List.cons_append, List.nil_append, piecesAfter]
        rw [show step none (UInt8.ofNat (0xE0 + code / 0x1000)) = _ from lead]
        rw [step_more (code / 0x40) (by constructor <;> split <;> omega) (by omega)]
        simp only [Nat.reduceSub, List.nil_append, step_last, joined, same, List.cons_append]
      next =>
        have byte : (UInt8.ofNat (0xF0 + code / 0x40000)).toNat = 0xF0 + code / 0x40000 :=
          toNat_byte (by omega)
        have lead : start (UInt8.ofNat (0xF0 + code / 0x40000)) =
            ([], some { value := code / 0x40000, missing := 3,
                        least := if code / 0x40000 = 0 then 0x90 else 0x80,
                        greatest := if code / 0x40000 = 4 then 0x8F else 0xBF }) := by
          have first : 0xF0 + code / 0x40000 = 0xF0 ↔ code / 0x40000 = 0 := by omega
          have last : 0xF0 + code / 0x40000 = 0xF4 ↔ code / 0x40000 = 4 := by omega
          simp only [start, byte]
          rw [if_neg (by omega), if_neg (by omega), if_neg (by omega), if_neg (by omega),
            if_pos (by omega), Nat.add_sub_cancel_left]
          simp only [first, last]
        have joined : ((code / 0x40000 * 0x40 + code / 0x1000 % 0x40) * 0x40 +
            code / 0x40 % 0x40) * 0x40 + code % 0x40 = code := by omega
        simp only [List.cons_append, List.nil_append, piecesAfter]
        rw [show step none (UInt8.ofNat (0xF0 + code / 0x40000)) = _ from lead]
        rw [step_more (code / 0x1000) (by constructor <;> split <;> omega) (by omega)]
        rw [step_more (code / 0x40) (by constructor <;> omega) (by omega)]
        simp only [Nat.reduceSub, List.nil_append, step_last, joined, same, List.cons_append]

theorem pieces_encode (text : Text) : pieces (encode text) = text.map some := by
  induction text with
  | nil => rfl
  | cons char rest ih =>
      simp only [pieces, encode, List.flatMap_cons, List.map_cons] at ih ⊢
      rw [piecesAfter_encodeChar, ih]

theorem encode_injective : Function.Injective encode := by
  intro left right same
  have pieced : left.map some = right.map some := by
    rw [← pieces_encode, ← pieces_encode, same]
  exact (List.map_inj_right fun _ _ equal => Option.some.inj equal).1 pieced

theorem mapM_some (text : Text) : (text.map some).mapM id = some text := by
  induction text with
  | nil => rfl
  | cons char rest ih => simp [ih]

/-- A text that begins with no byte order mark is read back. -/
theorem decode?_encode {text : Text} (unmarked_text : text.head? ≠ some '\uFEFF') :
    decode? (encode text) = some text := by
  rw [decode?, pieces_encode]
  cases text with
  | nil => rfl
  | cons char rest =>
      have other : some char ≠ some '\uFEFF' := by simpa using unmarked_text
      rw [List.map_cons, unmarked, if_neg other, ← List.map_cons, mapM_some]

theorem decode?_encode_mark (text : Text) :
    decode? (encode ('\uFEFF' :: text)) = some text := by
  rw [decode?, pieces_encode, List.map_cons, unmarked, if_pos rfl, mapM_some]

def withoutMark : Text → Text
  | [] => []
  | char :: rest => if char = '\uFEFF' then rest else char :: rest

theorem withoutMark_mark (rest : Text) : withoutMark ('\uFEFF' :: rest) = rest :=
  rfl

theorem withoutMark_eq_self_iff {text : Text} :
    withoutMark text = text ↔ text.head? ≠ some '\uFEFF' := by
  cases text with
  | nil => exact iff_of_true rfl nofun
  | cons char rest =>
      rw [withoutMark, List.head?_cons, ne_eq, Option.some_inj]
      split
      next mark =>
        have shorter : rest ≠ char :: rest := fun same => List.cons_ne_self char rest same.symm
        exact iff_of_false shorter (not_not_intro mark)
      next other => exact iff_of_true rfl other

theorem decodeLossy_encode (text : Text) : decodeLossy (encode text) = withoutMark text := by
  have each (text : Text) : (text.map some).map (·.getD '\uFFFD') = text := by
    rw [List.map_map]
    exact List.map_id text
  rw [decodeLossy, pieces_encode]
  cases text with
  | nil => rfl
  | cons char rest =>
      rw [List.map_cons, unmarked, withoutMark]
      by_cases mark : char = '\uFEFF'
      · rw [if_pos (congrArg some mark), if_pos mark, each]
      · rw [if_neg fun same => mark (Option.some_inj.1 same), if_neg mark, ← List.map_cons, each]

end MagnetUri.Utf8
