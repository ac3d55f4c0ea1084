import MagnetUri.Proofs.Percent.Pieces
import MagnetUri.Proofs.Percent.Walk

set_option autoImplicit false

/-! Encoded text in two parts, told apart by a number of decoded bytes. A walk that counts bytes
stops at a joint, so there are parts unless the number is out of range or falls among the bytes
of one literal character. Tokens and units are parted alike. -/

namespace MagnetUri.Percent

open Text (partsPair isLeading isTrailing)

variable {left right run before after front back : List UInt16} {unit : UInt16} {passed : Nat}
  {stored : Stored}

/-- Units that are one character beyond ASCII where they stand: a pair, or a unit that no pair
there consists of. -/
inductive Wide (before after : List UInt16) : List UInt16 → Prop
  | single {unit : UInt16} (beyond : 0x80 ≤ unit.toNat)
      (first : partsPair before (unit :: after) = false)
      (last : partsPair (before ++ [unit]) after = false) : Wide before after [unit]
  | pair {lead trail : UInt16} (leading : isLeading lead = true)
      (trailing : isTrailing trail = true) : Wide before after [lead, trail]

theorem Wide.step (wide : Wide before after run) : Step run after := by
  cases wide with
  | single beyond first last =>
      apply Step.single (by omega)
      rwa [Text.partsPair_append_left (List.cons_ne_nil _ _)] at last
  | pair leading trailing => exact .pair leading trailing

theorem Wide.joint (wide : Wide before after run) (others : List UInt16) :
    partsPair before (run ++ others) = false := by
  cases wide with
  | single beyond first last => exact first
  | pair leading trailing =>
      exact Text.partsPair_of_not_trailing (Text.isTrailing_of_isLeading leading)

theorem not_digit_of_beyond (beyond : 0x80 ≤ unit.toNat) : digitIn? (some unit) = none := by
  rw [digitIn?, Option.bind_some, if_neg (by omega)]

/-- No escape reaches from before a unit beyond ASCII to behind it. -/
theorem wholeIn_before (beyond : 0x80 ≤ unit.toNat)
    (whole : wholeIn (before ++ unit :: after) = true) : wholeIn before = true := by
  fun_induction wholeIn before with
  | case1 => rfl
  | case2 first rest sign ih =>
      rw [List.cons_append, wholeIn, if_pos sign, Bool.and_eq_true, Bool.and_eq_true] at whole
      obtain ⟨⟨high, low⟩, later⟩ := whole
      -- The unit is none of the two digits, so both of them stand in front of it.
      cases rest with
      | nil =>
          rw [List.nil_append, List.getElem?_cons_zero, not_digit_of_beyond beyond] at high
          cases high
      | cons second rest =>
          cases rest with
          | nil =>
              rw [List.singleton_append, List.getElem?_cons_succ, List.getElem?_cons_zero,
                not_digit_of_beyond beyond] at low
              cases low
          | cons third rest =>
              rw [Bool.and_eq_true, Bool.and_eq_true]
              exact ⟨⟨high, low⟩, ih later⟩
  | case3 first rest other ih =>
      rw [List.cons_append, wholeIn, if_neg other] at whole
      exact ih whole

theorem Wide.whole_before (wide : Wide before after run)
    (whole : wholeIn (before ++ (run ++ after)) = true) : wholeIn before = true := by
  cases wide with
  | single beyond first last => exact wholeIn_before beyond whole
  | pair leading trailing =>
      have bounds := Text.toNat_of_isLeading leading
      exact wholeIn_before (by omega) whole

/-- A cut within a character has the halves of a pair on its sides. -/
theorem Wide.partsPair_of_split (wide : Wide before after run) (split : run = front ++ back)
    (begun : front ≠ []) (unfinished : back ≠ []) :
    partsPair (before ++ front) (back ++ after) = true := by
  have lengths := congrArg List.length split
  rw [List.length_append] at lengths
  have frontLength := List.length_pos_iff.2 begun
  have backLength := List.length_pos_iff.2 unfinished
  cases wide with
  | single beyond first last =>
      rw [List.length_singleton] at lengths
      omega
  | @pair lead trail leading trailing =>
      match front, back with
      | [first], _ :: _ =>
          obtain ⟨rfl, later⟩ := List.cons.inj split
          obtain ⟨rfl, _⟩ := List.cons.inj later
          rw [Text.partsPair_append_left (List.cons_ne_nil _ _), partsPair, List.getLast?_singleton,
            Option.any_some, leading]
          exact trailing
      | _ :: _ :: _, _ :: _ =>
          simp only [List.length_cons, List.length_nil] at lengths
          omega

theorem Wide.exists_bytesIn (wide : Wide before after run) (plusAsSpace : Bool) :
    ∃ char, bytesIn plusAsSpace run = Utf8.encodeChar char := by
  have alone {unit : UInt16} {rest : List UInt16} (beyond : 0x80 ≤ unit.toNat)
      (last : (Text.codeAt unit rest).2 = []) :
      ∃ char, bytesIn plusAsSpace (unit :: rest) = Utf8.encodeChar char := by
    obtain ⟨char, same⟩ : ∃ char, codeBytes (Text.codeAt unit rest).1 = Utf8.encodeChar char :=
      ⟨_, rfl⟩
    refine ⟨char, ?_⟩
    rw [bytesIn_wide beyond, last, bytesIn, List.append_nil, same]
  cases wide with
  | single beyond first last => exact alone beyond rfl
  | pair leading trailing =>
      have bounds := Text.toNat_of_isLeading leading
      apply alone (by omega)
      rw [codeAt_pair leading trailing []]

/-- A number of bytes that ends among the bytes of a literal character. -/
def Stored.CutsLiteral (stored : Stored) (count : Int) : Prop :=
  ∃ before run after, stored.units = before ++ (run ++ after) ∧ Wide before after run ∧
    (bytesIn stored.plusAsSpace before).length < count ∧
    count < (bytesIn stored.plusAsSpace before).length + (bytesIn stored.plusAsSpace run).length

/-- A step of more than one byte is a literal character. -/
theorem Step.wide (step : Step run after) (joint : partsPair before (run ++ after) = false)
    (several : 1 < sizeIn run) : Wide before after run := by
  cases step with
  | escape sign first second =>
      rw [sizeIn_escape sign] at several
      omega
  | @single unit _ other alone =>
      have beyond : 0x80 ≤ unit.toNat := by
        apply Nat.not_lt.1
        intro small
        rw [sizeIn_singleton other, codeSize, if_pos small] at several
        omega
      refine .single beyond joint ?_
      rwa [Text.partsPair_append_left (List.cons_ne_nil _ _)]
  | pair leading trailing => exact .pair leading trailing

namespace Stored

theorem cutsLiteral_iff {count : Int} : stored.CutsLiteral count ↔
    ∃ before run after, stored.units = before ++ (run ++ after) ∧ Wide before after run ∧
      sizeIn before < count ∧ count < sizeIn before + sizeIn run := by
  simp only [CutsLiteral, length_bytesIn]

/-- A joint does not lie within a literal character. -/
theorem not_cutsLiteral_of_joint (split : stored.units = left ++ right)
    (whole : wholeIn left = true) (joint : partsPair left right = false) :
    ¬ stored.CutsLiteral (sizeIn left) := by
  rw [cutsLiteral_iff]
  rintro ⟨before, run, after, found, wide, behind, inFront⟩
  have beforeWhole : wholeIn before = true := by
    apply wide.whole_before
    rw [← found]
    exact stored.whole
  -- The joint lies in front of the character, behind it, or between the halves of a pair.
  rcases List.append_eq_append_iff.1 (split.symm.trans found) with
    ⟨middle, same, later⟩ | ⟨middle, same, later⟩
  · rw [later] at joint
    have longer := sizeIn_joint whole (Text.partsPair_left_of_append joint)
    rw [← same] at longer
    omega
  · rcases List.append_eq_append_iff.1 later with ⟨inner, reached, rest⟩ | ⟨inner, reached, rest⟩
    · have longer : sizeIn left = sizeIn before + (sizeIn run + sizeIn inner) := by
        have step := wide.step
        rw [rest] at step
        rw [same, reached, sizeIn_joint beforeWhole (wide.joint inner),
          step.shorten.sizeIn_append]
      omega
    · cases middle with
      | nil =>
          rw [same, List.append_nil] at behind
          omega
      | cons first middle =>
          cases inner with
          | nil =>
              have longer := sizeIn_joint beforeWhole (wide.joint [])
              rw [List.append_nil] at reached longer
              rw [same, ← reached, longer] at inFront
              omega
          | cons last inner =>
              rw [same, rest] at joint
              have parted := wide.partsPair_of_split reached (List.cons_ne_nil _ _)
                (List.cons_ne_nil _ _)
              rw [joint] at parted
              cases parted

/-- Bytes of ASCII end within no character, as they are characters of their own. -/
theorem not_cutsLiteral_of_ascii {bytes others : List UInt8}
    (ascii : ∀ byte ∈ bytes, byte.toNat < 0x80) (joined : stored.bytes = bytes ++ others) :
    ¬ stored.CutsLiteral bytes.length := by
  rintro ⟨before, run, after, found, wide, behind, inFront⟩
  have beforeWhole : wholeIn before = true := by
    apply wide.whole_before
    rw [← found]
    exact stored.whole
  obtain ⟨char, encoded⟩ := wide.exists_bytesIn stored.plusAsSpace
  rw [Stored.bytes, found, bytesIn_joint beforeWhole (wide.joint after),
    wide.step.bytesIn_append, encoded] at joined
  rw [encoded] at inFront
  rcases List.append_eq_append_iff.1 joined with ⟨middle, reached, later⟩ | ⟨middle, reached, _⟩
  · cases middle with
    | nil =>
        rw [reached, List.append_nil] at behind
        omega
    | cons byte middle =>
        -- The first byte of the character is one of ASCII, and so it is the only one.
        have small : byte.toNat < 0x80 := by
          apply ascii
          rw [reached]
          exact List.mem_append_right _ List.mem_cons_self
        cases bytes : Utf8.encodeChar char with
        | nil =>
            rw [bytes, List.length_nil] at inFront
            omega
        | cons first rest =>
            rw [bytes] at later
            obtain ⟨rfl, _⟩ := List.cons.inj later
            rw [bytes, Utf8.singleton_of_encodeChar bytes small, List.length_singleton] at inFront
            omega
  · have longer := congrArg List.length reached
    rw [List.length_append] at longer
    omega

structure Parts (stored : Stored) (count : Int) (left right : Stored) : Prop where
  units : left.units ++ right.units = stored.units
  front : left.bytes = stored.bytes.take count.toNat
  behind : right.bytes = stored.bytes.drop count.toNat
  plus : left.plusAsSpace = stored.plusAsSpace ∧ right.plusAsSpace = stored.plusAsSpace

theorem keep_units {kept : Stored} {plusAsSpace : Bool} (same : kept.plusAsSpace = plusAsSpace) :
    keep kept.units plusAsSpace = .ok kept := by
  subst same
  exact dif_pos kept.whole

theorem splitAt_of_missed {count : Int} (missed : (walk count stored.units 0 0).2 ≠ count) :
    stored.splitAt count = .ok none := by
  unfold splitAt
  exact if_neg missed

theorem splitAt_of_reached {count : Int} {left right : Stored}
    (walked : walk count stored.units 0 0 = (left.units.length, passed)) (reached : passed = count)
    (split : stored.units = left.units ++ right.units)
    (leftPlus : left.plusAsSpace = stored.plusAsSpace)
    (rightPlus : right.plusAsSpace = stored.plusAsSpace) :
    stored.splitAt count = .ok (some (left, right)) := by
  have front : stored.units.take left.units.length = left.units := by
    rw [split, List.take_left]
  have behind : stored.units.drop left.units.length = right.units := by
    rw [split, List.drop_left]
  simp only [splitAt, walked, if_pos reached, front, behind, keep_units leftPlus,
    keep_units rightPlus]

/-- Both parts of a walk's units are kept, and they are the parts where the walk passed as many
bytes as were asked for. -/
theorem exists_splitAt (stored : Stored) (count : Int) : ∃ left right : Stored,
    Stops count 0 stored.units left.units right.units ∧
      left.plusAsSpace = stored.plusAsSpace ∧ right.plusAsSpace = stored.plusAsSpace ∧
      stored.splitAt count = .ok (if left.size = count then some (left, right) else none) := by
  obtain ⟨left, right, stops, walked⟩ := exists_stop stored.whole count 0 0
  have rightWhole : wholeIn right = true := by
    rw [← wholeIn_of_whole stops.whole right, ← stops.split, stored.whole]
  refine ⟨⟨left, stored.plusAsSpace, stops.whole⟩, ⟨right, stored.plusAsSpace, rightWhole⟩, stops,
    rfl, rfl, ?_⟩
  rw [Nat.zero_add, Nat.zero_add] at walked
  split
  next reached => exact splitAt_of_reached walked reached stops.split rfl rfl
  next missed =>
    apply splitAt_of_missed
    rw [walked]
    exact missed

/-- A walk that does not stop right behind a number of bytes met it within a character, if it
could meet it at all. -/
theorem cutsLiteral_of_stops {count : Int} (stops : Stops count 0 stored.units left right)
    (least : 0 ≤ count) (greatest : count ≤ stored.size) (missed : sizeIn left ≠ count) :
    stored.CutsLiteral count := by
  have beyond : count < sizeIn left := by
    apply Int.lt_of_not_ge
    intro short
    have ended := stops.ended (by omega)
    have whole : stored.size = sizeIn left := by
      rw [size, stops.split, ended, List.append_nil]
    omega
  rcases stops.last with empty | ⟨front, run, same, frontWhole, joint, step, before⟩
  · rw [empty, sizeIn_nil] at beyond
    omega
  · have longer : sizeIn left = sizeIn front + sizeIn run := by
      rw [same, sizeIn_joint frontWhole (Text.partsPair_left_of_append joint)]
    rw [cutsLiteral_iff]
    refine ⟨front, run, right, ?_, step.wide joint ?_, ?_, ?_⟩
    · rw [stops.split, same, List.append_assoc]
    · omega
    · omega
    · omega

theorem bytes_of_stops {count : Int} {first second : Stored}
    (stops : Stops count 0 stored.units first.units second.units)
    (firstPlus : first.plusAsSpace = stored.plusAsSpace)
    (secondPlus : second.plusAsSpace = stored.plusAsSpace) :
    first.bytes ++ second.bytes = stored.bytes := by
  rw [bytes, bytes, bytes, firstPlus, secondPlus, stops.split,
    bytesIn_joint stops.whole stops.joint]

/-- Splitting comes to an end, and with parts unless the number is out of range or falls within a
literal character. -/
theorem splitAt_iff (stored : Stored) (count : Int) : ∃ found, stored.splitAt count = .ok found ∧
    (found.isSome = true ↔ 0 ≤ count ∧ count ≤ stored.size ∧ ¬ stored.CutsLiteral count) ∧
    ∀ left right, found = some (left, right) → stored.Parts count left right := by
  obtain ⟨left, right, stops, leftPlus, rightPlus, split⟩ := stored.exists_splitAt count
  have joined := bytes_of_stops stops leftPlus rightPlus
  have length := left.length_bytes
  refine ⟨_, split, ?_⟩
  by_cases reached : (left.size : Int) = count
  · rw [if_pos reached]
    have within : left.size ≤ stored.size := by
      rw [← stored.length_bytes, ← joined, List.length_append, length]
      exact Nat.le_add_right _ _
    refine ⟨iff_of_true rfl ⟨by omega, by omega, ?_⟩, ?_⟩
    · rw [← reached]
      exact not_cutsLiteral_of_joint stops.split stops.whole stops.joint
    · rintro _ _ ⟨⟩
      have count_eq : count.toNat = left.bytes.length := by omega
      refine ⟨stops.split.symm, ?_, ?_, leftPlus, rightPlus⟩
      · rw [← joined, count_eq, List.take_left]
      · rw [← joined, count_eq, List.drop_left]
  · rw [if_neg reached]
    refine ⟨iff_of_false Bool.false_ne_true ?_, nofun⟩
    rintro ⟨least, greatest, uncut⟩
    exact uncut (cutsLiteral_of_stops stops least greatest reached)

end Stored

theorem byteCount_append (left right : List Token) :
    byteCount (left ++ right) = byteCount left + byteCount right := by
  rw [← length_flatMap_bytes false, List.flatMap_append, List.length_append, length_flatMap_bytes,
    length_flatMap_bytes]

theorem byteCount_of_splitTokens? {tokens left right : List Token} {count : Nat}
    (found : splitTokens? tokens count = some (left, right)) : byteCount left = count := by
  fun_induction splitTokens? tokens count generalizing left with
  | case1 =>
      cases found
      rfl
  | case2 => cases found
  | case3 token rest count fits ih =>
      obtain ⟨⟨first, second⟩, inner, same⟩ := Option.map_eq_some_iff.1 found
      cases same
      rw [byteCount, ih inner]
      omega
  | case4 => cases found

def Encoded.CutsLiteral (encoded : Encoded) (count : Int) : Prop :=
  ∃ before char plain after, encoded.tokens = before ++ .literal char plain :: after ∧
    byteCount before < count ∧ count < byteCount before + (Utf8.encodeChar char).length

theorem not_cutsLiteral_of_splitTokens? {encoded : Encoded} {left right : List Token} {count : Nat}
    (found : splitTokens? encoded.tokens count = some (left, right)) :
    ¬ encoded.CutsLiteral count := by
  rintro ⟨before, char, plain, after, same, behind, inFront⟩
  have size := byteCount_of_splitTokens? found
  rw [Utf8.length_encodeChar] at inFront
  rw [← append_of_splitTokens? found] at same
  rcases List.append_eq_append_iff.1 same with ⟨middle, reached, _⟩ | ⟨middle, reached, later⟩
  · have longer := byteCount_append left middle
    rw [← reached] at longer
    omega
  · have longer := byteCount_append before middle
    rw [← reached] at longer
    cases middle with
    | nil =>
        rw [byteCount] at longer
        omega
    | cons token middle =>
        obtain ⟨rfl, _⟩ := List.cons.inj later
        rw [byteCount, Token.size] at longer
        omega

/-- Tokens that are not parted are too few, or one of them is a literal that would be cut. -/
theorem cuts_of_splitTokens? {tokens : List Token} {count : Nat}
    (failed : splitTokens? tokens count = none) : byteCount tokens < count ∨
      ∃ before char plain after, tokens = before ++ .literal char plain :: after ∧
        byteCount before < count ∧ count < byteCount before + Utf8.width char := by
  fun_induction splitTokens? tokens count with
  | case1 => cases failed
  | case2 => exact .inl (Nat.succ_pos _)
  | case3 token rest count fits ih =>
      rcases ih (Option.map_eq_none_iff.1 failed) with short | ⟨before, char, plain, after, cut⟩
      · left
        rw [byteCount]
        omega
      · obtain ⟨rfl, behind, inFront⟩ := cut
        refine .inr ⟨token :: before, char, plain, after, rfl, ?_, ?_⟩
        · rw [byteCount]
          omega
        · rw [byteCount]
          omega
  | case4 token rest count cut =>
      cases token with
      | escape high low =>
          rw [Token.size] at cut
          omega
      | literal char plain =>
          rw [Token.size] at cut
          refine .inr ⟨[], char, plain, rest, rfl, ?_, ?_⟩
          · exact Nat.succ_pos count
          · rw [byteCount]
            omega

theorem Encoded.isSome_splitAt?_iff (encoded : Encoded) (count : Int) :
    (encoded.splitAt? count).isSome = true ↔
      0 ≤ count ∧ count ≤ encoded.size ∧ ¬ encoded.CutsLiteral count := by
  cases count with
  | negSucc count => exact iff_of_false Bool.false_ne_true fun range => by omega
  | ofNat count =>
      change ((splitTokens? encoded.tokens count).map _).isSome = true ↔ _
      rw [Option.isSome_map]
      cases found : splitTokens? encoded.tokens count with
      | some parts =>
          obtain ⟨left, right⟩ := parts
          have joined := byteCount_append left right
          rw [append_of_splitTokens? found, byteCount_of_splitTokens? found] at joined
          refine iff_of_true rfl
            ⟨Int.natCast_nonneg count, ?_, not_cutsLiteral_of_splitTokens? found⟩
          change (count : Int) ≤ (byteCount encoded.tokens : Nat)
          omega
      | none =>
          refine iff_of_false Bool.false_ne_true ?_
          rintro ⟨_, greatest, uncut⟩
          rcases cuts_of_splitTokens? found with short | ⟨before, char, plain, after, cut⟩
          · change (count : Int) ≤ (byteCount encoded.tokens : Nat) at greatest
            omega
          · apply uncut
            refine ⟨before, char, plain, after, cut.1, ?_, ?_⟩
            · exact Int.ofNat_lt.2 cut.2.1
            · rw [Utf8.length_encodeChar]
              exact Int.ofNat_lt.2 cut.2.2

theorem Encoded.parts_of_splitAt? {encoded left right : Encoded} {count : Int}
    (found : encoded.splitAt? count = some (left, right)) :
    left.text ++ right.text = encoded.text ∧ left.bytes = encoded.bytes.take count.toNat ∧
      right.bytes = encoded.bytes.drop count.toNat ∧ left.plusAsSpace = encoded.plusAsSpace ∧
      right.plusAsSpace = encoded.plusAsSpace := by
  have joined := bytes_of_splitAt? found
  refine ⟨(read_of_splitAt? found).2.2, ?_⟩
  cases count with
  | negSucc => cases found
  | ofNat count =>
      obtain ⟨⟨first, second⟩, inner, same⟩ := Option.map_eq_some_iff.1 found
      cases same
      have length : (bytes { encoded with tokens := first }).length = count := by
        rw [length_bytes]
        exact byteCount_of_splitTokens? inner
      refine ⟨?_, ?_, rfl, rfl⟩
      · rw [← joined]
        exact (List.take_left' length).symm
      · rw [← joined]
        exact (List.drop_left' length).symm

/-- Tokens are parted where their units are. -/
theorem Encoded.splitAt_stored (encoded : Encoded) (count : Int) : encoded.stored.splitAt count =
    .ok ((encoded.splitAt? count).map fun parts => (parts.1.stored, parts.2.stored)) := by
  cases count with
  | negSucc count =>
      apply Stored.splitAt_of_missed
      rw [walk_stop (by omega)]
      exact (Int.negSucc_lt_zero count).ne'
  | ofNat count =>
      have walked := walk_tokens encoded.tokens count 0 0
      change encoded.stored.splitAt (count : Int) =
        .ok (((splitTokens? encoded.tokens count).map _).map _)
      simp only [Nat.zero_add] at walked
      cases found : splitTokens? encoded.tokens count with
      | none =>
          rw [found] at walked
          apply Stored.splitAt_of_missed
          intro reached
          exact walked (Int.ofNat_inj.1 reached)
      | some parts =>
          obtain ⟨left, right⟩ := parts
          rw [found] at walked
          have joined := append_of_splitTokens? found
          apply Stored.splitAt_of_reached walked rfl
          · change Text.units (writeTokens encoded.tokens) = _
            rw [← joined, writeTokens_append, Text.units_append]
            rfl
          · rfl
          · rfl

/-- Encoded text is parted behind a number of decoded bytes unless the number is out of range or
ends among the bytes of a literal character. The parts make up the text, and they have the bytes
in front of that place and those behind it. It is so in units, be there halves of pairs or not,
and in tokens, which are parted where their units are. -/
theorem parted_unless_within_literal :
    (∀ (stored : Stored) (count : Int), ∃ found, stored.splitAt count = .ok found ∧
      (found.isSome = true ↔ 0 ≤ count ∧ count ≤ stored.size ∧ ¬ stored.CutsLiteral count) ∧
      ∀ left right, found = some (left, right) → stored.Parts count left right) ∧
    ∀ (encoded : Encoded) (count : Int),
      encoded.stored.splitAt count =
        .ok ((encoded.splitAt? count).map fun parts => (parts.1.stored, parts.2.stored)) ∧
      ((encoded.splitAt? count).isSome = true ↔
        0 ≤ count ∧ count ≤ encoded.size ∧ ¬ encoded.CutsLiteral count) ∧
      ∀ left right, encoded.splitAt? count = some (left, right) →
        left.text ++ right.text = encoded.text ∧
        left.bytes = encoded.bytes.take count.toNat ∧
        right.bytes = encoded.bytes.drop count.toNat ∧
        left.plusAsSpace = encoded.plusAsSpace ∧ right.plusAsSpace = encoded.plusAsSpace := by
  constructor
  · exact Stored.splitAt_iff
  · intro encoded count
    exact ⟨encoded.splitAt_stored count, encoded.isSome_splitAt?_iff count,
      fun _ _ => Encoded.parts_of_splitAt?⟩

/-- Between two escaped bytes of one character there is a place, between literal ones there is
none. -/
example : ((Encoded.read "%E2%82%AC€".toList false).toOption.bind (·.splitAt? 2)).isSome = true ∧
    ((Encoded.read "%E2%82%AC€".toList false).toOption.bind (·.splitAt? 4)).isSome = false := by
  decide

end MagnetUri.Percent
