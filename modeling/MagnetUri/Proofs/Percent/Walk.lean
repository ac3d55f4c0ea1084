import MagnetUri.Proofs.Percent.InPlace

set_option autoImplicit false

/-! Walks over stored units that count bytes. Units with whole escapes are read in steps, each an
escape, a single unit or a pair. A walk goes from joint to joint and stops behind the first step
with which it has passed the bytes it was to pass, or at the end. -/

namespace MagnetUri

variable {left right front rest others : List UInt16} {unit : UInt16}

namespace Text

/-- Whether a cut has the halves of a pair on its sides. -/
def partsPair (left right : List UInt16) : Bool :=
  left.getLast?.any isLeading && right.head?.any isTrailing

theorem partsPair_append_left (nonempty : rest ≠ []) :
    partsPair (front ++ rest) right = partsPair rest right := by
  rw [partsPair, List.getLast?_append_of_ne_nil front nonempty]
  rfl

/-- A cut parts no pair behind less of the units in front of it. -/
theorem partsPair_of_append (joint : partsPair (front ++ rest) right = false) :
    partsPair rest right = false := by
  cases rest with
  | nil => rfl
  | cons unit rest => rwa [partsPair_append_left (List.cons_ne_nil unit rest)] at joint

/-- A cut parts no pair in front of less of the units behind it. -/
theorem partsPair_left_of_append (joint : partsPair left (right ++ others) = false) :
    partsPair left right = false := by
  cases right with
  | nil => rw [partsPair, List.head?_nil, Option.any_none, Bool.and_false]
  | cons unit right => exact joint

theorem partsPair_of_not_leading (front : List UInt16) (single : isLeading unit = false) :
    partsPair (front ++ [unit]) right = false := by
  rw [partsPair, List.getLast?_append_of_ne_nil front (List.cons_ne_nil unit []),
    List.getLast?_singleton, Option.any_some, single, Bool.false_and]

theorem partsPair_of_not_trailing (single : isTrailing unit = false) :
    partsPair left (unit :: right) = false := by
  rw [partsPair, List.head?_cons, Option.any_some, single, Bool.and_false]

theorem toNat_of_isLeading (leading : isLeading unit = true) :
    0xD800 ≤ unit.toNat ∧ unit.toNat < 0xDC00 := by
  rwa [isLeading, Bool.and_eq_true, decide_eq_true_iff, decide_eq_true_iff] at leading

theorem toNat_of_isTrailing (trailing : isTrailing unit = true) :
    0xDC00 ≤ unit.toNat ∧ unit.toNat < 0xE000 := by
  rwa [isTrailing, Bool.and_eq_true, decide_eq_true_iff, decide_eq_true_iff] at trailing

theorem isTrailing_of_isLeading (leading : isLeading unit = true) : isTrailing unit = false := by
  have bounds := toNat_of_isLeading leading
  rw [isTrailing, Bool.and_eq_false_iff, decide_eq_false_iff_not]
  omega

theorem isLeading_of_isTrailing (trailing : isTrailing unit = true) : isLeading unit = false := by
  have bounds := toNat_of_isTrailing trailing
  rw [isLeading, Bool.and_eq_false_iff, decide_eq_false_iff_not, decide_eq_false_iff_not]
  omega

end Text

namespace Percent

open Text (partsPair isLeading isTrailing)

variable {run : List UInt16} {plusAsSpace : Bool}

inductive Step : (run rest : List UInt16) → Prop
  | escape {percent high low : UInt16} {rest : List UInt16} (sign : percent.toNat = 0x25)
      (first : (digitIn? (some high)).isSome = true)
      (second : (digitIn? (some low)).isSome = true) : Step [percent, high, low] rest
  | single {unit : UInt16} {rest : List UInt16} (other : unit.toNat ≠ 0x25)
      (joint : partsPair [unit] rest = false) : Step [unit] rest
  | pair {lead trail : UInt16} {rest : List UInt16} (leading : isLeading lead = true)
      (trailing : isTrailing trail = true) : Step [lead, trail] rest

theorem Step.extend (step : Step run rest) (joint : partsPair (run ++ rest) others = false) :
    Step run (rest ++ others) := by
  cases step with
  | escape sign first second => exact .escape sign first second
  | single other alone =>
      apply Step.single other
      cases rest with
      | nil => exact joint
      | cons unit rest => exact alone
  | pair leading trailing => exact .pair leading trailing

/-- A step stays one in front of less of the units behind it. -/
theorem Step.shorten (step : Step run (rest ++ others)) : Step run rest := by
  cases step with
  | escape sign first second => exact .escape sign first second
  | single other alone => exact .single other (Text.partsPair_left_of_append alone)
  | pair leading trailing => exact .pair leading trailing

theorem codeAt_single (joint : partsPair [unit] rest = false) :
    Text.codeAt unit rest = (unit.toNat, rest) := by
  cases rest with
  | nil => rfl
  | cons next rest =>
      rw [Text.codeAt, if_neg]
      exact Bool.eq_false_iff.1 joint

theorem codeAt_pair {lead trail : UInt16} (leading : isLeading lead = true)
    (trailing : isTrailing trail = true) (rest : List UInt16) :
    Text.codeAt lead (trail :: rest) = ((Text.codeAt lead [trail]).1, rest) := by
  rw [Text.codeAt, Text.codeAt, leading, trailing]
  rfl

theorem Step.wholeIn_append (step : Step run rest) (others : List UInt16) :
    wholeIn (run ++ others) = wholeIn others := by
  cases step with
  | escape sign first second =>
      change wholeIn (_ :: _ :: _ :: others) = _
      rw [wholeIn, if_pos sign]
      change ((digitIn? (some _)).isSome && (digitIn? (some _)).isSome && _) = _
      rw [first, second]
      rfl
  | single other joint =>
      rw [List.singleton_append, wholeIn, if_neg other]
  | @pair lead trail _ leading trailing =>
      have leadBounds := Text.toNat_of_isLeading leading
      have trailBounds := Text.toNat_of_isTrailing trailing
      change wholeIn (lead :: trail :: others) = _
      rw [wholeIn, if_neg (by omega), wholeIn, if_neg (by omega)]

theorem exists_step (whole : wholeIn (unit :: others) = true) :
    ∃ run rest, unit :: others = run ++ rest ∧ Step run rest ∧ wholeIn rest = true := by
  by_cases sign : unit.toNat = 0x25
  · rw [wholeIn, if_pos sign, Bool.and_eq_true, Bool.and_eq_true] at whole
    obtain ⟨⟨first, second⟩, later⟩ := whole
    cases others with
    | nil => cases first
    | cons high others =>
        cases others with
        | nil => cases second
        | cons low rest =>
            exact ⟨[unit, high, low], rest, rfl, .escape sign first second, later⟩
  · rw [wholeIn, if_neg sign] at whole
    cases joint : partsPair [unit] others with
    | false => exact ⟨[unit], others, rfl, .single sign joint, whole⟩
    | true =>
        rw [partsPair, Bool.and_eq_true, List.getLast?_singleton, Option.any_some] at joint
        cases others with
        | nil => cases joint.2
        | cons trail rest =>
            have bounds := Text.toNat_of_isTrailing joint.2
            rw [wholeIn, if_neg (by omega)] at whole
            exact ⟨[unit, trail], rest, rfl, .pair joint.1 joint.2, whole⟩

theorem Step.length_pos (step : Step run rest) : 0 < run.length := by
  cases step <;> exact Nat.succ_pos _

/-- A property of units with whole escapes is shown step by step. -/
@[elab_as_elim]
theorem steps_induction {motive : (units : List UInt16) → wholeIn units = true → Prop}
    (nil : ∀ whole, motive [] whole)
    (step : ∀ run rest whole later, Step run rest → motive rest later → motive (run ++ rest) whole)
    (units : List UInt16) (whole : wholeIn units = true) : motive units whole := by
  match units with
  | [] => exact nil whole
  | unit :: others =>
      obtain ⟨run, rest, same, first, later⟩ := exists_step whole
      have shorter : rest.length < (unit :: others).length := by
        have positive := first.length_pos
        rw [same, List.length_append]
        omega
      have stepped (joined : wholeIn (run ++ rest) = true) : motive (run ++ rest) joined :=
        step run rest joined later first (steps_induction nil step rest later)
      simp only [same] at whole ⊢
      exact stepped whole
termination_by units.length
decreasing_by exact shorter

theorem bytesIn_nil (plusAsSpace : Bool) : bytesIn plusAsSpace [] = [] := by
  rw [bytesIn]

theorem Step.bytesIn_append (step : Step run rest) (plusAsSpace : Bool) :
    bytesIn plusAsSpace (run ++ rest) = bytesIn plusAsSpace run ++ bytesIn plusAsSpace rest := by
  cases step with
  | @escape percent high low _ sign first second =>
      change bytesIn plusAsSpace (percent :: high :: low :: rest) = _
      rw [bytesIn, if_pos sign, bytesIn, if_pos sign]
      change _ = _ :: bytesIn plusAsSpace [] ++ _
      rw [bytesIn_nil]
      rfl
  | @single unit _ other joint =>
      by_cases wide : 0x80 ≤ unit.toNat
      · rw [List.singleton_append, bytesIn_wide wide, bytesIn_wide wide, codeAt_single joint,
          Text.codeAt, bytesIn_nil, List.append_nil]
      · rw [List.singleton_append, bytesIn_ascii (by omega) other, bytesIn_ascii (by omega) other,
          bytesIn_nil]
        rfl
  | @pair lead trail _ leading trailing =>
      have bounds := Text.toNat_of_isLeading leading
      change bytesIn plusAsSpace (lead :: trail :: rest) = _
      rw [bytesIn_wide (by omega), bytesIn_wide (by omega), codeAt_pair leading trailing rest,
        codeAt_pair leading trailing [], bytesIn_nil, List.append_nil]

theorem wholeIn_of_whole (whole : wholeIn left = true) (right : List UInt16) :
    wholeIn (left ++ right) = wholeIn right := by
  induction left, whole using steps_induction with
  | nil => rfl
  | step run rest _ _ step ih => rw [List.append_assoc, step.wholeIn_append, ih]

/-- Units cut at a joint have the bytes of the parts. -/
theorem bytesIn_joint (whole : wholeIn left = true) (joint : partsPair left right = false) :
    bytesIn plusAsSpace (left ++ right) =
      bytesIn plusAsSpace left ++ bytesIn plusAsSpace right := by
  induction left, whole using steps_induction with
  | nil => rw [List.nil_append, bytesIn_nil, List.nil_append]
  | step run rest _ _ step ih =>
      rw [List.append_assoc, (step.extend joint).bytesIn_append,
        ih (Text.partsPair_of_append joint), step.bytesIn_append, List.append_assoc]

theorem sizeIn_joint (whole : wholeIn left = true) (joint : partsPair left right = false) :
    sizeIn (left ++ right) = sizeIn left + sizeIn right := by
  rw [← length_bytesIn false, bytesIn_joint whole joint, List.length_append, length_bytesIn,
    length_bytesIn]

theorem Step.sizeIn_append (step : Step run rest) :
    sizeIn (run ++ rest) = sizeIn run + sizeIn rest := by
  rw [← length_bytesIn false, step.bytesIn_append, List.length_append, length_bytesIn,
    length_bytesIn]

end Percent
end MagnetUri

namespace MagnetUri.Percent

open Text (partsPair isLeading isTrailing)

variable {units left right run rest front back : List UInt16} {unit : UInt16} {wanted : Int}
  {place passed : Nat}

theorem sizeIn_nil : sizeIn [] = 0 := by
  rw [sizeIn]

theorem sizeIn_escape {percent high low : UInt16} (sign : percent.toNat = 0x25) :
    sizeIn [percent, high, low] = 1 := by
  rw [sizeIn_percent sign]
  change 1 + sizeIn [] = 1
  rw [sizeIn_nil]

theorem sizeIn_singleton (other : unit.toNat ≠ 0x25) : sizeIn [unit] = codeSize unit.toNat := by
  rw [sizeIn_other other, Text.codeAt, sizeIn_nil, Nat.add_zero]

theorem code_pair {lead trail : UInt16} (leading : isLeading lead = true)
    (trailing : isTrailing trail = true) : 0x10000 ≤ (Text.codeAt lead [trail]).1 := by
  rw [Text.codeAt, leading, trailing]
  change 0x10000 ≤ 0x10000 + (lead.toNat - 0xD800) * 0x400 + (trail.toNat - 0xDC00)
  omega

theorem walk_stop (reached : ¬ (passed : Int) < wanted) (units : List UInt16) :
    walk wanted units place passed = (place, passed) := by
  cases units with
  | nil => rw [walk]
  | cons unit rest => rw [walk, if_neg reached]

theorem Step.walk_append (step : Step run rest) (short : (passed : Int) < wanted) :
    walk wanted (run ++ rest) place passed =
      walk wanted rest (place + run.length) (passed + sizeIn run) := by
  cases step with
  | @escape percent high low _ sign first second =>
      change walk wanted (percent :: high :: low :: rest) place passed = _
      rw [walk, if_pos short, codeAt_of_toNat_lt (by omega), sizeIn_escape sign]
      exact if_pos sign
  | @single unit _ other joint =>
      have bounded := unit.toNat_lt
      rw [List.singleton_append, walk, if_pos short, codeAt_single joint, sizeIn_singleton other]
      dsimp only
      rw [if_neg other, if_neg (by omega)]
      rfl
  | @pair lead trail _ leading trailing =>
      have bounds := Text.toNat_of_isLeading leading
      have code := code_pair leading trailing
      have size : sizeIn [lead, trail] = codeSize (Text.codeAt lead [trail]).1 := by
        rw [sizeIn_other (by omega), codeAt_pair leading trailing [], sizeIn_nil, Nat.add_zero]
      change walk wanted (lead :: trail :: rest) place passed = _
      rw [walk, if_pos short, codeAt_pair leading trailing rest, size]
      dsimp only
      rw [if_neg (by omega), if_pos (by omega)]
      rfl

theorem not_isLeading_of_digit (digit : (digitIn? (some unit)).isSome = true) :
    isLeading unit = false := by
  rw [digitIn?, Option.bind_some] at digit
  split at digit
  next small =>
    rw [isLeading, Bool.and_eq_false_iff, decide_eq_false_iff_not]
    omega
  next => cases digit

theorem Step.joint (step : Step run rest) : partsPair run rest = false := by
  cases step with
  | @escape percent high low _ sign first second =>
      exact Text.partsPair_of_not_leading [percent, high] (not_isLeading_of_digit second)
  | single other joint => exact joint
  | @pair lead trail _ leading trailing =>
      exact Text.partsPair_of_not_leading [lead] (Text.isLeading_of_isTrailing trailing)

/-- A joint behind a step is one behind what the step is in front of. -/
theorem Step.joint_append (step : Step run (front ++ back)) (joint : partsPair front back = false) :
    partsPair (run ++ front) back = false := by
  cases front with
  | nil =>
      rw [List.append_nil]
      exact step.joint
  | cons unit front => rwa [Text.partsPair_append_left (List.cons_ne_nil unit front)]

/-- Where a walk stops: at a joint, with bytes still to pass in front of the step behind which
it stops, and at the end unless it has passed them all. -/
structure Stops (wanted : Int) (passed : Nat) (units left right : List UInt16) : Prop where
  split : units = left ++ right
  whole : wholeIn left = true
  joint : partsPair left right = false
  last : left = [] ∨ ∃ front run, left = front ++ run ∧ wholeIn front = true ∧
    partsPair front (run ++ right) = false ∧ Step run right ∧ passed + sizeIn front < wanted
  ended : passed + sizeIn left < wanted → right = []

theorem exists_stop (whole : wholeIn units = true) (wanted : Int) (place passed : Nat) :
    ∃ left right, Stops wanted passed units left right ∧
      walk wanted units place passed = (place + left.length, passed + sizeIn left) := by
  induction units, whole using steps_induction generalizing place passed with
  | nil whole =>
      refine ⟨[], [], ⟨rfl, whole, rfl, .inl rfl, fun _ => rfl⟩, ?_⟩
      rw [walk, sizeIn_nil]
      rfl
  | step run rest whole later step ih =>
      by_cases short : (passed : Int) < wanted
      · obtain ⟨left, right, stops, walked⟩ := ih (place + run.length) (passed + sizeIn run)
        obtain ⟨rfl, leftWhole, joint, last, ended⟩ := stops
        have size := step.shorten.sizeIn_append
        refine ⟨run ++ left, right, ⟨?_, ?_, step.joint_append joint, .inr ?_, ?_⟩, ?_⟩
        · rw [List.append_assoc]
        · rw [step.wholeIn_append, leftWhole]
        · rcases last with rfl | ⟨front, inner, rfl, frontWhole, frontJoint, innerStep, before⟩
          · refine ⟨[], run, List.append_nil run, ?_, rfl, step, ?_⟩
            · rw [wholeIn]
            · rw [sizeIn_nil]
              omega
          · rw [List.append_assoc] at step
            refine ⟨run ++ front, inner, (List.append_assoc ..).symm, ?_,
              step.joint_append frontJoint, innerStep, ?_⟩
            · rw [step.wholeIn_append, frontWhole]
            · rw [step.shorten.sizeIn_append]
              omega
        · intro unfinished
          apply ended
          omega
        · rw [step.walk_append short, walked, size, List.length_append, Nat.add_assoc,
            Nat.add_assoc]
      · refine ⟨[], run ++ rest, ⟨rfl, ?_, rfl, .inl rfl, ?_⟩, ?_⟩
        · rw [wholeIn]
        · rw [sizeIn_nil]
          omega
        · rw [walk_stop short, sizeIn_nil]
          rfl

/-- A token is one step, whatever follows it. -/
theorem step_token (token : Token) (rest : List UInt16) : Step (Text.units token.text) rest := by
  cases token with
  | escape high low =>
      have digit (digit : HexDigit) :
          (digitIn? (some (UInt16.ofNat digit.char.toNat))).isSome = true := by
        rw [digitIn?_unit, Option.isSome_some]
      change Step (Text.units ('%' :: high.char :: low.char :: [])) rest
      rw [units_escape]
      exact .escape rfl (digit high) (digit low)
  | literal char plain =>
      have bounds := Utf8.code_bounds char
      have text : Text.units (Token.literal char plain).text = Text.unitsOf char :=
        List.append_nil (Text.unitsOf char)
      have other (unit : UInt16) (member : unit ∈ Text.unitsOf char) : unit.toNat ≠ 0x25 :=
        ne_percent_of_mem_unitsOf plain member
      rw [text]
      unfold Text.unitsOf at other ⊢
      split
      next narrow =>
        rw [if_pos narrow] at other
        apply Step.single (other _ List.mem_cons_self)
        apply Text.partsPair_of_not_leading []
        rw [isLeading, Bool.and_eq_false_iff, decide_eq_false_iff_not, decide_eq_false_iff_not,
          UInt16.toNat_ofNat']
        omega
      next wide =>
        apply Step.pair
        · rw [isLeading, Bool.and_eq_true, decide_eq_true_iff, decide_eq_true_iff,
            UInt16.toNat_ofNat']
          omega
        · rw [isTrailing, Bool.and_eq_true, decide_eq_true_iff, decide_eq_true_iff,
            UInt16.toNat_ofNat']
          omega

theorem sizeIn_token (token : Token) : sizeIn (Text.units token.text) = token.size := by
  have bytes := bytesIn_units false [token]
  rw [writeTokens_cons, writeTokens, List.flatMap_nil, List.append_nil, List.flatMap_singleton]
    at bytes
  rw [← length_bytesIn false, bytes, token.length_bytes]

theorem walk_token (token : Token) (tokens : List Token) (short : (passed : Int) < wanted) :
    walk wanted (Text.units (writeTokens (token :: tokens))) place passed =
      walk wanted (Text.units (writeTokens tokens)) (place + (Text.units token.text).length)
        (passed + token.size) := by
  rw [writeTokens_cons, Text.units_append, (step_token token _).walk_append short, sizeIn_token]

/-- A walk over the units of tokens stops where the tokens are parted, if they can be. -/
theorem walk_tokens (tokens : List Token) (count place passed : Nat) :
    match splitTokens? tokens count with
    | some (left, _) => walk (passed + count : Nat) (Text.units (writeTokens tokens)) place passed =
        (place + (Text.units (writeTokens left)).length, passed + count)
    | none =>
        (walk (passed + count : Nat) (Text.units (writeTokens tokens)) place passed).2 ≠
          passed + count := by
  fun_induction splitTokens? tokens count generalizing place passed with
  | case1 tokens =>
      dsimp only
      rw [walk_stop (by omega)]
      rfl
  | case2 count =>
      change (walk _ [] place passed).2 ≠ _
      rw [walk]
      dsimp only
      omega
  | case3 token rest count fits ih =>
      have later := ih (place + (Text.units token.text).length) (passed + token.size)
      have same : passed + token.size + (count + 1 - token.size) = passed + (count + 1) := by omega
      rw [same] at later
      rw [walk_token token rest (by omega)]
      cases found : splitTokens? rest (count + 1 - token.size) with
      | none =>
          rw [found] at later
          exact later
      | some parts =>
          rw [found] at later
          dsimp only [Option.map_some] at later ⊢
          rw [later, writeTokens_cons, Text.units_append, List.length_append, Nat.add_assoc]
  | case4 token rest count cut =>
      dsimp only
      rw [walk_token token rest (by omega), walk_stop (by omega)]
      dsimp only
      omega

end MagnetUri.Percent
