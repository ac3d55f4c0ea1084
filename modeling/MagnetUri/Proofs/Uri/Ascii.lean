import MagnetUri.Proofs.Uri.Recognition
import MagnetUri.Text

set_option autoImplicit false

/-! The characters of identifiers. They lie in ASCII and none is a space. Each of them takes
one UTF-16 unit, so places counted in characters up to the end of an identifier are places in
units. -/

namespace MagnetUri

open Character
open Grammar (Run)

variable {char : Char} {text : Text}

def Character.IsAscii (char : Char) : Prop :=
  char.toNat < 0x80

instance (char : Char) : Decidable (Character.IsAscii char) :=
  inferInstanceAs (Decidable (char.toNat < 0x80))

theorem Character.toNat_ofNat_of_lt {code : Nat} (small : code < 0x80) :
    (Char.ofNat code).toNat = code := by
  have valid : code.isValidChar := Or.inl (by omega)
  rw [Char.ofNat, dif_pos valid]
  rfl

theorem Character.isAscii_of_le {last : Char} (below : char ≤ last) (ascii : IsAscii last) :
    IsAscii char := by
  have ordered : char.toNat ≤ last.toNat := UInt32.le_iff_toNat_le.1 below
  exact Nat.lt_of_le_of_lt ordered ascii

theorem Character.isAscii_of_contains {chars : Text} (listed : chars.contains char = true)
    (ascii : chars.all (fun other => decide (IsAscii other)) = true) : IsAscii char := by
  have member := List.contains_iff_mem.1 listed
  exact of_decide_eq_true (List.all_eq_true.1 ascii char member)

theorem Character.isAscii_of_isLetter (letter : isLetter char = true) : IsAscii char := by
  simp only [isLetter, Bool.or_eq_true, Bool.and_eq_true, decide_eq_true_eq] at letter
  rcases letter with small | capital
  · exact isAscii_of_le small.2 (by decide)
  · exact isAscii_of_le capital.2 (by decide)

theorem Character.isAscii_of_isDigit (digit : isDigit char = true) : IsAscii char := by
  simp only [isDigit, Bool.and_eq_true, decide_eq_true_eq] at digit
  exact isAscii_of_le digit.2 (by decide)

theorem Character.eq_colon_of_small (same : small char = ':') : char = ':' := by
  unfold small at same
  split at same
  next capital =>
    rw [Bool.and_eq_true, decide_eq_true_iff, decide_eq_true_iff] at capital
    have bounds : 65 ≤ char.toNat ∧ char.toNat ≤ 90 := capital
    have code : (Char.ofNat (char.toNat + 32)).toNat = char.toNat + 32 :=
      toNat_ofNat_of_lt (by omega)
    rw [same] at code
    have colon : ':'.toNat = 58 := rfl
    omega
  next => exact same

def Character.inUri (char : Char) : Bool :=
  inQuery char || ['%', '[', ']', '#'].contains char

theorem Character.inUri_of_inQuery (member : inQuery char = true) : inUri char = true := by
  rw [inUri, member]
  rfl

theorem Character.inUri_of_inUserinfo (member : inUserinfo char = true) : inUri char = true := by
  apply inUri_of_inQuery
  rw [inQuery, inPath, member]
  rfl

theorem Character.inUri_of_isUnreserved (member : isUnreserved char = true) :
    inUri char = true :=
  inUri_of_inUserinfo (Grammar.inUserinfo_of_isUnreserved member)

theorem Character.inUri_of_inScheme (member : inScheme char = true) : inUri char = true := by
  rw [inScheme, Bool.or_eq_true] at member
  rcases member with alphanumeric | mark
  · apply inUri_of_isUnreserved
    rw [isUnreserved, alphanumeric]
    rfl
  · have listed := List.contains_iff_mem.1 mark
    exact List.all_eq_true.1 (by decide : ['+', '-', '.'].all inUri = true) char listed

theorem Character.inUri_of_inAuthority (member : inAuthority char = true) : inUri char = true := by
  rw [inAuthority, Bool.or_eq_true] at member
  rcases member with user | mark
  · exact inUri_of_inUserinfo user
  · have listed := List.contains_iff_mem.1 mark
    exact List.all_eq_true.1 (by decide : ['@', '[', ']', '%'].all inUri = true) char listed

theorem Character.isAscii_of_inUri (member : inUri char = true) : IsAscii char := by
  simp only [inUri, inQuery, inPath, inUserinfo, inRegisteredName, isUnreserved, isSubDelimiter,
    Bool.or_eq_true, beq_iff_eq] at member
  rcases member with
    (((((((letter | digit) | mark) | delimiter) | same) | same) | same) | same) | bracket
  · exact isAscii_of_isLetter letter
  · exact isAscii_of_isDigit digit
  · exact isAscii_of_contains mark (by decide)
  · exact isAscii_of_contains delimiter (by decide)
  · rw [same]
    decide
  · rw [same]
    decide
  · rw [same]
    decide
  · rw [same]
    decide
  · exact isAscii_of_contains bracket (by decide)

theorem Character.isAscii_of_isHexDigit (digit : isHexDigit char = true) : IsAscii char :=
  isAscii_of_inUri (inUri_of_isUnreserved (Grammar.isUnreserved_of_isHexDigit digit))

theorem Grammar.Run.inUri {inClass : Char → Bool} (run : Run inClass text)
    (narrow : ∀ char, inClass char = true → inUri char = true) (member : char ∈ text) :
    inUri char = true := by
  rcases run.mem member with inside | percent | digit
  · exact narrow char inside
  · rw [percent]
    decide
  · exact inUri_of_isUnreserved (Grammar.isUnreserved_of_isHexDigit digit)

namespace Uri

variable {uri : Uri}

theorem inUri_of_mem_led {mark : Char} {component : Option Text} (marked : inUri mark = true)
    (runs : ∀ run, component = some run → Run inQuery run)
    (member : char ∈ component.elim [] (mark :: ·)) : inUri char = true := by
  cases found : component with
  | none =>
      rw [found] at member
      cases member
  | some run =>
      rw [found] at member
      rcases List.mem_cons.1 member with same | inside
      · rw [same]
        exact marked
      · exact (runs run found).inUri (fun _ => inUri_of_inQuery) inside

theorem inUri_of_mem_authority {authority : Option Authority}
    (derives : ∀ part, authority = some part → part.Derives)
    (member : char ∈ authority.elim [] fun part => '/' :: '/' :: part.text) :
    inUri char = true := by
  cases found : authority with
  | none =>
      rw [found] at member
      cases member
  | some part =>
      rw [found] at member
      rcases List.mem_cons.1 member with slash | member
      · rw [slash]
        decide
      · rcases List.mem_cons.1 member with slash | inside
        · rw [slash]
          decide
        · exact inUri_of_inAuthority (inAuthority_of_mem (derives part found) inside)

theorem inUri_of_mem_scheme (derives : uri.scheme ∈ Grammar.scheme)
    (member : char ∈ uri.scheme) : inUri char = true := by
  obtain ⟨first, others, equal, letter, all⟩ := mem_scheme.1 derives
  rw [equal] at member
  apply inUri_of_inScheme
  rcases List.mem_cons.1 member with same | later
  · rw [inScheme, same, letter]
    rfl
  · exact List.all_eq_true.1 all char later

theorem Derives.inUri (derives : uri.Derives) (member : char ∈ uri.text) :
    inUri char = true := by
  have path : Run inQuery uri.path :=
    (run_of_path derives.path).mono fun _ inside => Bool.or_eq_true_iff.2 (Or.inl inside)
  simp only [Uri.text, List.mem_append, List.mem_cons] at member
  rcases member with (((scheme | colon | authority) | inPath) | query) | fragment
  · exact inUri_of_mem_scheme derives.scheme scheme
  · rw [colon]
    decide
  · exact inUri_of_mem_authority derives.authority authority
  · exact path.inUri (fun _ => inUri_of_inQuery) inPath
  · exact inUri_of_mem_led (by decide)
      (fun run found => Grammar.mem_query.1 (derives.query run found)) query
  · exact inUri_of_mem_led (by decide)
      (fun run found => Grammar.mem_fragment.1 (derives.fragment run found)) fragment

theorem Derives.isAscii (derives : uri.Derives) (member : char ∈ uri.text) : IsAscii char :=
  isAscii_of_inUri (derives.inUri member)

theorem Derives.isAscii_path (derives : uri.Derives) (member : char ∈ uri.path) :
    IsAscii char := by
  apply derives.isAscii
  simp only [Uri.text, List.mem_append]
  exact Or.inl (Or.inl (Or.inr member))

/-- No identifier holds a space. -/
theorem Derives.space_not_mem (derives : uri.Derives) : ' ' ∉ uri.text := by
  intro member
  exact absurd (derives.inUri member) (by decide)

end Uri

theorem Text.unitLength_of_isAscii (ascii : ∀ char ∈ text, IsAscii char) :
    unitLength text = text.length := by
  induction text with
  | nil => rfl
  | cons char rest ih =>
      have narrow : unitWidth char = 1 := by
        have small : char.toNat < 0x80 := ascii char List.mem_cons_self
        rw [unitWidth, if_pos (by omega)]
      rw [unitLength, narrow, ih fun other member => ascii other (List.mem_cons_of_mem char member),
        List.length_cons, Nat.add_comm]

theorem Uri.Derives.unitLength {uri : Uri} (derives : uri.Derives) :
    Text.unitLength uri.text = uri.text.length :=
  Text.unitLength_of_isAscii fun _ => derives.isAscii

end MagnetUri
