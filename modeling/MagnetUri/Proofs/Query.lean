import MagnetUri.Percent.Encoded
import MagnetUri.Proofs.Percent.Pieces
import MagnetUri.Proofs.Uri.Recognition
import MagnetUri.Query

set_option autoImplicit false

/-! Queries of identifiers. The grammar keeps broken escapes out of a query, and neither
the ampersands nor the equals signs cut an escape, so all parameters can be read. Under another
meaning of plus signs they are cut at the same places. -/

namespace MagnetUri.Percent

def space : UInt8 := 0x20

def plus : UInt8 := 0x2B

def plusByte (plusAsSpace : Bool) : UInt8 :=
  if plusAsSpace then space else plus

theorem HexDigit.ne_plus (digit : HexDigit) : digit.char ≠ '+' := by
  intro same
  have valid := digit.valid
  rw [same] at valid
  exact absurd valid (by decide)

theorem Token.bytes_of_plus {token : Token} (present : '+' ∈ token.text) (plusAsSpace : Bool) :
    token.bytes plusAsSpace = [plusByte plusAsSpace] := by
  cases token with
  | escape high low =>
      simp only [Token.text, List.mem_cons, List.not_mem_nil, or_false] at present
      rcases present with percent | first | second
      · exact absurd percent (by decide)
      · exact absurd first.symm high.ne_plus
      · exact absurd second.symm low.ne_plus
  | literal char plain =>
      have same : '+' = char := List.mem_singleton.1 present
      subst same
      cases plusAsSpace <;> rfl

theorem Token.bytes_of_no_plus {token : Token} (absent : '+' ∉ token.text)
    (first second : Bool) : token.bytes first = token.bytes second := by
  cases token with
  | escape high low => rfl
  | literal char plain =>
      have other : char ≠ '+' := by
        intro same
        exact absent (List.mem_singleton.2 same.symm)
      simp only [Token.bytes, other, false_and, if_false]

namespace Encoded

variable {encoded : Encoded}

def withPlus (plusAsSpace : Bool) (encoded : Encoded) : Encoded :=
  { encoded with plusAsSpace }

theorem mem_bytes_of_plus (present : '+' ∈ encoded.text) :
    plusByte encoded.plusAsSpace ∈ encoded.bytes := by
  obtain ⟨token, member, inside⟩ := List.mem_flatMap.1 present
  apply List.mem_flatMap.2
  refine ⟨token, member, ?_⟩
  rw [Token.bytes_of_plus inside]
  exact List.mem_singleton.2 rfl

theorem bytes_withPlus (absent : '+' ∉ encoded.text) (plusAsSpace : Bool) :
    (encoded.withPlus plusAsSpace).bytes = encoded.bytes := by
  apply congrArg List.flatten
  apply List.map_congr_left
  intro token member
  apply Token.bytes_of_no_plus
  intro inside
  exact absent (List.mem_flatMap.2 ⟨token, member, inside⟩)

/-- A reading of decoded bytes that gives one answer to all bytes with a space or a plus. -/
def Indifferent {γ : Type} (reading : List UInt8 → γ) (refusal : γ) : Prop :=
  ∀ bytes, space ∈ bytes ∨ plus ∈ bytes → reading bytes = refusal

theorem Indifferent.withPlus {γ : Type} {reading : List UInt8 → γ} {refusal : γ}
    (indifferent : Indifferent reading refusal) (encoded : Encoded) (plusAsSpace : Bool) :
    reading (encoded.withPlus plusAsSpace).bytes = reading encoded.bytes := by
  by_cases present : '+' ∈ encoded.text
  · have refused (other : Encoded) (inside : '+' ∈ other.text) :
        reading other.bytes = refusal := by
      apply indifferent
      have member := mem_bytes_of_plus inside
      cases meaning : other.plusAsSpace with
      | true =>
          rw [meaning] at member
          exact Or.inl member
      | false =>
          rw [meaning] at member
          exact Or.inr member
    rw [refused encoded present, refused (encoded.withPlus plusAsSpace) present]
  · rw [bytes_withPlus present]

end Encoded
end MagnetUri.Percent

namespace MagnetUri

open Percent (Readable Separates)

theorem ampersand_separates : Separates '&' := by
  constructor <;> decide

theorem equals_separates : Separates '=' := by
  constructor <;> decide

theorem Param.exists_read {piece : Text} (readable : Readable piece) (plusAsSpace : Bool) :
    ∃ param, Param.read plusAsSpace piece = .ok param := by
  unfold Param.read
  cases cut : Text.cut? '=' piece with
  | none =>
      obtain ⟨key, keyRead⟩ := Percent.Encoded.exists_read readable plusAsSpace
      exact ⟨{ key, value? := none }, by simp only [keyRead]⟩
  | some parts =>
      obtain ⟨keyText, valueText⟩ := parts
      rw [Text.eq_append_of_cut? cut] at readable
      obtain ⟨keyReadable, valueReadable⟩ := readable.cut equals_separates
      obtain ⟨key, keyRead⟩ := Percent.Encoded.exists_read keyReadable plusAsSpace
      obtain ⟨value, valueRead⟩ := Percent.Encoded.exists_read valueReadable plusAsSpace
      exact ⟨{ key, value? := some value }, by simp only [keyRead, valueRead]⟩

namespace Query

/-- All steps of reading a query succeed, and these are the parameters. -/
def Lists (query : Query) (params : List Param) : Prop :=
  query.params = params.map .ok

theorem exists_map_ok {ε α β : Type} {items : List α} {reader : α → Except ε β}
    (reads : ∀ item ∈ items, ∃ value, reader item = .ok value) :
    ∃ values : List β, items.map reader = values.map .ok := by
  induction items with
  | nil => exact ⟨[], rfl⟩
  | cons item others ih =>
      obtain ⟨value, first⟩ := reads item List.mem_cons_self
      obtain ⟨values, later⟩ := ih fun other member =>
        reads other (List.mem_cons_of_mem item member)
      exact ⟨value :: values, by rw [List.map_cons, List.map_cons, first, later]⟩

/-- What is told of every value that was read from an item is told of the items. -/
theorem map_eq_of_map_ok {ε α β γ : Type} {items : List α} {values : List β}
    {reader : α → Except ε β} {shape : β → γ} {told : α → γ}
    (follows : ∀ item value, reader item = .ok value → shape value = told item)
    (reads : items.map reader = values.map .ok) : values.map shape = items.map told := by
  induction items generalizing values with
  | nil =>
      cases values with
      | nil => rfl
      | cons => cases reads
  | cons item items ih =>
      cases values with
      | nil => cases reads
      | cons value values =>
          obtain ⟨here, later⟩ := List.cons.inj reads
          rw [List.map_cons, List.map_cons, follows item value here, ih later]

theorem exists_lists {query : Query}
    (readable : ∀ text, query.text = some text → Readable text) :
    ∃ params, query.Lists params := by
  unfold Lists params
  cases found : query.text with
  | none => exact ⟨[], rfl⟩
  | some text =>
      apply exists_map_ok
      intro piece member
      have pieceReadable := (readable text found).of_separate ampersand_separates piece member
      exact Param.exists_read pieceReadable query.plusAsSpace

theorem Lists.unique {query : Query} {left right : List Param} (first : query.Lists left)
    (second : query.Lists right) : left = right := by
  have injective : Function.Injective (Except.ok : Param → Except Percent.DecodeError Param) :=
    fun _ _ same => by cases same; rfl
  exact List.map_injective_iff.2 injective (first.symm.trans second)

theorem Lists.mapM {query : Query} {params : List Param} (lists : query.Lists params) :
    query.params.mapM id = .ok params := by
  rw [lists]
  clear lists
  induction params with
  | nil => rfl
  | cons param others ih =>
      rw [List.map_cons, List.mapM_cons, ih]
      rfl

/-- A test that never fails finds what the list finds. -/
theorem firstWhere_map_ok {ε α : Type} {test : α → Except ε Bool} {told : α → Bool}
    (tells : ∀ item, test item = .ok (told item)) (items : List α) :
    firstWhere test (items.map .ok) = .ok (items.find? told) := by
  induction items with
  | nil => rfl
  | cons item others ih =>
      rw [List.map_cons, firstWhere, List.find?_cons, tells]
      cases told item with
      | true => rfl
      | false => exact ih

end Query

theorem Uri.exists_params {uri : Uri} (derives : uri.Derives) (plusAsSpace : Bool) :
    ∃ params, (uri.params plusAsSpace).Lists params := by
  apply Query.exists_lists
  intro text found
  exact Percent.readable_of_run (by decide) (Grammar.mem_query.1 (derives.query text found))

open Percent (Encoded)

variable {first : Bool} {piece : Text} {param : Param}

theorem Percent.Encoded.read_withPlus {encoded : Encoded}
    (found : Encoded.read piece first = .ok encoded) (second : Bool) :
    Encoded.read piece second = .ok (encoded.withPlus second) :=
  Encoded.read_eq_ok_iff.2 ⟨(Encoded.read_eq_ok_iff.1 found).1, rfl⟩

namespace Param

def withPlus (plusAsSpace : Bool) (param : Param) : Param where
  key := param.key.withPlus plusAsSpace
  value? := param.value?.map (Encoded.withPlus plusAsSpace)

@[simp] theorem valueText_withPlus (plusAsSpace : Bool) (param : Param) :
    (param.withPlus plusAsSpace).valueText = param.valueText := by
  obtain ⟨key, value?⟩ := param
  cases value? <;> rfl

theorem read_withPlus (found : read first piece = .ok param) (second : Bool) :
    read second piece = .ok (param.withPlus second) := by
  unfold read at found ⊢
  cases cut : Text.cut? '=' piece with
  | none =>
      cases key : Encoded.read piece first with
      | error cause =>
          simp only [cut, key] at found
          cases found
      | ok encoded =>
          simp only [cut, key] at found
          cases found
          simp only [Encoded.read_withPlus key second]
          rfl
  | some parts =>
      obtain ⟨keyText, valueText⟩ := parts
      cases key : Encoded.read keyText first with
      | error cause =>
          simp only [cut, key] at found
          cases found
      | ok encoded =>
          cases value : Encoded.read valueText first with
          | error cause =>
              simp only [cut, key, value] at found
              cases found
          | ok other =>
              simp only [cut, key, value] at found
              cases found
              simp only [Encoded.read_withPlus key second, Encoded.read_withPlus value second]
              rfl

end Param

namespace Query

theorem Lists.withPlus {uri : Uri} {params : List Param} (listed : (uri.params first).Lists params)
    (second : Bool) : (uri.params second).Lists (params.map (Param.withPlus second)) := by
  unfold Lists Query.params Uri.params at listed ⊢
  cases written : uri.query with
  | none =>
      rw [written] at listed
      rw [List.map_eq_nil_iff.1 listed.symm]
      rfl
  | some text =>
      rw [written] at listed
      rw [List.map_map]
      symm
      apply map_eq_of_map_ok _ listed
      intro piece param found
      exact (Param.read_withPlus found second).symm

end Query
end MagnetUri
