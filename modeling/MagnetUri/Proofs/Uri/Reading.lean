import MagnetUri.Proofs.Uri.Component

set_option autoImplicit false

/-! Reading from the beginning of a text. What is read is an identifier of the grammar in
front of a character that cannot go it on, and every such identifier is read. The extent of an
authority is found first and cut up afterwards; the parts that come out are those of the grammar. -/

namespace MagnetUri.Uri

section Authorities

open Character
open Grammar (Run)

variable {text rest : Text}

theorem host_text_cases {host : Host} (derives : host.Derives) :
    (∃ address, hostOfLiteral address = .ok host ∧ ']' ∉ address ∧
      host.text = '[' :: address ++ [']']) ∨
    (hostOfName host.text = .ok host ∧ Run inRegisteredName host.text) := by
  cases host with
  | ipv4 address =>
      exact Or.inr ⟨hostOfName_eq_ok_iff.2 ⟨derives, Or.inl rfl⟩, Grammar.run_of_ipv4 derives⟩
  | ipv6 address =>
      refine Or.inl ⟨address, hostOfLiteral_eq_ok_iff.2 ⟨derives, Or.inl rfl⟩, ?_, rfl⟩
      intro bracket
      have all := Grammar.all_inUserinfo_of_ipv6 derives
      exact absurd (List.all_eq_true.1 all ']' bracket) (by decide)
  | ipvFuture address =>
      refine Or.inl ⟨address, hostOfLiteral_eq_ok_iff.2 ⟨derives, Or.inr rfl⟩, ?_, rfl⟩
      intro bracket
      have all := Grammar.all_inUserinfo_of_ipvFuture derives
      exact absurd (List.all_eq_true.1 all ']' bracket) (by decide)
  | name encoded =>
      exact Or.inr ⟨hostOfName_eq_ok_iff.2 ⟨derives, Or.inr rfl⟩,
        Grammar.mem_registeredName.1 derives.1⟩

theorem derives_of_splitHost {extent : Text} {host : Host}
    (found : splitHost extent = .ok (host, rest)) : host.Derives := by
  unfold splitHost at found
  split at found
  next inside =>
    split at found
    next => cases found
    next address after _ =>
      cases read : hostOfLiteral address with
      | error error => rw [read] at found; cases found
      | ok literal =>
          rw [read] at found
          cases found
          exact (hostOfLiteral_eq_ok_iff.1 read).1
  next =>
    cases read : hostOfName (extent.takeWhile (· ≠ ':')) with
    | error error => rw [read] at found; cases found
    | ok name =>
        rw [read] at found
        cases found
        exact (hostOfName_eq_ok_iff.1 read).1

/-- A host is told apart from what follows where that is nothing or begins with a colon. -/
theorem splitHost_append {host : Host} (derives : host.Derives)
    (closed : ∀ char after, rest = char :: after → char = ':') :
    splitHost (host.text ++ rest) = .ok (host, rest) := by
  rcases host_text_cases derives with ⟨address, found, free, equal⟩ | ⟨found, taken⟩
  · have shape : host.text ++ rest = '[' :: (address ++ ']' :: rest) := by simp [equal]
    rw [shape, splitHost, Text.cut?_append free]
    simp only [found, Except.map]
  · have before : ∀ char ∈ host.text, (decide (char ≠ ':')) = true := by
      intro char member
      apply decide_eq_true
      intro colon
      exact taken.not_mem (by decide) (by decide) (by decide) (colon ▸ member)
    have stopped : rest.takeWhile (· ≠ ':') = [] ∧ rest.dropWhile (· ≠ ':') = rest := by
      cases rest with
      | nil => exact ⟨rfl, rfl⟩
      | cons char after =>
          have colon := closed char after rfl
          subst colon
          exact ⟨by simp, by simp⟩
    have unbracketed : ∀ inside, host.text ++ rest ≠ '[' :: inside := by
      intro inside equal
      cases shape : host.text with
      | nil =>
          rw [shape, List.nil_append] at equal
          exact absurd (closed _ _ equal) (by decide)
      | cons char after =>
          rw [shape] at equal
          have bracket : char = '[' := (List.cons.inj equal).1
          have member : '[' ∈ host.text := by
            rw [shape, bracket]
            exact List.mem_cons_self
          exact taken.not_mem (by decide) (by decide) (by decide) member
    unfold splitHost
    split
    next inside equal => exact absurd equal (unbracketed inside)
    next =>
      rw [List.takeWhile_append_of_pos before, List.dropWhile_append_of_pos before, stopped.1,
        stopped.2, List.append_nil, found]
      rfl

theorem mem_port {digits : Text} : digits ∈ Grammar.port ↔ digits.all isDigit = true := by
  rw [Grammar.port, Grammar.digit_eq, Grammar.mem_single_star]

theorem readPort_eq_ok_iff {port : Option Text} : readPort text = .ok port ↔
    port.elim [] (':' :: ·) = text ∧ ∀ digits, port = some digits → digits ∈ Grammar.port := by
  constructor
  · intro found
    refine ⟨eq_of_readPort found, ?_⟩
    intro digits same
    subst same
    cases text with
    | nil => cases found
    | cons mark after =>
        simp only [readPort] at found
        split at found
        next shape =>
          cases found
          exact mem_port.2 shape.2
        next => cases found
  · rintro ⟨joined, members⟩
    cases port with
    | none =>
        subst joined
        rfl
    | some digits =>
        subst joined
        have all := mem_port.1 (members digits rfl)
        change readPort (':' :: digits) = _
        rw [readPort, if_pos ⟨rfl, all⟩]

theorem at_not_mem_host {host : Host} (derives : host.Derives) : '@' ∉ host.text := by
  have literal {address : Text} (all : address.all inUserinfo = true) :
      '@' ∉ '[' :: address ++ [']'] := by
    have free : '@' ∉ address := fun member =>
      absurd (List.all_eq_true.1 all '@' member) (by decide)
    simp [free]
  cases host with
  | ipv4 address => exact at_not_mem_of_run (Grammar.run_of_ipv4 derives) (by decide)
  | ipv6 address => exact literal (Grammar.all_inUserinfo_of_ipv6 derives)
  | ipvFuture address => exact literal (Grammar.all_inUserinfo_of_ipvFuture derives)
  | name encoded => exact at_not_mem_of_run (Grammar.mem_registeredName.1 derives.1) (by decide)

/-- An extent is an authority exactly as the grammar has it. -/
theorem readAuthority_eq_ok_iff {extent : Text} {authority : Authority} :
    readAuthority extent = .ok authority ↔ authority.text = extent ∧ authority.Derives := by
  constructor
  · intro found
    refine ⟨text_of_readAuthority found, ?_⟩
    simp only [readAuthority, bind, Except.bind, pure, Except.pure] at found
    split at found
    next => cases found
    next userinfoParts readUserinfo =>
      split at found
      next => cases found
      next hostParts readHost =>
        split at found
        next => cases found
        next port readPort =>
          cases found
          exact ⟨(splitUserinfo_eq_ok_iff.1 readUserinfo).2.1,
            derives_of_splitHost (eq_of_readAfter readHost),
            (readPort_eq_ok_iff.1 (eq_of_readAfter readPort)).2⟩
  · rintro ⟨equal, derives⟩
    have port := readPort_eq_ok_iff.2 ⟨rfl, derives.port⟩
    have closed : ∀ char after,
        authority.port.elim [] (':' :: ·) = char :: after → char = ':' := by
      intro char after shape
      cases found : authority.port with
      | none => rw [found] at shape; cases shape
      | some digits =>
          rw [found] at shape
          exact (List.cons.inj shape).1.symm
    have host := splitHost_append derives.host closed
    have noAt : '@' ∉ authority.host.text ++ authority.port.elim [] (':' :: ·) := by
      rw [List.mem_append, not_or]
      refine ⟨at_not_mem_host derives.host, ?_⟩
      cases found : authority.port with
      | none => exact List.not_mem_nil
      | some digits =>
          have all := mem_port.1 (derives.port digits found)
          have free : '@' ∉ digits := fun member =>
            absurd (List.all_eq_true.1 all '@' member) (by decide)
          simp [free]
    have userinfo := splitUserinfo_eq_ok_iff.2 ⟨rfl, derives.userinfo, noAt⟩
    have shape : authority.text = authority.userinfo.elim [] (· ++ ['@']) ++
        (authority.host.text ++ authority.port.elim [] (':' :: ·)) := by
      rw [Authority.text, List.append_assoc]
    rw [← equal, shape]
    simp only [readAuthority, bind, Except.bind, pure, Except.pure, userinfo,
      readAfter_eq_ok_iff.2 host, readAfter_eq_ok_iff.2 port]

end Authorities

section Steps

open Character
open Grammar (Run Halts)

variable {text rest : Text}

theorem inAuthority_of_inUserinfo {char : Char} (member : inUserinfo char = true) :
    inAuthority char = true := by
  rw [inAuthority, member, Bool.true_or]

theorem inAuthority_of_run {run : Text} (taken : Run inUserinfo run) {char : Char}
    (member : char ∈ run) : inAuthority char = true := by
  rcases taken.mem member with inside | percent | digit
  · exact inAuthority_of_inUserinfo inside
  · rw [percent]
    decide
  · have unreserved := Grammar.isUnreserved_of_isHexDigit digit
    exact inAuthority_of_inUserinfo (Grammar.inUserinfo_of_isUnreserved unreserved)

theorem run_inUserinfo {run : Text} (taken : Run inRegisteredName run) : Run inUserinfo run :=
  taken.mono fun _ member => Bool.or_eq_true_iff.2 (Or.inl member)

theorem inAuthority_of_mem_host {host : Host} (derives : host.Derives) {char : Char}
    (member : char ∈ host.text) : inAuthority char = true := by
  have literal {address : Text} (all : address.all inUserinfo = true)
      (inside : char ∈ '[' :: address ++ [']']) : inAuthority char = true := by
    simp only [List.cons_append, List.mem_cons, List.mem_append, List.not_mem_nil, or_false]
      at inside
    rcases inside with opening | inner | closing
    · rw [opening]
      decide
    · exact inAuthority_of_inUserinfo (List.all_eq_true.1 all char inner)
    · rw [closing]
      decide
  cases host with
  | ipv4 address => exact inAuthority_of_run (run_inUserinfo (Grammar.run_of_ipv4 derives)) member
  | ipv6 address => exact literal (Grammar.all_inUserinfo_of_ipv6 derives) member
  | ipvFuture address => exact literal (Grammar.all_inUserinfo_of_ipvFuture derives) member
  | name encoded =>
      exact inAuthority_of_run (run_inUserinfo (Grammar.mem_registeredName.1 derives.1)) member

theorem inAuthority_of_isDigit {char : Char} (digit : isDigit char = true) :
    inAuthority char = true := by
  have unreserved := Grammar.isUnreserved_of_isHexDigit (Grammar.isHexDigit_of_isDigit digit)
  exact inAuthority_of_inUserinfo (Grammar.inUserinfo_of_isUnreserved unreserved)

theorem inAuthority_of_mem {authority : Authority} (derives : authority.Derives) {char : Char}
    (member : char ∈ authority.text) : inAuthority char = true := by
  rw [Authority.text, List.mem_append, List.mem_append] at member
  rcases member with (led | named) | closed
  · cases found : authority.userinfo with
    | none => rw [found] at led; cases led
    | some userinfo =>
        rw [found] at led
        rcases List.mem_append.1 led with inner | mark
        · exact inAuthority_of_run (Grammar.mem_userinfo.1 (derives.userinfo _ found)) inner
        · rw [List.mem_singleton.1 mark]
          decide
  · exact inAuthority_of_mem_host derives.host named
  · cases found : authority.port with
    | none => rw [found] at closed; cases closed
    | some digits =>
        rw [found] at closed
        rcases List.mem_cons.1 closed with mark | inner
        · rw [mark]
          decide
        · have all := mem_port.1 (derives.port _ found)
          exact inAuthority_of_isDigit (List.all_eq_true.1 all char inner)

/-- The character in front of which the extent of an authority ends. -/
def Bounded (rest : Text) : Prop :=
  ∀ char after, rest = char :: after → inAuthority char = false

theorem readOptionalAuthority_eq_ok_iff {authority : Option Authority} :
    readOptionalAuthority text = .ok (authority, rest) ↔
      authority.elim [] (fun part => '/' :: '/' :: part.text) ++ rest = text ∧
        match authority with
        | none => ∀ after, rest ≠ '/' :: '/' :: after
        | some part => part.Derives ∧ Bounded rest := by
  constructor
  · intro found
    refine ⟨append_of_readOptionalAuthority found, ?_⟩
    unfold readOptionalAuthority at found
    split at found
    next after =>
      split at found
      next part read =>
        cases found
        refine ⟨(readAuthority_eq_ok_iff.1 read).2, ?_⟩
        intro char others shape
        have stopped := List.head?_dropWhile_not inAuthority after
        rw [shape] at stopped
        exact stopped
      next => cases found
    next unslashed =>
      cases found
      exact fun after equal => unslashed after equal
  · rintro ⟨joined, condition⟩
    cases authority with
    | none =>
        change rest = text at joined
        subst joined
        unfold readOptionalAuthority
        split
        next after => exact absurd rfl (condition after)
        next => rfl
    | some part =>
        obtain ⟨derives, bounded⟩ := condition
        have inside : ∀ char ∈ part.text, inAuthority char = true := fun char =>
          inAuthority_of_mem derives
        have stopped : rest.takeWhile inAuthority = [] ∧ rest.dropWhile inAuthority = rest := by
          cases rest with
          | nil => exact ⟨rfl, rfl⟩
          | cons char after =>
              have outside := Bool.eq_false_iff.1 (bounded char after rfl)
              exact ⟨List.takeWhile_cons_of_neg outside, List.dropWhile_cons_of_neg outside⟩
        subst joined
        change readOptionalAuthority ('/' :: '/' :: (part.text ++ rest)) = _
        rw [readOptionalAuthority, List.takeWhile_append_of_pos inside,
          List.dropWhile_append_of_pos inside, stopped.1, stopped.2, List.append_nil,
          readAuthority_eq_ok_iff.2 ⟨rfl, derives⟩]

theorem readFragment_eq_ok_iff {withFragment : Bool} {fragment : Option Text} :
    readFragment withFragment text = .ok (fragment, rest) ↔
      fragment.elim [] ('#' :: ·) ++ rest = text ∧
        match fragment with
        | none => withFragment = true → ∀ after, rest ≠ '#' :: after
        | some run => withFragment = true ∧ Run inFragment run ∧ Halts inFragment rest := by
  cases withFragment with
  | true =>
      rw [readFragment, if_pos rfl, readOptional_eq_ok_iff (by decide)]
      cases fragment with
      | none => simp
      | some run => simp
  | false =>
      rw [readFragment, if_neg Bool.false_ne_true]
      constructor
      · intro found
        cases found
        exact ⟨rfl, fun impossible => by cases impossible⟩
      · rintro ⟨joined, condition⟩
        cases fragment with
        | none =>
            change rest = text at joined
            rw [joined]
        | some run => exact absurd condition.1 Bool.false_ne_true

end Steps

end MagnetUri.Uri
