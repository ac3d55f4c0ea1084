import MagnetUri.Proofs.Link.Journal

set_option autoImplicit false

/-! Links that were read give all their fields. The checks of reading cover what the
fields take for granted: every parameter can be read, and the value of every exact topic
is an identifier. -/

namespace MagnetUri

theorem Succeeds.map {ε α β : Type} {outcome : Except ε α} (succeeds : Succeeds outcome)
    (change : α → β) : Succeeds (outcome.map change) := by
  obtain ⟨value, found⟩ := succeeds
  rw [found]
  exact ⟨change value, rfl⟩

namespace Link

open MagnetUri.Field (IsTopic isTopic_iff)

structure NeverFails (link : Link) : Prop where
  exactTopics : ∀ (σ : Type) (label : Nat),
    (link.exactTopics label : Selection Field.Error σ Param Uri).NeverFails
  topicHashes : ∀ (σ : Type) (label : Nat),
    (link.topicHashes label : Selection Field.Error σ Param Text).NeverFails
  topicNamespaces : ∀ (σ : Type) (label : Nat),
    (link.topicNamespaces label : Selection Field.Error σ Param Text).NeverFails
  trackers : ∀ label, (link.trackers label).NeverFails
  exactSources : ∀ label, (link.exactSources label).NeverFails
  acceptableSources : ∀ label, (link.acceptableSources label).NeverFails
  manifests : ∀ label, (link.manifests label).NeverFails
  webSeeds : ∀ label, (link.webSeeds label).NeverFails
  keywords : Succeeds link.keywords?
  displayName : Succeeds link.displayName?
  exactLength : Succeeds link.exactLength?
  extension : ∀ name, Succeeds (link.extension? name)
  peers : Succeeds link.peers

variable {link : Link} {params : List Param}

theorem mem_of_mem_source (listed : link.query.Lists params) {label : Nat} {param : Param}
    (member : .ok param ∈ (link.source label).steps) : param ∈ params := by
  rw [steps_source listed] at member
  obtain ⟨other, inside, same⟩ := List.mem_map.1 member
  cases same
  exact inside

theorem succeeds_of_mem_source (listed : link.query.Lists params) (label : Nat) :
    ∀ step ∈ (link.source label).steps, Succeeds step := by
  intro step member
  rw [steps_source listed] at member
  obtain ⟨param, _, same⟩ := List.mem_map.1 member
  exact ⟨param, same.symm⟩

theorem topics_neverFails {σ α : Type} {transform : Param → Except Field.Error α}
    (listed : link.query.Lists params)
    (succeeds : ∀ param ∈ params, IsTopic param → Succeeds (transform param)) (label : Nat) :
    (link.topics label transform : Selection Field.Error σ Param α).NeverFails := by
  apply Selection.Total.neverFails
  refine ⟨succeeds_of_mem_source listed label, fun param _ _ => ⟨Field.isTopic param, rfl⟩, ?_⟩
  rintro param ⟨member, _, accepted⟩ _
  have topic : Field.isTopic param = true := by
    cases tested : Field.isTopic param with
    | true => rfl
    | false =>
        have refused : (Except.ok (Field.isTopic param) : Except Field.Error Bool) = .ok true :=
          accepted
        rw [tested] at refused
        cases refused
  exact succeeds param (mem_of_mem_source listed member) (isTopic_iff.1 topic)

theorem topicUri_succeeds {param : Param} (passes : Passes param) (topic : IsTopic param) :
    Succeeds (Field.topicUri param) := by
  obtain ⟨uri, parsed⟩ := passes topic
  rw [Field.topicUri, parsed]
  exact ⟨uri, rfl⟩

/-- The search for identifiers turns every failure to decode into a refusal. -/
theorem hasUrl_succeeds (key : Text) (param : Param) (scratch : Scratch) :
    Succeeds (Field.hasUrl key param scratch : Except Field.Error Bool × Scratch).1 := by
  unfold Field.hasUrl
  split
  next => exact ⟨false, rfl⟩
  next value _ =>
    split
    next =>
      split
      next text after _ => exact ⟨Field.isUri text, rfl⟩
      next => exact ⟨false, rfl⟩
    next => exact ⟨false, rfl⟩

theorem urls_neverFails (listed : link.query.Lists params) (key : Text) (label : Nat) :
    (link.urls key label).NeverFails := by
  apply Selection.Total.neverFails
  refine ⟨succeeds_of_mem_source listed label, ?_, ?_⟩
  · intro param _ scratch
    exact hasUrl_succeeds key param scratch
  · intro param _ scratch
    exact ⟨scratch.text, rfl⟩

theorem neverFails (listed : link.query.Lists params) (passes : ∀ param ∈ params, Passes param) :
    link.NeverFails where
  exactTopics := fun _ label => topics_neverFails listed
    (fun param member => topicUri_succeeds (passes param member)) label
  topicHashes := fun _ label => topics_neverFails listed
    (fun param member topic => (topicUri_succeeds (passes param member) topic).map _) label
  topicNamespaces := fun _ label => topics_neverFails listed
    (fun param member topic => (topicUri_succeeds (passes param member) topic).map _) label
  trackers := urls_neverFails listed ['t', 'r']
  exactSources := urls_neverFails listed ['x', 's']
  acceptableSources := urls_neverFails listed ['a', 's']
  manifests := urls_neverFails listed ['m', 't']
  webSeeds := urls_neverFails listed ['w', 's']
  keywords := ⟨_, namedValue?_eq listed ['k', 't']⟩
  displayName := ⟨_, namedValue?_eq listed ['d', 'n']⟩
  exactLength := by
    apply Succeeds.map
    exact ⟨_, namedValue?_eq listed ['x', 'l']⟩
  extension := fun name => ⟨_, extension?_eq listed name⟩
  peers := ⟨_, peers_eq listed⟩

theorem ne_unreadable (settings : Settings) (text : Text) (cause : Percent.DecodeError) :
    parse settings text ≠ .error (.unreadable cause) := by
  intro failed
  cases parse_eq_error_iff.1 failed with
  | topics _ _ _ bad => cases bad

theorem neverFails_of_parse {settings : Settings} {text : Text}
    (accepted : parse settings text = .ok link) : link.NeverFails := by
  obtain ⟨params, listed, passes⟩ := exists_params_of_parse accepted
  exact neverFails listed passes

theorem succeeds_of_mem_params {uri : Uri} (derives : uri.Derives) (plusAsSpace : Bool) :
    ∀ step ∈ (uri.params plusAsSpace).params, Succeeds step := by
  intro step member
  obtain ⟨params, listed⟩ := uri.exists_params derives plusAsSpace
  rw [listed] at member
  obtain ⟨param, _, same⟩ := List.mem_map.1 member
  exact ⟨param, same.symm⟩

/-- A run fails where its logger fails at the one entry that debugging logs, and in no other way: no
broken escape is met behind the readers, and no field of a link that was read is out of reach. -/
theorem reading_covers_fields (request : Settings.Key → Setting) (text : Text) :
    let settings := Settings.ofRequest request
    (∀ (φ ω : Type) (base : Log.Logger φ ω String) (store : ω),
      let run := (parseLogged settings base text store).1
      (∀ failure, run = .error failure ↔
        settings.logLevel = .debug ∧ (base (report settings text) store).1 = .error failure) ∧
      (∀ cause, run ≠ .ok (.error (.unreadable cause))) ∧
      ∀ link, run = .ok (.ok link) → link.NeverFails) ∧
    ∀ uri, Uri.parse text = .ok uri ∨ Uri.parseAbsolute text = .ok uri →
      ∀ plusAsSpace, ∀ step ∈ (uri.params plusAsSpace).params, Succeeds step := by
  intro settings
  constructor
  · intro φ ω base store run
    have comes := comesTo_parse settings text
    refine ⟨fun failure => comes.fails_iff, ?_, ?_⟩
    · intro cause ended
      exact ne_unreadable settings text cause (comes.eq_of_run ended).symm
    · intro link ended
      exact neverFails_of_parse (comes.eq_of_run ended).symm
  · intro uri parsed
    apply succeeds_of_mem_params
    rcases parsed with found | found
    · exact (Uri.parse_eq_ok_iff.1 found).2
    · exact (Uri.parseAbsolute_eq_ok_iff.1 found).2.1

/-- A logger that has no room left, where a link is read that other loggers let through. -/
theorem reading_fails_with_full_log :
    let settings := Settings.ofRequest fun
      | .logLevel => .word "debug"
      | _ => .other
    let text := "magnet:?xt=urn:x".toList
    let full : Log.Logger String Unit String := fun _ => Effect.ofExcept (.error "no room")
    (parseLogged settings full text ()).1 = .error "no room" ∧
      ∃ link, (parseLogged settings .discard text () : Except String (Except Error Link) × Unit) =
        (.ok (.ok link), ()) := by
  intro settings text full
  constructor
  · exact (comesTo_parse settings text).fails_iff.2 ⟨rfl, rfl⟩
  · exact ⟨_, comesTo_parse settings text String Unit .discard ()⟩

end Link
end MagnetUri
