import CubeQuery.Proofs.Moves

/-!
# Retrieving parameters

Retrieving goes through the hierarchies as the axes list them. As each hierarchy is listed
somewhere, nothing that a query refers to is passed over, wherever it stands
(`Placed.mem_parameterNames`), and as names are declared, not set, the order in which they are met
makes no difference. So moving a hierarchy or swapping the axes commutes with retrieving
(`parameters_retrieved`).
-/

namespace CubeQuery

/-! ## References to parameters -/

/-- The text is the sort expression or the override of a set. -/
def OrderedShape.Holds (s : OrderedShape) (text : String) : Prop :=
  (∃ order, s.sort = some (order, text)) ∨ s.base.override = some text

/-- The ways in which a query can refer to a parameter. Levels count while they are in use,
hierarchies and axes always. -/
inductive Query.RefersTo (q : Query) (name : String) : Prop where
  | binding {s : HierarchySelection} {l : LevelSelection} (hs : s ∈ q.hierarchies)
    (hl : l ∈ s.activeLevels) (h : l.parameter? = some name)
  | level {s : HierarchySelection} {l : LevelSelection} {text : String} (hs : s ∈ q.hierarchies)
    (hl : l ∈ s.activeLevels) (ht : l.shape.override = some text)
    (h : name ∈ Text.placeholders text)
  | hierarchy {s : HierarchySelection} {text : String} (hs : s ∈ q.hierarchies)
    (ht : s.shape.Holds text) (h : name ∈ Text.placeholders text)
  | axis {l : Location} {text : String} (ht : (q.axes.get l).shape.Holds text)
    (h : name ∈ Text.placeholders text)

theorem Text.not_blank_of_mem_placeholders {name text : String} (h : name ∈ placeholders text) :
    isBlankText name = false := by
  obtain ⟨cs, -, hcs⟩ := List.mem_filterMap.1 h
  split at hcs
  · cases hcs
  · next hblank =>
    cases hcs
    simpa [isBlankText] using hblank

theorem SetShape.mem_placeholders {s : SetShape} {name : String} :
    name ∈ s.placeholders ↔ ∃ text, s.override = some text ∧ name ∈ Text.placeholders text := by
  rw [placeholders]
  cases s.override <;> simp

theorem OrderedShape.mem_placeholders {s : OrderedShape} {name : String} :
    name ∈ s.placeholders ↔ ∃ text, s.Holds text ∧ name ∈ Text.placeholders text := by
  rw [placeholders, List.mem_append, SetShape.mem_placeholders]
  constructor
  · rintro (h | ⟨text, ho, h⟩)
    · split at h
      · next order text hsort => exact ⟨text, .inl ⟨order, hsort⟩, h⟩
      · cases h
    · exact ⟨text, .inr ho, h⟩
  · rintro ⟨text, ⟨order, hsort⟩ | ho, h⟩
    · rw [hsort]
      exact .inl h
    · exact .inr ⟨text, ho, h⟩

namespace Query

variable {q r : Query} {name : String}

theorem refersTo_iff : q.RefersTo name ↔
    (∃ s ∈ q.hierarchies, name ∈ s.parameterNames) ∨
      ∃ l, name ∈ (q.axes.get l).shape.placeholders := by
  simp only [HierarchySelection.parameterNames, LevelSelection.parameterNames, List.mem_append,
    List.mem_flatMap, Option.mem_toList, SetShape.mem_placeholders, OrderedShape.mem_placeholders]
  constructor
  · intro h
    cases h with
    | binding hs hl h => exact .inl ⟨_, hs, .inl ⟨_, hl, .inl h⟩⟩
    | level hs hl ht h => exact .inl ⟨_, hs, .inl ⟨_, hl, .inr ⟨_, ht, h⟩⟩⟩
    | hierarchy hs ht h => exact .inl ⟨_, hs, .inr ⟨_, ht, h⟩⟩
    | axis ht h => exact .inr ⟨_, _, ht, h⟩
  · rintro (⟨s, hs, ⟨l, hl, h | ⟨text, ht, h⟩⟩ | ⟨text, ht, h⟩⟩ | ⟨l, text, ht, h⟩)
    · exact .binding hs hl h
    · exact .level hs hl ht h
    · exact .hierarchy hs ht h
    · exact .axis ht h

theorem not_blank_of_refersTo (h : q.RefersTo name) : Text.isBlankText name = false := by
  cases h with
  | binding hs hl h => simpa using (Option.filter_eq_some_iff.1 h).2
  | level hs hl ht h | hierarchy hs ht h | axis ht h => exact Text.not_blank_of_mem_placeholders h

/-- What is referred to does not depend on where the hierarchies lie. -/
theorem refersTo_congr
    (hh : r.hierarchies.map (·.parameterNames) = q.hierarchies.map (·.parameterNames))
    (ha : ∀ l, (r.axes.get l).shape = (q.axes.get l).shape) :
    r.RefersTo name ↔ q.RefersTo name := by
  have hmem : ∀ u : Query, (∃ s ∈ u.hierarchies, name ∈ s.parameterNames) ↔
      ∃ names ∈ u.hierarchies.map (·.parameterNames), name ∈ names := by
    intro u
    simp
  simp only [refersTo_iff, hmem, hh, ha]

/-! ## Going through the axes -/

/-- Each hierarchy is met on some axis. -/
theorem Placed.mem_hierarchies_iff (hq : q.Placed) {s : HierarchySelection} :
    s ∈ q.hierarchies ↔ ∃ l, s ∈ q.hierarchiesOn l := by
  constructor
  · intro hs
    obtain ⟨i, hi⟩ := List.mem_iff_getElem?.1 hs
    have hlt := (List.getElem?_eq_some_iff.1 hi).1
    exact ⟨q.locationAt i,
      List.mem_filterMap.2 ⟨i, (hq.listed _ i).2 (location?_of_lt hlt), hi⟩⟩
  · rintro ⟨l, hs⟩
    obtain ⟨i, -, hi⟩ := List.mem_filterMap.1 hs
    exact List.mem_of_getElem? hi

theorem Placed.mem_parameterNames (hq : q.Placed) : name ∈ q.parameterNames ↔ q.RefersTo name := by
  simp only [parameterNames, refersTo_iff, List.mem_flatMap, List.mem_append, Location.mem_all,
    true_and, exists_or, hq.mem_hierarchies_iff]
  refine or_congr_left ?_
  constructor
  · rintro ⟨l, s, hs, h⟩
    exact ⟨s, ⟨l, hs⟩, h⟩
  · rintro ⟨s, ⟨l, hs⟩, h⟩
    exact ⟨l, s, hs, h⟩

/-! ## Declaring names -/

theorem get?_declareParameter (q : Query) (n name : String) :
    (q.declareParameter n).parameters.get? name = (q.parameters.get? name).or
      (if name = n ∧ Text.isBlankText n = false then some none else none) := by
  unfold declareParameter
  split
  · next h =>
    rw [Bool.or_eq_true] at h
    by_cases hn : name = n
    · subst hn
      rcases h with h | h
      · simp [h]
      · obtain ⟨value, hvalue⟩ := Option.isSome_iff_exists.1 h
        simp [hvalue]
    · simp [hn]
  · next h =>
    obtain ⟨hblank, hfresh⟩ : Text.isBlankText n = false ∧ q.parameters.get? n = none := by
      simpa [Bindings.contains] using h
    rw [Bindings.get?_insert]
    by_cases hn : name = n
    · subst hn
      simp [hblank, hfresh]
    · simp [hn, Ne.symm hn]

/-- Declared names become known without a value, unless they are blank or known already. -/
theorem get?_declareParameters (q : Query) (names : List String) (name : String) :
    (q.declareParameters names).parameters.get? name = (q.parameters.get? name).or
      (if name ∈ names ∧ Text.isBlankText name = false then some none else none) := by
  induction names generalizing q with
  | nil => simp [declareParameters]
  | cons n names ih =>
    show ((q.declareParameter n).declareParameters names).parameters.get? name = _
    rw [ih, get?_declareParameter, Option.or_assoc]
    congr 1
    by_cases hn : name = n
    · subst hn
      cases Text.isBlankText name <;> simp
    · simp [hn]

/-- What retrieving makes of a query: all it refers to is known, what was not known has no value,
and nothing else has changed. -/
structure Retrieved (q r : Query) : Prop where
  kept : ∀ name value, q.parameters.get? name = some value → r.parameters.get? name = some value
  added : ∀ name value, q.parameters.get? name = none →
    (r.parameters.get? name = some value ↔ value = none ∧ q.RefersTo name)
  rest : r = { q with parameters := r.parameters }

theorem retrieve_rest (q : Query) :
    q.retrieveParameters = { q with parameters := q.retrieveParameters.parameters } := by
  obtain ⟨p, hp⟩ := q.declareParameters_rest q.parameterNames
  rw [retrieveParameters, hp]

theorem Placed.retrieved (hq : q.Placed) : q.Retrieved q.retrieveParameters := by
  refine ⟨fun name value h => ?_, fun name value h => ?_, q.retrieve_rest⟩
  · rw [retrieveParameters, get?_declareParameters, h, Option.some_or]
  · rw [retrieveParameters, get?_declareParameters, h, Option.none_or, ← hq.mem_parameterNames]
    constructor
    · intro hv
      split at hv
      · next hname => exact ⟨(Option.some.inj hv).symm, hname.1⟩
      · cases hv
    · rintro ⟨rfl, hname⟩
      rw [if_pos ⟨hname, not_blank_of_refersTo (hq.mem_parameterNames.1 hname)⟩]

/-- Two results of retrieving have the same parameters if as much was known before and the same is
referred to. -/
theorem Retrieved.parameters_eq {q' r' : Query} (h : q.Retrieved r) (h' : q'.Retrieved r')
    (hp : q'.parameters = q.parameters) (href : ∀ name, q'.RefersTo name ↔ q.RefersTo name) :
    r'.parameters = r.parameters := by
  refine Bindings.ext_get? fun name => Option.ext fun value => ?_
  cases hn : q.parameters.get? name with
  | some known => rw [h.kept name known hn, h'.kept name known (hp ▸ hn)]
  | none => rw [h.added name value hn, h'.added name value (hp ▸ hn), href]

theorem retrieve_retrieve (q : Query) :
    q.retrieveParameters.retrieveParameters = q.retrieveParameters := by
  have hnames : q.retrieveParameters.parameterNames = q.parameterNames := by
    rw [retrieve_rest]
    rfl
  have hsame : q.retrieveParameters.retrieveParameters.parameters =
      q.retrieveParameters.parameters := by
    refine Bindings.ext_get? fun name => ?_
    rw [retrieveParameters, hnames, get?_declareParameters, retrieveParameters,
      get?_declareParameters, Option.or_assoc, Option.or_self]
  rw [retrieve_rest q.retrieveParameters, hsame]

/-! ## Moves and swaps -/

theorem move_withParameters (q : Query) (p : Parameters) (name : String) (target : Location)
    (position : Option Nat) :
    { q with parameters := p }.move name target position =
      (q.move name target position).map ({ · with parameters := p }) := by
  cases hi : q.find? name with
  | none =>
    rw [move_of_unknown target position hi]
    exact move_of_unknown target position hi
  | some i =>
    rw [move_of_found target position hi, apply_ite (Except.map _)]
    exact move_of_found target position hi

/-- Where a change of the places leaves alone what is known and what is referred to, retrieving
after it adds what retrieving before it adds. -/
theorem Placed.retrieve_eq (hq : q.Placed) (hr : r.Placed) (hp : r.parameters = q.parameters)
    (href : ∀ name, r.RefersTo name ↔ q.RefersTo name) :
    r.retrieveParameters = { r with parameters := q.retrieveParameters.parameters } := by
  rw [r.retrieve_rest, hq.retrieved.parameters_eq hr.retrieved hp href]

theorem Placed.retrieve_move (hq : q.Placed) (name : String) (target : Location)
    (position : Option Nat) :
    q.retrieveParameters.move name target position =
      (q.move name target position).map (·.retrieveParameters) := by
  rw [q.retrieve_rest, move_withParameters]
  cases hm : q.move name target position with
  | error e => rfl
  | ok r =>
    obtain ⟨i, -, hmoved⟩ := hq.moved hm
    have href : ∀ name, r.RefersTo name ↔ q.RefersTo name := by
      refine fun name => refersTo_congr ?_ fun l => by rw [hmoved.settings]
      rw [hmoved.selections]
      exact map_modify_eq fun _ _ => rfl
    have hr : r.parameters = q.parameters := by rw [hmoved.rest]
    exact congrArg Except.ok (hq.retrieve_eq (placed_move hq hm) hr href).symm

theorem Placed.retrieve_swapAxes (hq : q.Placed) :
    q.retrieveParameters.swapAxes = q.swapAxes.retrieveParameters := by
  have href : ∀ name, q.swapAxes.RefersTo name ↔ q.RefersTo name := by
    refine fun name => refersTo_congr ?_ fun l => by cases l <;> rfl
    exact (relocate_map (fun _ _ => rfl) _ _ _).trans (relocate_map (fun _ _ => rfl) _ _ _)
  rw [hq.retrieve_eq (placed_swapAxes hq) rfl href, q.retrieve_rest]
  rfl

/-- **Parameters.** Retrieving makes known, without a value, exactly what the query refers to and
does not know yet. It changes nothing else, a second time it changes nothing at all, and it does the
same before and after every move and swap. -/
theorem parameters_retrieved {cube : Cube} {q : Query} (hq : Reachable cube q) :
    q.Retrieved q.retrieveParameters ∧
      q.retrieveParameters.retrieveParameters = q.retrieveParameters ∧
        (∀ name target position, q.retrieveParameters.move name target position =
          (q.move name target position).map (·.retrieveParameters)) ∧
          q.retrieveParameters.swapAxes = q.swapAxes.retrieveParameters := by
  obtain ⟨own, cs, rfl⟩ := hq
  have hplaced := (sound_afterAll own cube cs).toPlaced
  exact ⟨hplaced.retrieved, retrieve_retrieve _, hplaced.retrieve_move, hplaced.retrieve_swapAxes⟩

/-- A level in use, a hierarchy that lies aside and an axis without hierarchies refer to three
parameters. One of them has a value. -/
def yearsBound : Query :=
  (new "q" sales).afterAll [.hierarchy "Time" (.includeLevel "Year"),
    .hierarchy "Time" (.level "Year" (.bind "year")),
    .hierarchy "Store" (.order (.shape (.override "${stores} ${ }"))),
    .axis .rows (.order (.sort .asc "${key}")), .setParameter "key" "Units"]

theorem parameters_retrieved_yearsBound :
    Reachable sales yearsBound ∧
      yearsBound.retrieveParameters.parameters.get? "stores" = some none ∧
        yearsBound.retrieveParameters.parameters.get? "key" = some (some "Units") ∧
          yearsBound.retrieveParameters.parameters.get? " " = none := by
  have hq : Reachable sales yearsBound := ⟨"q", _, rfl⟩
  have hplaced := (sound_afterAll "q" sales _ : Sound sales yearsBound).toPlaced
  obtain ⟨hretrieved, -⟩ := parameters_retrieved hq
  have hstores : yearsBound.RefersTo "stores" :=
    hplaced.mem_parameterNames.1 (by decide +kernel)
  have hblank : ¬yearsBound.RefersTo " " := fun h =>
    absurd (not_blank_of_refersTo h) (by decide +kernel)
  refine ⟨hq, ?_, hretrieved.kept "key" _ (by decide +kernel), ?_⟩
  · exact (hretrieved.added "stores" none (by decide +kernel)).2 ⟨rfl, hstores⟩
  · refine Option.eq_none_iff_forall_ne_some.2 fun value hvalue => ?_
    exact hblank ((hretrieved.added " " value (by decide +kernel)).1 hvalue).2

end Query
end CubeQuery
