import Lightning.UriMapper

/-!
# Which route answers

`UriMapper::add` promises that of two matching expressions the one that was added last is used. The
map is keyed by the expression and `match` takes the first matching entry in iteration order, which
has nothing to do with the order of the calls. `latest` states the promise over the calls
themselves; the map always holds the last resolver of every expression (`Reflects`), and `match`
keeps the promise exactly when the iteration order does.
-/

namespace Lightning

namespace UriMapper

variable {ρ : Type} [RegexEngine ρ] {P : Platform} {fuel : ℕ} {calls : List (Bytes × Resolver)}
  {m m' : UriMapper ρ} {uri regexStr : Bytes} {resolver : Resolver}

/-- A sequence of calls of `add`. A call that throws leaves the map as it was. -/
def addAll (fuel : ℕ) : List (Bytes × Resolver) → UriMapper ρ → Option (UriMapper ρ)
  | [], m => some m
  | (uri, resolver) :: calls, m =>
      (m.add fuel uri resolver).bind fun added =>
        match added with
        | .error _ => addAll fuel calls m
        | .ok stored => addAll fuel calls stored.2

/-- An expression with what is stored for it. -/
abbrev Entry (ρ : Type) := (_ : Bytes) × (ρ × Resolver)

/-- What a call registers, if it does not throw. -/
def registered (ρ : Type) [RegexEngine ρ] (fuel : ℕ) (call : Bytes × Resolver) :
    Option (Entry ρ) :=
  match createRegex fuel call.1 with
  | some (.ok regexStr) =>
      (RegexEngine.compile regexStr : Option ρ).map fun compiled => ⟨regexStr, compiled, call.2⟩
  | _ => none

/-- What the calls registered, the last first. -/
def history (ρ : Type) [RegexEngine ρ] (fuel : ℕ) (calls : List (Bytes × Resolver)) :
    List (Entry ρ) :=
  (calls.filterMap (registered ρ fuel)).reverse

/-- The promise of `add`: the last registered expression that matches, with its resolver. -/
def latest (ρ : Type) [RegexEngine ρ] (fuel : ℕ) (calls : List (Bytes × Resolver)) (uri : Bytes) :
    Option (Entry ρ) :=
  (history ρ fuel calls).find? fun entry => matchesUri uri entry.2.1

/-- The keys of the map in the order in which it is iterated. -/
def iterationOrder (P : Platform) (m : UriMapper ρ) : List Bytes :=
  (P.visit m.resolvers.entries).keys

/-- The map holds for each expression what was registered last. -/
def Reflects (registrations : List (Entry ρ)) (m : UriMapper ρ) : Prop :=
  ∀ key, m.resolvers.lookup key = (registrations.find? (·.1 = key)).map Sigma.snd

theorem add_eq (fuel : ℕ) (uri : Bytes) (resolver : Resolver) (m : UriMapper ρ) {added}
    (h : m.add fuel uri resolver = some added) :
    (registered ρ fuel (uri, resolver) = none ∧ ∃ e, added = .error e) ∨
      ∃ entry, registered ρ fuel (uri, resolver) = some entry ∧
        added = .ok (resolver, ⟨m.resolvers.insertOrAssign entry.1 entry.2⟩) := by
  unfold add at h
  obtain ⟨created, hcreated, rfl⟩ := Option.map_eq_some_iff.mp h
  unfold registered
  rw [hcreated]
  cases created with
  | error e => exact Or.inl ⟨rfl, e, rfl⟩
  | ok regexStr =>
    dsimp only
    cases (RegexEngine.compile regexStr : Option ρ) with
    | none => exact Or.inl ⟨rfl, .regexError, rfl⟩
    | some compiled => exact Or.inr ⟨_, rfl, rfl⟩

omit [RegexEngine ρ] in
theorem Reflects.insert {registrations : List (Entry ρ)} {entry : Entry ρ}
    (h : Reflects registrations m) :
    Reflects (entry :: registrations) ⟨m.resolvers.insertOrAssign entry.1 entry.2⟩ := by
  intro key
  rw [UnorderedMap.lookup_insertOrAssign]
  by_cases same : key = entry.1
  · subst same
    simp
  · rw [if_neg same, h key, List.find?_cons_of_neg (by simpa using Ne.symm same)]

theorem reflects_addAll {registrations : List (Entry ρ)} (h : Reflects registrations m)
    (built : addAll fuel calls m = some m') :
    Reflects ((calls.filterMap (registered ρ fuel)).reverse ++ registrations) m' := by
  induction calls generalizing registrations m with
  | nil =>
    obtain rfl : m = m' := Option.some.inj built
    exact h
  | cons call calls ih =>
    obtain ⟨uri, resolver⟩ := call
    obtain ⟨added, hadd, hrest⟩ := Option.bind_eq_some_iff.mp built
    obtain ⟨nothing, e, rfl⟩ | ⟨entry, stored, rfl⟩ := add_eq fuel uri resolver m hadd
    · rw [List.filterMap_cons_none nothing]
      exact ih h hrest
    · rw [List.filterMap_cons_some stored, List.reverse_cons, List.append_assoc]
      exact ih h.insert hrest

theorem reflects_history (built : addAll fuel calls {} = some m) :
    Reflects (history ρ fuel calls) m := by
  have start : Reflects [] ({} : UriMapper ρ) := fun _ => rfl
  have reflects := reflects_addAll start built
  rwa [List.append_nil] at reflects

/-- An expression is compiled the same way in every call. -/
theorem compile_of_mem_history {entry : Entry ρ} (h : entry ∈ history ρ fuel calls) :
    RegexEngine.compile entry.1 = some entry.2.1 := by
  obtain ⟨call, -, hcall⟩ := List.mem_filterMap.mp (List.mem_reverse.mp h)
  unfold registered at hcall
  split at hcall
  · obtain ⟨compiled, hcompiled, rfl⟩ := Option.map_eq_some_iff.mp hcall
    exact hcompiled
  · cases hcall

/-- The last registered expression that matches is in the map with its last resolver. -/
theorem latest_mem {entry : Entry ρ} (built : addAll fuel calls {} = some m)
    (last : latest ρ fuel calls uri = some entry) :
    entry ∈ m.resolvers.entries ∧ matchesUri uri entry.2.1 = true := by
  obtain ⟨passes, front, back, split, earlier⟩ := List.find?_eq_some_iff_append.mp last
  refine ⟨AList.mem_lookup_iff.mp ?_, passes⟩
  -- an entry registered later under the same expression would match too
  have newest : (history ρ fuel calls).find? (·.1 = entry.1) = some entry := by
    rw [List.find?_eq_some_iff_append]
    refine ⟨decide_eq_true rfl, front, back, split, fun other hother => ?_⟩
    have same (h : other.1 = entry.1) : other.2.1 = entry.2.1 := by
      have hc := compile_of_mem_history (show other ∈ history ρ fuel calls by simp [split, hother])
      rw [h, compile_of_mem_history (show entry ∈ history ρ fuel calls by simp [split])] at hc
      exact (Option.some.inj hc).symm
    have misses := earlier other hother
    by_cases key : other.1 = entry.1
    · rw [same key, passes] at misses
      cases misses
    · simpa using key
  rw [reflects_history built entry.1, newest]
  rfl

/-- `match` misses exactly the URIs that no registered expression matches. -/
theorem match_eq_none_iff (P : Platform) (built : addAll fuel calls {} = some m) :
    m.match P uri = none ↔ latest ρ fuel calls uri = none := by
  rw [UriMapper.match, Option.map_eq_none_iff, List.find?_eq_none]
  constructor
  · intro missed
    by_contra found
    obtain ⟨entry, last⟩ := Option.ne_none_iff_exists'.mp found
    obtain ⟨member, passes⟩ := latest_mem built last
    exact missed entry (P.mem_visit_iff.mpr member) passes
  · intro unmatched entry hentry
    have stored := AList.mem_lookup_iff.mpr (P.mem_visit_iff.mp hentry)
    rw [reflects_history built, Option.mem_def, Option.map_eq_some_iff] at stored
    obtain ⟨other, newest, same⟩ := stored
    have missed := List.find?_eq_none.mp unmatched other (List.mem_of_find?_eq_some newest)
    rwa [same] at missed

/-- `match` answers with the last registered expression that matches and its resolver if and only
if that expression is visited before every other one that matches. -/
theorem match_eq_latest_iff (P : Platform) (built : addAll fuel calls {} = some m)
    {entry : Entry ρ} (last : latest ρ fuel calls uri = some entry) :
    m.match P uri = some (entry.2.2, entry.1) ↔
      ∀ other ∈ m.resolvers.entries, matchesUri uri other.2.1 = true → other.1 ≠ entry.1 →
        (iterationOrder P m).idxOf entry.1 < (iterationOrder P m).idxOf other.1 := by
  obtain ⟨member, passes⟩ := latest_mem built last
  have order := AssocList.find?_eq_some_iff_idxOf_lt (p := fun entry => matchesUri uri entry.2.1)
    (P.nodupKeys_visit m.resolvers.nodupKeys) (P.mem_visit_iff.mpr member) passes
  have answers : m.match P uri = some (entry.2.2, entry.1) ↔
      (P.visit m.resolvers.entries).find? (fun entry => matchesUri uri entry.2.1) = some entry := by
    rw [UriMapper.match, Option.map_eq_some_iff]
    constructor
    · rintro ⟨found, hfound, answer⟩
      have sameKey : found.1 = entry.1 := (Prod.mk.inj answer).2
      have foundMember := P.mem_visit_iff.mp (List.mem_of_find?_eq_some hfound)
      rwa [← m.resolvers.nodupKeys.eq_of_fst_eq foundMember member sameKey]
    · intro found
      exact ⟨entry, found, rfl⟩
  rw [answers, order]
  simp only [P.mem_visit_iff, iterationOrder]

/-- The routes of the test `TestResolverMatching`, which differ in their status phrases. -/
def overlapping : List (Bytes × Resolver) :=
  [(chars "/*",
      fun _ => .respond (HttpResponseBuilder.create.withStatusPhrase (chars "before")).build),
    (chars "/test/*",
      fun _ => .respond (HttpResponseBuilder.create.withStatusPhrase (chars "after")).build)]

/-- The test passes when the newest entry is visited first. -/
theorem match_eq_latest_newestFirst :
    ∃ (m : UriMapper EcmaScript) (entry : Entry EcmaScript),
      addAll 5 overlapping {} = some m ∧
      latest EcmaScript 5 overlapping (chars "/test/wildcard") = some entry ∧
      entry.1 = chars "\\/test(\\/.*|$)" ∧
      m.match Platform.newestFirst (chars "/test/wildcard") = some (entry.2.2, entry.1) :=
  ⟨_, _, rfl, rfl, rfl, (@match_eq_latest_iff EcmaScript _ 5 overlapping _ (chars "/test/wildcard")
    Platform.newestFirst rfl _ rfl).mpr (by decide)⟩

/-- The routes of the test, and then the first one again. -/
def readded : List (Bytes × Resolver) := overlapping ++ overlapping.take 1

/-- Adding a route again does not move its entry, so that with the newest entry first the older
route answers. With the oldest entry first the test itself fails. -/
theorem match_ne_latest :
    (∃ (m : UriMapper EcmaScript) (entry : Entry EcmaScript),
      addAll 5 readded {} = some m ∧
      latest EcmaScript 5 readded (chars "/test/wildcard") = some entry ∧
      (m.match Platform.newestFirst (chars "/test/wildcard")).map Prod.snd =
        some (chars "\\/test(\\/.*|$)") ∧
      m.match Platform.newestFirst (chars "/test/wildcard") ≠ some (entry.2.2, entry.1)) ∧
    ∃ (m : UriMapper EcmaScript) (entry : Entry EcmaScript),
      addAll 5 overlapping {} = some m ∧
      latest EcmaScript 5 overlapping (chars "/test/wildcard") = some entry ∧
      (m.match Platform.oldestFirst (chars "/test/wildcard")).map Prod.snd =
        some (chars "(\\/.*|$)") ∧
      m.match Platform.oldestFirst (chars "/test/wildcard") ≠ some (entry.2.2, entry.1) := by
  refine ⟨⟨_, _, rfl, rfl, by decide, fun same => ?_⟩, _, _, rfl, rfl, by decide, fun same => ?_⟩
  · have regex := congrArg (Option.map Prod.snd) same
    revert regex
    decide
  · have regex := congrArg (Option.map Prod.snd) same
    revert regex
    decide

end UriMapper

end Lightning
