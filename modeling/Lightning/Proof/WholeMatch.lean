import Lightning.Proof.ExactRoutes
import Lightning.Proof.Routing
import Lightning.Proof.UriParameters

/-!
# What the mapper and the request match

`match` hands `uri.data()` to the regular expression, so the mapper looks at the URI up to its first
NUL, while `computeUriParameters` matches the whole string. On a URI without a NUL the two are the
same call. On every other URI there is a route of as many dots as the mapper sees bytes, which it
selects although the URI is longer.
-/

namespace Lightning

open EcmaScript

namespace UriMapper

section Engine

variable {ρ : Type} [RegexEngine ρ] {P : Platform} {fuel : ℕ} {calls : List (Bytes × Resolver)}
  {m : UriMapper ρ} {uri : Bytes}

/-- Whether the expression matches the URI as `computeUriParameters` sees it. -/
def matchesWhole (uri : Bytes) (rgx : ρ) : Bool := (RegexEngine.regexMatch rgx uri).isSome

/-- The expression that `match` returns compiles, and it matches the whole URI. -/
def Agrees (P : Platform) (m : UriMapper ρ) (uri : Bytes) : Prop :=
  ∀ resolver regexStr, m.match P uri = some (resolver, regexStr) →
    ∃ regex : ρ, RegexEngine.compile regexStr = some regex ∧ matchesWhole uri regex = true

/-- Every expression that matches no more than the front of the URI is visited behind another one
that matches the front. -/
def WholeFirst (P : Platform) (m : UriMapper ρ) (uri : Bytes) : Prop :=
  ∀ entry ∈ m.resolvers.entries, matchesUri uri entry.2.1 = true →
    matchesWhole uri entry.2.1 = false →
    ∃ other ∈ m.resolvers.entries, matchesUri uri other.2.1 = true ∧
      (iterationOrder P m).idxOf other.1 < (iterationOrder P m).idxOf entry.1

/-- What the mapper holds is what was compiled from its key. -/
theorem compile_of_mem_entries (built : addAll fuel calls {} = some m) {entry : Entry ρ}
    (h : entry ∈ m.resolvers.entries) : RegexEngine.compile entry.1 = some entry.2.1 := by
  have stored := AList.mem_lookup_iff.mpr h
  rw [reflects_history built, Option.mem_def, Option.map_eq_some_iff] at stored
  obtain ⟨newest, found, same⟩ := stored
  have key : newest.1 = entry.1 := by simpa using List.find?_some found
  rw [← same, ← key]
  exact compile_of_mem_history (List.mem_of_find?_eq_some found)

theorem agrees_iff_wholeFirst (P : Platform) (built : addAll fuel calls {} = some m)
    (uri : Bytes) : Agrees P m uri ↔ WholeFirst P m uri := by
  have first := AssocList.forall_find?_iff (p := fun entry => matchesUri uri entry.2.1)
    (q := fun entry => matchesWhole uri entry.2.1 = true) (P.nodupKeys_visit m.resolvers.nodupKeys)
  have selected : Agrees P m uri ↔
      ∀ entry, (P.visit m.resolvers.entries).find? (fun entry => matchesUri uri entry.2.1) =
        some entry → matchesWhole uri entry.2.1 = true := by
    have compiled {entry : Entry ρ} (found : (P.visit m.resolvers.entries).find?
        (fun entry => matchesUri uri entry.2.1) = some entry) :=
      compile_of_mem_entries built (P.mem_visit_iff.mp (List.mem_of_find?_eq_some found))
    constructor
    · intro agrees entry found
      obtain ⟨regex, hcompile, whole⟩ := agrees entry.2.2 entry.1 (by
        rw [UriMapper.match, found]
        rfl)
      obtain rfl : entry.2.1 = regex := by
        rw [compiled found] at hcompile
        exact Option.some.inj hcompile
      exact whole
    · intro whole resolver regexStr answer
      obtain ⟨entry, found, same⟩ := Option.map_eq_some_iff.mp answer
      obtain ⟨rfl, rfl⟩ := Prod.mk.inj same
      exact ⟨entry.2.1, compiled found, whole entry found⟩
  rw [selected, first]
  simp only [P.mem_visit_iff, Bool.not_eq_true]
  rfl

/-- Without a NUL both see the same string. -/
theorem matchesUri_of_noNul (noNul : 0 ∉ uri) (rgx : ρ) :
    matchesUri uri rgx = matchesWhole uri rgx := by
  rw [matchesUri, matchesWhole, cStr_of_notMem noNul]

end Engine

/-! ## A route of dots -/

/-- A dot matches every byte but the line breaks. -/
def dot (c : UInt8) : UInt8 := if c = 10 ∨ c = 13 then c else 46

def dotRoute (v : Bytes) : Bytes := v.map dot

variable {uri v w : Bytes}

theorem dot_cases (c : UInt8) : dot c = 10 ∨ dot c = 13 ∨ dot c = 46 := by
  unfold dot
  split_ifs with br
  · exact br.imp_right Or.inl
  · exact Or.inr (Or.inr rfl)

theorem dot_plain (c : UInt8) : dot c ≠ 92 ∧ dot c ∉ [36, 40, 41, 43, 94, 123, 124, 125] := by
  obtain h | h | h := dot_cases c
  · rw [h]
    decide
  · rw [h]
    decide
  · rw [h]
    decide

theorem takes_dot (c : UInt8) : (if dot c = 46 then any else char (dot c)).takes c := by
  by_cases br : c = 10 ∨ c = 13
  · have literal : dot c = c := if_pos br
    have noDot : c ≠ 46 := by
      obtain rfl | rfl := br
      · decide
      · decide
    rw [literal, if_neg noDot]
    exact takes_char_iff.mpr rfl
  · have isDot : dot c = 46 := if_neg br
    rw [if_pos isDot]
    exact takes_any_iff.mpr (not_or.mp br)

theorem straight_dotRoute (v : Bytes) : Straight (dotRoute v) := by
  induction v with
  | nil => trivial
  | cons c v ih =>
    obtain ⟨noEscape, plain⟩ := dot_plain c
    exact (straight_cons_iff noEscape _).mpr ⟨plain, ih⟩

theorem takes_dotRoute (v : Bytes) : List.Forall₂ takes (exactItems (dotRoute v)) v := by
  induction v with
  | nil => exact .nil
  | cons c v ih =>
    rw [dotRoute, List.map_cons, exactItems_cons (dot_plain c).1]
    exact .cons (takes_dot c) ih

theorem notMem_dotRoute {c : UInt8} (h : c ≠ 10 ∧ c ≠ 13 ∧ c ≠ 46) : c ∉ dotRoute v := by
  intro member
  obtain ⟨d, -, rfl⟩ := List.mem_map.mp member
  obtain e | e | e := dot_cases d
  · exact h.1 e
  · exact h.2.1 e
  · exact h.2.2 e

/-- The route of the dots is registered, and it matches these bytes but nothing longer. -/
theorem exists_dotRoute (v : Bytes) (resolver : Resolver) :
    ∃ fuel regex, addAll fuel [(dotRoute v, resolver)] {} =
        some (⟨(∅ : UnorderedMap Bytes (EcmaScript × Resolver)).insertOrAssign
          (exactText (dotRoute v)) (regex, resolver)⟩ : UriMapper EcmaScript) ∧
      (regexMatch regex v).isSome ∧
      ∀ w, v.length < w.length → (regexMatch regex w).isSome = false := by
  obtain ⟨_, compiled, -, -⟩ := compile_straight (straight_dotRoute v)
  obtain ⟨regular, accepts⟩ := straight_matches (straight_dotRoute v) compiled
  have noWildcard := containsWildcard_of_notMem (notMem_dotRoute (v := v) (c := 42) (by decide))
  have ends : Ends (dotRoute v) := fun _ braces =>
    notMem_dotRoute (c := 123) (by decide) (braces.subset List.mem_cons_self)
  have text : routeText (dotRoute v) = exactText (dotRoute v) := if_pos noWildcard
  have added : ({} : UriMapper EcmaScript).add ((dotRoute v).length + 2) (dotRoute v) resolver =
      some (.ok (resolver, _)) :=
    add_of_compile ends (text ▸ compiled) (Nat.lt_succ_self _)
  refine ⟨(dotRoute v).length + 2, _, ?_,
    (regexMatch_isSome_iff regular v).mpr ((accepts v).mpr (takes_dotRoute v)), ?_⟩
  · rw [addAll, added, text]
    rfl
  · intro w longer
    rw [← Bool.not_eq_true, regexMatch_isSome_iff regular w, accepts]
    intro taken
    rw [← taken.length_eq, (takes_dotRoute v).length_eq] at longer
    exact Nat.lt_irrefl _ longer

theorem length_cStr_lt (nul : 0 ∈ uri) : (cStr uri).length < uri.length := by
  induction uri with
  | nil => cases nul
  | cons c uri ih =>
    by_cases zero : c = 0
    · simp [cStr, zero]
    · have later : 0 ∈ uri := (List.mem_cons.mp nul).resolve_left (Ne.symm zero)
      have shorter := ih later
      rw [cStr] at shorter ⊢
      simpa [zero] using shorter

/-- Whatever the routes, `match` returns expressions that match the whole URI exactly when those
that match its front only are visited behind others; over all routes, exactly when the URI has no
NUL. -/
theorem agrees_iff_noNul (uri : Bytes) :
    (∀ (P : Platform) (fuel : ℕ) (calls : List (Bytes × Resolver)) (m : UriMapper EcmaScript),
      addAll fuel calls {} = some m → (Agrees P m uri ↔ WholeFirst P m uri)) ∧
    ((∀ (P : Platform) (fuel : ℕ) (calls : List (Bytes × Resolver)) (m : UriMapper EcmaScript),
      addAll fuel calls {} = some m → Agrees P m uri) ↔ 0 ∉ uri) := by
  refine ⟨fun P fuel calls m built => agrees_iff_wholeFirst P built uri, ?_⟩
  constructor
  · intro agrees nul
    obtain ⟨fuel, regex, built, front, longer⟩ :=
      exists_dotRoute (cStr uri) (fun _ => .throwing .regexError)
    have whole := (agrees_iff_wholeFirst Platform.newestFirst built uri).mp
      (agrees Platform.newestFirst fuel _ _ built)
    obtain ⟨other, member, -, before⟩ := whole ⟨_, regex, _⟩ List.mem_cons_self front
      (longer uri (length_cStr_lt nul))
    obtain rfl := List.mem_singleton.mp member
    exact Nat.lt_irrefl _ before
  · intro noNul P fuel calls m built
    rw [agrees_iff_wholeFirst P built]
    intro entry _ front notWhole
    rw [matchesUri_of_noNul noNul, notWhole] at front
    cases front

/-- A URI with a NUL, as it comes out of a request. -/
def nulUri : Bytes := chars "/a" ++ 0 :: chars "b"

/-- The expression of a wildcard route goes over the NUL. -/
theorem agrees_wildcard :
    ∃ m : UriMapper EcmaScript,
      addAll 5 [(chars "/*", fun _ => .throwing .regexError)] {} = some m ∧
      (m.match Platform.newestFirst nulUri).map Prod.snd = some (chars "(\\/.*|$)") ∧
      Agrees Platform.newestFirst m nulUri := by
  refine ⟨_, rfl, by decide, ((agrees_iff_noNul nulUri).1 Platform.newestFirst 5
    [(chars "/*", fun _ => .throwing .regexError)] _ rfl).mpr ?_⟩
  intro entry member _ notWhole
  obtain rfl := List.mem_singleton.mp member
  exact absurd notWhole (by decide)

/-- The route `/a` answers although it matches the front of the URI only. -/
theorem not_agrees_nul :
    ∃ (request : HttpRequest) (m : UriMapper EcmaScript),
      HttpRequest.createRequest (chars "GET " ++ nulUri ++ chars " HTTP/1.1\r\n") = some request ∧
      request.rawUri = nulUri ∧
      addAll 4 [(chars "/a", fun _ => .throwing .regexError)] {} = some m ∧
      (m.match Platform.newestFirst nulUri).map Prod.snd = some (chars "^\\/a$") ∧
      ¬ Agrees Platform.newestFirst m nulUri := by
  refine ⟨_, _, rfl, by decide, rfl, by decide, fun agrees => ?_⟩
  obtain ⟨regex, compiled, whole⟩ := agrees _ _ rfl
  obtain rfl := Option.some.inj compiled
  exact absurd whole (by decide)

end UriMapper

end Lightning
