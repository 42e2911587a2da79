import Lightning.UriMapper
import Lightning.Lib.RegexCaptures

/-!
# The parameters of a URI

`computeUriParameters` makes a C string of each end of a group, so the two strings run to the end of
the URI, and it searches the second in the first in order to cut. What it keeps begins where the
second occurs first, instead of ending there: it is the captured text only when nothing follows the
group (`uriParameter_eq_iff`).
-/

namespace Lightning

open Search

theorem cStr_of_notMem {bytes : Bytes} (noNul : 0 ∉ bytes) : cStr bytes = bytes := by
  rw [cStr, List.takeWhile_eq_self_iff]
  intro b member
  have : b ≠ 0 := by
    rintro rfl
    exact noNul member
  simpa using this

namespace HttpRequest

/-- The text that a group captured. -/
def capturedText (rawUri : Bytes) (capture : ℕ × ℕ) : Bytes :=
  (rawUri.take capture.2).drop capture.1

/-- Behind the front of `param` that was captured comes `postParam`. If what is cut off were as long
as what is left, `postParam` would stand at the beginning already. -/
theorem drop_findFirst_ne {text postParam : Bytes} (nonempty : postParam ≠ []) :
    (text ++ postParam).drop ((findFirst postParam (text ++ postParam)).getD 0) ≠ text := by
  intro same
  have contained : postParam <:+: text ++ postParam := (List.suffix_append _ _).isInfix
  obtain ⟨index, found⟩ := Option.isSome_iff_exists.mp ((findFirst_isSome_iff _ _).mpr contained)
  rw [found, Option.getD_some] at same
  have inside := length_le_of_findFirst found
  obtain ⟨-, occurs, first⟩ := (findFirst_eq_some_iff _ _ _).mp found
  rw [same] at occurs
  have positive : 0 < index := by
    have lengths := congrArg List.length same
    have pos := List.length_pos_iff.mpr nonempty
    rw [List.length_drop, List.length_append] at lengths
    omega
  exact first 0 positive (occurs.trans (List.prefix_append text postParam))

theorem uriParameter_eq_iff {rawUri : Bytes} {capture : ℕ × ℕ} (noNul : 0 ∉ rawUri)
    (forward : capture.1 ≤ capture.2) (inside : capture.2 ≤ rawUri.length) :
    uriParameter rawUri capture = capturedText rawUri capture ↔ capture.2 = rawUri.length := by
  have tail (n : ℕ) : cStr (rawUri.drop n) = rawUri.drop n :=
    cStr_of_notMem fun h => noNul (List.mem_of_mem_drop h)
  have split : rawUri.drop capture.1 =
      capturedText rawUri capture ++ rawUri.drop capture.2 := by
    have whole := congrArg (List.drop capture.1) (List.take_append_drop capture.2 rawUri)
    rw [List.drop_append_of_le_length (by rw [List.length_take]; omega)] at whole
    exact whole.symm
  simp only [uriParameter, tail]
  by_cases atEnd : capture.2 = rawUri.length
  · have nothing : rawUri.drop capture.2 = [] := List.drop_of_length_le (Nat.le_of_eq atEnd.symm)
    rw [split, nothing, List.append_nil, if_neg (by simp)]
    exact iff_of_true rfl atEnd
  · have more : rawUri.drop capture.2 ≠ [] := by
      rw [ne_eq, List.drop_eq_nil_iff]
      omega
    rw [split, if_pos fun h => more (List.eq_nil_of_length_eq_zero h)]
    exact iff_of_false (drop_findFirst_ne more) atEnd

theorem computeUriParameters_of_match {request : HttpRequest} {regex : EcmaScript}
    {captures : List (ℕ × ℕ)}
    (compiled : EcmaScript.compile request.frameworkInfo.matchedRegex = some regex)
    (matched : EcmaScript.regexMatch regex request.rawUri = some captures) :
    computeUriParameters EcmaScript request =
      .ok { request with uriParameters := captures.map (uriParameter request.rawUri) } := by
  rw [computeUriParameters, show (RegexEngine.compile _ : Option EcmaScript) = _ from compiled]
  dsimp only
  rw [show RegexEngine.regexMatch regex request.rawUri = _ from matched]

/-- `computeUriParameters` leaves one entry for each group, with the text that it captured. -/
def ParametersCaptured (request : HttpRequest) (regex : EcmaScript) (captures : List (ℕ × ℕ)) :
    Prop :=
  ∃ computed, computeUriParameters EcmaScript request = .ok computed ∧
    computed.uriParameters.length = regex.groups ∧
    computed.uriParameters = captures.map (capturedText request.rawUri)

/-- The parameters are what the groups captured, exactly when every group ends with the URI. -/
theorem parametersCaptured_iff {request : HttpRequest} {regex : EcmaScript}
    {captures : List (ℕ × ℕ)}
    (compiled : EcmaScript.compile request.frameworkInfo.matchedRegex = some regex)
    (matched : EcmaScript.regexMatch regex request.rawUri = some captures)
    (noNul : 0 ∉ request.rawUri) :
    ParametersCaptured request regex captures ↔
      ∀ capture ∈ captures, capture.2 = request.rawUri.length := by
  have each : captures.map (uriParameter request.rawUri) =
      captures.map (capturedText request.rawUri) ↔
        ∀ capture ∈ captures, capture.2 = request.rawUri.length := by
    rw [List.map_inj_left]
    apply forall₂_congr
    intro capture member
    obtain ⟨forward, inside⟩ := EcmaScript.regexMatch_inside matched capture member
    exact uriParameter_eq_iff noNul forward inside
  rw [← each, ParametersCaptured, computeUriParameters_of_match compiled matched]
  constructor
  · rintro ⟨_, same, -, texts⟩
    cases same
    exact texts
  · intro texts
    refine ⟨_, rfl, ?_, texts⟩
    rw [List.length_map, EcmaScript.regexMatch_length matched]

/-- The request for a URI that was resolved by an expression. -/
def resolved (matchedRegex rawUri : Bytes) : HttpRequest where
  method := chars "GET"
  rawUri := rawUri
  protocolVersion := chars "HTTP/1.1"
  uriParameters := []
  frameworkInfo := ⟨matchedRegex, 0⟩
  headers := ∅
  stream := false
  bodyRead := false

/-- The wildcard of `/a/*` stands for the end of the URI. -/
theorem parametersCaptured_trailing :
    ∃ regex, UriMapper.createWithWildcard 20 (chars "/a/*") = some (chars "\\/a(\\/.*|$)") ∧
      ParametersCaptured (resolved (chars "\\/a(\\/.*|$)") (chars "/a/x")) regex [(2, 4)] :=
  ⟨_, rfl, (parametersCaptured_iff rfl rfl (by decide)).mpr (by decide)⟩

/-- The wildcard of `/a/*/b` stands for `/x` here, but the parameter is `/b`. -/
theorem not_parametersCaptured :
    ∃ regex,
      UriMapper.createWithWildcard 20 (chars "/a/*/b") = some (chars "\\/a(\\/.*|$)\\/b") ∧
      EcmaScript.compile (chars "\\/a(\\/.*|$)\\/b") = some regex ∧
      EcmaScript.regexMatch regex (chars "/a/x/b") = some [(2, 4)] ∧
      ¬ ParametersCaptured (resolved (chars "\\/a(\\/.*|$)\\/b") (chars "/a/x/b")) regex
        [(2, 4)] := by
  refine ⟨_, rfl, rfl, rfl, ?_⟩
  rintro ⟨computed, same, -, texts⟩
  have parameters : computeUriParameters EcmaScript
      (resolved (chars "\\/a(\\/.*|$)\\/b") (chars "/a/x/b")) =
        .ok { resolved (chars "\\/a(\\/.*|$)\\/b") (chars "/a/x/b") with
          uriParameters := [chars "/b"] } := rfl
  cases parameters.symm.trans same
  exact absurd texts (by decide)

end HttpRequest

end Lightning
