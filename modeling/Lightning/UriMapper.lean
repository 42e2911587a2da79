import Lightning.Resolver

/-!
# The URI mapper

Routes become regular expressions by text substitution. `formatEx` calls itself on its result, and
nothing in the source bounds that recursion, so the functions that reach it take a bound on its
depth and answer `none` when that does not suffice. `match` returns the first matching entry in the
iteration order of the hash map.
-/

namespace Lightning

open Search

namespace strings

/-- `regex_replace(str, special, "\\$&")`, where `special` is an alternative of escaped
characters. -/
def escape (special str : Bytes) : Bytes :=
  str.flatMap fun c => if c ∈ special then [92, c] else [c]

def sanitizeForRegex (str : Bytes) : Bytes := escape (chars "[]*/?") str

def sanitizeExceptWildcardForRegex (str : Bytes) : Bytes := escape (chars "[]/?") str

/-- The `for` loop of `formatEx` over the replacers: the text so far and the new offset. -/
def replaceTokens (str sepratorToken : Bytes) : List Bytes → Bytes → ℕ → Option (Bytes × ℕ)
  | [], replaced, offset => some (replaced, offset)
  | replacer :: replacers, replaced, offset =>
      match findFrom sepratorToken str offset with
      | none => none
      | some tokenIndex =>
          replaceTokens str sepratorToken replacers
            (replaced ++ (str.drop offset).take (tokenIndex - offset) ++ replacer)
            (tokenIndex + sepratorToken.length)

/-- The inner option is the result of the source, the outer one is `none` past the bound. -/
def formatEx : ℕ → Bytes → Bytes → List Bytes → Option (Option Bytes)
  | 0, _, _, _ => none
  | fuel + 1, str, sepratorToken, replacers =>
      match replaceTokens str sepratorToken replacers [] 0 with
      | none => some none
      | some (replaced, offset) =>
          let replaced := replaced ++ str.drop offset
          if replaced.length ≠ 0 then
            (formatEx fuel replaced sepratorToken replacers).map fun result =>
              some (result.getD replaced)
          else some (some replaced)

def format (fuel : ℕ) (str : Bytes) (replacers : List Bytes) : Option (Option Bytes) :=
  formatEx fuel str (chars "\x7b\x7d") replacers

end strings

/-- `std::unordered_map<std::string, std::pair<std::regex, Resolver>>`. -/
structure UriMapper (ρ : Type) where
  resolvers : UnorderedMap Bytes (ρ × Resolver) := ∅

namespace UriMapper

variable {ρ : Type} [RegexEngine ρ]

def containsWildcard (uri : Bytes) : Option ℕ :=
  match findFirst (chars "*") uri with
  | none => none
  | some wildcardIndex =>
      let charBefore := if wildcardIndex > 0 then uri[wildcardIndex - 1]? else some 0
      if charBefore = some 47 then some wildcardIndex else none

def createExactMatch (fuel : ℕ) (uri : Bytes) : Option (Except CppException Bytes) :=
  let literal := strings.sanitizeForRegex uri
  (strings.format fuel (chars "^\x7b\x7d$") [literal]).map fun formatted =>
    let result := formatted.getD []
    if result.length = 0 then .error (.runtimeError "Error while formatting the template")
    else .ok result

def createWithWildcard (fuel : ℕ) (uri : Bytes) : Option Bytes :=
  let cleanUri := strings.sanitizeExceptWildcardForRegex uri
  (strings.formatEx fuel cleanUri (chars "\\/*") [chars "(\\/.*|$)"]).map fun formatted =>
    formatted.getD uri

def createRegex (fuel : ℕ) (uri : Bytes) : Option (Except CppException Bytes) :=
  if containsWildcard uri = none then createExactMatch fuel uri
  else (createWithWildcard fuel uri).map .ok

/-- The resolver that is now stored and the new map. -/
def add (fuel : ℕ) (uri : Bytes) (resolver : Resolver) (m : UriMapper ρ) :
    Option (Except CppException (Resolver × UriMapper ρ)) :=
  (createRegex fuel uri).map fun created =>
    match created with
    | .error e => .error e
    | .ok regexStr =>
        match (RegexEngine.compile regexStr : Option ρ) with
        | none => .error .regexError
        | some compiled =>
            .ok (resolver, ⟨m.resolvers.insertOrAssign regexStr (compiled, resolver)⟩)

/-- `regex_match(uri.data(), …)` looks at the URI up to its first NUL. -/
def matchesUri (uri : Bytes) (rgx : ρ) : Bool := (RegexEngine.regexMatch rgx (cStr uri)).isSome

def «match» (P : Platform) (uri : Bytes) (m : UriMapper ρ) : Option (Resolver × Bytes) :=
  ((P.visit m.resolvers.entries).find? fun entry => matchesUri uri entry.2.1).map fun entry =>
    (entry.2.2, entry.1)

end UriMapper

end Lightning
