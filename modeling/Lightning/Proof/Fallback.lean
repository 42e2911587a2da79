import Lightning.Proof.Routing
import Lightning.Proof.Middleware

/-!
# The fallback of `GET`

`get("*", resolver)` stores the resolver beside the mappers. A server that was built by calls of the
registering functions has for each method the mapper that the calls for this method build, and the
resolver of the last `get("*", …)`. The lookup reads the mappers only, so a `GET` request that
matches no route gets the 404 resolver, whatever was registered for `*`.
-/

namespace Lightning

open HttpProtocol ClientRequestHandler

/-- The public functions that register a route. -/
inductive RouteFunction where
  | get
  | post
  | put
  | head
  | resolveDelete
  | addResolver (method : Method)
  deriving DecidableEq, Repr

def RouteFunction.method : RouteFunction → Method
  | .get => .get
  | .post => .post
  | .put => .put
  | .head => .head
  | .resolveDelete => .delete
  | .addResolver method => method

structure RouteCall where
  function : RouteFunction
  uri : Bytes
  resolver : Resolver

namespace RouteCall

variable {ρ : Type} [RegexEngine ρ] {fuel : ℕ} {call : RouteCall} {server : HttpServer ρ}

def run (fuel : ℕ) (call : RouteCall) (server : HttpServer ρ) :
    Option (Except CppException (HttpServer ρ)) :=
  match call.function with
  | .get => server.get fuel call.uri call.resolver
  | .post => server.post fuel call.uri call.resolver
  | .put => server.put fuel call.uri call.resolver
  | .head => server.head fuel call.uri call.resolver
  | .resolveDelete => server.resolveDelete fuel call.uri call.resolver
  | .addResolver method => server.addResolver fuel method call.uri call.resolver

/-- The call is `get("*", …)`. -/
def IsFallback (call : RouteCall) : Prop := call.function = .get ∧ call.uri = chars "*"

instance (call : RouteCall) : Decidable call.IsFallback :=
  inferInstanceAs (Decidable (_ ∧ _))

/-- What the call adds to the mapper of a method. -/
def route? (method : Method) (call : RouteCall) : Option (Bytes × Resolver) :=
  if call.function.method = method ∧ ¬ call.IsFallback then some (call.uri, call.resolver)
  else none

def fallback? (call : RouteCall) : Option Resolver :=
  if call.IsFallback then some call.resolver else none

theorem run_of_fallback (h : call.IsFallback) :
    call.run fuel server = some (.ok { server with defaultGetResolver := some call.resolver }) := by
  simp only [run, h.1, HttpServer.get, if_pos h.2]

/-- Every other call adds a route for its method. -/
theorem run_of_not_fallback (h : ¬ call.IsFallback) :
    call.run fuel server = server.addResolver fuel call.function.method call.uri call.resolver := by
  unfold run
  cases function : call.function with
  | get =>
    have other : call.uri ≠ chars "*" := fun star => h ⟨function, star⟩
    exact if_neg other
  | post => rfl
  | put => rfl
  | head => rfl
  | resolveDelete => rfl
  | addResolver method => rfl

end RouteCall

/-- The server after a call. One that throws leaves it as it was. -/
def HttpServer.after {ρ : Type} (server : HttpServer ρ) :
    Except CppException (HttpServer ρ) → HttpServer ρ
  | .error _ => server
  | .ok server' => server'

/-- The calls in their order. -/
def registerRoutes {ρ : Type} [RegexEngine ρ] (fuel : ℕ) :
    List RouteCall → HttpServer ρ → Option (HttpServer ρ)
  | [], server => some server
  | call :: calls, server =>
      (call.run fuel server).bind fun result => registerRoutes fuel calls (server.after result)

/-- What the calls add to the mapper of a method. -/
def routesOf (method : Method) (calls : List RouteCall) : List (Bytes × Resolver) :=
  calls.filterMap (RouteCall.route? method)

/-- The resolver of the last `get("*", …)`. -/
def fallback (calls : List RouteCall) : Option Resolver :=
  (calls.filterMap RouteCall.fallback?).getLast?

/-- The resolver that `runRequestResolver` calls, and the expression that matched. -/
def chosenResolver {ρ : Type} [RegexEngine ρ] (P : Platform) (server : HttpServer ρ)
    (request : HttpRequest) : Resolver × Bytes :=
  (server.getResolver P request.method request.rawUri).getD (HttpServer.defaultResolver, [])

/-- The request is resolved by the resolver and not by the 404 default resolver. -/
def ResolvedBy {ρ : Type} [RegexEngine ρ] (P : Platform) (server : HttpServer ρ)
    (request : HttpRequest) (resolver : Resolver) : Prop :=
  (chosenResolver P server request).1 = resolver ∧
    (chosenResolver P server request).1 ≠ HttpServer.defaultResolver

variable {ρ : Type} [RegexEngine ρ] {P : Platform} {fuel : ℕ} {calls : List RouteCall}
  {server server' : HttpServer ρ} {method : Method} {m : UriMapper ρ} {uri : Bytes}
  {resolver : Resolver} {result : Except CppException (HttpServer ρ)} {request : HttpRequest}
  {arrival : ℕ} {s : Stream}

theorem runRequestResolver_eq :
    runRequestResolver P server request arrival s =
      match prepareRequest ρ request (chosenResolver P server request).2 arrival with
      | .error e => (.error e, s)
      | .ok prepared => ((chosenResolver P server request).1 prepared).run P prepared s := rfl

/-! ## One call -/

theorem convertMethodToString_injective {first second : Method}
    (h : convertMethodToString first = convertMethodToString second) : first = second := by
  revert h
  cases first <;> cases second <;> decide

/-- `addResolver` adds to the mapper of its method. -/
theorem addResolver_lookup (ran : server.addResolver fuel method uri resolver = some result)
    (found : server.resolvers.lookup (convertMethodToString method) = some m) :
    ∃ added, m.add fuel uri resolver = some added ∧
      (server.after result).resolvers.lookup (convertMethodToString method) =
        some (match added with
          | .error _ => m
          | .ok stored => stored.2) := by
  obtain ⟨missing, -⟩ | ⟨mapper, added, found', hadded, rfl⟩ := HttpServer.addResolver_cases ran
  · cases found.symm.trans missing
  · obtain rfl : m = mapper := Option.some.inj (found.symm.trans found')
    refine ⟨added, hadded, ?_⟩
    cases added with
    | error e => exact found
    | ok stored =>
      have present : convertMethodToString method ∈ server.resolvers :=
        AList.lookup_isSome.mp (by rw [found]; rfl)
      exact (UnorderedMap.lookup_replace _).trans (if_pos ⟨rfl, present⟩)

/-- It leaves the mappers of the other methods and the fallback. -/
theorem addResolver_frame (ran : server.addResolver fuel method uri resolver = some result) :
    (server.after result).defaultGetResolver = server.defaultGetResolver ∧
      ∀ name ≠ convertMethodToString method,
        (server.after result).resolvers.lookup name = server.resolvers.lookup name := by
  obtain ⟨-, rfl⟩ | ⟨mapper, added, -, -, rfl⟩ := HttpServer.addResolver_cases ran
  · exact ⟨rfl, fun _ _ => rfl⟩
  · cases added with
    | error e => exact ⟨rfl, fun _ _ => rfl⟩
    | ok stored =>
      refine ⟨rfl, fun name other => ?_⟩
      exact (UnorderedMap.lookup_replace _).trans (if_neg fun same => other same.1)

/-! ## A sequence of calls -/

/-- The mapper of a method is the one that the calls for this method build. -/
theorem registerRoutes_lookup (built : registerRoutes fuel calls server = some server')
    (found : server.resolvers.lookup (convertMethodToString method) = some m) :
    ∃ m', UriMapper.addAll fuel (routesOf method calls) m = some m' ∧
      server'.resolvers.lookup (convertMethodToString method) = some m' := by
  induction calls generalizing server m with
  | nil =>
    obtain rfl : server = server' := Option.some.inj built
    exact ⟨m, rfl, found⟩
  | cons call calls ih =>
    obtain ⟨result, ran, rest⟩ := Option.bind_eq_some_iff.mp built
    by_cases star : call.IsFallback
    · rw [RouteCall.run_of_fallback star] at ran
      cases ran
      have skipped : call.route? method = none := if_neg fun h => h.2 star
      rw [routesOf, List.filterMap_cons_none skipped]
      exact ih rest found
    rw [RouteCall.run_of_not_fallback star] at ran
    by_cases same : call.function.method = method
    · have taken : call.route? method = some (call.uri, call.resolver) := if_pos ⟨same, star⟩
      rw [same] at ran
      obtain ⟨added, hadd, after⟩ := addResolver_lookup ran found
      obtain ⟨m', hrest, last⟩ := ih rest after
      refine ⟨m', ?_, last⟩
      rw [routesOf, List.filterMap_cons_some taken, UriMapper.addAll, hadd, ← hrest]
      cases added <;> rfl
    · have skipped : call.route? method = none := if_neg fun h => same h.1
      have other : convertMethodToString method ≠ convertMethodToString call.function.method :=
        fun h => same (convertMethodToString_injective h).symm
      rw [routesOf, List.filterMap_cons_none skipped]
      apply ih rest
      rw [(addResolver_frame ran).2 _ other, found]

/-- The last `get("*", …)` is what is stored as the fallback. -/
theorem registerRoutes_defaultGetResolver
    (built : registerRoutes fuel calls server = some server') :
    server'.defaultGetResolver = (fallback calls).or server.defaultGetResolver := by
  induction calls generalizing server with
  | nil =>
    obtain rfl : server = server' := Option.some.inj built
    rfl
  | cons call calls ih =>
    obtain ⟨result, ran, rest⟩ := Option.bind_eq_some_iff.mp built
    rw [ih rest]
    by_cases star : call.IsFallback
    · rw [RouteCall.run_of_fallback star] at ran
      cases ran
      have stored : call.fallback? = some call.resolver := if_pos star
      rw [fallback, fallback, List.filterMap_cons_some stored, List.getLast?_cons]
      cases (calls.filterMap RouteCall.fallback?).getLast? <;> rfl
    · rw [RouteCall.run_of_not_fallback star] at ran
      have skipped : call.fallback? = none := if_neg star
      rw [(addResolver_frame ran).1, fallback, fallback, List.filterMap_cons_none skipped]

/-! ## The lookup -/

/-- The lookup misses exactly the URIs that no route of the method matches. -/
theorem getResolver_eq_none_iff {threadCount : ℤ}
    (built : registerRoutes fuel calls (HttpServer.create ρ threadCount) = some server) :
    server.getResolver P (convertMethodToString method) uri = none ↔
      UriMapper.latest ρ fuel (routesOf method calls) uri = none := by
  have start : (HttpServer.create ρ threadCount).resolvers.lookup (convertMethodToString method) =
      some {} := by
    rw [create_lookup, if_pos (convertMethodToString_mem method)]
  obtain ⟨m, added, found⟩ := registerRoutes_lookup built start
  rw [HttpServer.getResolver, found]
  exact UriMapper.match_eq_none_iff P added

/-- An unmatched request gets the 404 resolver and an empty expression. -/
theorem chosenResolver_of_unmatched {threadCount : ℤ}
    (built : registerRoutes fuel calls (HttpServer.create ρ threadCount) = some server)
    (sent : request.method = convertMethodToString method)
    (unmatched : UriMapper.latest ρ fuel (routesOf method calls) request.rawUri = none) :
    chosenResolver P server request = (HttpServer.defaultResolver, []) := by
  rw [chosenResolver, sent, (getResolver_eq_none_iff built).mpr unmatched]
  rfl

/-- The last resolver that was registered for `*` answers no unmatched `GET` request. -/
theorem fallback_never_resolves {threadCount : ℤ}
    (built : registerRoutes fuel calls (HttpServer.create ρ threadCount) = some server)
    (last : fallback calls = some resolver) (sent : request.method = chars "GET")
    (unmatched : UriMapper.latest ρ fuel (routesOf .get calls) request.rawUri = none) :
    server.defaultGetResolver = some resolver ∧ ¬ ResolvedBy P server request resolver := by
  constructor
  · rw [registerRoutes_defaultGetResolver built, last]
    rfl
  · intro resolved
    have chosen := @chosenResolver_of_unmatched ρ _ P fuel calls server .get request threadCount
      built sent unmatched
    exact resolved.2 (congrArg Prod.fst chosen)

/-- A resolver with a response of its own. -/
def greeting : Resolver := fun _ =>
  .respond (HttpResponseBuilder.create.withStatusPhrase (chars "fallback")).build

/-- The fallback between two routes that do not match `GET /x`. -/
def fallbackBetween : List RouteCall :=
  [⟨.get, chars "/a", greeting⟩, ⟨.get, chars "*", greeting⟩, ⟨.post, chars "/x", greeting⟩]

theorem fallback_never_resolves_between :
    ∃ (server : HttpServer EcmaScript) (request : HttpRequest),
      registerRoutes 5 fallbackBetween (HttpServer.create EcmaScript 1) = some server ∧
      HttpRequest.createRequest (chars "GET /x HTTP/1.1\r\n\r\n") = some request ∧
      server.defaultGetResolver = some greeting ∧
      ¬ ResolvedBy Platform.newestFirst server request greeting := by
  refine ⟨_, _, rfl, rfl, ?_⟩
  exact @fallback_never_resolves EcmaScript _ Platform.newestFirst 5 fallbackBetween _ greeting _ 1
    rfl rfl rfl (by decide)

/-- `GET /x` gets the 404 response although a fallback is registered. -/
theorem fallback_not_resolving :
    ∃ (server : HttpServer EcmaScript) (request : HttpRequest),
      registerRoutes 5 fallbackBetween (HttpServer.create EcmaScript 1) = some server ∧
      fallback fallbackBetween = some greeting ∧
      HttpRequest.createRequest (chars "GET /x HTTP/1.1\r\n\r\n") = some request ∧
      request.method = chars "GET" ∧
      UriMapper.latest EcmaScript 5 (routesOf .get fallbackBetween) request.rawUri = none ∧
      (runRequestResolver Platform.newestFirst server request 0 {}).1 =
        .ok ((HttpResponseBuilder.create.withStatusCode 404).withStatusPhrase
          (chars "Not Found")).build ∧
      ¬ ResolvedBy Platform.newestFirst server request greeting := by
  refine ⟨_, _, rfl, rfl, rfl, rfl, by decide, rfl, ?_⟩
  rintro ⟨-, other⟩
  exact other rfl

end Lightning
