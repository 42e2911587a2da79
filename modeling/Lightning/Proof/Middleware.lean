import Lightning.Proof.Routing
import Lightning.ClientRequestHandler

/-!
# Middlewares

`usePreMiddleware` and `usePostMiddleware` fill a container that the request handler never looks at.
`pipeline` is the handler as the documentation of the middleware types describes it: the
pre-middlewares run before the resolver and may answer in its place, and the post-middlewares run on
the response before it is serialised. For a chain and a head, the handler of every server with that
chain writes what the pipeline writes exactly when the chain does nothing there (`Inert`).
-/

namespace Lightning

open HttpProtocol ClientRequestHandler

/-- A call of `usePreMiddleware` or `usePostMiddleware`. -/
inductive Registration where
  | pre (middleware : DefaultPreMiddlewareType)
  | post (middleware : DefaultPostMiddlewareType)

namespace Registration

def pre? : Registration → Option DefaultPreMiddlewareType
  | .pre middleware => some middleware
  | .post _ => none

def post? : Registration → Option DefaultPostMiddlewareType
  | .pre _ => none
  | .post middleware => some middleware

end Registration

/-! ## The reference -/

/-- The pre-middlewares run in order until one returns a response. -/
def preChain : List DefaultPreMiddlewareType → DefaultPreMiddlewareType
  | [], request => .ok (none, request)
  | middleware :: chain, request =>
      match middleware request with
      | .error e => .error e
      | .ok (some response, request) => .ok (some response, request)
      | .ok (none, request) => preChain chain request

/-- Every post-middleware is applied in order. -/
def postChain : List DefaultPostMiddlewareType → HttpResponse → Except CppException HttpResponse
  | [], response => .ok response
  | middleware :: chain, response =>
      match middleware response with
      | .error e => .error e
      | .ok (_, response) => postChain chain response

section Pipeline

variable {ρ : Type} [RegexEngine ρ]

/-- The response of the pipeline: that of a pre-middleware or of the resolver, after the
post-middlewares. -/
def produce (P : Platform) (server : HttpServer ρ) (request : HttpRequest) (s : Stream) :
    Except CppException HttpResponse × Stream :=
  match preChain server.middlewares.preMiddlewares request with
  | .error e => (.error e, s)
  | .ok (some response, _) => (postChain server.middlewares.postMiddlewares response, s)
  | .ok (none, request) =>
      match runRequestResolver P server request P.now s with
      | (.error e, s) => (.error e, s)
      | (.ok response, s) => (postChain server.middlewares.postMiddlewares response, s)

/-- What the handler does with a response: it is written with its `Connection` header, and an
exception leads to the 500 response. -/
def answer (P : Platform) (client : ClientId) (keepAlive : Bool) :
    Except CppException HttpResponse × Stream → HandlerOutcome
  | (.error _, s) => writeAndReturn client (INTERNAL_SERVER_ERROR P) s
  | (.ok response, s) =>
      match writeAll (replyBytes P keepAlive response) s with
      | (.error _, s) => writeAndReturn client (INTERNAL_SERVER_ERROR P) s
      | (.ok _, s) => signalReturn client keepAlive s

/-- The handler with the middlewares of the server in their places. -/
def pipeline (P : Platform) (server : HttpServer ρ) (client : ClientId) (requestBuffer : Bytes)
    (s : Stream) : HandlerOutcome :=
  match HttpRequest.createRequest requestBuffer with
  | none => writeAndReturn client (BAD_REQUEST_ERROR P) s
  | some request => answer P client (wantsKeepAlive request) (produce P server request s)

/-- The handler answers with what the resolver gives. -/
theorem call_eq_answer {P : Platform} {server : HttpServer ρ} {client : ClientId}
    {requestBuffer : Bytes} {request : HttpRequest} {s : Stream}
    (parsed : HttpRequest.createRequest requestBuffer = some request) :
    call P server client requestBuffer s =
      answer P client (wantsKeepAlive request) (runRequestResolver P server request P.now s) := by
  rcases ran : runRequestResolver P server request P.now s with ⟨e | response, s'⟩
  · have returned : (runRequestResolver P server request P.now s).1 = .error e := by rw [ran]
    have replied : (respond P server request (wantsKeepAlive request) s).1 = .error e := by
      rw [respond_of_error returned]
    rw [call_of_respond_error parsed replied, respond_of_error returned, ran]
    rfl
  · have returned : (runRequestResolver P server request P.now s).1 = .ok response := by rw [ran]
    have replied := @respond_of_ok ρ _ P server request s (wantsKeepAlive request) response returned
    rw [ran] at replied
    rcases hwrite : writeAll (replyBytes P (wantsKeepAlive request) response) s' with ⟨e | count, t⟩
    · rw [hwrite] at replied
      rw [call_of_respond_error parsed (congrArg Prod.fst replied), replied, answer, hwrite]
    · rw [hwrite] at replied
      rw [call_of_respond_ok parsed (congrArg Prod.fst replied), replied, answer, hwrite]

end Pipeline

/-! ## Configured servers -/

section Configured

variable {ρ : Type} [RegexEngine ρ] {regs : List Registration} {server server' : HttpServer ρ}
  {P : Platform} {fuel : ℕ} {pattern regexStr : Bytes} {compiled : ρ} {resolver : Resolver}
  {method : Method}

/-- The servers that calls of the public functions can build, with the middlewares they were given.
A call that throws changes nothing. -/
inductive Configured : List Registration → HttpServer ρ → Prop
  | create (threadCount : ℤ) : Configured [] (HttpServer.create ρ threadCount)
  | addResolver {regs : List Registration} {server server' : HttpServer ρ} (fuel : ℕ)
      (method : Method) (uri : Bytes) (resolver : Resolver) :
      Configured regs server → server.addResolver fuel method uri resolver = some (.ok server') →
      Configured regs server'
  | defaultGetResolver {regs : List Registration} {server : HttpServer ρ} (resolver : Resolver) :
      Configured regs server → Configured regs { server with defaultGetResolver := some resolver }
  | usePreMiddleware {regs : List Registration} {server : HttpServer ρ}
      (middleware : DefaultPreMiddlewareType) :
      Configured regs server →
      Configured (regs ++ [.pre middleware]) (server.usePreMiddleware middleware)
  | usePostMiddleware {regs : List Registration} {server : HttpServer ρ}
      (middleware : DefaultPostMiddlewareType) :
      Configured regs server →
      Configured (regs ++ [.post middleware]) (server.usePostMiddleware middleware)

/-- Some route that matches the URI of the request can be added for its method. -/
def Routable (ρ : Type) [RegexEngine ρ] (request : HttpRequest) : Prop :=
  request.method ∈ supportedHttpMethods ∧
    ∃ fuel pattern regexStr, ∃ compiled : ρ,
      UriMapper.createRegex fuel pattern = some (.ok regexStr) ∧
      RegexEngine.compile regexStr = some compiled ∧
      UriMapper.matchesUri request.rawUri compiled = true

/-- The mappers belong to supported methods and hold expressions of routes. -/
def MappersOk (server : HttpServer ρ) : Prop :=
  ∀ method mapper, server.resolvers.lookup method = some mapper →
    method ∈ supportedHttpMethods ∧
      ∀ entry ∈ mapper.resolvers.entries, ∃ fuel pattern,
        UriMapper.createRegex fuel pattern = some (.ok entry.1) ∧
        RegexEngine.compile entry.1 = some entry.2.1

theorem addResolver_eq (h : server.addResolver fuel method pattern resolver = some (.ok server')) :
    ∃ mapper regexStr, ∃ compiled : ρ,
      server.resolvers.lookup (convertMethodToString method) = some mapper ∧
      UriMapper.createRegex fuel pattern = some (.ok regexStr) ∧
      RegexEngine.compile regexStr = some compiled ∧
      server' = { server with
        resolvers := server.resolvers.replace (convertMethodToString method)
          ⟨mapper.resolvers.insertOrAssign regexStr (compiled, resolver)⟩ } := by
  obtain ⟨-, thrown⟩ | ⟨mapper, added, found, hadded, after⟩ := HttpServer.addResolver_cases h
  · cases thrown
  · obtain ⟨created, hcreated, rfl⟩ := Option.map_eq_some_iff.mp hadded
    cases created with
    | error e => cases after
    | ok regexStr =>
      dsimp only at after
      cases hcompiled : (RegexEngine.compile regexStr : Option ρ) with
      | none =>
        rw [hcompiled] at after
        cases after
      | some compiled =>
        rw [hcompiled] at after
        cases after
        exact ⟨mapper, regexStr, compiled, found, hcreated, hcompiled, rfl⟩

theorem Configured.middlewares_eq (h : Configured regs server) :
    server.middlewares =
      ⟨regs.filterMap Registration.pre?, regs.filterMap Registration.post?⟩ := by
  induction h with
  | create threadCount => rfl
  | addResolver fuel method uri resolver _ added ih =>
    obtain ⟨mapper, regexStr, compiled, -, -, -, rfl⟩ := addResolver_eq added
    exact ih
  | defaultGetResolver resolver _ ih => exact ih
  | usePreMiddleware middleware _ ih =>
    rw [HttpServer.usePreMiddleware, MiddlewareContainer.addPre, ih]
    simp [Registration.pre?, Registration.post?]
  | usePostMiddleware middleware _ ih =>
    rw [HttpServer.usePostMiddleware, MiddlewareContainer.addPost, ih]
    simp [Registration.pre?, Registration.post?]

/-- The constructor leaves an empty mapper for every supported method. -/
theorem create_lookup (ρ : Type) (threadCount : ℤ) (method : Bytes) :
    (HttpServer.create ρ threadCount).resolvers.lookup method =
      if method ∈ supportedHttpMethods then some {} else none := by
  have empty : ∀ k v, (∅ : UnorderedMap Bytes (UriMapper ρ)).lookup k = some v → v = {} := by
    intro k v found
    rw [AList.lookup_empty] at found
    cases found
  have filled := @UnorderedMap.lookup_foldl_emplace Bytes (UriMapper ρ) _ method {} ∅
    supportedHttpMethods empty
  rw [AList.lookup_empty] at filled
  rw [HttpServer.create]
  by_cases supported : method ∈ supportedHttpMethods
  · rw [if_pos supported] at filled ⊢
    rw [filled]
  · rw [if_neg supported] at filled ⊢
    rw [filled]

theorem Configured.mappersOk (h : Configured regs server) : MappersOk server := by
  induction h with
  | create threadCount =>
    intro method mapper found
    rw [create_lookup] at found
    split_ifs at found with supported
    cases found
    exact ⟨supported, fun entry h => absurd h List.not_mem_nil⟩
  | addResolver fuel method uri resolver _ added ih =>
    obtain ⟨mapper, regexStr, compiled, found, created, hcompiled, rfl⟩ := addResolver_eq added
    obtain ⟨supported, before⟩ := ih _ mapper found
    intro method' mapper' found'
    rw [UnorderedMap.lookup_replace] at found'
    split_ifs at found' with same
    · cases found'
      rw [same.1]
      refine ⟨supported, fun entry hentry => ?_⟩
      rw [← AList.mem_lookup_iff, UnorderedMap.lookup_insertOrAssign] at hentry
      split_ifs at hentry with key
      · have stored := Option.some.inj hentry
        rw [key, ← stored]
        exact ⟨fuel, uri, created, hcompiled⟩
      · exact before entry (AList.mem_lookup_iff.mp hentry)
    · exact ih method' mapper' found'
  | defaultGetResolver resolver _ ih => exact ih
  | usePreMiddleware middleware _ ih => exact ih
  | usePostMiddleware middleware _ ih => exact ih

/-- A request that no route can match gets the default resolver. -/
theorem Configured.getResolver_eq_none {request : HttpRequest} (h : Configured regs server)
    (unroutable : ¬ Routable ρ request) :
    server.getResolver P request.method request.rawUri = none := by
  unfold HttpServer.getResolver
  cases found : server.resolvers.lookup request.method with
  | none => rfl
  | some mapper =>
    dsimp only
    obtain ⟨supported, expressions⟩ := h.mappersOk _ mapper found
    rw [UriMapper.match, Option.map_eq_none_iff, List.find?_eq_none]
    intro entry visited passes
    obtain ⟨fuel, pattern, created, hcompiled⟩ := expressions entry (P.mem_visit_iff.mp visited)
    exact unroutable ⟨supported, fuel, pattern, entry.1, entry.2.1, created, hcompiled, passes⟩

/-! ## Servers with one route -/

/-- The registrations, applied to a server. -/
def register (regs : List Registration) (server : HttpServer ρ) : HttpServer ρ :=
  regs.foldl (fun server reg =>
    match reg with
    | .pre middleware => server.usePreMiddleware middleware
    | .post middleware => server.usePostMiddleware middleware) server

theorem configured_register {before : List Registration} (h : Configured before server) :
    Configured (before ++ regs) (register regs server) := by
  induction regs generalizing before server with
  | nil => rwa [List.append_nil]
  | cons reg regs ih =>
    rw [List.append_cons]
    cases reg with
    | pre middleware => exact ih (h.usePreMiddleware middleware)
    | post middleware => exact ih (h.usePostMiddleware middleware)

omit [RegexEngine ρ] in
theorem register_resolvers (regs : List Registration) (server : HttpServer ρ) :
    (register regs server).resolvers = server.resolvers := by
  induction regs generalizing server with
  | nil => rfl
  | cons reg regs ih =>
    rw [register, List.foldl_cons]
    cases reg with
    | pre middleware => exact ih (server.usePreMiddleware middleware)
    | post middleware => exact ih (server.usePostMiddleware middleware)

/-- A server with a single route. -/
def routed (method : Method) (regexStr : Bytes) (compiled : ρ) (resolver : Resolver) :
    HttpServer ρ :=
  { HttpServer.create ρ 1 with
    resolvers := (HttpServer.create ρ 1).resolvers.replace (convertMethodToString method)
      ⟨UnorderedMap.insertOrAssign regexStr (compiled, resolver) ∅⟩ }

theorem convertMethodToString_mem (method : Method) :
    convertMethodToString method ∈ supportedHttpMethods := by
  cases method <;> decide

theorem exists_method {name : Bytes} (supported : name ∈ supportedHttpMethods) :
    ∃ method, convertMethodToString method = name := by
  have all : ∀ name ∈ supportedHttpMethods, ∃ method, convertMethodToString method = name := by
    simp only [supportedHttpMethods, List.forall_mem_cons]
    exact ⟨⟨.options, rfl⟩, ⟨.get, rfl⟩, ⟨.head, rfl⟩, ⟨.post, rfl⟩, ⟨.put, rfl⟩, ⟨.delete, rfl⟩,
      ⟨.trace, rfl⟩, ⟨.connect, rfl⟩, fun _ h => absurd h List.not_mem_nil⟩
  exact all name supported

/-- The route is added by one call of `addResolver`. -/
theorem configured_routed (regs : List Registration) (method : Method) (resolver : Resolver)
    (created : UriMapper.createRegex fuel pattern = some (.ok regexStr))
    (hcompiled : RegexEngine.compile regexStr = some compiled) :
    Configured regs (register regs (routed method regexStr compiled resolver)) := by
  have added : (HttpServer.create ρ 1).addResolver fuel method pattern resolver =
      some (.ok (routed method regexStr compiled resolver)) := by
    unfold HttpServer.addResolver
    dsimp only
    rw [create_lookup, if_pos (convertMethodToString_mem method)]
    dsimp only
    rw [UriMapper.add, created]
    simp only [Option.map_some, hcompiled, Except.map]
    rfl
  exact configured_register (.addResolver fuel method pattern resolver (.create 1) added)

/-- The only route is used for its method and the URIs it matches. -/
theorem getResolver_routed (regs : List Registration) (method : Method) (resolver : Resolver)
    (name uri : Bytes) :
    (register regs (routed method regexStr compiled resolver)).getResolver P name uri =
      if name = convertMethodToString method ∧ UriMapper.matchesUri uri compiled = true then
        some (resolver, regexStr)
      else none := by
  have present : convertMethodToString method ∈ (HttpServer.create ρ 1).resolvers := by
    rw [← AList.lookup_isSome, create_lookup, if_pos (convertMethodToString_mem method)]
    rfl
  rw [HttpServer.getResolver, register_resolvers, routed, UnorderedMap.lookup_replace]
  by_cases same : name = convertMethodToString method
  · have single : P.visit [(⟨regexStr, compiled, resolver⟩ : UriMapper.Entry ρ)] =
        [⟨regexStr, compiled, resolver⟩] := List.perm_singleton.mp (P.visit_perm _)
    rw [if_pos ⟨same, present⟩]
    show ((P.visit [(⟨regexStr, compiled, resolver⟩ : UriMapper.Entry ρ)]).find? _).map _ = _
    rw [single, List.find?_singleton]
    cases UriMapper.matchesUri uri compiled <;> simp [same]
  · have nothing : P.visit ([] : List (UriMapper.Entry ρ)) = [] :=
      List.perm_nil.mp (P.visit_perm _)
    have unused : ¬ (name = convertMethodToString method ∧
        UriMapper.matchesUri uri compiled = true) := (same ·.1)
    rw [if_neg (same ·.1), create_lookup, if_neg unused]
    by_cases supported : name ∈ supportedHttpMethods
    · rw [if_pos supported]
      show ((P.visit ([] : List (UriMapper.Entry ρ))).find? _).map _ = none
      rw [nothing]
      rfl
    · rw [if_neg supported]

end Configured

/-! ## What a resolver can see -/

section Resolver

variable {ρ : Type} [RegexEngine ρ] {P : Platform} {server : HttpServer ρ}
  {request request' : HttpRequest} {regexStr : Bytes} {compiled : ρ} {resolver : Resolver}
  {arrival : ℕ} {s : Stream}

/-- The requests agree up to the fields that the handler sets itself. -/
structure SameForResolver (request request' : HttpRequest) : Prop where
  method : request.method = request'.method
  rawUri : request.rawUri = request'.rawUri
  protocolVersion : request.protocolVersion = request'.protocolVersion
  headers : request.headers = request'.headers
  bodyRead : request.bodyRead = request'.bodyRead

instance (request request' : HttpRequest) : Decidable (SameForResolver request request') :=
  decidable_of_iff (request.method = request'.method ∧ request.rawUri = request'.rawUri ∧
      request.protocolVersion = request'.protocolVersion ∧ request.headers = request'.headers ∧
      request.bodyRead = request'.bodyRead)
    ⟨fun ⟨h₁, h₂, h₃, h₄, h₅⟩ => ⟨h₁, h₂, h₃, h₄, h₅⟩,
      fun ⟨h₁, h₂, h₃, h₄, h₅⟩ => ⟨h₁, h₂, h₃, h₄, h₅⟩⟩

theorem SameForResolver.trans_symm {other : HttpRequest} (h : SameForResolver request other)
    (h' : SameForResolver request' other) : SameForResolver request request' where
  method := h.method.trans h'.method.symm
  rawUri := h.rawUri.trans h'.rawUri.symm
  protocolVersion := h.protocolVersion.trans h'.protocolVersion.symm
  headers := h.headers.trans h'.headers.symm
  bodyRead := h.bodyRead.trans h'.bodyRead.symm

theorem prepareRequest_congr (same : SameForResolver request request') :
    prepareRequest ρ request regexStr arrival = prepareRequest ρ request' regexStr arrival := by
  obtain ⟨method, rawUri, version, parameters, info, headers, stream, bodyRead⟩ := request
  obtain ⟨method', rawUri', version', parameters', info', headers', stream', bodyRead'⟩ := request'
  obtain ⟨h₁, h₂, h₃, h₄, h₅⟩ := same
  dsimp only at h₁ h₂ h₃ h₄ h₅
  subst h₁ h₂ h₃ h₄ h₅
  cases compiled : (RegexEngine.compile regexStr : Option ρ) with
  | none => rw [prepareRequest_of_none compiled, prepareRequest_of_none compiled]
  | some regex => rw [prepareRequest_of_some compiled, prepareRequest_of_some compiled]

/-- An expression that compiles lets every request through to the resolver. -/
theorem prepareRequest_ok (h : RegexEngine.compile regexStr = some compiled) :
    ∃ prepared, prepareRequest ρ request regexStr arrival = .ok prepared ∧
      SameForResolver request prepared :=
  ⟨_, prepareRequest_of_some h, ⟨rfl, rfl, rfl, rfl, rfl⟩⟩

theorem runRequestResolver_congr (same : SameForResolver request request') :
    runRequestResolver P server request arrival s =
      runRequestResolver P server request' arrival s := by
  simp only [runRequestResolver, same.method, same.rawUri, prepareRequest_congr same]

theorem runRequestResolver_of_some
    (found : server.getResolver P request.method request.rawUri = some (resolver, regexStr))
    (h : RegexEngine.compile regexStr = some compiled) :
    ∃ prepared, SameForResolver request prepared ∧
      runRequestResolver P server request arrival s = (resolver prepared).run P prepared s := by
  obtain ⟨prepared, ready, same⟩ := @prepareRequest_ok ρ _ request regexStr compiled arrival h
  refine ⟨prepared, same, ?_⟩
  simp only [runRequestResolver, found, Option.getD_some, ready]

/-- The response of the default resolver. -/
def notFound : HttpResponse :=
  ((HttpResponseBuilder.create.withStatusCode 404).withStatusPhrase (chars "Not Found")).build

theorem runRequestResolver_of_none
    (nothing : server.getResolver P request.method request.rawUri = none)
    (h : RegexEngine.compile [] = some compiled) :
    runRequestResolver P server request arrival s = (.ok notFound, s) := by
  obtain ⟨prepared, ready, -⟩ := @prepareRequest_ok ρ _ request [] compiled arrival h
  simp only [runRequestResolver, nothing, Option.getD_none, ready]
  rfl

end Resolver

/-! ## Middlewares that do nothing -/

/-- The two responses are written as the same bytes. -/
def SameReply (keepAlive : Bool) (response response' : HttpResponse) : Prop :=
  ∀ P transport,
    IStream.handed transport (replyBytes P keepAlive response)
        (intOfSize (replyBytes P keepAlive response).length) =
      IStream.handed transport (replyBytes P keepAlive response')
        (intOfSize (replyBytes P keepAlive response').length)

/-- The middlewares do nothing for this head. When a route can match the request the pre-middlewares
let it through unchanged and the post-middlewares leave what is written of any response as it is;
otherwise the request stays without a route or is answered early, and what is written is the reply
to a request without a route. -/
structure Inert (ρ : Type) [RegexEngine ρ] (regs : List Registration) (requestBuffer : Bytes) :
    Prop where
  routable : ∀ request, HttpRequest.createRequest requestBuffer = some request →
    Routable ρ request →
      (∃ request', preChain (regs.filterMap Registration.pre?) request = .ok (none, request') ∧
        SameForResolver request request') ∧
      ∀ response, ∃ response',
        postChain (regs.filterMap Registration.post?) response = .ok response' ∧
          SameReply (wantsKeepAlive request) response' response
  unroutable : ∀ request, HttpRequest.createRequest requestBuffer = some request →
    ¬ Routable ρ request →
      ∃ early request', preChain (regs.filterMap Registration.pre?) request =
          .ok (early, request') ∧ (early = none → ¬ Routable ρ request') ∧
        ∃ response', postChain (regs.filterMap Registration.post?) (early.getD notFound) =
            .ok response' ∧ SameReply (wantsKeepAlive request) response' notFound

/-- For every server with these registrations the handler writes for this head what the pipeline
writes. -/
def Agrees (ρ : Type) [RegexEngine ρ] (regs : List Registration) (requestBuffer : Bytes) : Prop :=
  ∀ server : HttpServer ρ, Configured regs server → ∀ P client s,
    (call P server client requestBuffer s).stream.socket.sent =
      (pipeline P server client requestBuffer s).stream.socket.sent

section Inert

variable {ρ : Type} [RegexEngine ρ] {regs : List Registration} {P : Platform}
  {server : HttpServer ρ} {client : ClientId} {keepAlive : Bool} {response response' : HttpResponse}
  {request : HttpRequest} {requestBuffer : Bytes} {s : Stream}

theorem answer_congr (same : SameReply keepAlive response response') :
    answer P client keepAlive (.ok response, s) = answer P client keepAlive (.ok response', s) := by
  simp only [answer, writeAll, IStream.write_congr (same P s.transport)]

theorem produce_eq (configured : Configured regs server) :
    produce P server request s =
      match preChain (regs.filterMap Registration.pre?) request with
      | .error e => (.error e, s)
      | .ok (some response, _) => (postChain (regs.filterMap Registration.post?) response, s)
      | .ok (none, request) =>
          match runRequestResolver P server request P.now s with
          | (.error e, s) => (.error e, s)
          | (.ok response, s) => (postChain (regs.filterMap Registration.post?) response, s) := by
  rw [produce, configured.middlewares_eq]

theorem agrees_of_inert (compilesEmpty : ∃ regex : ρ, RegexEngine.compile [] = some regex)
    (inert : Inert ρ regs requestBuffer) : Agrees ρ regs requestBuffer := by
  intro server configured P client s
  obtain ⟨empty, hempty⟩ := compilesEmpty
  cases parsed : HttpRequest.createRequest requestBuffer with
  | none => rw [call_of_malformed parsed, pipeline, parsed]
  | some request =>
    rw [call_eq_answer parsed, pipeline, parsed]
    dsimp only
    rw [produce_eq configured]
    by_cases routable : Routable ρ request
    · obtain ⟨⟨request', chain, same⟩, post⟩ := inert.routable request parsed routable
      rw [chain, runRequestResolver_congr same]
      dsimp only
      rcases runRequestResolver P server request' P.now s with ⟨e | response, t⟩
      · rfl
      · obtain ⟨response', produced, sameReply⟩ := post response
        dsimp only
        rw [produced, answer_congr sameReply]
    · rw [runRequestResolver_of_none (configured.getResolver_eq_none routable) hempty]
      obtain ⟨early, request', chain, stays, response', produced, sameReply⟩ :=
        inert.unroutable request parsed routable
      rw [chain]
      cases early with
      | none =>
        dsimp only
        rw [runRequestResolver_of_none (configured.getResolver_eq_none (stays rfl)) hempty]
        dsimp only
        rw [show postChain _ notFound = _ from produced, answer_congr sameReply]
      | some response =>
        dsimp only
        rw [show postChain _ response = _ from produced, answer_congr sameReply]

/-! ### Requests and responses that tell middlewares apart -/

/-- A stream whose first `send` fails. -/
def failing : Stream := { socket := { sends := [.fails 32] } }

def okResponse : HttpResponse := HttpResponseBuilder.create.build

def constantly (response : HttpResponse) : Resolver := fun _ => .respond response

/-- The only route of a server gets the requests for its method that it matches. -/
theorem runRequestResolver_routed {method : Method} {regexStr : Bytes} {compiled : ρ}
    (hcompiled : RegexEngine.compile regexStr = some compiled) (resolver : Resolver)
    (reached : request.method = convertMethodToString method ∧
      UriMapper.matchesUri request.rawUri compiled = true) (arrival : ℕ) :
    ∃ prepared, SameForResolver request prepared ∧
      runRequestResolver P (register regs (routed method regexStr compiled resolver)) request
        arrival s = (resolver prepared).run P prepared s :=
  runRequestResolver_of_some (by rw [getResolver_routed, if_pos reached]) hcompiled

/-- A resolver that recognises one request. -/
def onlyFor (request : HttpRequest) : Resolver := fun prepared =>
  .respond (if SameForResolver request prepared then okResponse else notFound)

/-- Another request does not notice the difference. -/
theorem runRequestResolver_onlyFor {request' : HttpRequest} {method : Method} {regexStr : Bytes}
    {compiled : ρ} (hcompiled : RegexEngine.compile regexStr = some compiled)
    (different : ¬ SameForResolver request request') (arrival : ℕ) :
    runRequestResolver P (register regs (routed method regexStr compiled (onlyFor request)))
        request' arrival s =
      runRequestResolver P (register regs (routed method regexStr compiled (constantly notFound)))
        request' arrival s := by
  by_cases reached : request'.method = convertMethodToString method ∧
      UriMapper.matchesUri request'.rawUri compiled = true
  · obtain ⟨prepared, same, ran⟩ := @runRequestResolver_routed ρ _ regs P request' s method regexStr
      compiled hcompiled (onlyFor request) reached arrival
    obtain ⟨prepared', -, ran'⟩ := @runRequestResolver_routed ρ _ regs P request' s method regexStr
      compiled hcompiled (constantly notFound) reached arrival
    have unrecognised : ¬ SameForResolver request prepared := fun h => different (h.trans_symm same)
    rw [ran, ran', onlyFor, if_neg unrecognised]
    rfl
  · simp only [runRequestResolver, getResolver_routed, if_neg reached]

theorem answer_error_sent (e : CppException) :
    (answer Platform.newestFirst 0 keepAlive (.error e, failing)).stream.socket.sent = [] := rfl

theorem answer_ok_sent (response : HttpResponse) :
    (answer Platform.newestFirst 0 keepAlive (.ok response, failing)).stream.socket.sent ≠ [] := by
  have first : writeAll (replyBytes Platform.newestFirst keepAlive response) failing =
      (.error (.lowLevelApi "send() failed" 32 32), {}) := rfl
  simp only [answer, first]
  decide

/-- On a fresh connection everything that is handed over is sent. -/
theorem answer_fresh_sent (transport : Transport) (response : HttpResponse) :
    (answer P client keepAlive (.ok response, { transport := transport })).stream.socket.sent =
      IStream.handed transport (replyBytes P keepAlive response)
        (intOfSize (replyBytes P keepAlive response).length) := by
  have open' : ¬ ({ transport := transport } : Stream).socket.SendFails := by
    rintro ⟨errno, fails⟩
    cases fails
  have sent := @IStream.write_sent (replyBytes P keepAlive response)
    (intOfSize (replyBytes P keepAlive response).length) { transport := transport } open'
  rcases hwrite : writeAll (replyBytes P keepAlive response) { transport := transport } with
    ⟨e | count, t⟩
  · exact absurd (IStream.write_error_iff.mp ⟨e, congrArg Prod.fst hwrite⟩) open'
  · rw [answer, hwrite]
    rw [← writeAll, hwrite] at sent
    exact sent.trans (List.take_length)

theorem okResponse_ne_notFound (keepAlive : Bool) :
    (answer Platform.newestFirst 0 keepAlive (.ok okResponse, {})).stream.socket.sent ≠
      (answer Platform.newestFirst 0 keepAlive (.ok notFound, {})).stream.socket.sent := by
  cases keepAlive <;> decide

/-! ### Agreement makes the middlewares inert -/

/-- On a request that is parsed, agreement is about `answer`. -/
theorem Agrees.answers (agrees : Agrees ρ regs requestBuffer) (configured : Configured regs server)
    (parsed : HttpRequest.createRequest requestBuffer = some request) :
    (answer P client (wantsKeepAlive request)
        (runRequestResolver P server request P.now s)).stream.socket.sent =
      (answer P client (wantsKeepAlive request)
        (produce P server request s)).stream.socket.sent := by
  have same := agrees server configured P client s
  rwa [call_eq_answer parsed, pipeline, parsed] at same

/-- The pipeline does not throw where the resolver answers. -/
theorem Agrees.no_error (agrees : Agrees ρ regs requestBuffer) (configured : Configured regs server)
    (parsed : HttpRequest.createRequest requestBuffer = some request)
    (returned : runRequestResolver Platform.newestFirst server request 0 failing =
      (.ok response, failing)) (e : CppException) :
    produce Platform.newestFirst server request failing ≠ (.error e, failing) := by
  intro thrown
  have same := @Agrees.answers ρ _ regs Platform.newestFirst server 0 request requestBuffer failing
    agrees configured parsed
  rw [thrown, answer_error_sent] at same
  rw [show Platform.newestFirst.now = 0 from rfl, returned] at same
  exact answer_ok_sent response same

/-- The pipeline tells two servers apart whose resolvers answer differently. -/
theorem Agrees.separates (agrees : Agrees ρ regs requestBuffer) {server' : HttpServer ρ}
    (configured : Configured regs server) (configured' : Configured regs server')
    (parsed : HttpRequest.createRequest requestBuffer = some request)
    (returned : runRequestResolver Platform.newestFirst server request 0 {} = (.ok okResponse, {}))
    (returned' : runRequestResolver Platform.newestFirst server' request 0 {} =
      (.ok notFound, {})) :
    produce Platform.newestFirst server request {} ≠
      produce Platform.newestFirst server' request {} := by
  intro produced
  have same := @Agrees.answers ρ _ regs Platform.newestFirst server 0 request requestBuffer {}
    agrees configured parsed
  have same' := @Agrees.answers ρ _ regs Platform.newestFirst server' 0 request requestBuffer {}
    agrees configured' parsed
  rw [show Platform.newestFirst.now = 0 from rfl] at same same'
  rw [returned] at same
  rw [returned'] at same'
  rw [produced, ← same'] at same
  exact okResponse_ne_notFound _ same

/-- A request that a route can match passes the pre-middlewares unchanged. -/
theorem Agrees.routable (agrees : Agrees ρ regs requestBuffer)
    (parsed : HttpRequest.createRequest requestBuffer = some request)
    (routable : Routable ρ request) :
    ∃ request', preChain (regs.filterMap Registration.pre?) request = .ok (none, request') ∧
      SameForResolver request request' := by
  obtain ⟨supported, fuel, pattern, regexStr, compiled, created, hcompiled, passes⟩ := routable
  obtain ⟨method, hmethod⟩ := exists_method supported
  have configured (resolver : Resolver) :=
    configured_routed regs method resolver created hcompiled
  have run (resolver : Resolver) (P : Platform) (arrival : ℕ) (s : Stream) :=
    @runRequestResolver_routed ρ _ regs P request s method regexStr compiled hcompiled resolver
      ⟨hmethod.symm, passes⟩ arrival
  have constant (response : HttpResponse) (P : Platform) (arrival : ℕ) (s : Stream) :
      runRequestResolver P (register regs (routed method regexStr compiled (constantly response)))
        request arrival s = (.ok response, s) := by
    obtain ⟨prepared, -, ran⟩ := run (constantly response) P arrival s
    exact ran
  rcases chain : preChain (regs.filterMap Registration.pre?) request with
    e | ⟨_ | response, request'⟩
  · have thrown : produce Platform.newestFirst
        (register regs (routed method regexStr compiled (constantly okResponse))) request failing =
          (.error e, failing) := by
      rw [produce_eq (configured _), chain]
    exact absurd thrown (agrees.no_error (configured _) parsed (constant okResponse _ _ _) e)
  · refine ⟨request', rfl, ?_⟩
    by_contra different
    have recognised : runRequestResolver Platform.newestFirst
        (register regs (routed method regexStr compiled (onlyFor request))) request 0 {} =
          (.ok okResponse, {}) := by
      obtain ⟨prepared, same, ran⟩ := run (onlyFor request) Platform.newestFirst 0 {}
      rw [ran, onlyFor, if_pos same]
      rfl
    have produced : produce Platform.newestFirst
        (register regs (routed method regexStr compiled (onlyFor request))) request {} =
          produce Platform.newestFirst
            (register regs (routed method regexStr compiled (constantly notFound))) request {} := by
      rw [produce_eq (configured _), produce_eq (configured _), chain]
      dsimp only
      rw [runRequestResolver_onlyFor hcompiled different]
    exact agrees.separates (configured _) (configured _) parsed recognised
      (constant notFound _ _ _) produced
  · have short (response' : HttpResponse) : produce Platform.newestFirst
        (register regs (routed method regexStr compiled (constantly response'))) request {} =
          (postChain (regs.filterMap Registration.post?) response, {}) := by
      rw [produce_eq (configured _), chain]
    exact absurd ((short okResponse).trans (short notFound).symm)
      (agrees.separates (configured _) (configured _) parsed (constant okResponse _ _ _)
        (constant notFound _ _ _))

/-- A server on which the request is routed to a resolver that runs the given program. -/
theorem exists_routed (regs : List Registration) (routable : Routable ρ request)
    (program : Program) :
    ∃ server : HttpServer ρ, Configured regs server ∧ ∀ P arrival s, ∃ prepared,
      runRequestResolver P server request arrival s = program.run P prepared s := by
  obtain ⟨supported, fuel, pattern, regexStr, compiled, created, hcompiled, passes⟩ := routable
  obtain ⟨method, hmethod⟩ := exists_method supported
  refine ⟨_, configured_routed regs method (fun _ => program) created hcompiled,
    fun P arrival s => ?_⟩
  obtain ⟨prepared, -, ran⟩ := @runRequestResolver_routed ρ _ regs P request s method regexStr
    compiled hcompiled (fun _ => program) ⟨hmethod.symm, passes⟩ arrival
  exact ⟨prepared, ran⟩

/-- What the post-middlewares make of the response to a request that is answered like this one is
written like it. -/
theorem Agrees.post (agrees : Agrees ρ regs requestBuffer) (configured : Configured regs server)
    (parsed : HttpRequest.createRequest requestBuffer = some request)
    (returned : ∀ P s, runRequestResolver P server request P.now s = (.ok response, s))
    (produced : ∀ P s, produce P server request s =
      (postChain (regs.filterMap Registration.post?) response', s)) :
    ∃ response'', postChain (regs.filterMap Registration.post?) response' = .ok response'' ∧
      SameReply (wantsKeepAlive request) response'' response := by
  cases result : postChain (regs.filterMap Registration.post?) response' with
  | error e =>
    have thrown := produced Platform.newestFirst failing
    rw [result] at thrown
    exact absurd thrown (agrees.no_error configured parsed (returned _ failing) e)
  | ok response'' =>
    refine ⟨response'', rfl, fun P transport => ?_⟩
    have same := @Agrees.answers ρ _ regs P server 0 request _ { transport := transport }
      agrees configured parsed
    rw [returned, produced, result, answer_fresh_sent, answer_fresh_sent] at same
    exact same.symm

/-- On a request that a route can match no response is changed. -/
theorem Agrees.post_routable (agrees : Agrees ρ regs requestBuffer)
    (parsed : HttpRequest.createRequest requestBuffer = some request)
    (routable : Routable ρ request) (response : HttpResponse) :
    ∃ response', postChain (regs.filterMap Registration.post?) response = .ok response' ∧
      SameReply (wantsKeepAlive request) response' response := by
  obtain ⟨request', chain, same⟩ := agrees.routable parsed routable
  obtain ⟨server, configured, run⟩ := exists_routed regs routable (.respond response)
  have returned (P : Platform) (s : Stream) :
      runRequestResolver P server request P.now s = (.ok response, s) := by
    obtain ⟨prepared, ran⟩ := run P P.now s
    exact ran
  refine agrees.post configured parsed returned fun P s => ?_
  rw [produce_eq configured, chain]
  dsimp only
  rw [← runRequestResolver_congr same, returned]

/-- A request that no route can match stays one or is answered early, and gets the same reply. -/
theorem Agrees.unroutable (agrees : Agrees ρ regs requestBuffer)
    (compilesEmpty : ∃ regex : ρ, RegexEngine.compile [] = some regex)
    (parsed : HttpRequest.createRequest requestBuffer = some request)
    (unroutable : ¬ Routable ρ request) :
    ∃ early request', preChain (regs.filterMap Registration.pre?) request =
        .ok (early, request') ∧ (early = none → ¬ Routable ρ request') ∧
      ∃ response', postChain (regs.filterMap Registration.post?) (early.getD notFound) =
          .ok response' ∧ SameReply (wantsKeepAlive request) response' notFound := by
  obtain ⟨empty, hempty⟩ := compilesEmpty
  have run {server : HttpServer ρ} (configured : Configured regs server) (P : Platform)
      (s : Stream) : runRequestResolver P server request P.now s = (.ok notFound, s) :=
    runRequestResolver_of_none (configured.getResolver_eq_none unroutable) hempty
  have plain : Configured regs (register regs (HttpServer.create ρ 1)) :=
    configured_register (.create 1)
  rcases chain : preChain (regs.filterMap Registration.pre?) request with
    e | ⟨_ | response, request'⟩
  · have thrown : produce Platform.newestFirst (register regs (HttpServer.create ρ 1)) request
        failing = (.error e, failing) := by
      rw [produce_eq plain, chain]
    exact absurd thrown (agrees.no_error plain parsed (run plain _ _) e)
  · -- A route for the changed request could throw, where the handler answers.
    have stays : ¬ Routable ρ request' := by
      intro routable
      obtain ⟨server, configured, throws⟩ := exists_routed regs routable (.throwing .outOfRange)
      obtain ⟨prepared, ran⟩ := throws Platform.newestFirst Platform.newestFirst.now failing
      have thrown : produce Platform.newestFirst server request failing =
          (.error .outOfRange, failing) := by
        rw [produce_eq configured, chain]
        dsimp only
        rw [ran]
        rfl
      exact absurd thrown (agrees.no_error configured parsed (run configured _ _) _)
    refine ⟨none, request', rfl, fun _ => stays, ?_⟩
    refine agrees.post plain parsed (run plain) fun P s => ?_
    rw [produce_eq plain, chain]
    dsimp only
    rw [runRequestResolver_of_none (plain.getResolver_eq_none stays) hempty]
    rfl
  · refine ⟨some response, request', rfl, nofun, ?_⟩
    refine agrees.post plain parsed (run plain) fun P s => ?_
    rw [produce_eq plain, chain]
    rfl

/-- For every chain of middlewares and every head: the handler of every server with that chain
writes what the pipeline writes if and only if the chain does nothing there. -/
theorem agrees_iff_inert (regs : List Registration) (requestBuffer : Bytes)
    (compilesEmpty : ∃ regex : ρ, RegexEngine.compile [] = some regex) :
    Agrees ρ regs requestBuffer ↔ Inert ρ regs requestBuffer := by
  constructor
  · intro agrees
    exact ⟨fun _ parsed routable => ⟨agrees.routable parsed routable,
        agrees.post_routable parsed routable⟩,
      fun _ parsed unroutable => agrees.unroutable compilesEmpty parsed unroutable⟩
  · exact agrees_of_inert compilesEmpty

/-- A pre-middleware that lets nobody see `/admin`. -/
def guardAdmin : DefaultPreMiddlewareType := fun request =>
  .ok (if request.rawUri = chars "/admin" then
    some ((HttpResponseBuilder.create.withStatusCode 403).withStatusPhrase
      (chars "Forbidden")).build else none, request)

/-- Elsewhere the guard does nothing, and its absence is not noticed. -/
theorem agrees_of_guardAdmin :
    Inert EcmaScript [.pre guardAdmin] (chars "GET /a HTTP/1.1\r\n") ∧
      Agrees EcmaScript [.pre guardAdmin] (chars "GET /a HTTP/1.1\r\n") := by
  have passes (request : HttpRequest)
      (parsed : HttpRequest.createRequest (chars "GET /a HTTP/1.1\r\n") = some request) :
      guardAdmin request = .ok (none, request) := by
    have uri : (HttpRequest.createRequest (chars "GET /a HTTP/1.1\r\n")).map
        HttpRequest.rawUri = some (chars "/a") := by decide +kernel
    rw [parsed] at uri
    rw [guardAdmin, Option.some.inj uri]
    rfl
  have inert : Inert EcmaScript [.pre guardAdmin] (chars "GET /a HTTP/1.1\r\n") := by
    constructor
    · intro request parsed _
      refine ⟨⟨request, ?_, ⟨rfl, rfl, rfl, rfl, rfl⟩⟩, fun response => ⟨response, rfl, fun _ _ => rfl⟩⟩
      simp only [List.filterMap_cons, Registration.pre?, List.filterMap_nil, preChain,
        passes request parsed]
    · intro request parsed unroutable
      refine ⟨none, request, ?_, fun _ => unroutable, notFound, rfl, fun _ _ => rfl⟩
      simp only [List.filterMap_cons, Registration.pre?, List.filterMap_nil, preChain,
        passes request parsed]
  exact ⟨inert, (agrees_iff_inert _ _ ⟨_, rfl⟩).mpr inert⟩

/-- A header that a registered middleware sets is not sent. -/
theorem header_not_sent :
    let reg : Registration := .post (addHeaderToResponse (chars "X-Frame-Options") (chars "DENY"))
    let server := register [reg] HttpServer.emptyServer
    let head := chars "GET /a HTTP/1.1\r\n"
    let written := (call Platform.newestFirst server 0 head {}).stream.socket.sent
    let expected := (pipeline Platform.newestFirst server 0 head {}).stream.socket.sent
    Configured [reg] server ∧
      written = chars "HTTP/1.1 404 Not Found\r\nConnection:close\r\nContent-Length:0\r\n\r\n" ∧
      chars "X-Frame-Options:DENY" <:+: expected ∧ written ≠ expected :=
  ⟨configured_register (.create 1), by decide, by decide +kernel, by decide +kernel⟩

end Inert

end Lightning
