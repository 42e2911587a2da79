import Lightning.UriMapper

/-!
# The server

Routes are kept in one `UriMapper` for each method. Middlewares are collected in a container. A
pre-middleware gets the request by reference and before it has a stream, so it is a function of the
request alone; like everything a user supplies it may throw.
-/

namespace Lightning

namespace HttpProtocol

inductive Method where
  | options
  | get
  | head
  | post
  | put
  | delete
  | trace
  | connect
  deriving DecidableEq, Repr

def supportedHttpMethods : List Bytes :=
  [chars "OPTIONS", chars "GET", chars "HEAD", chars "POST", chars "PUT", chars "DELETE",
    chars "TRACE", chars "CONNECT"]

def convertMethodToString (method : Method) : Bytes :=
  (supportedHttpMethods[method.ctorIdx]?).getD []

end HttpProtocol

abbrev DefaultPreMiddlewareType :=
  HttpRequest → Except CppException (Option HttpResponse × HttpRequest)

abbrev DefaultPostMiddlewareType := HttpResponse → Except CppException (Bool × HttpResponse)

/-- The middleware that sets a header of every response. -/
def addHeaderToResponse (key value : Bytes) : DefaultPostMiddlewareType := fun response =>
  .ok (true, response.setHeader key value)

structure MiddlewareContainer where
  preMiddlewares : List DefaultPreMiddlewareType := []
  postMiddlewares : List DefaultPostMiddlewareType := []

namespace MiddlewareContainer

def addPost (middleware : DefaultPostMiddlewareType) (c : MiddlewareContainer) :
    MiddlewareContainer :=
  { c with postMiddlewares := c.postMiddlewares ++ [middleware] }

def addPre (middleware : DefaultPreMiddlewareType) (c : MiddlewareContainer) :
    MiddlewareContainer :=
  { c with preMiddlewares := c.preMiddlewares ++ [middleware] }

end MiddlewareContainer

structure HttpServer (ρ : Type) where
  resolvers : UnorderedMap Bytes (UriMapper ρ)
  defaultGetResolver : Option Resolver := none
  middlewares : MiddlewareContainer := {}
  threadCount : ℤ := 1

namespace HttpServer

open HttpProtocol

/-- Default resolver that returns 404 Not Found. -/
def defaultResolver : Resolver := fun _ =>
  .respond (((HttpResponseBuilder.create.withStatusCode 404).withStatusPhrase
    (chars "Not Found")).build)

/-- The constructor: an empty map for each supported method. -/
def create (ρ : Type) (threadCount : ℤ) : HttpServer ρ where
  resolvers := supportedHttpMethods.foldl (fun m method => m.emplace method {}) ∅
  threadCount := threadCount

variable {ρ : Type} [RegexEngine ρ]

def addResolver (fuel : ℕ) (method : Method) (uri : Bytes) (resolver : Resolver)
    (server : HttpServer ρ) : Option (Except CppException (HttpServer ρ)) :=
  let methodString := convertMethodToString method
  match server.resolvers.lookup methodString with
  | none => some (.error .outOfRange)
  | some mapper =>
      (mapper.add fuel uri resolver).map fun added =>
        added.map fun stored =>
          { server with resolvers := server.resolvers.replace methodString stored.2 }

def get (fuel : ℕ) (uri : Bytes) (resolver : Resolver) (server : HttpServer ρ) :
    Option (Except CppException (HttpServer ρ)) :=
  if uri = chars "*" then some (.ok { server with defaultGetResolver := some resolver })
  else server.addResolver fuel .get uri resolver

def post (fuel : ℕ) (uri : Bytes) (resolver : Resolver) (server : HttpServer ρ) :
    Option (Except CppException (HttpServer ρ)) := server.addResolver fuel .post uri resolver

def put (fuel : ℕ) (uri : Bytes) (resolver : Resolver) (server : HttpServer ρ) :
    Option (Except CppException (HttpServer ρ)) := server.addResolver fuel .put uri resolver

def head (fuel : ℕ) (uri : Bytes) (resolver : Resolver) (server : HttpServer ρ) :
    Option (Except CppException (HttpServer ρ)) := server.addResolver fuel .head uri resolver

def resolveDelete (fuel : ℕ) (uri : Bytes) (resolver : Resolver) (server : HttpServer ρ) :
    Option (Except CppException (HttpServer ρ)) := server.addResolver fuel .delete uri resolver

/-- The resolver and the regular expression that matched. -/
def getResolver (P : Platform) (method uri : Bytes) (server : HttpServer ρ) :
    Option (Resolver × Bytes) :=
  match server.resolvers.lookup method with
  | none => none
  | some urisMap => urisMap.match P uri

def usePostMiddleware (middleware : DefaultPostMiddlewareType) (server : HttpServer ρ) :
    HttpServer ρ :=
  { server with middlewares := server.middlewares.addPost middleware }

def usePreMiddleware (middleware : DefaultPreMiddlewareType) (server : HttpServer ρ) :
    HttpServer ρ :=
  { server with middlewares := server.middlewares.addPre middleware }

/-- The mapper of the method decides, and only it can change. -/
theorem addResolver_cases {fuel : ℕ} {method : Method} {uri : Bytes} {resolver : Resolver}
    {server : HttpServer ρ} {result : Except CppException (HttpServer ρ)}
    (ran : server.addResolver fuel method uri resolver = some result) :
    (server.resolvers.lookup (convertMethodToString method) = none ∧
        result = .error .outOfRange) ∨
      ∃ mapper added, server.resolvers.lookup (convertMethodToString method) = some mapper ∧
        mapper.add fuel uri resolver = some added ∧
        result = added.map fun stored => { server with
          resolvers := server.resolvers.replace (convertMethodToString method) stored.2 } := by
  unfold addResolver at ran
  cases found : server.resolvers.lookup (convertMethodToString method) with
  | none =>
    simp only [found] at ran
    exact Or.inl ⟨rfl, (Option.some.inj ran).symm⟩
  | some mapper =>
    simp only [found] at ran
    obtain ⟨added, hadded, rfl⟩ := Option.map_eq_some_iff.mp ran
    exact Or.inr ⟨mapper, added, rfl, hadded, rfl⟩

/-- A server with one worker and no routes. -/
def emptyServer : HttpServer EcmaScript := create EcmaScript 1

end HttpServer

end Lightning
