import Lightning.HttpServer

/-!
# Static files

The handlers open their file at every request; `files` is what the file system holds at that moment.
The resolver inside of a `useFolder` middleware is a `static` variable of a function that all these
middlewares share, so it is part of the state of the process: the first middleware that is invoked
initializes it with its own folder.
-/

namespace Lightning

/-- What can be read from each path that can be opened. -/
abbrev FileSystem := Bytes → Option Bytes

/-- The outcome for a request that has no stream: `getBody` gives it nothing. -/
def Program.withoutStream : Program → Except CppException HttpResponse
  | respond response => .ok response
  | throwing e => .error e
  | getBody next => (next (.ok [])).withoutStream

theorem Program.run_of_noStream {P : Platform} {request : HttpRequest}
    (noStream : request.stream = false) (p : Program) (s : Stream) :
    p.run P request s = (p.withoutStream, s) := by
  induction p generalizing s with
  | respond response => rfl
  | throwing e => rfl
  | getBody next ih =>
    have nothing : request.getBody P s = (.ok [], request, s) := by
      rw [HttpRequest.getBody, if_pos noStream]
    rw [Program.run, nothing]
    exact ih _ s

namespace handlers

/-- `std::ifstream file(path)`: the system call gets the path as a C string. -/
def openFile (files : FileSystem) (path : Bytes) : Option Bytes := files (cStr path)

/-- `std::getline` on a file that was just opened. -/
def getline (content : Bytes) (delimiter : UInt8) : Bytes := content.takeWhile (· ≠ delimiter)

def NOT_FOUND_RESOLVER : Resolver := fun _ =>
  let body := chars "<h1>404 Not Found</h1>"
  .respond (((((HttpResponseBuilder.create.withStatusCode 404).withStatusPhrase
    (chars "Not Found")).withStringBody body).withHeader (chars "Content-Type")
      (chars "text/html")).withHeader (chars "Content-Length") (toStringNat body.length)).build

/-- The response of both handlers for a file that could be opened. -/
def fileResponse (contentType content : Bytes) : HttpResponse :=
  let out := getline content 0
  (((((HttpResponseBuilder.create.withStringBody out).withHeader (chars "Content-Type")
    contentType).withHeader (chars "Content-Length") (toStringNat out.length)).withStatusCode
      200).withStatusPhrase (chars "OK")).build

def uriToStaticFile (files : FileSystem) (path contentType : Bytes) (notFoundResolver : Resolver) :
    Resolver := fun request =>
  match openFile files path with
  | none => notFoundResolver request
  | some content => .respond (fileResponse contentType content)

def serveFolder (files : FileSystem) (folderPath : Bytes) (notFoundResolver : Resolver) :
    Resolver := fun request =>
  match openFile files (folderPath ++ request.rawUri) with
  | none => notFoundResolver request
  | some content => .respond (fileResponse (chars "text/html") content)

end handlers

namespace middleware

open handlers

/-- What the middleware returns with the resolver of `folder`; `none` is `Continue`. -/
def serveOrContinue (files : FileSystem) (folder : Bytes) (request : HttpRequest) :
    Except CppException (Option HttpResponse) :=
  (serveFolder files folder NOT_FOUND_RESOLVER request).withoutStream.map fun response =>
    if response.statusLine.statusCode = 404 then none else some response

/-- The folder that the static variable holds once the middleware of `path` is invoked: that of the
first invocation in the process. -/
def resolverFolder (path : Bytes) (fileResovler : Option Bytes) : Bytes := fileResovler.getD path

/-- The middleware that `useFolder path` returns, with the static variable before and after. -/
def useFolder (path : Bytes) (files : FileSystem) (request : HttpRequest)
    (fileResovler : Option Bytes) : Except CppException (Option HttpResponse) × Option Bytes :=
  let folder := resolverFolder path fileResovler
  (serveOrContinue files folder request, some folder)

/-- A call of `useFolder`, or of one of the middlewares it has returned. -/
inductive Event where
  | construct (path : Bytes)
  | invoke (middleware : ℕ) (files : FileSystem) (request : HttpRequest)

/-- The middlewares by the paths they have captured, and the static variable they share. -/
structure Process where
  paths : List Bytes := []
  fileResovler : Option Bytes := none

/-- A call of a middleware: the path it was built from, what it was called on, the path of the file
it tried to open and what it returned. -/
structure Call where
  path : Bytes
  files : FileSystem
  request : HttpRequest
  opened : Bytes
  returned : Except CppException (Option HttpResponse)

/-- Only middlewares that were constructed can be invoked. -/
def step (p : Process) : Event → Process × Option Call
  | .construct path => ({ p with paths := p.paths ++ [path] }, none)
  | .invoke middleware files request =>
      match p.paths[middleware]? with
      | none => (p, none)
      | some path =>
          let result := useFolder path files request p.fileResovler
          ({ p with fileResovler := result.2 },
            some ⟨path, files, request, resolverFolder path p.fileResovler ++ request.rawUri,
              result.1⟩)

/-- The calls of middlewares in a history. -/
def calls : Process → List Event → List Call
  | _, [] => []
  | p, event :: events => (step p event).2.toList ++ calls (step p event).1 events

end middleware

end Lightning
