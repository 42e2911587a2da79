import Lightning.Basic

/-!
# Responses

`HttpResponse` and its builder. The constructor sets the `Content-Length` header of the body;
`toHttpResponse` visits the headers in the order of the hash map and prints the body as a C string.
-/

namespace Lightning

structure StatusLine where
  statusCode : ℤ
  statusPhrase : Bytes
  httpVersion : Bytes
  deriving DecidableEq, Repr

def StatusLine.createStatusLine (line : StatusLine) : Bytes :=
  chars "HTTP/" ++ line.httpVersion ++ chars " " ++ toStringInt line.statusCode ++ chars " " ++
    line.statusPhrase ++ CRLF

structure HttpResponse where
  statusLine : StatusLine
  headers : HeadersMap
  body : Bytes
  deriving DecidableEq

namespace HttpResponse

def setHeader (key value : Bytes) (response : HttpResponse) : HttpResponse :=
  { response with headers := response.headers.insertOrAssign key value }

/-- The constructor of `HttpResponse`. -/
def create (statusLine : StatusLine) (headers : HeadersMap) (body : Bytes) : HttpResponse :=
  setHeader (chars "Content-Length") (toStringNat body.length) ⟨statusLine, headers, body⟩

def getHeader (key : Bytes) (response : HttpResponse) : Option Bytes := response.headers.lookup key

def toHttpResponse (P : Platform) (response : HttpResponse) : Bytes :=
  response.statusLine.createStatusLine ++
    (P.visit response.headers.entries).flatMap (fun header =>
      header.1 ++ chars ":" ++ header.2 ++ CRLF) ++
    CRLF ++
    if response.body.length > 0 then cStr (response.body ++ P.adjacent response.body) else []

end HttpResponse

structure HttpResponseBuilder where
  statusCode : ℤ
  statusPhrase : Bytes
  httpVersion : Bytes
  body : Bytes
  headers : HeadersMap

namespace HttpResponseBuilder

def create : HttpResponseBuilder := ⟨200, chars "OK", chars "1.1", [], ∅⟩

def build (b : HttpResponseBuilder) : HttpResponse :=
  HttpResponse.create ⟨b.statusCode, b.statusPhrase, b.httpVersion⟩ b.headers b.body

def withStatusCode (statusCode : ℤ) (b : HttpResponseBuilder) : HttpResponseBuilder :=
  { b with statusCode := statusCode }

def withStatusPhrase (statusPhrase : Bytes) (b : HttpResponseBuilder) : HttpResponseBuilder :=
  { b with statusPhrase := statusPhrase }

def withHttpVersion (httpVersion : Bytes) (b : HttpResponseBuilder) : HttpResponseBuilder :=
  { b with httpVersion := httpVersion }

def withHeader (key value : Bytes) (b : HttpResponseBuilder) : HttpResponseBuilder :=
  { b with headers := b.headers.insertOrAssign key value }

def withBody (body : Bytes) (b : HttpResponseBuilder) : HttpResponseBuilder :=
  withHeader (chars "Content-Length") (toStringNat body.length) { b with body := body }

/-- The overload of `withBody` for a `std::string`, which copies it into a vector. -/
def withStringBody (body : Bytes) (b : HttpResponseBuilder) : HttpResponseBuilder := b.withBody body

def withJsonBody (json : Bytes) (b : HttpResponseBuilder) : HttpResponseBuilder :=
  (b.withHeader (chars "Content-Type") (chars "application/json")).withStringBody json

def withHtmlBody (html : Bytes) (b : HttpResponseBuilder) : HttpResponseBuilder :=
  (b.withHeader (chars "Content-Type") (chars "text/html")).withStringBody html

end HttpResponseBuilder

end Lightning
