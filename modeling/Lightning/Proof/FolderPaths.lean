import Lightning.FileTree
import Lightning.Proof.Middleware
import Lightning.Proof.RequestLine
import Lightning.Proof.Serialization
import Lightning.Proof.StaticFile
import Lightning.Proof.UriParameters
import Lightning.Proof.WildcardRoutes

/-!
# Which files `serveFolder` gives away

`serveFolder` opens the folder's path with the raw URI behind it, and looks at neither. What it
answers depends on nothing but the folder exactly when the walk along that text never leaves it
(`serveFolder_confined_iff`). A URI can leave every folder, and is let through by the parser and by
the route under which the folder is served, so every regular file can be fetched
(`serveFolder_climbs`).
-/

namespace Lightning

open Paths Search

namespace handlers

variable {cwd : Location Bytes} {folder uri : Bytes} {tree : Tree Bytes Bytes}

/-- The walk along the folder and the URI stays in the folder, or on the way to it. -/
def StaysInside (cwd : Location Bytes) (folder uri : Bytes) : Prop :=
  Tree.Confined (pathStart cwd (cStr folder)) (pathComponents (cStr folder))
    (pathComponents (cStr (folder ++ uri)))

instance (cwd : Location Bytes) (folder uri : Bytes) : Decidable (StaysInside cwd folder uri) :=
  inferInstanceAs (Decidable (Tree.Confined ..))

theorem cStr_append_eq (folder uri : Bytes) :
    ∃ rest, cStr (folder ++ uri) = cStr folder ++ rest := by
  by_cases nul : 0 ∈ folder
  · exact ⟨[], by rw [HttpResponse.cStr_append_of_mem nul, List.append_nil]⟩
  · refine ⟨cStr uri, ?_⟩
    rw [HttpResponse.cStr_append_of_notMem nul, cStr_of_notMem nul]

theorem openEntry_folder (named : cStr folder ≠ []) :
    openEntry tree cwd (cStr (folder ++ uri)) =
      tree.read (pathStart cwd (cStr folder)) (pathComponents (cStr (folder ++ uri))) := by
  obtain ⟨rest, whole⟩ := cStr_append_eq folder uri
  have start : pathStart cwd (cStr folder ++ rest) = pathStart cwd (cStr folder) := by
    rw [pathStart, pathStart, List.head?_append_of_ne_nil _ named]
  have nonempty : cStr folder ++ rest ≠ [] := fun empty => named (List.append_eq_nil_iff.mp empty).1
  rw [openEntry, whole, if_neg nonempty, start]

/-- A directory is answered with `200`, which the default handler never does. -/
theorem folderAnswer_ne (request : HttpRequest) :
    folderAnswer request (some .directory) ≠ folderAnswer request none := by
  intro same
  have default := congrFun same NOT_FOUND_RESOLVER
  rw [folderAnswer, folderAnswer, NOT_FOUND_RESOLVER] at default
  have status := congrArg (·.statusLine.statusCode) (Program.respond.inj default)
  exact absurd status (by decide)

/-- The answer depends on the folder alone if and only if the walk stays inside. -/
theorem serveFolder_confined_iff (named : cStr folder ≠ []) (request : HttpRequest) :
    (∀ tree tree', Tree.SameFolder (pathStart cwd (cStr folder)) (pathComponents (cStr folder))
        tree tree' → ∀ notFoundResolver,
      serveFolder (.ofTree cwd tree) folder notFoundResolver request =
        serveFolder (.ofTree cwd tree') folder notFoundResolver request) ↔
      StaysInside cwd folder request.rawUri := by
  rw [StaysInside, ← Tree.depends_only_iff_confined _ (folderAnswer_ne request)]
  simp only [serveFolder_ofTree, openEntry_folder named, funext_iff]

/-- A page in the folder. -/
theorem serveFolder_confined_page :
    StaysInside [] (chars "./public") (chars "/a") ∧
      ∀ tree tree', Tree.SameFolder (pathStart [] (cStr (chars "./public")))
        (pathComponents (cStr (chars "./public"))) tree tree' → ∀ notFoundResolver,
      serveFolder (.ofTree [] tree) (chars "./public") notFoundResolver (requestFor (chars "/a")) =
        serveFolder (.ofTree [] tree') (chars "./public") notFoundResolver
          (requestFor (chars "/a")) := by
  have inside : StaysInside [] (chars "./public") (chars "/a") := by decide +kernel
  exact ⟨inside, (@serveFolder_confined_iff [] (chars "./public") (by decide)
    (requestFor (chars "/a"))).mpr inside⟩

/-- A walk may go up again in the folder, but not out of it, and a URI without its `/` goes on with
the name of the folder. -/
example : StaysInside [chars "srv"] (chars "./public") (chars "/a/../b") ∧
    ¬ StaysInside [chars "srv"] (chars "./public") (chars "/../key") ∧
    ¬ StaysInside [chars "srv"] (chars "./public") (chars "-old/a") := by
  decide +kernel

/-! ## What the walk of a URI is -/

theorem pathComponents_append (folder rest : Bytes) :
    pathComponents (folder ++ 47 :: rest) = pathComponents folder ++ pathComponents rest := by
  rw [pathComponents, List.splitOn_append_cons_self, List.map_append]
  rfl

/-- The check that the source leaves to be done: counted from the folder, the URI never goes up more
often than down. -/
theorem staysInside_of_staysBelow (noNul : 0 ∉ folder) {rest : Bytes}
    (below : Tree.StaysBelow 0 (pathComponents (cStr rest))) :
    StaysInside cwd folder (47 :: rest) := by
  have slash : cStr (47 :: rest) = 47 :: cStr rest := List.takeWhile_cons_of_pos (by decide)
  rw [StaysInside, HttpResponse.cStr_append_of_notMem noNul, cStr_of_notMem noNul, slash,
    pathComponents_append]
  exact Tree.confined_of_staysBelow below

/-- A name that an entry can have and that can stand in a request line. -/
structure IsName (name : Bytes) : Prop where
  nonempty : name ≠ []
  notDot : name ≠ chars "."
  notDotDot : name ≠ chars ".."
  plain : ∀ c ∈ name, c ≠ 0 ∧ c ≠ 10 ∧ c ≠ 13 ∧ c ≠ 32 ∧ c ≠ 47

/-- A URI that goes up so often, and down along the names. -/
def climb (depth : ℕ) (names : List Bytes) : Bytes :=
  47 :: [47].intercalate (List.replicate depth (chars "..") ++ names)

section Climb

variable {depth : ℕ} {names : List Bytes} {c : UInt8}

theorem IsName.pathComponent_eq {name : Bytes} (h : IsName name) :
    pathComponent name = .down name := by
  rw [pathComponent, if_neg (by simp [h.nonempty, h.notDot]), if_neg h.notDotDot]

theorem mem_intercalate {sep : UInt8} {words : List Bytes} (h : c ∈ [sep].intercalate words) :
    c = sep ∨ ∃ word ∈ words, c ∈ word := by
  induction words with
  | nil => exact absurd h List.not_mem_nil
  | cons word words ih =>
    cases words with
    | nil => exact Or.inr ⟨word, List.mem_cons_self, by simpa [List.intercalate] using h⟩
    | cons next words =>
      rw [List.intercalate_cons_cons, List.mem_append, List.mem_append, List.mem_singleton] at h
      rcases h with (here | separator) | later
      · exact Or.inr ⟨word, List.mem_cons_self, here⟩
      · exact Or.inl separator
      · rcases ih later with separator | ⟨other, member, inside⟩
        · exact Or.inl separator
        · exact Or.inr ⟨other, List.mem_cons_of_mem _ member, inside⟩

/-- Nothing in such a URI ends it early, in the request line, in the route or as a path. -/
theorem plain_of_mem_climb (isName : ∀ name ∈ names, IsName name) (h : c ∈ climb depth names) :
    c ≠ 0 ∧ c ≠ 10 ∧ c ≠ 13 ∧ c ≠ 32 := by
  rcases List.mem_cons.mp h with rfl | later
  · decide
  · rcases mem_intercalate later with rfl | ⟨word, member, inside⟩
    · decide
    · rcases List.mem_append.mp member with dots | named
      · rw [List.eq_of_mem_replicate dots] at inside
        obtain rfl : c = 46 := by simpa [chars] using inside
        decide
      · obtain ⟨noNul, noLf, noCr, noSpace, -⟩ := (isName word named).plain c inside
        exact ⟨noNul, noLf, noCr, noSpace⟩

theorem pathComponents_climb (nonempty : names ≠ []) (isName : ∀ name ∈ names, IsName name) :
    pathComponents ([47].intercalate (List.replicate depth (chars "..") ++ names)) =
      List.replicate depth .up ++ names.map .down := by
  have noSlash : ∀ word ∈ List.replicate depth (chars "..") ++ names, 47 ∉ word := by
    intro word hword inside
    rcases List.mem_append.mp hword with dots | named
    · rw [List.eq_of_mem_replicate dots] at inside
      exact absurd inside (by decide)
    · exact ((isName word named).plain 47 inside).2.2.2.2 rfl
  rw [pathComponents, List.splitOn_intercalate 47 noSlash (by simp [nonempty]), List.map_append,
    List.map_replicate]
  exact congrArg _ (List.map_congr_left fun name member => (isName name member).pathComponent_eq)

/-- What is opened for such a URI, from any folder that is not too deep. -/
theorem openEntry_climb (isFolder : openEntry tree cwd folder = some .directory)
    (noNul : 0 ∉ folder) {location : Location Bytes} (isName : ∀ name ∈ location, IsName name)
    (below : location ≠ []) (present : tree.entry location ≠ none)
    (deep : (target (pathStart cwd folder) (pathComponents folder)).length ≤ depth) :
    openEntry tree cwd (cStr (folder ++ climb depth location.reverse)) = tree.entry location := by
  have isName' : ∀ name ∈ location.reverse, IsName name := fun name member =>
    isName name (List.mem_reverse.mp member)
  have named : folder ≠ [] := by
    rintro rfl
    cases isFolder
  have noNul' : 0 ∉ folder ++ climb depth location.reverse := by
    rw [List.mem_append, not_or]
    exact ⟨noNul, fun inside => (plain_of_mem_climb isName' inside).1 rfl⟩
  have same : cStr folder = folder := cStr_of_notMem noNul
  have here : tree.read (pathStart cwd folder) (pathComponents folder) = some .directory := by
    rwa [openEntry, if_neg named] at isFolder
  rw [openEntry_folder (by rwa [same]), same, cStr_of_notMem noNul', climb, pathComponents_append,
    pathComponents_climb (by simpa using below) isName']
  exact Tree.read_anywhere here present deep

/-! ## The request that fetches a file -/

/-- A request for a URI, up to the line break of its request line and with anything behind it. -/
def getFor (uri headers : Bytes) : Bytes :=
  chars "GET" ++ chars " " ++ uri ++ chars " " ++ chars "HTTP/1.1" ++ CRLF ++ headers

theorem createRequest_getFor (headers : Bytes) (noSpace : 32 ∉ uri) (noBreak : 13 ∉ uri)
    (nonempty : uri ≠ []) :
    ∃ request, HttpRequest.createRequest (getFor uri headers) = some request ∧
      request.method = chars "GET" ∧ request.rawUri = uri := by
  set line := chars "GET" ++ chars " " ++ uri ++ chars " " ++ chars "HTTP/1.1" with hline
  have unbroken : ¬ CRLF <:+: line := by
    intro broken
    have inLine : 13 ∈ line := broken.subset (by decide)
    simp only [hline, List.mem_append, noBreak, or_false] at inLine
    revert inLine
    decide
  have broken : CRLF <:+: getFor uri headers := ⟨line, headers, rfl⟩
  obtain ⟨request, parsed⟩ :=
    Option.isSome_iff_exists.mp ((HttpRequest.createRequest_isSome_iff _).mpr broken)
  have first : HttpRequest.requestLine (getFor uri headers) = line := by
    rw [HttpRequest.requestLine, getFor, ← hline,
      findFirst_append_self HttpRequest.unbordered_CRLF unbroken, Option.getD_some,
      List.append_assoc, List.take_left]
  obtain ⟨method, rawUri, -⟩ := HttpRequest.createRequest_requestLine parsed (first.trans hline)
    ⟨by decide, by decide⟩ ⟨nonempty, noSpace⟩ ⟨by decide, by decide⟩
  exact ⟨request, parsed, method, rawUri⟩

end Climb

/-! ## The route of the folder -/

section Route

variable {fuel : ℕ} {threadCount : ℤ} {resolver notFoundResolver : Resolver}
  {server : HttpServer EcmaScript} {P : Platform} {request : HttpRequest} {arrival : ℕ} {s : Stream}

open HttpProtocol UriMapper ClientRequestHandler

/-- The route that serves everything lets every URI through to its resolver that begins with a `/`
and can be matched at all. -/
theorem runRequestResolver_everything
    (registered : (HttpServer.create EcmaScript threadCount).get fuel (chars "/*") resolver =
      some (.ok server))
    (method : request.method = chars "GET") {rest : Bytes} (slash : request.rawUri = 47 :: rest)
    (clean : Clean request.rawUri) :
    ∃ prepared, SameForResolver request prepared ∧
      runRequestResolver P server request arrival s = (resolver prepared).run P prepared s := by
  have literal : ∀ part ∈ [[], []], ∀ c ∈ part, IsLiteral c := by simp
  have compiles := @compile_wildcardRoute [] [[]] literal (by decide)
  rw [HttpServer.get, if_neg (by decide)] at registered
  obtain ⟨mapper, regexStr, compiled, found, created, hcompiled, rfl⟩ := addResolver_eq registered
  obtain ⟨-, same⟩ := createRegex_eq_some created
  have text : regexStr = routeText (wildcardRoute [] [[]]) := Except.ok.inj same
  have accepts : compiled = (routeItems [] [[]] 0).foldr EcmaScript.seq EcmaScript.empty :=
    Option.some.inj (hcompiled.symm.trans (text ▸ compiles))
  have empty : mapper = {} := by
    rw [create_lookup, if_pos (convertMethodToString_mem .get)] at found
    exact (Option.some.inj found).symm
  have reached : UriMapper.matchesUri request.rawUri compiled = true := by
    rw [accepts, matchesUri_iff (EcmaScript.foldr_seq_regular (routeItems_regular [] [[]] 0)) clean,
      accepts_routeItems_iff literal 0 clean.noBreak, slash]
    exact ⟨47 :: rest, [], by simp, rfl, Or.inl ⟨rest, rfl⟩⟩
  apply runRequestResolver_of_some _ hcompiled
  have alone := @getResolver_routed EcmaScript _ P regexStr compiled [] .get resolver
    request.method request.rawUri
  rw [if_pos ⟨method, reached⟩] at alone
  rw [← alone, empty]
  rfl

/-- Every regular file of the machine whose names can be written in a request line is served, up to
its first NUL: the parser and the route let a URI through that goes up from the folder often enough
and down to it. -/
theorem serveFolder_climbs {location : Location Bytes} {content : Bytes} {depth : ℕ}
    (registered : (HttpServer.create EcmaScript threadCount).get fuel (chars "/*")
      (serveFolder (.ofTree cwd tree) folder notFoundResolver) = some (.ok server))
    (noNul : 0 ∉ folder) (isFolder : openEntry tree cwd folder = some .directory)
    (deep : (target (pathStart cwd folder) (pathComponents folder)).length ≤ depth)
    (isName : ∀ name ∈ location, IsName name) (file : tree.entry location = some (.file content))
    (headers : Bytes) :
    ∃ request, HttpRequest.createRequest (getFor (climb depth location.reverse) headers) =
        some request ∧
      (∀ P arrival s, runRequestResolver P server request arrival s =
        (.ok (fileResponse (chars "text/html") content), s)) ∧
      (fileResponse (chars "text/html") content).body = content.takeWhile (· ≠ 0) := by
  have plain (c : UInt8) (h : c ∈ climb depth location.reverse) :=
    plain_of_mem_climb (fun name member => isName name (List.mem_reverse.mp member)) h
  have below : location ≠ [] := by
    rintro rfl
    rw [tree.root] at file
    cases file
  obtain ⟨request, parsed, method, rawUri⟩ := createRequest_getFor headers
    (fun space => (plain 32 space).2.2.2 rfl) (fun cr => (plain 13 cr).2.2.1 rfl)
    (List.cons_ne_nil _ _)
  refine ⟨request, parsed, fun P arrival s => ?_, fileResponse_body _ _⟩
  have clean : Clean request.rawUri := by
    rw [rawUri]
    exact ⟨fun nul => (plain 0 nul).1 rfl, fun cr => (plain 13 cr).2.2.1 rfl,
      fun lf => (plain 10 lf).2.1 rfl⟩
  obtain ⟨prepared, same, run⟩ := runRequestResolver_everything registered method rawUri clean
  have opened := openEntry_climb isFolder noNul isName below (by simp [file]) deep
  rw [run, serveFolder_ofTree, ← same.rawUri, rawUri, opened, file]
  rfl

/-- A machine with a folder to be served and a file beside it. -/
def machine : Tree Bytes Bytes where
  entry l :=
    if l = [] ∨ l = [chars "srv"] ∨ l = [chars "public", chars "srv"] then some .directory
    else if l = [chars "key", chars "srv"] then some (.file (chars "secret"))
    else none
  root := rfl
  parent {name l} present := by
    have known : name :: l = [chars "srv"] ∨ name :: l = [chars "public", chars "srv"] ∨
        name :: l = [chars "key", chars "srv"] := by
      by_contra! unknown
      exact present (by simp [unknown])
    rcases known with same | same | same <;> obtain ⟨-, rfl⟩ := List.cons.inj same <;> decide

theorem serveFolder_climbs_key :
    ∃ server request, (HttpServer.create EcmaScript 1).get 9 (chars "/*")
        (serveFolder (.ofTree [chars "srv"] machine) (chars "./public") NOT_FOUND_RESOLVER) =
          some (.ok server) ∧
      HttpRequest.createRequest (chars "GET /../../srv/key HTTP/1.1\r\nHost: x") = some request ∧
      runRequestResolver Platform.newestFirst server request 0 {} =
        (.ok (fileResponse (chars "text/html") (chars "secret")), {}) ∧
      (fileResponse (chars "text/html") (chars "secret")).body = chars "secret" := by
  obtain ⟨server, registered⟩ : ∃ server, (HttpServer.create EcmaScript 1).get 9 (chars "/*")
      (serveFolder (.ofTree [chars "srv"] machine) (chars "./public") NOT_FOUND_RESOLVER) =
        some (.ok server) := ⟨_, rfl⟩
  have isName : ∀ name ∈ [chars "key", chars "srv"], IsName name := by
    intro name member
    simp only [List.mem_cons, List.not_mem_nil, or_false] at member
    rcases member with rfl | rfl
    all_goals exact ⟨by decide, by decide, by decide, by decide +kernel⟩
  obtain ⟨request, parsed, served, body⟩ := @serveFolder_climbs [chars "srv"] (chars "./public")
    machine 9 1 NOT_FOUND_RESOLVER server [chars "key", chars "srv"] (chars "secret") 2 registered
    (by decide) (by decide +kernel) (by decide +kernel) isName (by decide +kernel) (chars "Host: x")
  have text : getFor (climb 2 [chars "srv", chars "key"]) (chars "Host: x") =
      chars "GET /../../srv/key HTTP/1.1\r\nHost: x" := by decide +kernel
  exact ⟨server, request, registered, text ▸ parsed, served _ 0 {}, body.trans (by decide)⟩

end Route

end handlers

end Lightning
