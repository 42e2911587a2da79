import Lightning.StaticFile
import Mathlib.Data.List.TakeWhile

/-!
# What the static file handlers serve

A file is read up to its first NUL, and the length is that of what was read (`servesWhole_iff`). A
`useFolder` middleware looks under the folder of the one that was invoked first in the process, so
the middlewares of a process are independent only if all that are ever invoked were built from one
path (`useFolder_independent_iff`).
-/

namespace Lightning

namespace handlers

/-! ## Contents -/

/-- The handler answers with all of the file and with its size. -/
def ServesWhole (content : Bytes) (answer : Program) : Prop :=
  ∃ response, answer = .respond response ∧ response.body = content ∧
    response.getHeader (chars "Content-Length") = some (toStringNat content.length)

variable {files : FileSystem} {path contentType folder content content' : Bytes}
  {notFoundResolver : Resolver} {request : HttpRequest}

/-- `getline` takes all of a file without the delimiter. -/
theorem getline_eq_self_iff (content : Bytes) (delimiter : UInt8) :
    getline content delimiter = content ↔ delimiter ∉ content := by
  rw [getline, List.takeWhile_eq_self_iff]
  constructor
  · intro other inside
    simpa using other delimiter inside
  · intro absent b member
    rw [decide_eq_true_eq]
    rintro rfl
    exact absent member

theorem fileResponse_body (contentType content : Bytes) :
    (fileResponse contentType content).body = getline content 0 := rfl

theorem fileResponse_contentLength (contentType content : Bytes) :
    (fileResponse contentType content).getHeader (chars "Content-Length") =
      some (toStringNat (getline content 0).length) :=
  (UnorderedMap.lookup_insertOrAssign _).trans (if_pos rfl)

theorem fileResponse_whole_iff (contentType content : Bytes) :
    ServesWhole content (.respond (fileResponse contentType content)) ↔ 0 ∉ content := by
  constructor
  · rintro ⟨response, answer, body, -⟩
    rw [← Program.respond.inj answer, fileResponse_body] at body
    exact (getline_eq_self_iff content 0).mp body
  · intro noNul
    have whole := (getline_eq_self_iff content 0).mpr noNul
    refine ⟨_, rfl, whole, ?_⟩
    rw [fileResponse_contentLength, whole]

/-- Both handlers serve a file completely if and only if it holds no NUL. -/
theorem servesWhole_iff (file : openFile files path = some content)
    (inFolder : openFile files (folder ++ request.rawUri) = some content') :
    (ServesWhole content (uriToStaticFile files path contentType notFoundResolver request) ↔
        0 ∉ content) ∧
      (ServesWhole content' (serveFolder files folder notFoundResolver request) ↔
        0 ∉ content') := by
  rw [uriToStaticFile, file, serveFolder, inFolder]
  exact ⟨fileResponse_whole_iff _ _, fileResponse_whole_iff _ _⟩

/-- A request for a path. -/
def requestFor (rawUri : Bytes) : HttpRequest :=
  ⟨chars "GET", rawUri, chars "HTTP/1.1", [], ⟨[], 0⟩, ∅, false, false⟩

theorem servesWhole_text :
    0 ∉ chars "hi" ∧
      ServesWhole (chars "hi") (uriToStaticFile (fun _ => some (chars "hi")) (chars "./a")
        (chars "text/plain") NOT_FOUND_RESOLVER (requestFor (chars "/a"))) ∧
      ServesWhole (chars "hi") (serveFolder (fun _ => some (chars "hi")) (chars "./public")
        NOT_FOUND_RESOLVER (requestFor (chars "/a"))) := by
  have text : 0 ∉ chars "hi" := by decide
  obtain ⟨file, inFolder⟩ := @servesWhole_iff (fun _ => some (chars "hi")) (chars "./a")
    (chars "text/plain") (chars "./public") (chars "hi") (chars "hi") NOT_FOUND_RESOLVER
    (requestFor (chars "/a")) rfl rfl
  exact ⟨text, file.mpr text, inFolder.mpr text⟩

/-- Of a binary file the part in front of its first NUL is served, with the length of that part. -/
theorem not_servesWhole_binary :
    openFile (fun _ => some [1, 0, 2]) (chars "./a") = some [1, 0, 2] ∧
      (uriToStaticFile (fun _ => some [1, 0, 2]) (chars "./a") (chars "image/png")
        NOT_FOUND_RESOLVER (requestFor (chars "/")) =
          .respond (fileResponse (chars "image/png") [1, 0, 2])) ∧
      (fileResponse (chars "image/png") [1, 0, 2]).body = [1] ∧
      ¬ ServesWhole [1, 0, 2] (uriToStaticFile (fun _ => some [1, 0, 2]) (chars "./a")
        (chars "image/png") NOT_FOUND_RESOLVER (requestFor (chars "/"))) := by
  refine ⟨rfl, rfl, rfl, ?_⟩
  rintro ⟨response, answer, body, -⟩
  rw [← Program.respond.inj answer] at body
  cases body

end handlers

namespace middleware

open handlers

/-! ## Independence -/

/-- The call looked under the path its middleware was built from, and returned what the files there
make of it. -/
structure Independent (call : Call) : Prop where
  opened : call.opened = call.path ++ call.request.rawUri
  returned : call.returned = serveOrContinue call.files call.path call.request

/-- The paths of the middlewares that are invoked in a history, after the given constructions. -/
def invokedPaths : List Bytes → List Event → List Bytes
  | _, [] => []
  | paths, .construct path :: events => invokedPaths (paths ++ [path]) events
  | paths, .invoke middleware _ _ :: events =>
      (paths[middleware]?).toList ++ invokedPaths paths events

section History

variable {p : Process} {events : List Event} {folder : Bytes} {call : Call}

theorem calls_path (p : Process) (events : List Event) :
    (calls p events).map Call.path = invokedPaths p.paths events := by
  induction events generalizing p with
  | nil => rfl
  | cons event events ih =>
    rw [calls, List.map_append, ih]
    cases event with
    | construct path => rfl
    | invoke middleware files request =>
      rw [invokedPaths, step]
      cases p.paths[middleware]? with
      | none => rfl
      | some path => rfl

/-- What a call does when it uses the folder. -/
def Uses (folder : Bytes) (call : Call) : Prop :=
  call.opened = folder ++ call.request.rawUri ∧
    call.returned = serveOrContinue call.files folder call.request

theorem Uses.independent_iff (uses : Uses folder call) : Independent call ↔ call.path = folder := by
  constructor
  · intro independent
    exact List.append_cancel_right (independent.opened.symm.trans uses.1)
  · intro same
    exact ⟨same ▸ uses.1, same ▸ uses.2⟩

/-- A step leaves an initialized variable alone, and the call it makes uses it. -/
theorem step_of_fixed (fixed : p.fileResovler = some folder) (event : Event) :
    (step p event).1.fileResovler = some folder ∧
      ∀ call ∈ (step p event).2, Uses folder call := by
  cases event with
  | construct path => exact ⟨fixed, fun call made => by cases made⟩
  | invoke middleware files request =>
    rw [step]
    cases p.paths[middleware]? with
    | none => exact ⟨fixed, fun call made => by cases made⟩
    | some path =>
      have folderUsed : resolverFolder path p.fileResovler = folder := by
        rw [resolverFolder, fixed, Option.getD_some]
      refine ⟨congrArg some folderUsed, fun call made => ?_⟩
      obtain rfl := Option.mem_some.mp made
      rw [Uses]
      dsimp only [useFolder]
      rw [folderUsed]
      exact ⟨rfl, rfl⟩

/-- From then on every call uses the same folder. -/
theorem calls_of_fixed (fixed : p.fileResovler = some folder) (events : List Event) :
    ∀ call ∈ calls p events, Uses folder call := by
  induction events generalizing p with
  | nil =>
    intro call made
    cases made
  | cons event events ih =>
    obtain ⟨stays, here⟩ := step_of_fixed fixed event
    intro call made
    rw [calls, List.mem_append, Option.mem_toList] at made
    exact made.elim (here call) (ih stays call)

/-- The first call initializes the variable with its own path. -/
theorem calls_of_unset (unset : p.fileResovler = none) (events : List Event) :
    ∀ first ∈ (calls p events).head?, ∀ call ∈ calls p events, Uses first.path call := by
  induction events generalizing p with
  | nil =>
    intro first begins
    cases begins
  | cons event events ih =>
    cases event with
    | construct path => exact @ih { p with paths := p.paths ++ [path] } unset
    | invoke middleware files request =>
      rw [calls, step]
      cases p.paths[middleware]? with
      | none => exact ih unset
      | some path =>
        have folderUsed : resolverFolder path p.fileResovler = path := by
          rw [resolverFolder, unset, Option.getD_none]
        dsimp only [useFolder]
        rw [folderUsed, Option.toList_some, List.singleton_append, List.head?_cons]
        intro first begins call made
        obtain rfl := Option.mem_some.mp begins
        rw [List.mem_cons] at made
        cases made with
        | inl here =>
          rw [here]
          exact ⟨rfl, rfl⟩
        | inr later => exact calls_of_fixed rfl events call later

/-- In a history every call is independent of the others if and only if all middlewares that are
invoked were built from one path. -/
theorem useFolder_independent_iff (events : List Event) :
    (∀ call ∈ calls {} events, Independent call) ↔
      (invokedPaths [] events).Pairwise fun path path' => path = path' := by
  have uses := @calls_of_unset {} rfl events
  have paths : (calls {} events).map Call.path = invokedPaths [] events := calls_path {} events
  rw [← paths, List.pairwise_map]
  cases made : calls {} events with
  | nil =>
    rw [made] at uses
    exact iff_of_true (fun call none => absurd none List.not_mem_nil) List.Pairwise.nil
  | cons first rest =>
    rw [made] at uses
    have usesFirst := uses first rfl
    constructor
    · intro independent
      have same : ∀ call ∈ first :: rest, call.path = first.path := fun call member =>
        (usesFirst call member).independent_iff.mp (independent call member)
      refine List.pairwise_of_forall_mem_list fun call member call' member' => ?_
      rw [same call member, same call' member']
    · intro same call member
      apply (usesFirst call member).independent_iff.mpr
      rw [List.mem_cons] at member
      cases member with
      | inl here => rw [here]
      | inr later => exact ((List.pairwise_cons.mp same).1 call later).symm

/-- The second folder is never looked at, although it has the file. -/
theorem not_independent :
    ∃ events : List Event, ∃ first second, calls {} events = [first, second] ∧
      second.path = chars "./b" ∧ second.opened = chars "./a/x" ∧ ¬ Independent second ∧
      serveOrContinue second.files second.path second.request =
        .ok (some (fileResponse (chars "text/html") (chars "hi"))) ∧
      second.returned = .ok none := by
  let files : FileSystem := fun path => if path = chars "./b/x" then some (chars "hi") else none
  refine ⟨[.construct (chars "./a"), .construct (chars "./b"), .invoke 0 files
    (requestFor (chars "/x")), .invoke 1 files (requestFor (chars "/x"))], _, _, rfl, rfl,
    by decide, fun independent => ?_, ?_, ?_⟩
  · exact absurd independent.opened (by decide)
  · rfl
  · rfl

end History

end middleware

end Lightning
