import Lightning.ClientRequestHandler
import Lightning.Proof.Parsing

/-!
# The letter case of field names

`getHeader` compares keys byte by byte, and so do `getBody` and the request handler when they ask for
`Content-Length` and `Connection`. Two header blocks that differ only in the letter case of their
field names are therefore read alike only if the blocks themselves make up for it: each lists every
one of its names under all its spellings, with one value (`caseInsensitive_iff`). A block that does
not repeat names can do that only if its names have no letters.
-/

namespace Lightning.HttpRequest

open EcmaScript

/-! ## Spellings -/

/-- The small letter of a capital one. -/
def foldCase (b : UInt8) : UInt8 := if 65 ≤ b ∧ b ≤ 90 then b + 32 else b

/-- The other spelling of a letter. -/
def swapCase (b : UInt8) : UInt8 :=
  if 65 ≤ b ∧ b ≤ 90 then b + 32 else if 97 ≤ b ∧ b ≤ 122 then b - 32 else b

/-- The names differ at most in the letter case. -/
def SameName (name name' : Bytes) : Prop := name.map foldCase = name'.map foldCase

instance (name name' : Bytes) : Decidable (SameName name name') :=
  inferInstanceAs (Decidable (_ = _))

section Spelling

variable {b c : UInt8} {name name' : Bytes}

theorem foldCase_swapCase (b : UInt8) : foldCase (swapCase b) = foldCase b := by
  have all : ∀ n : Fin 256, foldCase (swapCase (.ofFin n)) = foldCase (.ofFin n) := by
    decide +kernel
  exact all b.toFin

theorem swapCase_ne (letter : isLetter b) : swapCase b ≠ b := by
  have all : ∀ n : Fin 256, isLetter (.ofFin n) → swapCase (.ofFin n) ≠ .ofFin n := by
    decide +kernel
  exact all b.toFin letter

/-- Only letters have another spelling. -/
theorem eq_of_foldCase (noLetter : ¬ isLetter b) (same : foldCase c = foldCase b) : c = b := by
  have all : ∀ n : Fin 256, foldCase (.ofFin n) = .ofFin n ∨ isLetter (.ofFin n) := by
    decide +kernel
  have image : ∀ n : Fin 256, foldCase (.ofFin n) = .ofFin n ∨ isLetter (foldCase (.ofFin n)) := by
    decide +kernel
  have fixed : foldCase b = b := (all b.toFin).resolve_right noLetter
  rw [fixed] at same
  rcases image c.toFin with unchanged | letter
  · exact unchanged.symm.trans same
  · exact absurd (same ▸ letter) noLetter

theorem sameName_map_swapCase (name : Bytes) : SameName (name.map swapCase) name := by
  rw [SameName, List.map_map]
  exact List.map_congr_left fun b _ => foldCase_swapCase b

theorem eq_of_sameName (noLetter : ∀ b ∈ name', ¬ isLetter b) (same : SameName name name') :
    name = name' := by
  induction name generalizing name' with
  | nil =>
    cases name' with
    | nil => rfl
    | cons b name' => cases same
  | cons c name ih =>
    cases name' with
    | nil => cases same
    | cons b name' =>
      obtain ⟨here, later⟩ := List.cons.inj same
      obtain ⟨noLetterHere, noLetterLater⟩ := List.forall_mem_cons.mp noLetter
      rw [eq_of_foldCase noLetterHere here, ih noLetterLater later]

end Spelling

/-! ## Lookups up to the letter case -/

/-- The value of the first header with this name, whatever its spelling. -/
def firstValueAnyCase (headers : List (Bytes × Bytes)) (name : Bytes) : Option Bytes :=
  (headers.find? fun header => SameName header.1 name).map Prod.snd

/-- Every name of the list is there under each of its spellings, with one value. -/
def EverySpelling (headers : List (Bytes × Bytes)) : Prop :=
  ∀ header ∈ headers, ∀ name, SameName name header.1 →
    firstValue headers name = firstValue headers header.1

/-- The lists differ at most in the letter case of the names. -/
def SameUpToCase (headers headers' : List (Bytes × Bytes)) : Prop :=
  List.Forall₂ (fun header header' => SameName header.1 header'.1 ∧ header.2 = header'.2) headers
    headers'

section Lookup

variable {headers headers' : List (Bytes × Bytes)} {name name' : Bytes}

/-- The first header of a name in any spelling is the first of its own spelling too. -/
theorem firstValue_of_find? {header : Bytes × Bytes}
    (first : headers.find? (fun header => SameName header.1 name) = some header) :
    firstValue headers header.1 = some header.2 := by
  obtain ⟨passes, front, back, rfl, earlier⟩ := List.find?_eq_some_iff_append.mp first
  have exact : (front ++ header :: back).find? (fun other => other.1 = header.1) = some header := by
    refine List.find?_eq_some_iff_append.mpr ⟨decide_eq_true rfl, front, back, rfl, ?_⟩
    intro other member
    have differs := earlier other member
    simp only [Bool.not_eq_eq_eq_not, Bool.not_true, decide_eq_false_iff_not] at differs ⊢
    intro same
    rw [same] at differs
    exact differs (of_decide_eq_true passes)
  rw [firstValue, exact, Option.map_some]

/-- With every spelling there, exact lookups find what lookups up to the letter case find. -/
theorem firstValue_of_everySpelling (every : EverySpelling headers) (name : Bytes) :
    firstValue headers name = firstValueAnyCase headers name := by
  rw [firstValueAnyCase]
  cases first : headers.find? (fun header => SameName header.1 name) with
  | none =>
    rw [Option.map_none, firstValue, Option.map_eq_none_iff, List.find?_eq_none]
    intro header member
    have differs := List.find?_eq_none.mp first header member
    rw [decide_eq_true_eq] at differs ⊢
    rintro rfl
    exact differs rfl
  | some header =>
    have same : SameName header.1 name := by simpa using List.find?_some first
    rw [every header (List.mem_of_find?_eq_some first) name same.symm, firstValue_of_find? first,
      Option.map_some]

theorem firstValueAnyCase_congr (variants : SameUpToCase headers headers')
    (same : SameName name name') :
    firstValueAnyCase headers name = firstValueAnyCase headers' name' := by
  induction variants with
  | nil => rfl
  | @cons header header' headers headers' alike _ ih =>
    have hit : SameName header.1 name ↔ SameName header'.1 name' := by
      rw [SameName, SameName, alike.1, same]
    rw [firstValueAnyCase] at ih ⊢
    by_cases found : SameName header.1 name
    · rw [List.find?_cons_of_pos (by simpa using found), firstValueAnyCase,
        List.find?_cons_of_pos (by simpa using hit.mp found), Option.map_some, Option.map_some,
        alike.2]
    · rw [List.find?_cons_of_neg (by simpa using found), firstValueAnyCase,
        List.find?_cons_of_neg (by simpa using mt hit.mpr found), ih, firstValueAnyCase]

/-- A list that repeats no name has every spelling only of names without letters. -/
theorem everySpelling_iff_noLetters
    (distinct : headers.Pairwise fun header header' => ¬ SameName header.1 header'.1) :
    EverySpelling headers ↔ ∀ header ∈ headers, ∀ b ∈ header.1, ¬ isLetter b := by
  constructor
  · intro every header member b hb letter
    have swapped := every header member _ (sameName_map_swapCase header.1)
    have there : firstValue headers header.1 ≠ none := by
      rw [firstValue, ne_eq, Option.map_eq_none_iff, List.find?_eq_none]
      exact fun missing => missing header member (by simp)
    obtain ⟨value, found⟩ := Option.ne_none_iff_exists'.mp (swapped ▸ there)
    rw [firstValue, Option.map_eq_some_iff] at found
    obtain ⟨other, first, -⟩ := found
    have spelled : other.1 = header.1.map swapCase := by simpa using List.find?_some first
    have sameHeader : other = header := by
      by_contra differs
      have symmetric : Std.Symm fun header header' : Bytes × Bytes =>
          ¬ SameName header.1 header'.1 := ⟨fun _ _ h same => h same.symm⟩
      apply distinct.forall (List.mem_of_find?_eq_some first) member differs
      rw [spelled]
      exact sameName_map_swapCase header.1
    rw [sameHeader] at spelled
    obtain ⟨i, hi, rfl⟩ := List.mem_iff_getElem.mp hb
    have byte := congrArg (·[i]?) spelled
    simp only [List.getElem?_map, List.getElem?_eq_getElem hi, Option.map_some,
      Option.some.injEq] at byte
    exact swapCase_ne letter byte.symm
  · intro noLetters header member name same
    rw [eq_of_sameName (noLetters header member) same]

end Lookup

/-! ## Requests -/

/-- The request with another header block. -/
def withHeaderBlock (rawHeaders : Bytes) (request : HttpRequest) : HttpRequest :=
  { request with headers := parseHeaders rawHeaders }

/-- The letter case of field names makes no difference between the two header blocks: not to
`getHeader`, not to what `getBody` gives and takes from the stream, not to the connection. -/
structure CaseInsensitive (request : HttpRequest) (raw raw' : Bytes) : Prop where
  getHeader : ∀ key key', SameName key key' →
    (request.withHeaderBlock raw).getHeader key = (request.withHeaderBlock raw').getHeader key'
  getBody : ∀ P s,
    ((request.withHeaderBlock raw).getBody P s).1 =
        ((request.withHeaderBlock raw').getBody P s).1 ∧
      ((request.withHeaderBlock raw).getBody P s).2.2 =
        ((request.withHeaderBlock raw').getBody P s).2.2
  wantsKeepAlive : ClientRequestHandler.wantsKeepAlive (request.withHeaderBlock raw) =
    ClientRequestHandler.wantsKeepAlive (request.withHeaderBlock raw')

section Requests

variable {request request' : HttpRequest} {raw raw' : Bytes}

theorem getHeader_withHeaderBlock (raw key : Bytes) (request : HttpRequest) :
    (request.withHeaderBlock raw).getHeader key = firstValue (headerFields raw) key :=
  lookup_parseHeaders raw key

/-- Of the headers `getBody` uses one. -/
theorem getBody_eq_of_getHeader (stream : request.stream = request'.stream)
    (header : request.getHeader (chars "Content-Length") =
      request'.getHeader (chars "Content-Length")) (P : Platform) (s : Stream) :
    (getBody P request s).1 = (getBody P request' s).1 ∧
      (getBody P request s).2.2 = (getBody P request' s).2.2 := by
  unfold getBody
  rw [stream, header]
  split_ifs
  · exact ⟨rfl, rfl⟩
  · cases request'.getHeader (chars "Content-Length") with
    | none => exact ⟨rfl, rfl⟩
    | some value =>
      dsimp only
      cases stoi value with
      | error e => exact ⟨rfl, rfl⟩
      | ok contentLength =>
        dsimp only
        split_ifs
        · exact ⟨rfl, rfl⟩
        · rcases IStream.read P contentLength.toNat s with ⟨_ | _, s'⟩
          · exact ⟨rfl, rfl⟩
          · exact ⟨rfl, rfl⟩

/-- Two blocks that differ in the letter case of their field names are read alike if and only if
both list every spelling of their names. -/
theorem caseInsensitive_iff (variants : SameUpToCase (headerFields raw) (headerFields raw')) :
    CaseInsensitive request raw raw' ↔
      EverySpelling (headerFields raw) ∧ EverySpelling (headerFields raw') := by
  constructor
  · intro insensitive
    have lookups (key key') (same : SameName key key') :
        firstValue (headerFields raw) key = firstValue (headerFields raw') key' := by
      have alike := insensitive.getHeader key key' same
      rwa [getHeader_withHeaderBlock, getHeader_withHeaderBlock] at alike
    constructor
    · intro header _ name same
      rw [lookups name name rfl, lookups header.1 name same.symm]
    · intro header _ name same
      rw [← lookups name name rfl, ← lookups name header.1 same]
  · rintro ⟨every, every'⟩
    have alike (key key') (same : SameName key key') :
        (request.withHeaderBlock raw).getHeader key =
          (request.withHeaderBlock raw').getHeader key' := by
      rw [getHeader_withHeaderBlock, getHeader_withHeaderBlock, firstValue_of_everySpelling every,
        firstValue_of_everySpelling every', firstValueAnyCase_congr variants same]
    refine ⟨alike, ?_, ?_⟩
    · exact getBody_eq_of_getHeader rfl (alike _ _ rfl)
    · rw [ClientRequestHandler.wantsKeepAlive, alike _ _ rfl, ClientRequestHandler.wantsKeepAlive]

/-- A name without letters has one spelling. -/
theorem caseInsensitive_digits :
    EverySpelling (headerFields (chars "1: a\r\n")) ∧
      CaseInsensitive ⟨chars "GET", chars "/", chars "HTTP/1.1", [], ⟨[], 0⟩, ∅, false, false⟩
        (chars "1: a\r\n") (chars "1: a\r\n") := by
  have fields : headerFields (chars "1: a\r\n") = [(chars "1", chars "a")] := by decide +kernel
  have every : EverySpelling (headerFields (chars "1: a\r\n")) := by
    rw [fields]
    exact (everySpelling_iff_noLetters (List.pairwise_singleton _ _)).mpr (by decide +kernel)
  exact ⟨every,
    (caseInsensitive_iff (List.forall₂_same.mpr fun _ _ => ⟨rfl, rfl⟩)).mpr ⟨every, every⟩⟩

/-- With the name in small letters the body stays in the stream. -/
theorem not_caseInsensitive :
    SameUpToCase (headerFields (chars "content-length: 2\r\n"))
        (headerFields (chars "Content-Length: 2\r\n")) ∧
      ∃ request s, ((request.withHeaderBlock (chars "content-length: 2\r\n")).getBody
            Platform.newestFirst s).1 = .ok [] ∧
        ((request.withHeaderBlock (chars "Content-Length: 2\r\n")).getBody
            Platform.newestFirst s).1 = .ok (chars "hi") ∧
        ¬ CaseInsensitive request (chars "content-length: 2\r\n")
          (chars "Content-Length: 2\r\n") := by
  have fields : headerFields (chars "content-length: 2\r\n") =
      [(chars "content-length", chars "2")] := by decide +kernel
  have fields' : headerFields (chars "Content-Length: 2\r\n") =
      [(chars "Content-Length", chars "2")] := by decide +kernel
  refine ⟨?_, ⟨chars "POST", chars "/", chars "HTTP/1.1", [], ⟨[], 0⟩, ∅, true, false⟩,
    { leftoverBuffer := chars "hi" }, by decide +kernel, by decide +kernel, fun insensitive => ?_⟩
  · rw [fields, fields']
    exact .cons ⟨by decide, rfl⟩ .nil
  · have alike := insensitive.getHeader (chars "Content-Length") (chars "Content-Length") rfl
    rw [getHeader_withHeaderBlock, getHeader_withHeaderBlock, fields, fields'] at alike
    revert alike
    decide

end Requests

end Lightning.HttpRequest
