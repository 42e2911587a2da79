import Mathlib.Data.List.Basic

/-!
# Regular expressions

`RegexEngine` is what a program needs of a regular expression library: to compile an expression
and to match a whole subject, with the positions of the capture groups. `EcmaScript` implements it
for the ECMAScript grammar of the C++ standard: ordinary characters, escapes, `.`, classes, `^`,
`$`, word boundaries, groups, back references, alternatives and the greedy quantifiers. Left out
are what a `?` behind `(` or behind a quantifier begins, and the named classes `[:name:]`, which
count as malformed.

An expression is read in three passes: `symbols` pairs each backslash with the character behind it,
`tokens` joins the symbols that belong together, and `build` nests the groups. The matcher
backtracks: `run` lists every way to match from a position, in the order of priority.
-/

/-- A library of regular expressions over byte strings, with compiled expressions in `ρ`. -/
class RegexEngine (ρ : Type) where
  /-- `none` when the expression is malformed. -/
  compile : List UInt8 → Option ρ
  /-- The start and the end of each capture group when the whole subject matches. A group that
  took no part is empty at the end of the subject. -/
  regexMatch : ρ → List UInt8 → Option (List (ℕ × ℕ))

inductive EcmaScript where
  | empty
  | char (c : UInt8)
  | any
  | set (negated : Bool) (ranges : List (UInt8 × UInt8))
  | bol
  | eol
  | wordBoundary (negated : Bool)
  | backReference (index : ℕ)
  | seq (first second : EcmaScript)
  | alt (first second : EcmaScript)
  | star (body : EcmaScript)
  | group (index : ℕ) (body : EcmaScript)
  deriving DecidableEq, Repr

namespace EcmaScript

/-! ## Symbols -/

/-- A character of an expression, bare or behind a backslash. -/
inductive Symbol where
  | bare (c : UInt8)
  | escaped (c : UInt8)
  deriving DecidableEq, Repr

/-- A backslash at the end escapes nothing. -/
def symbols : List UInt8 → Option (List Symbol)
  | [] => some []
  | 92 :: c :: rest => (symbols rest).map (Symbol.escaped c :: ·)
  | c :: rest => if c = 92 then none else (symbols rest).map (Symbol.bare c :: ·)

def isDigit (c : UInt8) : Bool := 48 ≤ c && c ≤ 57

def isLetter (c : UInt8) : Bool := (65 ≤ c && c ≤ 90) || (97 ≤ c && c ≤ 122)

def isHexDigit (c : UInt8) : Bool := isDigit c || (65 ≤ c && c ≤ 70) || (97 ≤ c && c ≤ 102)

/-- Letters, digits and the underscore, which `\w` and the word boundaries are about. -/
def isWord (c : UInt8) : Bool := isLetter c || isDigit c || c == 95

/-- The bare characters with the property at the front. -/
def bareRun (p : UInt8 → Bool) : List Symbol → List UInt8
  | [] => []
  | .bare c :: rest => if p c then c :: bareRun p rest else []
  | .escaped _ :: _ => []

def decimal (digits : List UInt8) : ℕ :=
  digits.foldl (fun value d => 10 * value + (d.toNat - 48)) 0

def hexadecimal (digits : List UInt8) : ℕ :=
  digits.foldl (fun value d => 16 * value + if isDigit d then d.toNat - 48 else d.toNat % 32 + 9) 0

/-! ## Tokens -/

inductive Token where
  | atom (r : EcmaScript)
  | assertion (r : EcmaScript)
  | opening
  | closing
  | bar
  | quantifier (least : ℕ) (most : Option ℕ)
  deriving DecidableEq, Repr

/-- `\x` and `\u` need all their digits, and the value has to fit a character. -/
def hexEscape (width : ℕ) (rest : List Symbol) : Option (UInt8 × ℕ) :=
  let digits := (bareRun isHexDigit rest).take width
  if digits.length = width ∧ hexadecimal digits < 256 then
    some (UInt8.ofNat (hexadecimal digits), width)
  else none

/-- The character that an escape stands for, and the number of symbols behind it that belong to
it. What has no other meaning stands for itself. -/
def characterEscape (c : UInt8) (rest : List Symbol) : Option (UInt8 × ℕ) :=
  match c with
  | 48 => some (0, 0)
  | 99 => (bareRun isLetter rest).head?.map fun letter => (letter % 32, 1)
  | 102 => some (12, 0)
  | 110 => some (10, 0)
  | 114 => some (13, 0)
  | 116 => some (9, 0)
  | 117 => hexEscape 4 rest
  | 118 => some (11, 0)
  | 120 => hexEscape 2 rest
  | c => some (c, 0)

/-- The characters that `\d`, `\s`, `\w` and their opposites stand for. -/
def classEscape (c : UInt8) : Option (List (UInt8 × UInt8)) :=
  match c with
  | 68 => some [(0, 47), (58, 255)]
  | 83 => some [(0, 8), (14, 31), (33, 255)]
  | 87 => some [(0, 47), (58, 64), (91, 94), (96, 96), (123, 255)]
  | 100 => some [(48, 57)]
  | 115 => some [(9, 13), (32, 32)]
  | 119 => some [(48, 57), (65, 90), (95, 95), (97, 122)]
  | _ => none

def readEscape (c : UInt8) (rest : List Symbol) : Option (Token × ℕ) :=
  if c = 98 then some (.assertion (wordBoundary false), 0)
  else if c = 66 then some (.assertion (wordBoundary true), 0)
  else if isDigit c ∧ c ≠ 48 then
    let digits := bareRun isDigit rest
    some (.atom (backReference (decimal (c :: digits))), digits.length)
  else
    match classEscape c with
    | some ranges => some (.atom (set false ranges), 0)
    | none => (characterEscape c rest).map fun (c, further) => (.atom (char c), further)

/-- The counts behind a `{`. -/
def readBraces (rest : List Symbol) : Option (Token × ℕ) :=
  let least := bareRun isDigit rest
  if least = [] then none
  else
    match rest.drop least.length with
    | .bare 125 :: _ =>
        some (.quantifier (decimal least) (some (decimal least)), least.length + 1)
    | .bare 44 :: rest =>
        let most := bareRun isDigit rest
        if (rest.drop most.length).head? ≠ some (.bare 125) then none
        else if most = [] then some (.quantifier (decimal least) none, least.length + 2)
        else if decimal least ≤ decimal most then
          some (.quantifier (decimal least) (some (decimal most)), least.length + most.length + 2)
        else none
    | _ => none

/-- A member of a class. A bare `-` may stand between the ends of a range. -/
inductive ClassAtom where
  | dash
  | char (c : UInt8)
  | escape (ranges : List (UInt8 × UInt8))

def ClassAtom.endpoint : ClassAtom → Option UInt8
  | dash => some 45
  | char c => some c
  | escape _ => none

def ClassAtom.ranges : ClassAtom → List (UInt8 × UInt8)
  | dash => [(45, 45)]
  | char c => [(c, c)]
  | escape ranges => ranges

def readClassEscape (c : UInt8) (rest : List Symbol) : Option (ClassAtom × ℕ) :=
  if c = 98 then some (.char 8, 0)
  else if isDigit c ∧ c ≠ 48 then none
  else
    match classEscape c with
    | some ranges => some (.escape ranges, 0)
    | none => (characterEscape c rest).map fun (c, further) => (.char c, further)

def readClassAtom : Symbol → List Symbol → Option (ClassAtom × ℕ)
  | .escaped c, rest => readClassEscape c rest
  | .bare c, rest =>
      if c = 45 then some (.dash, 0)
      else if c = 91 ∧ rest.head? ∈ [some (Symbol.bare 46), some (.bare 58), some (.bare 61)] then
        none
      else some (.char c, 0)

/-- The members, with the number of symbols that belong to the last one read. -/
def classAtoms : List Symbol → ℕ → Option (List ClassAtom)
  | [], _ => some []
  | _ :: rest, skip + 1 => classAtoms rest skip
  | s :: rest, 0 =>
      (readClassAtom s rest).bind fun (atom, further) => (classAtoms rest further).map (atom :: ·)

def classRanges : List ClassAtom → Option (List (UInt8 × UInt8))
  | [] => some []
  | first :: .dash :: last :: rest =>
      match first.endpoint, last.endpoint with
      | some a, some b => if a ≤ b then (classRanges rest).map ((a, b) :: ·) else none
      | _, _ => none
  | first :: rest => (classRanges rest).map (first.ranges ++ ·)

/-- The class behind a `[`, which ends with the next bare `]`. -/
def readClass (rest : List Symbol) : Option (Token × ℕ) :=
  let negated := rest.head? = some (.bare 94)
  let marks := if negated then 1 else 0
  let body := (rest.drop marks).takeWhile (· ≠ .bare 93)
  if marks + body.length = rest.length then none
  else
    ((classAtoms body 0).bind classRanges).map fun ranges =>
      (.atom (set negated ranges), marks + body.length + 1)

/-- The token that begins with a symbol, and the number of further symbols that belong to it. -/
def readToken : Symbol → List Symbol → Option (Token × ℕ)
  | .escaped c, rest => readEscape c rest
  | .bare c, rest =>
      match c with
      | 36 => some (.assertion eol, 0)
      | 40 => some (.opening, 0)
      | 41 => some (.closing, 0)
      | 42 => some (.quantifier 0 none, 0)
      | 43 => some (.quantifier 1 none, 0)
      | 46 => some (.atom any, 0)
      | 63 => some (.quantifier 0 (some 1), 0)
      | 91 => readClass rest
      | 93 => none
      | 94 => some (.assertion bol, 0)
      | 123 => readBraces rest
      | 124 => some (.bar, 0)
      | 125 => none
      | c => some (.atom (char c), 0)

/-- The tokens behind the symbols that still belong to the last one. -/
def tokens : List Symbol → ℕ → Option (List Token)
  | [], _ => some []
  | _ :: rest, skip + 1 => tokens rest skip
  | s :: rest, 0 =>
      (readToken s rest).bind fun (token, further) => (tokens rest further).map (token :: ·)

/-! ## Compilation -/

/-- An open group: its number, the finished alternatives and the items of the current one, both in
reverse, and whether the last item can be repeated. -/
structure Frame where
  index : ℕ
  alternatives : List EcmaScript := []
  items : List EcmaScript := []
  ready : Bool := false

def sequence (items : List EcmaScript) : EcmaScript := items.foldl (fun rest r => seq r rest) empty

/-- The disjunction of an open group. -/
def Frame.close (f : Frame) : EcmaScript :=
  f.alternatives.foldl (fun rest r => alt r rest) (sequence f.items)

def Frame.push (r : EcmaScript) (ready : Bool) (f : Frame) : Frame :=
  { f with items := r :: f.items, ready := ready }

def Frame.bar (f : Frame) : Frame :=
  { f with alternatives := sequence f.items :: f.alternatives, items := [], ready := false }

def times (r : EcmaScript) : ℕ → EcmaScript → EcmaScript
  | 0, rest => rest
  | n + 1, rest => seq r (times r n rest)

def upTo (r : EcmaScript) : ℕ → EcmaScript
  | 0 => empty
  | n + 1 => alt (seq r (upTo r n)) empty

/-- What is repeated zero times keeps its groups, behind a class that has no character. -/
def repetition (least : ℕ) (most : Option ℕ) (r : EcmaScript) : EcmaScript :=
  if most = some 0 then star (seq (set false []) r)
  else times r least (most.elim (star r) fun most => upTo r (most - least))

/-- A quantifier applies to the last item, which must be an atom without one. -/
def Frame.quantify (least : ℕ) (most : Option ℕ) (f : Frame) : Option Frame :=
  match f.items with
  | [] => none
  | r :: items =>
      if f.ready then some { f with items := repetition least most r :: items, ready := false }
      else none

/-- Nest the tokens, with the innermost open group, the groups around it and the number of groups
opened so far. -/
def build : List Token → Frame → List Frame → ℕ → Option EcmaScript
  | [], f, [], _ => some f.close
  | [], _, _ :: _, _ => none
  | .atom r :: rest, f, outer, n => build rest (f.push r true) outer n
  | .assertion r :: rest, f, outer, n => build rest (f.push r false) outer n
  | .opening :: rest, f, outer, n => build rest ⟨n + 1, [], [], false⟩ (f :: outer) (n + 1)
  | .closing :: _, _, [], _ => none
  | .closing :: rest, f, parent :: outer, n =>
      build rest (parent.push (group f.index f.close) true) outer n
  | .bar :: rest, f, outer, n => build rest f.bar outer n
  | .quantifier least most :: rest, f, outer, n =>
      (f.quantify least most).bind fun f => build rest f outer n

/-- A back reference needs a group with its number. -/
def Token.refersWithin (groups : ℕ) : Token → Bool
  | .atom (backReference index) => index ≤ groups
  | _ => true

def compile (expression : List UInt8) : Option EcmaScript :=
  ((symbols expression).bind (tokens · 0)).bind fun read =>
    if read.all (Token.refersWithin (read.count .opening)) then build read ⟨0, [], [], false⟩ [] 0
    else none

/-- The number of capture groups. -/
def groups : EcmaScript → ℕ
  | seq r s => max r.groups s.groups
  | alt r s => max r.groups s.groups
  | star r => r.groups
  | group index r => max index r.groups
  | _ => 0

/-! ## Matching -/

/-- The captures found so far, newest first. -/
abbrev Captures := List (ℕ × ℕ × ℕ)

/-- As many rounds as possible first; a round that takes nothing ends the repetition. -/
def repeated (round : ℕ → Captures → List (ℕ × Captures)) :
    ℕ → ℕ → Captures → List (ℕ × Captures)
  | 0, pos, caps => [(pos, caps)]
  | fuel + 1, pos, caps =>
      ((round pos caps).flatMap fun (next, caps) =>
        if next = pos then [] else repeated round fuel next caps) ++ [(pos, caps)]

def inRanges (ranges : List (UInt8 × UInt8)) (c : UInt8) : Bool :=
  ranges.any fun range => range.1 ≤ c && c ≤ range.2

/-- Whether a word begins or ends at `pos`. -/
def atWordBoundary (subject : List UInt8) (pos : ℕ) : Bool :=
  let before := if pos = 0 then none else subject[pos - 1]?
  before.any isWord != subject[pos]?.any isWord

/-- What the group captured last; a group that took no part captured nothing. -/
def captured (subject : List UInt8) (index : ℕ) (caps : Captures) : List UInt8 :=
  match caps.find? fun capture => capture.1 = index with
  | none => []
  | some (_, first, last) => (subject.take last).drop first

/-- Every match of the expression from `pos`, with its end. -/
def run (subject : List UInt8) : EcmaScript → ℕ → Captures → List (ℕ × Captures)
  | empty, pos, caps => [(pos, caps)]
  | char c, pos, caps => if subject[pos]? = some c then [(pos + 1, caps)] else []
  | any, pos, caps =>
      match subject[pos]? with
      | none => []
      | some c => if c = 10 ∨ c = 13 then [] else [(pos + 1, caps)]
  | set negated ranges, pos, caps =>
      match subject[pos]? with
      | none => []
      | some c => if inRanges ranges c = negated then [] else [(pos + 1, caps)]
  | bol, pos, caps => if pos = 0 then [(pos, caps)] else []
  | eol, pos, caps => if pos = subject.length then [(pos, caps)] else []
  | wordBoundary negated, pos, caps =>
      if atWordBoundary subject pos = negated then [] else [(pos, caps)]
  | backReference index, pos, caps =>
      let word := captured subject index caps
      if word <+: subject.drop pos then [(pos + word.length, caps)] else []
  | seq r s, pos, caps =>
      (run subject r pos caps).flatMap fun (next, caps) => run subject s next caps
  | alt r s, pos, caps => run subject r pos caps ++ run subject s pos caps
  | star r, pos, caps => repeated (run subject r) (subject.length + 1) pos caps
  | group index r, pos, caps =>
      (run subject r pos caps).map fun (next, caps) => (next, (index, pos, next) :: caps)

/-- The first match that reaches the end of the subject. -/
def regexMatch (r : EcmaScript) (subject : List UInt8) : Option (List (ℕ × ℕ)) :=
  ((run subject r 0 []).find? fun result => result.1 = subject.length).map fun (_, caps) =>
    (List.range r.groups).map fun i =>
      ((caps.find? fun capture => capture.1 = i + 1).map Prod.snd).getD
        (subject.length, subject.length)

instance : RegexEngine EcmaScript where
  compile := compile
  regexMatch := regexMatch

end EcmaScript
