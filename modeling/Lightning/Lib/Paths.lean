import Mathlib.Data.List.Basic

/-!
# Resolving paths in a tree of directories

A location is the list of names that leads up to the root. A path is walked component by component,
each one from a directory; the locations that it passes are its `trail`, which does not depend on
the tree. What a path reads depends only on the entries along its trail (`read_congr`). So it
depends only on what is in the folder of another path if and only if its trail stays in that folder,
apart from locations that the path of the folder passes through or below
(`depends_only_iff_confined`). And from every folder a path can reach every entry
(`read_anywhere`).
-/

namespace Paths

variable {ν β : Type*}

inductive Component (ν : Type*) where
  | stay
  | up
  | down (name : ν)
  deriving DecidableEq, Repr

inductive Entry (β : Type*) where
  | file (content : β)
  | directory
  deriving DecidableEq, Repr

/-- The innermost name comes first. -/
abbrev Location (ν : Type*) := List ν

structure Tree (ν β : Type*) where
  entry : Location ν → Option (Entry β)
  root : entry [] = some .directory
  parent : ∀ {name l}, entry (name :: l) ≠ none → entry l = some .directory

/-- The root is its own parent. -/
def move : Component ν → Location ν → Location ν
  | .stay, l => l
  | .up, l => l.tail
  | .down name, l => name :: l

/-- Where a path leads when everything on it exists. -/
def target : Location ν → List (Component ν) → Location ν
  | l, [] => l
  | l, c :: cs => target (move c l) cs

/-- The locations that a path passes, with the first and the last one. -/
def trail : Location ν → List (Component ν) → List (Location ν)
  | l, [] => [l]
  | l, c :: cs => l :: trail (move c l) cs

theorem mem_trail_start (l : Location ν) (cs : List (Component ν)) : l ∈ trail l cs := by
  cases cs <;> exact List.mem_cons_self

theorem target_mem_trail (l : Location ν) (cs : List (Component ν)) :
    target l cs ∈ trail l cs := by
  induction cs generalizing l with
  | nil => exact List.mem_cons_self
  | cons c cs ih => exact List.mem_cons_of_mem _ (ih (move c l))

namespace Tree

variable {t t' : Tree ν β} {l m start : Location ν} {c : Component ν}
  {cs folder : List (Component ν)}

/-- One component is walked, from a directory to an entry that exists. -/
def step (t : Tree ν β) (c : Component ν) (l : Location ν) : Option (Location ν) :=
  match t.entry l with
  | some .directory => (t.entry (move c l)).map fun _ => move c l
  | _ => none

def walk (t : Tree ν β) : Location ν → List (Component ν) → Option (Location ν)
  | l, [] => some l
  | l, c :: cs => (t.step c l).bind fun l => t.walk l cs

/-- The entry that the path leads to. -/
def read (t : Tree ν β) (l : Location ν) (cs : List (Component ν)) : Option (Entry β) :=
  (t.walk l cs).bind t.entry

theorem step_eq_some_iff :
    t.step c l = some m ↔
      t.entry l = some .directory ∧ t.entry (move c l) ≠ none ∧ move c l = m := by
  unfold step
  split
  · next directory => cases t.entry (move c l) <;> simp [directory]
  · next other =>
    constructor
    · exact fun h => absurd h (by simp)
    · exact fun h => absurd h.1 other

theorem step_of_full (full : ∀ l, t.entry l = some .directory) (c : Component ν) (l : Location ν) :
    t.step c l = some (move c l) :=
  step_eq_some_iff.mpr ⟨full l, by rw [full]; exact Option.some_ne_none _, rfl⟩

theorem step_congr (here : t.entry l = t'.entry l)
    (there : t.entry (move c l) = t'.entry (move c l)) : t.step c l = t'.step c l := by
  rw [step, step, here, there]

theorem walk_congr (same : ∀ m ∈ trail l cs, t.entry m = t'.entry m) :
    t.walk l cs = t'.walk l cs := by
  induction cs generalizing l with
  | nil => rfl
  | cons c cs ih =>
    have later (m : Location ν) (hm : m ∈ trail (move c l) cs) : t.entry m = t'.entry m :=
      same m (List.mem_cons_of_mem _ hm)
    rw [walk, walk, step_congr (same l List.mem_cons_self) (later _ (mem_trail_start _ _))]
    cases step : t'.step c l with
    | none => rfl
    | some m =>
      obtain ⟨-, -, rfl⟩ := step_eq_some_iff.mp step
      exact ih later

theorem walk_eq_target (h : t.walk l cs = some m) : m = target l cs := by
  induction cs generalizing l with
  | nil => exact (Option.some.inj h).symm
  | cons c cs ih =>
    obtain ⟨l', step, rest⟩ := Option.bind_eq_some_iff.mp h
    obtain ⟨-, -, rfl⟩ := step_eq_some_iff.mp step
    exact ih rest

theorem read_congr (same : ∀ m ∈ trail l cs, t.entry m = t'.entry m) :
    t.read l cs = t'.read l cs := by
  rw [read, read, walk_congr same]
  cases h : t'.walk l cs with
  | none => rfl
  | some m => exact same m (walk_eq_target h ▸ target_mem_trail l cs)

/-- A path that can be walked passes directories, apart from what it leads to. -/
theorem directory_of_walk (h : t.walk l cs = some m) {k : Location ν} (hk : k ∈ trail l cs) :
    t.entry k = some .directory ∨ k = m := by
  induction cs generalizing l with
  | nil =>
    obtain rfl := List.mem_singleton.mp hk
    exact Or.inr (Option.some.inj h)
  | cons c cs ih =>
    obtain ⟨l', step, rest⟩ := Option.bind_eq_some_iff.mp h
    obtain ⟨directory, -, rfl⟩ := step_eq_some_iff.mp step
    rcases List.mem_cons.mp hk with rfl | later
    · exact Or.inl directory
    · exact ih rest later

theorem read_of_missing (hm : m ∈ trail l cs) (missing : t.entry m = none) :
    t.read l cs = none := by
  cases h : t.walk l cs with
  | none => rw [read, h, Option.bind_none]
  | some k =>
    rcases directory_of_walk h hm with directory | rfl
    · rw [missing] at directory
      exact absurd directory (Option.some_ne_none _).symm
    · rw [read, h, Option.bind_some, missing]

theorem directory_of_suffix (present : t.entry l ≠ none) (h : m <:+ l) :
    m = l ∨ t.entry m = some .directory := by
  induction l with
  | nil => exact Or.inl (List.suffix_nil.mp h)
  | cons name l ih =>
    rcases List.suffix_cons_iff.mp h with rfl | below
    · exact Or.inl rfl
    · have directory := t.parent present
      rcases ih (by rw [directory]; exact Option.some_ne_none _) below with rfl | above
      · exact Or.inr directory
      · exact Or.inr above

/-! ## What a path depends on -/

/-- Everything is a directory. -/
def full (ν β : Type*) : Tree ν β where
  entry _ := some .directory
  root := rfl
  parent _ := rfl

/-- Everything is a directory, except that this location and what is below it do not exist. -/
def fullBut [DecidableEq ν] (β : Type*) (m : Location ν) (below : m ≠ []) : Tree ν β where
  entry l := if m <:+ l then none else some .directory
  root := if_neg fun h => below (List.suffix_nil.mp h)
  parent {name l} present := if_neg fun h => present (if_pos (h.trans (List.suffix_cons name l)))

theorem walk_full (l : Location ν) (cs : List (Component ν)) :
    (full ν β).walk l cs = some (target l cs) := by
  induction cs generalizing l with
  | nil => rfl
  | cons c cs ih =>
    rw [walk, step_of_full (fun _ => rfl)]
    exact ih (move c l)

theorem read_full (l : Location ν) (cs : List (Component ν)) :
    (full ν β).read l cs = some .directory := by
  rw [read, walk_full]
  rfl

/-- Both trees have the folder, with the same things in it. -/
structure SameFolder (start : Location ν) (folder : List (Component ν)) (t t' : Tree ν β) :
    Prop where
  left : t.read start folder ≠ none
  right : t'.read start folder ≠ none
  inside : ∀ l, target start folder <:+ l → t.entry l = t'.entry l

/-- The path stays in the folder, or passes what the path of the folder passes through. -/
def Confined (start : Location ν) (folder cs : List (Component ν)) : Prop :=
  ∀ l ∈ trail start cs, target start folder <:+ l ∨ ∃ k ∈ trail start folder, l <:+ k

instance [DecidableEq ν] (start : Location ν) (folder cs : List (Component ν)) :
    Decidable (Confined start folder cs) := by
  unfold Confined
  infer_instance

theorem walk_of_read (h : t.read l cs ≠ none) :
    t.walk l cs = some (target l cs) ∧ t.entry (target l cs) ≠ none := by
  cases walked : t.walk l cs with
  | none => exact absurd (by rw [read, walked, Option.bind_none]) h
  | some m =>
    rw [read, walked, Option.bind_some] at h
    rw [walk_eq_target walked] at h ⊢
    exact ⟨rfl, h⟩

/-- What the path of the folder passes is there, and above it are directories. -/
theorem directory_of_passed (h : t.read start folder ≠ none) {k : Location ν}
    (hk : k ∈ trail start folder) (above : l <:+ k) :
    l = target start folder ∨ t.entry l = some .directory := by
  obtain ⟨walked, present⟩ := walk_of_read h
  rcases directory_of_walk walked hk with directory | rfl
  · rcases directory_of_suffix (by rw [directory]; exact Option.some_ne_none _) above with rfl | up
    · exact Or.inr directory
    · exact Or.inr up
  · exact directory_of_suffix present above

theorem SameFolder.entry_eq (same : SameFolder start folder t t')
    (confined : Confined start folder cs) : ∀ l ∈ trail start cs, t.entry l = t'.entry l := by
  intro l hl
  rcases confined l hl with inside | ⟨k, hk, above⟩
  · exact same.inside l inside
  · rcases directory_of_passed same.left hk above with rfl | directory
    · exact same.inside _ List.suffix_rfl
    · rcases directory_of_passed same.right hk above with rfl | directory'
      · exact same.inside _ List.suffix_rfl
      · rw [directory, directory']

/-- Away from a missing location the two trees of directories look alike. -/
theorem sameFolder_fullBut [DecidableEq ν] {below : m ≠ []}
    (outside : ¬ target start folder <:+ m) (unpassed : ∀ k ∈ trail start folder, ¬ m <:+ k) :
    SameFolder start folder (full ν β) (fullBut β m below) := by
  have passed (k : Location ν) (hk : k ∈ trail start folder) :
      (fullBut β m below).entry k = (full ν β).entry k := if_neg (unpassed k hk)
  refine ⟨?_, ?_, fun l inside => ?_⟩
  · rw [read_full]
    exact Option.some_ne_none _
  · rw [read_congr passed, read_full]
    exact Option.some_ne_none _
  · refine (if_neg fun missing => ?_).symm
    rcases List.suffix_or_suffix_of_suffix inside missing with h | h
    · exact outside h
    · exact unpassed _ (target_mem_trail start folder) h

/-- What is observed of the entry that a path leads to is the same in all trees with the same folder
if and only if the path is confined, provided that a directory can be told from nothing. -/
theorem depends_only_iff_confined [DecidableEq ν] {γ : Type*} (observe : Option (Entry β) → γ)
    (tells : observe (some .directory) ≠ observe none) :
    (∀ t t' : Tree ν β, SameFolder start folder t t' →
        observe (t.read start cs) = observe (t'.read start cs)) ↔
      Confined start folder cs := by
  constructor
  · intro depends l hl
    by_contra! loose
    have below : l ≠ [] := by
      rintro rfl
      exact loose.2 start (mem_trail_start start folder) List.nil_suffix
    have alike : SameFolder start folder (full ν β) (fullBut β l below) :=
      sameFolder_fullBut loose.1 loose.2
    have same := depends _ _ alike
    have missing : (fullBut β l below).read start cs = none :=
      read_of_missing hl (if_pos List.suffix_rfl)
    rw [read_full, missing] at same
    exact tells same
  · intro confined t t' same
    rw [read_congr (same.entry_eq confined)]

/-- The path never goes up more often than it has gone down, `depth` levels below where it counts
from. -/
def StaysBelow : ℕ → List (Component ν) → Prop
  | _, [] => True
  | depth, .stay :: cs => StaysBelow depth cs
  | 0, .up :: _ => False
  | depth + 1, .up :: cs => StaysBelow depth cs
  | depth, .down _ :: cs => StaysBelow (depth + 1) cs

theorem suffix_of_staysBelow {depth : ℕ} (h : StaysBelow depth cs) (inside : m <:+ l)
    (deep : l.length = m.length + depth) : ∀ k ∈ trail l cs, m <:+ k := by
  induction cs generalizing depth l with
  | nil =>
    intro k hk
    rwa [List.mem_singleton.mp hk]
  | cons c cs ih =>
    apply List.forall_mem_cons.mpr ⟨inside, ?_⟩
    match c, depth with
    | .stay, _ => exact ih h inside deep
    | .down name, depth =>
      have longer : (name :: l).length = m.length + (depth + 1) := by
        rw [List.length_cons, deep, Nat.add_assoc]
      exact ih h (inside.trans (List.suffix_cons name l)) longer
    | .up, depth + 1 =>
      cases l with
      | nil => simp at deep
      | cons name l =>
        rw [List.length_cons] at deep
        have shorter : l.length = m.length + depth := by omega
        refine ih h ?_ shorter
        rcases List.suffix_cons_iff.mp inside with rfl | below
        · rw [List.length_cons] at shorter
          omega
        · exact below

theorem trail_append (l : Location ν) (cs cs' : List (Component ν)) {k : Location ν} :
    k ∈ trail l (cs ++ cs') ↔ k ∈ trail l cs ∨ k ∈ trail (target l cs) cs' := by
  induction cs generalizing l with
  | nil =>
    constructor
    · exact Or.inr
    · rintro (first | later)
      · rw [List.mem_singleton.mp first]
        exact mem_trail_start l cs'
      · exact later
  | cons c cs ih =>
    rw [List.cons_append, trail, trail, target, List.mem_cons, List.mem_cons, ih, or_assoc]

theorem confined_of_staysBelow (h : StaysBelow 0 cs) : Confined start folder (folder ++ cs) := by
  intro k hk
  rcases (trail_append start folder cs).mp hk with passed | later
  · exact Or.inr ⟨k, passed, List.suffix_rfl⟩
  · exact Or.inl (suffix_of_staysBelow h List.suffix_rfl rfl k later)

/-! ## Leaving a folder -/

theorem walk_append (l : Location ν) (cs cs' : List (Component ν)) :
    t.walk l (cs ++ cs') = (t.walk l cs).bind fun l => t.walk l cs' := by
  induction cs generalizing l with
  | nil => rfl
  | cons c cs ih =>
    rw [List.cons_append, walk, walk, Option.bind_assoc]
    exact Option.bind_congr fun m _ => ih m

/-- From a directory one can go up as far as one likes. -/
theorem walk_up (directory : t.entry l = some .directory) (n : ℕ) :
    t.walk l (List.replicate n .up) = some (l.drop n) ∧
      t.entry (l.drop n) = some .directory := by
  induction n generalizing l with
  | zero => exact ⟨rfl, directory⟩
  | succ n ih =>
    have above : t.entry l.tail = some .directory := by
      rcases directory_of_suffix (by rw [directory]; exact Option.some_ne_none _)
        (List.tail_suffix l) with same | above
      · rw [same, directory]
      · exact above
    have step : t.step .up l = some l.tail :=
      step_eq_some_iff.mpr ⟨directory, by rw [move, above]; exact Option.some_ne_none _, rfl⟩
    rw [List.replicate_succ, walk, step, Option.bind_some, ← List.drop_tail]
    exact ih above

/-- From the root every entry is reached by its names. -/
theorem walk_down (present : t.entry l ≠ none) :
    t.walk [] (l.reverse.map .down) = some l := by
  induction l with
  | nil => rfl
  | cons name l ih =>
    have directory := t.parent present
    have step : t.step (.down name) l = some (name :: l) :=
      step_eq_some_iff.mpr ⟨directory, present, rfl⟩
    rw [List.reverse_cons, List.map_append, walk_append,
      ih (by rw [directory]; exact Option.some_ne_none _)]
    show (t.step (.down name) l).bind _ = _
    rw [step]
    rfl

/-- From a folder every entry of the tree is reached, by going up often enough. -/
theorem read_anywhere (isFolder : t.read start folder = some .directory)
    (present : t.entry l ≠ none) {n : ℕ} (deep : (target start folder).length ≤ n) :
    t.read start (folder ++ (List.replicate n .up ++ l.reverse.map .down)) = t.entry l := by
  obtain ⟨walked, -⟩ := walk_of_read (by rw [isFolder]; exact Option.some_ne_none _)
  have directory : t.entry (target start folder) = some .directory := by
    rw [read, walked] at isFolder
    exact isFolder
  have up := (walk_up directory n).1
  rw [List.drop_of_length_le deep] at up
  rw [read, walk_append, walked, Option.bind_some, walk_append, up, Option.bind_some,
    walk_down present]
  rfl

end Tree

end Paths
