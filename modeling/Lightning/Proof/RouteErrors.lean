import Lightning.Proof.RouteText

/-!
# Which routes can be added

`add` is meant to take any URI. It returns exactly for the routes whose template substitution ends
and whose characters, as they stand in the expression, are read as tokens that nest
(`add_returns_iff`). A route with an unbalanced parenthesis makes the constructor of `std::regex`
throw, and an exact route with `{}` makes `formatEx` call itself without end.
-/

namespace Lightning

open EcmaScript

namespace UriMapper

/-- The substitution ends, every symbol of the expression belongs to a token, and the tokens obey
the grammar. -/
def Registrable (uri : Bytes) : Prop :=
  Ends uri ∧ ∃ ss read, routeSymbols uri = some ss ∧ tokens ss 0 = some read ∧ WellFormed read

theorem isSome_compile_routeText_iff (uri : Bytes) :
    (compile (routeText uri)).isSome ↔
      ∃ ss read, routeSymbols uri = some ss ∧ tokens ss 0 = some read ∧ WellFormed read := by
  rw [compile_isSome_iff, symbols_routeText]

theorem add_returns_iff (uri : Bytes) (resolver : Resolver) (m : UriMapper EcmaScript) :
    (∃ fuel stored m', m.add fuel uri resolver = some (.ok (stored, m'))) ↔ Registrable uri := by
  rw [Registrable, ← isSome_compile_routeText_iff]
  constructor
  · rintro ⟨fuel, stored, m', added⟩
    obtain ⟨created, compiled, found, -⟩ := add_eq_ok added
    exact ⟨(createRegex_eq_some created).1, Option.isSome_iff_exists.mpr ⟨compiled, found⟩⟩
  · rintro ⟨ends, found⟩
    obtain ⟨compiled, found⟩ := Option.isSome_iff_exists.mp found
    exact ⟨uri.length + 2, _, _, add_of_compile ends found (Nat.lt_succ_self _)⟩

/-- With an open parenthesis `add` throws and at no depth returns; with `{}` it never ends. -/
theorem add_fails :
    (⟨∅⟩ : UriMapper EcmaScript).add 5 (chars "/(") (fun _ => .throwing .regexError) =
        some (.error .regexError) ∧
      (∀ fuel stored m', (⟨∅⟩ : UriMapper EcmaScript).add fuel (chars "/(")
        (fun _ => .throwing .regexError) ≠ some (.ok (stored, m'))) ∧
      ∀ fuel, (⟨∅⟩ : UriMapper EcmaScript).add fuel (chars "\x7b\x7d")
        (fun _ => .throwing .regexError) = none := by
  refine ⟨rfl, fun fuel stored m' added => ?_, fun fuel => ?_⟩
  · obtain ⟨-, compiled, found, -⟩ := add_eq_ok added
    have malformed : compile (routeText (chars "/(")) = none := by decide
    exact absurd (malformed.symm.trans found) (by simp)
  · have exact : containsWildcard (chars "\x7b\x7d") = none := by decide
    have stuck : createRegex fuel (chars "\x7b\x7d") = none :=
      createRegex_diverges fun ends => ends exact (by decide)
    rw [add, stuck]
    rfl

end UriMapper

end Lightning
