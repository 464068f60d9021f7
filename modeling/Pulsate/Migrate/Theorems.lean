import Pulsate.Migrate.Lemmas.Parses

/-!
# The importers

Imported Flow is read as the blocks the importer opened exactly if every foreign word fits the place it is copied to.
-/

namespace Pulsate.Migrate

open Lib (Iteration)

/-! ## Well-formed output -/

theorem isReadAs_iff_safe (order : Iteration Str (List Str)) (source : Source) (text : Str) :
    IsReadAs (imported order source text).flow (pieces order source text) ↔ ∀ p ∈ pieces order source text, p.Safe := by
  obtain ⟨u, hu, hflow⟩ := imported_flow order source text
  rw [hflow]
  exact isReadAs_iff (kinds_text hu _)

/-- The `(` of a pattern in `server_name` ends the header of the site, and the file is refused. -/
theorem server_name_pattern_refused :
    ¬ ∃ ast, Flow.parse (imported (.byKey _ _) .Nginx
      "server \x7b server_name ~^(www\\.)?a\\.com$; location / \x7b return 200; \x7d \x7d").flow = .ok ast := by
  have h : (Flow.parse (imported (.byKey _ _) .Nginx
      "server \x7b server_name ~^(www\\.)?a\\.com$; location / \x7b return 200; \x7d \x7d").flow).toBool = false := by
    decide +kernel
  rintro ⟨ast, hast⟩
  rw [hast] at h
  cases h

end Pulsate.Migrate
