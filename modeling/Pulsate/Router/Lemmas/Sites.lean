import Pulsate.Router.Router
import Mathlib.Order.MinMax

/-!
# Which site serves a host
-/

namespace Pulsate.Routing

open List

/-! ## Patterns -/

theorem hostWithoutPort_of_not_mem {name : Str} (h : ':' ∉ name) : hostWithoutPort name = name := by
  have hsplit : Str.splitOnce name ":" = none := Str.splitOnce_of_not_mem h
  rw [hostWithoutPort, hsplit]

@[simp] theorem patternScore_self (host : Str) : patternScore host host = some 3 := by simp [patternScore]

theorem patternScore_le {pat host : Str} {sc : Nat} (h : patternScore pat host = some sc) : sc ≤ 3 := by
  unfold patternScore at h
  split at h
  · cases h; exact le_rfl
  · split at h
    · cases h; decide
    · split at h
      · split at h
        · cases h; decide
        · cases h
      · cases h

theorem patternScore_lt {pat host : Str} {sc : Nat} (h : patternScore pat host = some sc) (hne : pat ≠ host) :
    sc < 3 := by
  unfold patternScore at h
  rw [if_neg hne] at h
  split at h
  · cases h; decide
  · split at h
    · split at h
      · cases h; decide
      · cases h
    · cases h

theorem patternScore_nil {pat : Str} {sc : Nat} (h : patternScore pat [] = some sc) (hne : pat ≠ []) :
    pat = ":default" ∧ sc = 1 := by
  unfold patternScore at h
  rw [if_neg hne] at h
  split at h
  · rename_i hd
    cases h
    exact ⟨hd, rfl⟩
  · split at h
    · split at h
      · rename_i hlt
        simp [Str.len] at hlt
      · cases h
    · cases h

/-! ## Sites -/

theorem max_cases (a b : Option Nat) : max a b = a ∨ max a b = b := by
  cases a with
  | none => exact .inr (by cases b <;> rfl)
  | some x =>
    cases b with
    | none => exact .inl rfl
    | some y => exact (max_choice x y).imp (congrArg some) (congrArg some)

theorem max_ge {a b : Option Nat} {n : Nat} (h : a = some n ∨ b = some n) : ∃ m, max a b = some m ∧ n ≤ m := by
  rcases h with rfl | rfl
  · cases b with
    | none => exact ⟨n, rfl, le_rfl⟩
    | some y => exact ⟨max n y, rfl, le_max_left n y⟩
  · cases a with
    | none => exact ⟨n, rfl, le_rfl⟩
    | some x => exact ⟨max x n, rfl, le_max_right x n⟩

theorem foldl_max_cases {α : Type} (f : α → Option Nat) (l : List α) (b : Option Nat) :
    l.foldl (fun best x => max best (f x)) b = b ∨
      ∃ x ∈ l, l.foldl (fun best x => max best (f x)) b = f x := by
  induction l generalizing b with
  | nil => exact .inl rfl
  | cons x l ih =>
    rw [foldl_cons]
    rcases ih (max b (f x)) with h | ⟨y, hy, h⟩
    · rw [h]
      rcases max_cases b (f x) with h | h
      · exact .inl h
      · exact .inr ⟨x, mem_cons_self, h⟩
    · exact .inr ⟨y, mem_cons_of_mem _ hy, h⟩

theorem foldl_max_ge {α : Type} (f : α → Option Nat) (l : List α) (b : Option Nat) {n : Nat}
    (h : b = some n ∨ ∃ x ∈ l, f x = some n) :
    ∃ m, l.foldl (fun best x => max best (f x)) b = some m ∧ n ≤ m := by
  induction l generalizing b n with
  | nil =>
    rcases h with rfl | ⟨x, hx, -⟩
    · exact ⟨n, rfl, le_rfl⟩
    · cases hx
  | cons x l ih =>
    have hx : (b = some n ∨ f x = some n) ∨ ∃ y ∈ l, f y = some n := by
      rcases h with h | ⟨y, hy, h⟩
      · exact .inl (.inl h)
      · rcases mem_cons.mp hy with rfl | hy
        · exact .inl (.inr h)
        · exact .inr ⟨y, hy, h⟩
    rw [foldl_cons]
    rcases hx with hx | hx
    · obtain ⟨m, hm, hle⟩ := max_ge hx
      obtain ⟨m', hm', hle'⟩ := ih _ (.inl hm)
      exact ⟨m', hm', hle.trans hle'⟩
    · exact ih _ (.inr hx)

namespace SiteRoutes

variable {site : SiteRoutes} {host : Str} {sc : Nat}

theorem hostScore_cases (h : site.hostScore host = some sc) :
    ∃ pat ∈ site.hosts, patternScore pat host = some sc := by
  rcases foldl_max_cases (patternScore · host) site.hosts none with hn | ⟨pat, hp, he⟩
  · rw [hostScore, hn] at h; cases h
  · exact ⟨pat, hp, by rw [← he]; exact h⟩

theorem hostScore_of_mem (h : host ∈ site.hosts) : site.hostScore host = some 3 := by
  obtain ⟨sc, hsc, hle⟩ := foldl_max_ge (patternScore · host) site.hosts none
    (.inr ⟨host, h, patternScore_self host⟩)
  obtain ⟨pat, -, hp⟩ := hostScore_cases hsc
  rw [hostScore, hsc, le_antisymm (patternScore_le hp) hle]

theorem hostScore_lt (h : site.hostScore host = some sc) (hno : host ∉ site.hosts) : sc < 3 := by
  obtain ⟨pat, hp, hs⟩ := hostScore_cases h
  exact patternScore_lt hs (fun he => hno (he ▸ hp))

end SiteRoutes

namespace Router

variable {router : Router} {host : Str}

theorem siteFor_eq (router : Router) (host : Str) :
    router.siteFor host = Lib.best (·.hostScore (hostWithoutPort host)) router.sites := rfl

/-- The site with the only greatest score serves the host. -/
theorem siteFor_of_max {pre post : List SiteRoutes} {site : SiteRoutes} (sc : Nat)
    (hsites : router.sites = pre ++ site :: post) (hs : site.hostScore (hostWithoutPort host) = some sc)
    (hmax : ∀ t ∈ pre ++ post, ∀ sc', t.hostScore (hostWithoutPort host) = some sc' → sc' < sc) :
    router.siteFor host = some site := Lib.best_of_lt hsites hs hmax

theorem mem_hosts_of_siteFor {site t : SiteRoutes} (ht : t ∈ router.sites) (hh : hostWithoutPort host ∈ t.hosts)
    (h : router.siteFor host = some site) : hostWithoutPort host ∈ site.hosts := by
  obtain ⟨-, sc, hsc, hmax⟩ := Lib.isBest_of_best h
  by_contra hno
  exact absurd (hmax t ht 3 (SiteRoutes.hostScore_of_mem hh)) (Nat.not_le.mpr (SiteRoutes.hostScore_lt hsc hno))

end Router

end Pulsate.Routing
