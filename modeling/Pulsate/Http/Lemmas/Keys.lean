import Pulsate.Http.Lemmas.Headers
import Pulsate.Http.Request
import Pulsate.Lib.Lists

/-!
# Keys tell targets apart

None of the parts of a key holds a line break, apart from the names in the settings, which are the same for both requests.
-/

namespace Pulsate.Http

open List Lib Option
open Cache (CacheConfig)

variable {config : CacheConfig} {r r₁ r₂ : Request}

/-! ## Line breaks -/

theorem newline_not_mem_of_all {p : Char → Bool} {s : Str} (h : s.all p) (hp : p '\n' = false) : '\n' ∉ s := by
  intro hmem
  exact Bool.false_ne_true (hp.symm.trans (all_eq_true.mp h '\n' hmem))

theorem newline_not_mem_toStr {v : HeaderValue} {s : Str} (h : v.toStr = some s) : '\n' ∉ s := by
  obtain ⟨hvis, rfl⟩ := toStr_eq_some.mp h
  intro hmem
  exact absurd (visible_text hvis '\n' hmem) (by decide)

theorem newline_not_mem_method (r : Request) : '\n' ∉ r.method := newline_not_mem_of_all r.methodValid (by decide)

theorem newline_not_mem_host (r : Request) : '\n' ∉ r.host := by
  unfold Request.host
  cases hhost : r.headers.getStr .host with
  | some host =>
    obtain ⟨v, -, hv⟩ := bind_eq_some_iff.mp hhost
    exact newline_not_mem_toStr hv
  | none =>
    rw [none_or]
    exact newline_not_mem_of_all r.authorityValid (by decide)

theorem newline_not_mem_target (r : Request) : '\n' ∉ r.target := by
  have hpath := newline_not_mem_of_all r.pathValid (by decide)
  unfold Request.target
  cases hquery : r.query with
  | none => exact hpath
  | some q =>
    have hq : '\n' ∉ q := newline_not_mem_of_all (by simpa [hquery] using r.queryValid) (by decide : isTargetChar '\n' = false)
    simp [hpath, hq]

theorem newline_not_mem_varyValue (headers : HeaderMap) (name : Str) : '\n' ∉ CacheConfig.varyValue headers name := by
  unfold CacheConfig.varyValue
  cases hvalue : ((HeaderName.parse name).bind headers.get).bind HeaderValue.toStr with
  | none => exact not_mem_nil
  | some s =>
    obtain ⟨v, -, hv⟩ := bind_eq_some_iff.mp hvalue
    exact newline_not_mem_toStr hv

/-! ## The parts of a key -/

/-- What a key says of the headers in the settings. -/
def varyText (names : List Str) (r : Request) : Str :=
  names.flatMap (fun name => '\n' :: name ++ '=' :: CacheConfig.varyValue r.headers name)

theorem head?_varyText (names : List Str) (r : Request) : ∀ c ∈ (varyText names r).head?, c = '\n' := by
  intro c hc
  cases names with
  | nil => cases hc
  | cons name names =>
    cases hc
    rfl

theorem key_eq (config : CacheConfig) (r : Request) :
    r.key config = r.method ++ ('\n' :: (r.host ++ ('\n' :: (r.target ++ varyText config.vary r)))) := by
  show r.method ++ '\n' :: r.host ++ '\n' :: r.target ++ varyText config.vary r = _
  simp only [append_assoc, cons_append]

theorem sameTarget_of_key {config₁ config₂ : CacheConfig} (h : r₁.key config₁ = r₂.key config₂) :
    SameTarget r₁ r₂ ∧ varyText config₁.vary r₁ = varyText config₂.vary r₂ := by
  rw [key_eq, key_eq] at h
  obtain ⟨hmethod, h⟩ := append_inj_of_sep (newline_not_mem_method r₁) (newline_not_mem_method r₂) (by simp) (by simp) h
  obtain ⟨hhost, h⟩ := append_inj_of_sep (newline_not_mem_host r₁) (newline_not_mem_host r₂) (by simp) (by simp)
    (List.cons.inj h).2
  obtain ⟨htarget, h⟩ := append_inj_of_sep (newline_not_mem_target r₁) (newline_not_mem_target r₂)
    (head?_varyText _ r₁) (head?_varyText _ r₂) (List.cons.inj h).2
  exact ⟨⟨hmethod, hhost, htarget⟩, h⟩

theorem varyText_eq_iff (names : List Str) : varyText names r₁ = varyText names r₂ ↔
    ∀ name ∈ names, CacheConfig.varyValue r₁.headers name = CacheConfig.varyValue r₂.headers name := by
  induction names with
  | nil => simp [varyText]
  | cons name names ih =>
    have hcons : ∀ r : Request, varyText (name :: names) r =
        ('\n' :: name ++ ['=']) ++ (CacheConfig.varyValue r.headers name ++ varyText names r) := by
      intro r
      simp [varyText]
    rw [hcons, hcons, append_cancel_left_eq, forall_mem_cons, ← ih]
    constructor
    · intro h
      exact append_inj_of_sep (newline_not_mem_varyValue _ _) (newline_not_mem_varyValue _ _) (head?_varyText _ _)
        (head?_varyText _ _) h
    · rintro ⟨hvalue, hrest⟩
      rw [hvalue, hrest]

theorem varyValue_eq (r : Request) (name : Str) :
    CacheConfig.varyValue r.headers name = (shown (r.lines name)).map Char.ofUInt8 := by
  unfold CacheConfig.varyValue shown Request.lines
  cases HeaderName.parse name with
  | none => rfl
  | some n =>
    rw [bind_some, get_eq_head?, map_some, getD_some]
    cases (r.headers.getAll n).head? with
    | none => rfl
    | some v =>
      rw [bind_some, HeaderValue.toStr, filter_some]
      cases v.isVisible <;> rfl

/-- Two requests have the same key exactly if they ask for the same and the same shows of the headers in the settings. -/
theorem key_eq_iff : r₁.key config = r₂.key config ↔
    SameTarget r₁ r₂ ∧ ∀ name ∈ config.vary, shown (r₁.lines name) = shown (r₂.lines name) := by
  have hshown : ∀ name, CacheConfig.varyValue r₁.headers name = CacheConfig.varyValue r₂.headers name ↔
      shown (r₁.lines name) = shown (r₂.lines name) := by
    intro name
    rw [varyValue_eq, varyValue_eq]
    exact (map_injective_iff.mpr (fun _ _ => ofUInt8_inj)).eq_iff
  simp only [← hshown, ← varyText_eq_iff]
  refine ⟨sameTarget_of_key, ?_⟩
  rintro ⟨htarget, hvary⟩
  rw [key_eq, key_eq, htarget.method, htarget.host, htarget.target, hvary]

end Pulsate.Http
