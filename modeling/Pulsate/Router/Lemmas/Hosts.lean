import Pulsate.K8s.Lemmas.Words
import Pulsate.Router.Hosts
import Pulsate.Router.Lemmas.Best

/-!
# How the router reads hosts
-/

namespace Pulsate.Routing

open List Str

variable {name suffix pat : Str}

/-! ## Ports -/

theorem hostWithoutPort_append (h : ':' ∉ name) (rest : Str) : hostWithoutPort (name ++ ':' :: rest) = name := by
  have hsplit : Str.splitOnce (name ++ ':' :: rest) ":" = some (name, rest) := splitOnce_append h rest
  rw [hostWithoutPort, hsplit]

/-- A port is never read, whatever the name. -/
theorem hostWithoutPort_hostText (name : Str) (port : Option Str) :
    hostWithoutPort (hostText name port) = hostWithoutPort name := by
  cases port with
  | none => rfl
  | some port =>
    by_cases h : ':' ∈ name
    · obtain ⟨a, b, rfl, ha⟩ := eq_append_cons_of_mem h
      rw [hostText, append_assoc, cons_append, hostWithoutPort_append ha, hostWithoutPort_append ha]
    · rw [hostText, hostWithoutPort_append h, hostWithoutPort_of_not_mem h]

theorem hostWithoutPort_bracketed {inner : Str} (h : ':' ∈ inner) :
    ∃ a b, inner = a ++ ':' :: b ∧ hostWithoutPort ('[' :: (inner ++ [']'])) = '[' :: a := by
  obtain ⟨a, b, rfl, ha⟩ := eq_append_cons_of_mem h
  refine ⟨a, b, rfl, ?_⟩
  have hno : ':' ∉ '[' :: a := by
    rw [mem_cons, not_or]
    exact ⟨by decide, ha⟩
  have heq : '[' :: (a ++ ':' :: b ++ [']']) = ('[' :: a) ++ ':' :: (b ++ [']']) := by simp
  rw [heq, hostWithoutPort_append hno]

/-! ## Patterns -/

theorem len_lt_of_endsWithin (h : EndsWithin suffix name) : suffix.len < name.len := by
  obtain ⟨⟨t, rfl⟩, hne⟩ := h
  have ht : t ≠ [] := by
    rintro rfl
    exact hne rfl
  have hpos := Route.len_pos ht
  rw [Str.len] at hpos
  rw [Str.len, Str.len, map_append, sum_append]
  omega

theorem patternMatches_wildcard {host : Str} (hpat : pat.stripPrefix "*." = some suffix) :
    PatternMatches pat host ↔ EndsWithin suffix (hostWithoutPort host) := by
  rw [PatternMatches]
  rcases patternScore_cases pat (hostWithoutPort host) with ⟨he, hs⟩ | ⟨-, rfl, -⟩ | ⟨-, ⟨suffix', hp, hlt, hends⟩, hs⟩ |
      ⟨-, -, hno, hs⟩
  · have happ : "*." ++ suffix = pat := isPrefixOf?_eq_some_iff_append_eq.mp hpat
    rw [hs, ← he, ← happ]
    refine iff_of_true rfl ⟨suffix_append _ _, fun h => ?_⟩
    have := congrArg List.length h
    rw [length_append] at this
    exact absurd this (by simp)
  · have hstrip : Str.stripPrefix ":default" "*." = none := by decide
    rw [hstrip] at hpat
    cases hpat
  · obtain rfl : suffix = suffix' := Option.some.inj (hpat.symm.trans hp)
    rw [hs]
    refine iff_of_true rfl ⟨hends, fun h => ?_⟩
    rw [h] at hlt
    exact absurd hlt (lt_irrefl _)
  · rw [hs]
    exact iff_of_false nofun (fun h => hno suffix hpat ⟨len_lt_of_endsWithin h, h.1⟩)

theorem patternMatches_plain {host : Str} (hpat : pat.stripPrefix "*." = none) (hne : pat ≠ ":default") :
    PatternMatches pat host ↔ pat = hostWithoutPort host := by
  rw [PatternMatches]
  rcases patternScore_cases pat (hostWithoutPort host) with ⟨he, hs⟩ | ⟨-, hd, -⟩ | ⟨-, ⟨suffix, hp, -⟩, -⟩ | ⟨he, -, -, hs⟩
  · rw [hs]
    exact iff_of_true rfl he
  · exact absurd hd hne
  · rw [hpat] at hp
    cases hp
  · rw [hs]
    exact iff_of_false nofun he

/-! ## Labels -/

theorem label_of_suffix {label : Str} (hends : suffix <:+ name) (hlabel : label ≠ [])
    (h : name.eqIgnoreAsciiCase (label ++ '.' :: suffix)) : ∃ label', label' ≠ [] ∧ name = label' ++ '.' :: suffix := by
  obtain ⟨t, rfl⟩ := hends
  have hfold : t.map Char.toLower ++ suffix.map Char.toLower =
      (label.map Char.toLower ++ ['.']) ++ suffix.map Char.toLower := by
    rw [← map_append, eqIgnoreAsciiCase_iff.mp h]
    simp
  have hmap : t.map Char.toLower = label.map Char.toLower ++ ['.'] := append_cancel_right hfold
  obtain ⟨l, dot, rfl, hl, hdot⟩ := map_eq_append_iff.mp hmap
  obtain ⟨c, rfl, hc⟩ := map_eq_singleton_iff.mp hdot
  obtain rfl : c = '.' := eq_of_toLower (by decide) hc
  refine ⟨l, ?_, by simp⟩
  rintro rfl
  exact hlabel (map_eq_nil_iff.mp hl.symm)

theorem not_endsWithin_bracketed {inner suffix label : Str} (hcolon : ':' ∈ inner) (hclose : ']' ∉ inner)
    (h : Str.eqIgnoreAsciiCase ('[' :: (inner ++ [']'])) (label ++ '.' :: suffix)) :
    ¬ suffix <:+ hostWithoutPort ('[' :: (inner ++ [']'])) := by
  obtain ⟨a, b, rfl, hread⟩ := hostWithoutPort_bracketed hcolon
  rw [hread]
  intro hends
  -- the last character of the suffix closes the bracket, but nothing before the colon does
  have hlast := congrArg List.getLast? (eqIgnoreAsciiCase_iff.mp h)
  have hname : (('[' :: (a ++ ':' :: b ++ [']'])).map Char.toLower).getLast? = some ']' := by
    rw [map_cons, map_append, ← cons_append]
    exact getLast?_concat
  rw [hname, map_append, map_cons] at hlast
  cases hsuffix : suffix using List.reverseRecOn with
  | nil =>
    rw [hsuffix, map_nil, getLast?_concat] at hlast
    cases hlast
  | append_singleton s c =>
    rw [hsuffix, map_append, ← cons_append, ← append_assoc] at hlast
    have hc : some ']' = some c.toLower := hlast.trans getLast?_concat
    obtain rfl : c = ']' := eq_of_toLower (by decide) (Option.some.inj hc).symm
    have hmem : ']' ∈ '[' :: a := by
      refine hends.subset ?_
      rw [hsuffix]
      exact mem_append_right _ mem_cons_self
    rcases mem_cons.mp hmem with hmem | hmem
    · cases hmem
    · exact hclose (mem_append_left _ hmem)

theorem label_iff (port : Option Str) (hpat : pat ≠ ":default") (hname : IsHostName name) :
    (PatternMatches pat (hostText name port) ↔ LabelExact pat name) ↔ ReadAsMeant pat name := by
  rw [LabelExact, ReadAsMeant]
  cases hstrip : pat.stripPrefix "*." with
  | some suffix =>
    dsimp only
    rw [patternMatches_wildcard hstrip, hostWithoutPort_hostText]
    by_cases hcolon : ':' ∈ name
    · rw [if_pos hcolon]
      obtain ⟨inner, rfl, hinner, hclose⟩ := hname.resolve_left (not_not.mpr hcolon)
      constructor
      · intro h
        by_cases hends : EndsWithin suffix (hostWithoutPort ('[' :: (inner ++ [']'])))
        · obtain ⟨label, -, hlabel⟩ := h.mp hends
          exact absurd hends.1 (not_endsWithin_bracketed hinner hclose hlabel)
        · exact ⟨hends, fun hlabel => hends (h.mpr hlabel)⟩
      · rintro ⟨hends, hlabel⟩
        exact iff_of_false hends hlabel
    · rw [if_neg hcolon, hostWithoutPort_of_not_mem hcolon]
      constructor
      · intro h
        refine ⟨fun hends => ?_, fun label hne hlabel => (h.mpr ⟨label, hne, hlabel⟩).1⟩
        obtain ⟨label, hne, hlabel⟩ := h.mp hends
        exact label_of_suffix hends.1 hne hlabel
      · rintro ⟨hdot, hcase⟩
        constructor
        · intro hends
          obtain ⟨label, hne, rfl⟩ := hdot hends
          exact ⟨label, hne, eqIgnoreAsciiCase_iff.mpr rfl⟩
        · rintro ⟨label, hne, hlabel⟩
          refine ⟨hcase label hne hlabel, ?_⟩
          rintro rfl
          have hlen := length_eq_of_eqIgnoreAsciiCase hlabel
          rw [length_append, length_cons] at hlen
          omega
  | none =>
    dsimp only
    rw [patternMatches_plain hstrip hpat, hostWithoutPort_hostText]
    by_cases hcolon : ':' ∈ name
    · rw [if_pos hcolon]
      obtain ⟨a, b, rfl, ha⟩ := eq_append_cons_of_mem hcolon
      rw [hostWithoutPort_append ha]
      constructor
      · intro h
        have hread : pat ≠ a := by
          rintro rfl
          have hlen := length_eq_of_eqIgnoreAsciiCase (h.mp rfl)
          rw [length_append, length_cons] at hlen
          omega
        exact ⟨hread, Bool.eq_false_iff.mpr (fun he => hread (h.mpr he))⟩
      · rintro ⟨hread, hcase⟩
        exact iff_of_false hread (by rw [hcase]; nofun)
    · rw [if_neg hcolon, hostWithoutPort_of_not_mem hcolon]
      constructor
      · exact fun h => h.mpr
      · intro h
        constructor
        · rintro rfl
          exact eqIgnoreAsciiCase_iff.mpr rfl
        · exact h

/-! ## Names Kubernetes accepts -/

theorem toLower_of_isNameChar {c : Char} (h : K8s.isNameChar c ∨ c = '*') : c.toLower = c := by
  rcases h with h | rfl
  · exact forall_ascii (P := fun c => K8s.isNameChar c → c.toLower = c) (by decide) c
      (K8s.ascii_of_isNameChar h) h
  · decide

theorem map_toLower_of_isValidHostname (h : K8s.isValidHostname name) : name.map Char.toLower = name := by
  have hchars := (K8s.isValidHostname_chars h).2
  calc name.map Char.toLower = name.map id := map_congr_left (fun c hc => toLower_of_isNameChar (hchars c hc))
    _ = name := map_id _

theorem hostMatches_iff (hpat : K8s.isValidHostname pat) (hname : K8s.isValidHostname name) :
    K8s.hostMatches pat name ↔ LabelExact pat name := by
  have hfold := map_toLower_of_isValidHostname hname
  have hfold' := map_toLower_of_isValidHostname hpat
  rw [K8s.hostMatches, LabelExact]
  cases hstrip : pat.stripPrefix "*." with
  | none =>
    dsimp only
    rw [beq_iff_eq, eqIgnoreAsciiCase_iff, hfold, hfold']
  | some suffix =>
    have happ : "*." ++ suffix = pat := isPrefixOf?_eq_some_iff_append_eq.mp hstrip
    have hsuffix : suffix.map Char.toLower = suffix := by
      rw [← happ, map_append] at hfold'
      exact append_cancel_left hfold'
    dsimp only
    constructor
    · intro h
      cases hs : name.stripSuffix suffix with
      | none =>
        rw [hs] at h
        cases h
      | some p =>
        have hname' : p ++ suffix = name := isSuffixOf?_eq_some_iff_append_eq.mp hs
        rw [hs] at h
        simp only [Bool.and_eq_true, beq_iff_eq, decide_eq_true_eq] at h
        obtain ⟨label, rfl⟩ := getLast?_eq_some_iff.mp h.1
        refine ⟨label, ?_, ?_⟩
        · rintro rfl
          exact absurd h.2 (by decide)
        · rw [← hname', append_assoc]
          exact eqIgnoreAsciiCase_iff.mpr rfl
    · rintro ⟨label, hne, hlabel⟩
      rw [eqIgnoreAsciiCase_iff, hfold, map_append, map_cons, hsuffix] at hlabel
      have hs : name.stripSuffix suffix = some (label.map Char.toLower ++ ['.']) := by
        refine isSuffixOf?_eq_some_iff_append_eq.mpr ?_
        rw [hlabel, append_assoc]
        rfl
      rw [hs]
      dsimp only
      rw [getLast?_concat, Bool.and_eq_true, decide_eq_true_eq]
      refine ⟨rfl, ?_⟩
      have hpos : 0 < Str.len (label.map Char.toLower) := Route.len_pos (fun h => hne (map_eq_nil_iff.mp h))
      rw [Str.len] at hpos ⊢
      rw [map_append, sum_append]
      exact Nat.lt_add_of_pos_left hpos

end Pulsate.Routing
