import Pulsate.Flow.Lemmas.Document
import Pulsate.K8s.Lemmas.Names
import Pulsate.K8s.Lemmas.Order
import Pulsate.K8s.Tree

/-!
# The words of a translation

Hosts, names, addresses and methods are words of Flow whatever the objects say; the path of a match is one
unless it contains a character that Flow reads as punctuation and the validation lets through.
-/

namespace Pulsate.K8s

open List Str
open Pulsate.Flow (IsWord isAtomEnd typeAtom natText)

variable {c : Char} {s h m : Str} {managed : Lib.OrdMap (Str ×ₗ Str) Gateway} {routes : List HTTPRoute}

/-! ## Plain characters -/

def isPlainChar (c : Char) : Bool :=
  c.isAlphanum || c == '-' || c == '.' || c == '_' || c == ':' || c == '/' || c == '*' || c == '@'

theorem ascii_of_isAlphanum (h : c.isAlphanum) : c.toNat < 128 := by
  rcases Bool.or_eq_true_iff.mp h with h | h
  · rcases Bool.or_eq_true_iff.mp h with h | h
    · exact ascii_of_isUpper h
    · exact ascii_of_isLower h
  · exact ascii_of_isDigit h

theorem ascii_of_isPlainChar (h : isPlainChar c) : c.toNat < 128 := by
  simp only [isPlainChar, Bool.or_eq_true, beq_iff_eq] at h
  rcases h with ((((((h | rfl) | rfl) | rfl) | rfl) | rfl) | rfl) | rfl
  · exact ascii_of_isAlphanum h
  all_goals decide

theorem isPlainChar_word (h : isPlainChar c) : isAtomEnd c = false ∧ c ≠ '~' ∧ c ≠ '$' :=
  forall_ascii (P := fun c => isPlainChar c → isAtomEnd c = false ∧ c ≠ '~' ∧ c ≠ '$')
    (by decide) c (ascii_of_isPlainChar h) h

/-- A text of plain characters. -/
def Plain (s : Str) : Prop := ∀ c ∈ s, isPlainChar c

instance (s : Str) : Decidable (Plain s) := decidable_of_iff (s.all isPlainChar) all_eq_true

theorem Plain.append {t : Str} (hs : Plain s) (ht : Plain t) : Plain (s ++ t) := by
  intro c hc
  rcases mem_append.mp hc with hc | hc
  · exact hs c hc
  · exact ht c hc

theorem Plain.isWord (h : Plain s) (hne : s ≠ []) : IsWord s := by
  refine ⟨hne, ?_, fun c hc => ⟨(isPlainChar_word (h c hc)).1, (isPlainChar_word (h c hc)).2.1⟩⟩
  intro hd
  exact (isPlainChar_word (h '$' (mem_of_head? hd))).2.2 rfl

theorem isPlainChar_of_isNameChar (h : isNameChar c) : isPlainChar c :=
  forall_ascii (P := fun c => isNameChar c → isPlainChar c) (by decide) c (ascii_of_isNameChar h) h

theorem plain_of_nameChars (h : ∀ c ∈ s, isNameChar c) : Plain s :=
  fun c hc => isPlainChar_of_isNameChar (h c hc)

theorem plain_natText (n : Nat) : Plain (natText n) := by
  intro c hc
  simp only [isPlainChar, Char.isAlphanum, Flow.natText_isDigit c hc, Bool.or_true, Bool.true_or]

theorem plain_sanitize (s : Str) : Plain (sanitize s) := by
  intro c hc
  obtain ⟨d, -, rfl⟩ := mem_map.mp hc
  split
  · rename_i hd
    exact forall_ascii (P := fun d => d.isAlphanum → isPlainChar d.toLower) (by decide) d
      (ascii_of_isAlphanum hd) hd
  · rfl

/-! ## Hosts -/

/-- The hosts a translation can write a site for. -/
def IsHost (h : Str) : Prop := h = ":default" ∨ isValidHostname h

theorem isHost_of_hostsOf {route : HTTPRoute} {https : Bool} (hr : routeIsValid route)
    (hh : (h, https) ∈ hostsOf managed route) : IsHost h := by
  obtain ⟨-, -, -, -, l, -, hl⟩ := mem_hostsOf.mp hh
  simp only [routeIsValid, Bool.and_eq_true, all_eq_true] at hr
  rw [listenerHosts] at hl
  split at hl
  · cases hl
  · rename_i hname
    cases hlh : l.hostname with
    | none =>
      simp only [hlh] at hl
      split at hl
      · cases mem_singleton.mp hl
        exact .inl rfl
      · obtain ⟨h', hh', he⟩ := mem_map.mp hl
        cases he
        exact .inr (hr.1 _ hh')
    | some lh =>
      simp only [hlh] at hl
      split at hl
      · cases mem_singleton.mp hl
        rw [hlh] at hname
        exact .inr (by simpa using hname)
      · obtain ⟨h', hh', he⟩ := mem_map.mp hl
        cases he
        exact .inr (hr.1 _ (mem_filter.mp hh').1)

theorem placement_host {p : Placement} (hp : p ∈ placements managed routes) : IsHost p.host := by
  obtain ⟨he, hh⟩ := mem_placements.mp hp
  exact isHost_of_hostsOf (mem_emitted.mp he).2.1 hh

theorem isValidHostname_chars (hv : isValidHostname h) : h ≠ [] ∧ ∀ c ∈ h, isNameChar c ∨ c = '*' := by
  rw [isValidHostname] at hv
  simp only [Bool.and_eq_true, decide_eq_true_eq] at hv
  have hsub : isDnsSubdomain ((h.stripPrefix "*.".toList).getD h) := by
    simp only [isDnsSubdomain, Bool.and_eq_true, decide_eq_true_eq]
    exact ⟨hv.1.2, hv.2⟩
  have hchars := isNameChar_of_subdomain hsub
  cases hs : h.stripPrefix "*.".toList with
  | none =>
    rw [hs, Option.getD_none] at hv hchars
    exact ⟨hv.1.1, fun c hc => .inl (hchars c hc)⟩
  | some r =>
    rw [hs, Option.getD_some] at hchars
    have hh : "*.".toList ++ r = h := isPrefixOf?_eq_some_iff_append_eq.mp hs
    have hstar : ∀ c ∈ "*.".toList, isNameChar c ∨ c = '*' := forall_mem_of_all (by decide)
    rw [← hh]
    refine ⟨by simp, fun c hc => ?_⟩
    rcases mem_append.mp hc with hc | hc
    · exact hstar c hc
    · exact .inl (hchars c hc)

theorem IsHost.plain (hh : IsHost h) : Plain h ∧ h ≠ [] := by
  rcases hh with rfl | hv
  · exact ⟨by decide, by decide⟩
  · obtain ⟨hne, hchars⟩ := isValidHostname_chars hv
    refine ⟨fun c hc => ?_, hne⟩
    rcases hchars c hc with hn | rfl
    · exact isPlainChar_of_isNameChar hn
    · rfl

/-! ## Names, addresses and methods -/

theorem plain_upName (e : Emitted) : Plain e.upName := by
  unfold Emitted.upName upstreamName
  exact (((((show Plain "up_" by decide).append (plain_sanitize _)).append (by decide)).append
    (plain_sanitize _)).append (by decide)).append (plain_natText _)

theorem typeAtom_upName (e : Emitted) : typeAtom e.upName = .str e.upName := by
  obtain ⟨t, ht⟩ : ∃ t, e.upName = 'u' :: t := by
    unfold Emitted.upName upstreamName
    exact ⟨_, rfl⟩
  rw [ht]
  exact Flow.typeAtom_str (by decide) (by decide) _

/-- The names of an object are DNS labels where it has any. -/
def Metadata.IsLabelled (m : Metadata) : Prop :=
  (∀ s ∈ m.ns, isDnsLabel s) ∧ ∀ s ∈ m.name, isDnsLabel s

theorem plain_nsOrEmpty {m : Metadata} (h : m.IsLabelled) : Plain m.nsOrEmpty := by
  rw [Metadata.nsOrEmpty]
  cases hm : m.ns with
  | none => exact fun c hc => by cases hc
  | some s => exact plain_of_nameChars (isNameChar_of_label (h.1 s hm))

theorem backendIsValid_of_emitted {e : Emitted} (he : e ∈ emitted managed routes) :
    ∀ b ∈ e.rule.backendRefs, backendIsValid b := by
  obtain ⟨_, hv, _, hi, _⟩ := mem_emitted.mp he
  simp only [routeIsValid, Bool.and_eq_true, all_eq_true] at hv
  exact (hv.2 e.rule (mem_of_getElem? hi)).2

theorem plain_url {ns : Str} (hns : Plain ns) {b : HTTPBackendRef} (hb : backendIsValid b) :
    Plain (target ns b).url := by
  rw [backendIsValid, Bool.and_eq_true] at hb
  have hname : Plain b.name := plain_of_nameChars (isNameChar_of_label hb.1)
  have hbns : Plain (b.ns.getD ns) := by
    cases hn : b.ns with
    | none => exact hns
    | some s =>
      rw [hn] at hb
      exact plain_of_nameChars (isNameChar_of_label hb.2)
  unfold target
  exact (((((show Plain "http://" by decide).append hname).append (by decide)).append hbns).append
    (by decide)).append (plain_natText _)

theorem typeAtom_url (ns : Str) (b : HTTPBackendRef) : typeAtom (target ns b).url = .str (target ns b).url := by
  obtain ⟨t, ht⟩ : ∃ t, (target ns b).url = 'h' :: t := by
    unfold target
    exact ⟨_, rfl⟩
  rw [ht]
  exact Flow.typeAtom_str (by decide) (by decide) _

theorem ascii_of_isAlpha (h : c.isAlpha) : c.toNat < 128 :=
  ascii_of_isAlphanum (by rw [Char.isAlphanum, h]; rfl)

theorem isUpper_toUpper (h : c.isAlpha) : c.toUpper.isUpper :=
  forall_ascii (P := fun c => c.isAlpha → c.toUpper.isUpper) (by decide) c
    (ascii_of_isAlpha h) h

/-- The methods of a valid match, in upper case. -/
def IsMethod (m : Str) : Prop := m ≠ [] ∧ ∀ c ∈ m, c.isUpper

theorem isMethod_of_entry {e : Emitted} (he : e ∈ emitted managed routes) {n : Entry} (hn : n ∈ e.entries) :
    ∀ m ∈ n.method, IsMethod m := by
  obtain ⟨m, hm, rfl⟩ := mem_map.mp hn
  have hv := matchIsValid_of_emitted he m hm
  rw [matchIsValid, Bool.and_eq_true] at hv
  intro s hs
  obtain ⟨s', hs', rfl⟩ := Option.map_eq_some_iff.mp hs
  rw [hs', Option.all_some, isValidMethod, Bool.and_eq_true, all_eq_true] at hv
  refine ⟨?_, ?_⟩
  · intro h
    rw [map_eq_nil_iff.mp h] at hv
    cases hv.2.1
  · intro c hc
    obtain ⟨d, hd, rfl⟩ := mem_map.mp hc
    exact isUpper_toUpper (hv.2.2 d hd)

theorem IsMethod.plain (h : IsMethod m) : Plain m := by
  intro c hc
  simp only [isPlainChar, Char.isAlphanum, isAlpha_of_isUpper (h.2 c hc), Bool.true_or]

theorem IsMethod.isWord (h : IsMethod m) : IsWord m := h.plain.isWord h.1

theorem IsMethod.typeAtom (h : IsMethod m) : typeAtom m = .str m := by
  obtain ⟨hne, hup⟩ := h
  cases m with
  | nil => exact absurd rfl hne
  | cons c t =>
    have hc := hup c mem_cons_self
    obtain ⟨hnumber, hhead⟩ := forall_ascii
      (P := fun c => c.isUpper → Flow.startsNumber c = false ∧ c ∉ "@stof".toList) (by decide) c (ascii_of_isUpper hc) hc
    exact Flow.typeAtom_str hnumber hhead t

/-! ## Patterns -/

/-- The characters that Flow reads as punctuation and the validation of a path lets through. -/
def isLoose (c : Char) : Bool := c == '[' || c == ']' || c == ',' || c == '=' || c == ';'

theorem isAtomEnd_eq_isLoose (h : hasUnsafeChar [c] = false) : isAtomEnd c = isLoose c ∧ c ≠ '~' := by
  by_cases hc : c.toNat < 128
  · exact forall_ascii (P := fun c => hasUnsafeChar [c] = false → isAtomEnd c = isLoose c ∧ c ≠ '~')
      (by decide +kernel) c hc h
  · have hne : ∀ {d : Char}, d.toNat < 128 → c ≠ d := by
      rintro d hd rfl
      exact hc hd
    refine ⟨?_, hne (by decide)⟩
    rw [Flow.isAtomEnd_high (by omega), eq_comm]
    simp only [isLoose, Bool.or_eq_false_iff, beq_eq_false_iff_ne]
    exact ⟨⟨⟨⟨hne (by decide), hne (by decide)⟩, hne (by decide)⟩, hne (by decide)⟩, hne (by decide)⟩

theorem mem_trimEndMatches {d : Char} (hc : c ∈ s) (hne : c ≠ d) : c ∈ s.trimEndMatches d := by
  have h := takeWhile_append_dropWhile (p := (· == d)) (l := s.reverse)
  have hm : c ∈ s.reverse.takeWhile (· == d) ++ s.reverse.dropWhile (· == d) := by rw [h]; simpa using hc
  rw [Str.trimEndMatches, List.rdropWhile, mem_reverse]
  rcases mem_append.mp hm with hm | hm
  · exact absurd (by simpa using mem_takeWhile_imp hm) hne
  · exact hm

theorem trimEndMatches_subset {d : Char} (hc : c ∈ s.trimEndMatches d) : c ∈ s :=
  (List.rdropWhile_prefix _ _).subset hc

theorem loose_matchPattern (m : HTTPRouteMatch) :
    (∀ c ∈ (matchPattern m).2, isLoose c = false) ↔ ∀ p ∈ m.path, ∀ c ∈ p.value, isLoose c = false := by
  have hglob : ∀ c ∈ "/*".toList, isLoose c = false := forall_mem_of_all (by decide)
  rw [matchPattern]
  cases m.path with
  | none =>
    simp only [Option.mem_def, reduceCtorEq, false_implies, implies_true, iff_true]
    exact hglob
  | some p =>
    simp only [Option.mem_some_iff, forall_eq']
    split
    · exact Iff.rfl
    · constructor
      · intro h c hc
        by_cases hs : c = '/'
        · subst hs; rfl
        · have hm := mem_trimEndMatches hc hs
          refine h c ?_
          rw [prefixToGlob]
          split
          · rename_i hnil
            rw [hnil] at hm
            cases hm
          · exact mem_append_left _ hm
      · intro h c hc
        rw [prefixToGlob] at hc
        split at hc
        · exact hglob c hc
        · rcases mem_append.mp hc with hc | hc
          · exact h c (trimEndMatches_subset hc)
          · exact hglob c hc

theorem matchPattern_safe {m : HTTPRouteMatch} (h : matchIsValid m) :
    (matchPattern m).2.head? = some '/' ∧ hasUnsafeChar (matchPattern m).2 = false := by
  rw [matchIsValid, Bool.and_eq_true] at h
  rw [matchPattern]
  cases hp : m.path with
  | none => exact ⟨rfl, by decide⟩
  | some p =>
    rw [hp, Option.all_some, isValidPathValue, Bool.and_eq_true, Bool.not_eq_true', beq_iff_eq] at h
    obtain ⟨⟨hhead, hsafe⟩, -⟩ := h
    dsimp only
    split
    · exact ⟨hhead, hsafe⟩
    · rw [prefixToGlob]
      split
      · exact ⟨rfl, by decide⟩
      · rename_i hne
        constructor
        · have hpre : p.value.trimEndMatches '/' <+: p.value := rdropWhile_prefix _ _
          obtain ⟨t, ht⟩ := hpre
          cases htr : p.value.trimEndMatches '/' with
          | nil => exact absurd htr hne
          | cons c u =>
            rw [htr] at ht
            rw [← ht] at hhead
            simpa using hhead
        · simp only [hasUnsafeChar, any_append, Bool.or_eq_false_iff] at hsafe ⊢
          refine ⟨?_, by decide⟩
          rw [any_eq_false] at hsafe ⊢
          exact fun c hc => hsafe c (trimEndMatches_subset hc)

theorem isWord_pattern {m : HTTPRouteMatch} (h : matchIsValid m)
    (hl : ∀ c ∈ (matchPattern m).2, isLoose c = false) : IsWord (matchPattern m).2 := by
  obtain ⟨hhead, hsafe⟩ := matchPattern_safe h
  refine ⟨?_, ?_, ?_⟩
  · rintro hnil
    rw [hnil] at hhead
    cases hhead
  · rw [hhead]; decide
  · intro c hc
    have hs : hasUnsafeChar [c] = false := by
      rw [hasUnsafeChar, any_eq_false] at hsafe ⊢
      intro d hd
      rw [mem_singleton.mp hd]
      exact hsafe c hc
    obtain ⟨h1, h2⟩ := isAtomEnd_eq_isLoose hs
    exact ⟨h1.trans (hl c hc), h2⟩

end Pulsate.K8s
