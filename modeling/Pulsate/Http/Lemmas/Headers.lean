import Pulsate.Http.Headers
import Pulsate.Std.Utf8

/-!
# Header values as strings, and lines by name
-/

namespace Pulsate.Http

open List Str HeaderMap

variable {line v : HeaderValue} {s : Str}

/-! ## Values and strings -/

theorem ascii_of_visible {c : Char} (h : isVisibleChar c) : c.toNat < 128 := by
  simp only [isVisibleChar, Bool.or_eq_true, Bool.and_eq_true, decide_eq_true_eq] at h
  rcases h with rfl | ⟨-, h⟩
  · decide
  · omega

theorem isVisibleChar_ofUInt8 (b : UInt8) : isVisibleChar (Char.ofUInt8 b) = isVisibleByte b := by
  have hnat : (Char.ofUInt8 b).toNat = b.toNat := rfl
  have htab : Char.ofUInt8 b = '\t' ↔ b = 9 := by
    constructor
    · intro h
      exact UInt8.toNat_inj.mp (hnat.symm.trans (congrArg Char.toNat h))
    · rintro rfl
      decide
  simp only [isVisibleChar, isVisibleByte, hnat, htab, UInt8.le_iff_toNat_le, UInt8.lt_iff_toNat_lt]
  rfl

theorem visible_text (h : line.isVisible) : ∀ c ∈ line.text, isVisibleChar c := by
  intro c hc
  obtain ⟨b, hb, rfl⟩ := mem_map.mp hc
  rw [isVisibleChar_ofUInt8]
  exact all_eq_true.mp h b hb

theorem visible_of_text (h : ∀ c ∈ line.text, isVisibleChar c) : line.isVisible := by
  apply all_eq_true.mpr
  intro b hb
  rw [← isVisibleChar_ofUInt8]
  exact h _ (mem_map_of_mem hb)

theorem utf8EncodeChar_of_visible {c : Char} (h : isVisibleChar c) :
    ∃ b, String.utf8EncodeChar c = [b] ∧ Char.ofUInt8 b = c ∧ isVisibleByte b := by
  obtain ⟨b, hencode, rfl⟩ := utf8EncodeChar_ascii (ascii_of_visible h)
  exact ⟨b, hencode, rfl, (isVisibleChar_ofUInt8 b).symm.trans h⟩

theorem bytes_of_visible (h : ∀ c ∈ s, isVisibleChar c) :
    s.bytes.map Char.ofUInt8 = s ∧ s.bytes.all isVisibleByte := by
  induction s with
  | nil => exact ⟨rfl, rfl⟩
  | cons c s ih =>
    rw [forall_mem_cons] at h
    obtain ⟨b, hencode, rfl, hb⟩ := utf8EncodeChar_of_visible h.1
    obtain ⟨hmap, hall⟩ := ih h.2
    rw [bytes_cons, hencode, singleton_append, map_cons, hmap, all_cons, hb, hall]
    exact ⟨rfl, rfl⟩

theorem isValueByte_of_visible {b : UInt8} (h : isVisibleByte b) : isValueByte b := by
  simp only [isVisibleByte, isValueByte, Bool.or_eq_true, Bool.and_eq_true, decide_eq_true_eq, UInt8.lt_iff_toNat_lt] at h ⊢
  refine h.imp_right (fun hrange => ⟨hrange.1, ?_⟩)
  rintro rfl
  exact Nat.lt_irrefl _ hrange.2

theorem fromStr_of_visible (h : ∀ c ∈ s, isVisibleChar c) :
    ∃ v, HeaderValue.fromStr s = some v ∧ v.isVisible ∧ v.text = s := by
  obtain ⟨hmap, hall⟩ := bytes_of_visible h
  have hvalid : s.bytes.all isValueByte :=
    all_eq_true.mpr (fun b hb => isValueByte_of_visible (all_eq_true.mp hall b hb))
  exact ⟨⟨s.bytes, hvalid⟩, dif_pos hvalid, hall, hmap⟩

theorem ofUInt8_inj {a b : UInt8} (h : Char.ofUInt8 a = Char.ofUInt8 b) : a = b :=
  UInt8.toNat_inj.mp (congrArg Char.toNat h)

theorem HeaderValue.text_inj {w : HeaderValue} (h : v.text = w.text) : v = w := by
  obtain ⟨bytes, hv⟩ := v
  obtain ⟨bytes', hw⟩ := w
  have hbytes : bytes = bytes' := map_injective_iff.mpr (fun _ _ => ofUInt8_inj) h
  subst hbytes
  rfl

theorem fromStr_text (h : v.isVisible) : HeaderValue.fromStr v.text = some v := by
  obtain ⟨w, hw, -, htext⟩ := fromStr_of_visible (visible_text h)
  rw [hw, HeaderValue.text_inj htext]

theorem toStr_eq_some : v.toStr = some s ↔ v.isVisible ∧ s = v.text := by
  rw [HeaderValue.toStr, Option.ite_none_right_eq_some, Option.some.injEq]
  exact and_congr_right (fun _ => eq_comm)

/-! ## Names -/

theorem toLower_of_isNameChar {c : Char} (h : isNameChar c) : c.toLower = c := by
  have hascii : c.toNat < 128 := by
    simp only [isNameChar, Bool.or_eq_true, contains_iff_mem] at h
    rcases h with (h | h) | h
    · exact ascii_of_isLower h
    · exact ascii_of_isDigit h
    · exact forall_mem_of_all (P := fun c => c.toNat < 128) (by decide) c h
  exact forall_ascii (P := fun c => isNameChar c → c.toLower = c) (by decide) c hascii h

theorem parse_text (name : HeaderName) : HeaderName.parse name.text = some name := by
  obtain ⟨text, hvalid⟩ := name
  have hchars : ∀ c ∈ text, isNameChar c := by
    simp only [isName, Bool.and_eq_true, all_eq_true] at hvalid
    exact hvalid.2
  have hlower : text.map Char.toLower = text := by
    calc text.map Char.toLower = text.map id := map_congr_left (fun c hc => toLower_of_isNameChar (hchars c hc))
      _ = text := map_id text
  simp only [HeaderName.parse, hlower, hvalid, dif_pos]

/-! ## Lines -/

variable {headers : HeaderMap} {name other : HeaderName} {value : HeaderValue}

theorem getAll_nil : getAll [] name = [] := rfl

theorem getAll_cons (line : HeaderName × HeaderValue) (headers : HeaderMap) :
    getAll (line :: headers) name = if line.1 = name then line.2 :: headers.getAll name else headers.getAll name := by
  unfold getAll
  rw [filterMap_cons]
  by_cases h : line.1 = name
  · rw [if_pos h, if_pos h]
  · rw [if_neg h, if_neg h]

theorem getAll_append (headers headers' : HeaderMap) :
    getAll (headers ++ headers') name = headers.getAll name ++ getAll headers' name := filterMap_append

theorem get_eq_head? (headers : HeaderMap) (name : HeaderName) : headers.get name = (headers.getAll name).head? := by
  induction headers with
  | nil => rfl
  | cons line headers ih =>
    unfold HeaderMap.get at ih ⊢
    rw [getAll_cons, lookup_cons]
    by_cases h : line.1 = name
    · rw [if_pos h, h, beq_self_eq_true]
      rfl
    · rw [if_neg h, beq_eq_false_iff_ne.mpr (Ne.symm h)]
      exact ih

theorem getStr_eq_some :
    headers.getStr name = some s ↔ ∃ line, headers.get name = some line ∧ line.isVisible ∧ s = line.text := by
  rw [getStr, Option.bind_eq_some_iff]
  exact exists_congr (fun line => and_congr_right (fun _ => toStr_eq_some))

theorem containsKey_iff : headers.containsKey name ↔ headers.getAll name ≠ [] := by
  rw [containsKey, get_eq_head?, isSome_head?]

theorem mem_getAll_of_get (h : headers.get name = some line) : line ∈ headers.getAll name := by
  rw [get_eq_head?] at h
  exact mem_of_head? h

/-! ## Setting and removing -/

/-- The lines of some names only. -/
theorem getAll_filter (headers : HeaderMap) (p : HeaderName → Bool) (name : HeaderName) :
    getAll (List.filter (fun line => p line.1) headers) name = if p name then headers.getAll name else [] := by
  induction headers with
  | nil => simp [getAll_nil]
  | cons line headers ih =>
    rw [filter_cons, getAll_cons]
    by_cases hline : line.1 = name
    · rw [hline]
      cases hp : p name with
      | true => simp [getAll_cons, hline, ih, hp]
      | false => simp [ih, hp]
    · rw [if_neg hline]
      split
      · rw [getAll_cons, if_neg hline, ih]
      · exact ih

theorem getAll_filter_ne (headers : HeaderMap) (h : other ≠ name) :
    getAll (List.filter (·.1 ≠ name) headers) other = headers.getAll other := by
  simpa [h] using getAll_filter headers (· ≠ name) other

theorem getAll_filter_self (headers : HeaderMap) (name : HeaderName) :
    getAll (List.filter (·.1 ≠ name) headers) name = [] := by
  simpa using getAll_filter headers (· ≠ name) name

theorem getAll_insert_self (headers : HeaderMap) (name : HeaderName) (value : HeaderValue) :
    (headers.insert name value).getAll name = [value] := by
  induction headers with
  | nil =>
    rw [HeaderMap.insert, getAll_cons, if_pos rfl]
    rfl
  | cons line headers ih =>
    rw [HeaderMap.insert]
    by_cases hline : line.1 = name
    · rw [if_pos hline, getAll_cons, if_pos rfl, getAll_filter_self]
    · rw [if_neg hline, getAll_cons, if_neg hline, ih]

theorem getAll_insert_ne (headers : HeaderMap) (value : HeaderValue) (h : other ≠ name) :
    (headers.insert name value).getAll other = headers.getAll other := by
  induction headers with
  | nil =>
    rw [HeaderMap.insert, getAll_cons, if_neg (Ne.symm h)]
  | cons line headers ih =>
    rw [HeaderMap.insert]
    by_cases hline : line.1 = name
    · have hother : line.1 ≠ other := fun he => h (he.symm.trans hline)
      rw [if_pos hline, getAll_cons, if_neg (Ne.symm h), getAll_filter_ne headers h, getAll_cons, if_neg hother]
    · rw [if_neg hline, getAll_cons, getAll_cons, ih]

theorem getAll_filter_eq (headers : HeaderMap) (name other : HeaderName) :
    getAll (List.filter (·.1 = name) headers) other = if other = name then headers.getAll name else [] := by
  by_cases h : other = name
  · simpa [h] using getAll_filter headers (· = name) other
  · simpa [h] using getAll_filter headers (· = name) other

theorem getAll_remove_ne (headers : HeaderMap) (h : other ≠ name) : (headers.remove name).getAll other = headers.getAll other := by
  have hsplit : headers.getAll other = getAll (headers.takeWhile (·.1 ≠ name)) other ++
      getAll ((headers.dropWhile (·.1 ≠ name)).filter (·.1 ≠ name)) other := by
    rw [getAll_filter_ne _ h, ← getAll_append, takeWhile_append_dropWhile]
  rw [hsplit, remove, getAll_append]
  refine congrArg (getAll (headers.takeWhile (·.1 ≠ name)) other ++ ·) ?_
  generalize (headers.dropWhile (·.1 ≠ name)).filter (·.1 ≠ name) = rest
  cases hlast : rest.getLast? with
  | none =>
    rw [getLast?_eq_none_iff.mp hlast]
  | some last =>
    dsimp only
    rw [getAll_append, getAll_filter_eq]
    by_cases hother : other = last.1
    · rw [if_pos hother, hother, getAll_filter_self, append_nil]
    · rw [if_neg hother, nil_append, getAll_filter_ne _ hother]

theorem getAll_eq_nil (h : ∀ line ∈ headers, line.1 ≠ name) : headers.getAll name = [] :=
  filterMap_eq_nil_iff.mpr (fun line hline => if_neg (h line hline))

theorem getAll_remove_self (headers : HeaderMap) (name : HeaderName) : (headers.remove name).getAll name = [] := by
  apply getAll_eq_nil
  have hrest : ∀ line ∈ (headers.dropWhile (·.1 ≠ name)).filter (·.1 ≠ name), line.1 ≠ name :=
    fun line hline => of_decide_eq_true (mem_filter.mp hline).2
  refine forall_mem_append.mpr ⟨fun line hline => ?_, ?_⟩
  · simpa using mem_takeWhile_imp hline
  · split
    · exact fun line hline => absurd hline not_mem_nil
    · refine forall_mem_append.mpr ⟨fun line hline => ?_, fun line hline => ?_⟩
      · exact hrest line (mem_of_mem_filter hline)
      · exact hrest line (mem_of_mem_filter hline)

theorem getAll_foldl_insert (lines base : HeaderMap) (name : HeaderName) :
    getAll (lines.foldl (fun headers line => HeaderMap.insert headers line.1 line.2) base) name =
      ((lines.getAll name).getLast?.map (fun v => [v])).getD (base.getAll name) := by
  induction lines generalizing base with
  | nil => rfl
  | cons line lines ih =>
    rw [foldl_cons, ih, getAll_cons]
    by_cases hline : line.1 = name
    · rw [if_pos hline, getLast?_cons, hline, getAll_insert_self]
      cases (getAll lines name).getLast? with
      | none => rfl
      | some v => rfl
    · rw [if_neg hline, getAll_insert_ne _ _ (Ne.symm hline)]

theorem getAll_foldl_insert_nil (lines : HeaderMap) (name : HeaderName) :
    getAll (lines.foldl (fun headers line => HeaderMap.insert headers line.1 line.2) []) name =
      (lines.getAll name).getLast?.toList := by
  rw [getAll_foldl_insert]
  cases (lines.getAll name).getLast? with
  | none => rfl
  | some line => rfl

theorem getAll_foldl_insert_filter (lines : HeaderMap) (p : HeaderName → Bool) (name : HeaderName) :
    getAll ((lines.filter (fun line => p line.1)).foldl (fun headers line => HeaderMap.insert headers line.1 line.2) [])
      name = if p name then (lines.getAll name).getLast?.toList else [] := by
  rw [getAll_foldl_insert_nil, getAll_filter]
  split <;> rfl

theorem getAll_insertStr_ne {name other : HeaderName} (resp : Response) (value : Str) (h : other ≠ name) :
    (resp.insertStr name value).headers.getAll other = resp.headers.getAll other := by
  unfold Response.insertStr
  split
  · exact getAll_insert_ne _ _ h
  · rfl

theorem getAll_insertStr (resp : Response) (name : HeaderName) (value : Str) :
    (resp.insertStr name value).headers.getAll name =
      ((HeaderValue.fromStr value).map (fun v => [v])).getD (resp.headers.getAll name) := by
  unfold Response.insertStr
  cases HeaderValue.fromStr value with
  | none => rfl
  | some v => exact getAll_insert_self _ _ v

theorem getAll_insertStr_of {name other : HeaderName} {value : Str} (resp : Response)
    (h : ¬ name = other ∨ (HeaderValue.fromStr value).isSome = false) :
    (resp.insertStr other value).headers.getAll name = resp.headers.getAll name := by
  rcases h with h | h
  · exact getAll_insertStr_ne _ _ h
  · unfold Response.insertStr
    rw [Option.isSome_eq_false_iff, Option.isNone_iff_eq_none] at h
    rw [h]

theorem keeps_insertStr (resp : Response) (name : HeaderName) (value : Str) :
    (resp.insertStr name value).status = resp.status ∧ (resp.insertStr name value).body = resp.body := by
  unfold Response.insertStr
  split <;> exact ⟨rfl, rfl⟩

end Pulsate.Http
