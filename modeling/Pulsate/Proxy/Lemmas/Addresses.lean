import Pulsate.Proxy.Lemmas.Hop

/-!
# Lemmas about addresses in headers

The text of an address is one item of a line, and a line to which it is added behind a comma has one item more.
-/

namespace Pulsate

open List Http Cache

/-! ## Addresses as texts -/

namespace IpAddr

/-- A character of an address as a text. -/
def isTextChar (c : Char) : Bool := c ∈ "0123456789abcdef.:".toList

theorem isTextChar_toDigitsCore {b : Nat} (hb : b ≤ 16) {fuel n : Nat} {acc : List Char} (hacc : ∀ c ∈ acc, isTextChar c)
    (hpos : 0 < b) : ∀ c ∈ Nat.toDigitsCore b fuel n acc, isTextChar c := by
  have hdigit : ∀ d < 16, isTextChar (Nat.digitChar d) := by decide
  induction fuel generalizing n acc with
  | zero => exact hacc
  | succ fuel ih =>
    have hcons : ∀ c ∈ Nat.digitChar (n % b) :: acc, isTextChar c :=
      forall_mem_cons.mpr ⟨hdigit _ ((Nat.mod_lt n hpos).trans_le hb), hacc⟩
    rw [Nat.toDigitsCore]
    split
    · exact hcons
    · exact ih hcons

theorem isTextChar_toDigits {b : Nat} (hpos : 0 < b) (hb : b ≤ 16) (n : Nat) : ∀ c ∈ Nat.toDigits b n, isTextChar c :=
  isTextChar_toDigitsCore hb (fun _ h => absurd h not_mem_nil) hpos

theorem isTextChar_intercalate {sep : Char} (hsep : isTextChar sep) {parts : List Str}
    (h : ∀ part ∈ parts, ∀ c ∈ part, isTextChar c) : ∀ c ∈ List.intercalate [sep] parts, isTextChar c := by
  induction parts with
  | nil => exact fun c hc => absurd hc not_mem_nil
  | cons part parts ih =>
    rw [forall_mem_cons] at h
    cases parts with
    | nil => simpa [List.intercalate] using h.1
    | cons part' parts =>
      rw [intercalate_cons_cons]
      simp only [forall_mem_append, forall_mem_singleton]
      exact ⟨⟨h.1, hsep⟩, ih h.2⟩

theorem isTextChar_ipv4Text (bits : BitVec 32) : ∀ c ∈ ipv4Text bits, isTextChar c := by
  apply isTextChar_intercalate rfl
  intro part hpart
  obtain ⟨n, -, rfl⟩ := mem_map.mp hpart
  exact isTextChar_toDigits (by decide) (by decide) n

theorem isTextChar_segmentsText (segments : List Nat) : ∀ c ∈ segmentsText segments, isTextChar c := by
  apply isTextChar_intercalate rfl
  intro part hpart
  obtain ⟨n, -, rfl⟩ := mem_map.mp hpart
  exact isTextChar_toDigits (by decide) (by decide) n

theorem isTextChar_toText (ip : IpAddr) : ∀ c ∈ ip.toText, isTextChar c := by
  cases ip with
  | v4 bits => exact isTextChar_ipv4Text bits
  | v6 bits =>
    rw [toText, ipv6Text]
    split
    · exact forall_mem_append.mpr ⟨all_eq_true.mp (by decide), isTextChar_ipv4Text _⟩
    · dsimp only
      split
      · refine forall_mem_append.mpr ⟨forall_mem_append.mpr ⟨isTextChar_segmentsText _, all_eq_true.mp (by decide)⟩, ?_⟩
        exact isTextChar_segmentsText _
      · exact isTextChar_segmentsText _

theorem intercalate_toDigits_ne_nil (sep : Str) (b n : Nat) (ns : List Nat) :
    List.intercalate sep ((n :: ns).map (Nat.toDigits b)) ≠ [] := by
  cases ns with
  | nil => simp [List.intercalate, Nat.toDigits_ne_nil]
  | cons m ns =>
    rw [map_cons, map_cons, intercalate_cons_cons]
    simp [Nat.toDigits_ne_nil]

theorem toText_ne_nil (ip : IpAddr) : ip.toText ≠ [] := by
  cases ip with
  | v4 bits => exact intercalate_toDigits_ne_nil _ _ _ _
  | v6 bits =>
    rw [toText, ipv6Text]
    split
    · exact append_ne_nil_of_left_ne_nil (by decide) _
    · dsimp only
      split
      · exact append_ne_nil_of_left_ne_nil (append_ne_nil_of_right_ne_nil _ (by decide)) _
      · exact intercalate_toDigits_ne_nil _ _ _ _

end IpAddr

namespace Proxy

open Http (HeaderMap HeaderName HeaderValue isVisibleChar)

variable {headers : HeaderMap} {req : Forwarding} {ip : IpAddr}

theorem textChar_visible {c : Char} (h : IpAddr.isTextChar c) : isVisibleChar c ∧ isOws c = false ∧ c ≠ ',' := by
  have hall : "0123456789abcdef.:".toList.all (fun c => isVisibleChar c && !isOws c && c ≠ ',') := by decide
  have hc := all_eq_true.mp hall c (of_decide_eq_true h)
  simpa [and_assoc] using hc

theorem trimOws_of_forall {s : Str} (h : ∀ c ∈ s, isOws c = false) : trimOws s = s := by
  have hdrop : s.dropWhile isOws = s := by
    rw [dropWhile_eq_self_iff]
    intro hpos
    simp [h _ (getElem_mem hpos)]
  rw [trimOws, hdrop, rdropWhile_eq_self_iff]
  intro hne
  simp [h _ (getLast_mem hne)]

theorem trimOws_toText (ip : IpAddr) : trimOws ip.toText = ip.toText :=
  trimOws_of_forall (fun c hc => (textChar_visible (ip.isTextChar_toText c hc)).2.1)

theorem trimOws_blank (s : Str) : trimOws (' ' :: s) = trimOws s := by
  rw [trimOws, dropWhile_cons_of_pos rfl]
  rfl

theorem comma_not_mem_toText (ip : IpAddr) : ',' ∉ ip.toText :=
  fun hmem => (textChar_visible (ip.isTextChar_toText _ hmem)).2.2 rfl

theorem items_toText {value : HeaderValue} (h : value.text = ip.toText) : items value = [ip.toText] := by
  rw [items, h, splitOn_eq_singleton (comma_not_mem_toText ip), map_singleton, trimOws_toText,
    filter_cons_of_pos (by simpa using ip.toText_ne_nil)]
  rfl

theorem items_append_toText {value line : HeaderValue} (h : value.text = line.text ++ ", " ++ ip.toText) :
    items value = items line ++ [ip.toText] := by
  have hblank : ',' ∉ ' ' :: ip.toText := by simp [comma_not_mem_toText ip]
  have hsplit : value.text.splitOn ',' = line.text.splitOn ',' ++ [' ' :: ip.toText] := by
    rw [h, append_assoc, ← splitOn_eq_singleton hblank]
    exact splitOnP_append_cons _ _ rfl
  rw [items, hsplit, map_append, filter_append, map_singleton, trimOws_blank, trimOws_toText,
    filter_cons_of_pos (by simpa using ip.toText_ne_nil)]
  rfl

/-! ## Addresses that are passed on -/

/-- The first line, if it is a string. -/
def shownAddresses (headers : HeaderMap) : Option HeaderValue := (headers.get xForwardedFor).filter HeaderValue.isVisible

theorem getStr_forwardedFor (headers : HeaderMap) : headers.getStr xForwardedFor = (shownAddresses headers).map HeaderValue.text := by
  unfold HeaderMap.getStr shownAddresses
  cases headers.get xForwardedFor with
  | none => rfl
  | some line => by_cases hvis : line.isVisible <;> simp [HeaderValue.toStr, hvis, Option.filter]

theorem fromStr_forwardedFor (headers : HeaderMap) (ip : IpAddr) :
    ∃ value, HeaderValue.fromStr (forwardedFor headers ip) = some value ∧
      items value = (shownAddresses headers).toList.flatMap items ++ [ip.toText] := by
  have hip : ∀ c ∈ ip.toText, isVisibleChar c := fun c hc => (textChar_visible (ip.isTextChar_toText c hc)).1
  rw [forwardedFor, getStr_forwardedFor]
  cases hshown : shownAddresses headers with
  | none =>
    obtain ⟨value, hvalue, -, htext⟩ := fromStr_of_visible hip
    exact ⟨value, hvalue, items_toText htext⟩
  | some line =>
    have hvis : line.isVisible := (Option.filter_eq_some_iff.mp hshown).2
    have hall : ∀ c ∈ line.text ++ ", " ++ ip.toText, isVisibleChar c :=
      forall_mem_append.mpr ⟨forall_mem_append.mpr ⟨visible_text hvis, all_eq_true.mp (by decide)⟩, hip⟩
    obtain ⟨value, hvalue, -, htext⟩ := fromStr_of_visible hall
    exact ⟨value, hvalue, by simpa using items_append_toText htext⟩

theorem forwardedItems_outHeaders (hip : req.clientIp = some ip) : forwardedItems req.outHeaders =
    (shownAddresses req.headers).toList.flatMap items ++ [ip.toText] := by
  obtain ⟨value, hvalue, hitems⟩ := fromStr_forwardedFor req.headers ip
  have hlines : req.outHeaders.getAll xForwardedFor = [value] := by
    unfold Forwarding.outHeaders applyForwarded
    dsimp only
    rw [getAll_insert_ne _ _ (by decide), getAll_insert_ne _ _ (by decide), getAll_insertValid_of _ (.inl (by decide)),
      hip, getAll_insertValid, hvalue]
    rfl
  rw [forwardedItems, hlines, flatMap_singleton, hitems]

theorem flatMap_head_iff (lines : List HeaderValue) :
    (lines.head?.filter HeaderValue.isVisible).toList.flatMap items = lines.flatMap items ↔
      (∀ line ∈ lines.tail, items line = []) ∧
        ∀ line, lines.head? = some line → line.isVisible ∨ items line = [] := by
  cases lines with
  | nil => simp
  | cons line rest =>
    by_cases hvis : line.isVisible
    · simp [hvis, Option.filter]
    · rw [head?_cons, Option.filter_some_neg (Bool.eq_false_of_not_eq_true hvis), eq_comm]
      simp [hvis, and_comm]

theorem forwardedItems_iff (hip : req.clientIp = some ip) :
    forwardedItems req.outHeaders = forwardedItems req.headers ++ [ip.toText] ↔ ListsFirst req.headers := by
  rw [forwardedItems_outHeaders hip, append_left_inj, shownAddresses, forwardedItems, get_eq_head?, flatMap_head_iff,
    ← get_eq_head?]
  exact ⟨fun h => ⟨h.1, h.2⟩, fun h => ⟨h.rest, h.first⟩⟩

end Proxy

end Pulsate
