import Pulsate.Lib.Hmac
import Pulsate.Waf.Lemmas.Acl
import Pulsate.Waf.Lemmas.Audit
import Pulsate.Waf.Lemmas.Evasion
import Pulsate.Waf.Lemmas.Limiter

/-!
# Results about the firewall
-/

namespace Pulsate.Waf

open Lib.Sha256 List Option WafEngine Quota

/-!
## Tamper evidence of the audit log

`verify` never looks at the sequence numbers, and the first entry's message has no predecessor hash in
front. The message of a later entry can therefore be read once more as that of a first entry whose
sequence number is made of hash text; that reading is the only way to have a chain of reused hashes
accepted that is not a prefix of the log.
-/

/-- Against hashes of 32 bytes without collisions among the messages at hand, an accepted chain of
reused hashes is a prefix of the log exactly when it does not start at a non-zero sequence number. -/
theorem verify_isPrefix_iff (mac : List UInt8 → List UInt8) (events : List Str) (E : List AuditEntry)
    (hlen : ∀ m, (mac m).length = 32) (hcf : CollisionFree mac (auditLog mac events ++ E))
    (hocc : ∀ e ∈ E, ∃ l ∈ auditLog mac events, e.hash = l.hash) (hE : verify mac E) :
    E <+: auditLog mac events ↔ ∀ e, E.head? = some e → e.seq = 0 := by
  obtain ⟨hv, h0⟩ := auditLog_verify mac events
  constructor
  · intro hp e he
    obtain ⟨rest, hrest⟩ := hp
    apply h0 e
    cases E with
    | nil => cases he
    | cons x xs => simpa [← hrest] using he
  · intro hz
    apply prefix_iff_getElem?.mpr
    intro i hi
    exact forged_get hlen hv h0 hcf hE hocc
      (fun e he => hz e (by rwa [head?_eq_getElem?])) (getElem?_eq_getElem hi)

/-- A log key. -/
def sampleKey : List UInt8 := (List.range 32).map UInt8.ofNat

def sampleEvents : List Str := ["login", "logout"]

def sampleLog : List AuditEntry := [
  ⟨0, "login", "", "e7feca95f8670acd8f808d280c917d69503ab50f3bdb7d4111c34283229ffb17"⟩,
  ⟨1, "logout", "e7feca95f8670acd8f808d280c917d69503ab50f3bdb7d4111c34283229ffb17", "51f612c74f9f3c978ea14160033cff3792a8ae77d5f893bedba43846f6012b60"⟩]

theorem auditLog_sample : auditLog (hmac sampleKey) sampleEvents = sampleLog := by decide +kernel

theorem verify_isPrefix_iff_login : sampleLog.take 1 <+: auditLog (hmac sampleKey) sampleEvents :=
  (verify_isPrefix_iff (hmac sampleKey) sampleEvents (sampleLog.take 1) (hmac_length sampleKey)
    (by rw [auditLog_sample]; decide +kernel) (by rw [auditLog_sample]; decide)
    (by decide +kernel)).mpr (by decide)

/-- The second reading of an entry's message: eight characters of the predecessor's hash as the sequence
number, the other characters, the eight bytes of the real sequence number and the event as the event. -/
def splice (e : AuditEntry) : AuditEntry where
  seq := UInt64.ofNat ((e.prevHash.bytes.take 8).foldr (fun b n => b.toNat + 256 * n) 0)
  event := e.prevHash.drop 8 ++ (toLeBytes e.seq).map (fun b => Char.ofNat b.toNat) ++ e.event
  prevHash := []
  hash := e.hash

/-- The log holds `login` and `logout`; the second entry, spliced, is accepted as a log of its own. -/
theorem verify_accepts_splice :
    let mac := hmac sampleKey
    let L := auditLog mac sampleEvents
    let E := L.tail.map splice
    CollisionFree mac (L ++ E) ∧ (∀ e ∈ E, ∃ l ∈ L, e.hash = l.hash) ∧ verify mac E ∧
      ¬ E <+: L := by
  simp only [auditLog_sample]
  decide +kernel

/-! ## Signatures and comments -/

theorem needle_shape {sig : Signature} (h : sig ∈ signatures) : ∃ c text, sig.needle = c :: text ∧ c ≠ ' ' ∧ Spaced sig.needle := by
  have hall : signatures.all (fun sig => decide (sig.needle.head?.any (· ≠ ' ') ∧ Spaced sig.needle)) := by
    decide
  obtain ⟨hhead, hspaced⟩ := of_decide_eq_true (all_eq_true.mp hall sig h)
  obtain ⟨c, hc, hne⟩ := (any_eq_true _ _).mp hhead
  obtain ⟨text, htext⟩ := head?_eq_some_iff.mp hc
  exact ⟨c, text, htext, of_decide_eq_true hne, hspaced⟩

theorem detect_isSome_iff (target : Str) :
    (detect target).isSome ↔ ∃ sig ∈ signatures, Spells (decoded target).bytes sig.needle := by
  rw [detect, isSome_map, find?_isSome]
  refine exists_congr (fun sig => and_congr_right (fun hsig => ?_))
  obtain ⟨c, text, hneedle, hc, hspaced⟩ := needle_shape hsig
  rw [hneedle] at hspaced
  rw [decide_eq_true_eq, normalize_eq, hneedle]
  exact infix_iff_spells hc hspaced _

/-- A target whose decoded form has a signature in it is detected exactly if some signature can be read in that form outside of its
comments, with a blank for any run of comments and white space. -/
theorem detected_iff (target : Str) :
    ((∃ sig ∈ signatures, sig.needle <:+: decoded target) → (detect target).isSome) ↔
      (∀ sig ∈ signatures, ¬ sig.needle <:+: decoded target) ∨
        ∃ sig ∈ signatures, Spells (decoded target).bytes sig.needle := by
  rw [detect_isSome_iff, imp_iff_not_or]
  simp only [not_exists, not_and]

/-- A comment that does not end hides the rest. -/
theorem script_hidden : (∃ sig ∈ signatures, sig.needle <:+: decoded "/?q=/*<script>alert(1)</script>") ∧
    (detect "/?q=/*<script>alert(1)</script>").isSome = false := by
  decide

/-! ## Ways around the signatures -/

/-- Up to eight layers of encoding change nothing for the signatures. -/
theorem detect_of_encodesTimes {n : Nat} {target encoded : Str} (hn : n ≤ 8) (hplus : '+' ∉ target)
    (hfixed : percentDecode target = target) (h : EncodesTimes n target encoded) :
    detect encoded = detect target := by
  have hpasses : decodePasses maxDecodePasses encoded = decodePasses maxDecodePasses target :=
    (decodePasses_of_encodesTimes h hplus hfixed hn).1.trans (decodePasses_fixed hfixed _).symm
  have hnormalize : normalize encoded = normalize target := by rw [normalize, hpasses, normalize]
  rw [detect, detect, hnormalize]

/-- A slash of a path to the password file, written with three bytes and then with nine. -/
theorem detect_of_encodesTimes_slash : detect "%252Fetc/passwd" = detect "/etc/passwd" := by
  have hkeep (s : Str) (h : '%' ∉ s) : Encodes s s := by
    induction s with
    | nil => exact .nil
    | cons c s ih =>
      rw [mem_cons, not_or] at h
      exact .keep (Ne.symm h.1) (ih h.2)
  have hlayer : Encodes "/etc/passwd" "%2Fetc/passwd" :=
    @Encodes.escape '/' ["%2F"] _ _ (.cons ⟨'2', 'F', rfl, by decide, by decide⟩ .nil) (hkeep _ (by decide))
  have hagain : Encodes "%2Fetc/passwd" "%252Fetc/passwd" :=
    @Encodes.escape '%' ["%25"] _ _ (.cons ⟨'2', '5', rfl, by decide, by decide⟩ .nil) (hkeep _ (by decide))
  exact detect_of_encodesTimes (n := 2) (by decide) (by decide) (by decide) (.succ (.succ .zero hlayer) hagain)

/-- A signature with a blank is detected, whatever white space and closed comments stand for the blank, in letters of any case,
unless a comment begins before. -/
theorem detect_disguised {sig : Signature} (hsig : sig ∈ signatures) (hblank : ' ' ∈ sig.needle) {pre text post : Str}
    (htext : Disguises sig.needle text) (hpre : ¬ "/*" <:+: pre)
    (hfixed : percentDecode (pre ++ text ++ post) = pre ++ text ++ post) :
    (detect (pre ++ text ++ post)).isSome := by
  have hall : signatures.all (fun sig => decide (' ' ∈ sig.needle → sig.needle.all (fun c => decide (c = ' ' ∨ IsLetter c)))) := by
    decide
  have hletters := Str.forall_mem_of_all (of_decide_eq_true (all_eq_true.mp hall sig hsig) hblank)
  obtain ⟨c, rest, hneedle, hc, -⟩ := needle_shape hsig
  rw [detect_isSome_iff]
  have hdecoded : (decoded (pre ++ text ++ post)).bytes = lowered pre ++ (lowered text ++ lowered post) := by
    rw [decoded, decodePasses_fixed hfixed, ← lowered_append, ← lowered_append, append_assoc]
    rfl
  refine ⟨sig, hsig, lowered text ++ lowered post, ?_, reads_of_disguises htext hletters _⟩
  rw [hdecoded]
  rw [hneedle] at htext hletters
  exact outside_lowered hpre (head?_disguised_ne htext hc ((hletters c mem_cons_self).resolve_left hc) _)

/-- A comment between the words, in capitals. -/
theorem detect_disguised_union : (detect "/?q=UNION/*x*/SELECT 1").isSome := by
  have hspelled : Disguises "union select" "UNION/*x*/SELECT" := by
    refine .letter (by decide) (by decide) (.letter (by decide) (by decide) (.letter (by decide) (by decide) ?_))
    refine .letter (by decide) (by decide) (.letter (by decide) (by decide) ?_)
    refine @Disguises.blank ["/*x*/"] _ _ (by decide) ?_ ?_
    · simpa using @Separates.comment ['x'] (by decide)
    · refine .letter (by decide) (by decide) (.letter (by decide) (by decide) (.letter (by decide) (by decide) ?_))
      exact .letter (by decide) (by decide) (.letter (by decide) (by decide) (.letter (by decide) (by decide) .nil))
  have htarget : ("/?q=UNION/*x*/SELECT 1" : Str) = ("/?q=" : Str) ++ ("UNION/*x*/SELECT" : Str) ++ (" 1" : Str) := by decide
  rw [htarget]
  exact @detect_disguised ⟨"sqli-union", "union select"⟩ (by decide) (by decide) _ _ _ hspelled (by decide)
    (by decide)

/-! ## Address lists -/

/-- An address list blocks as it should exactly if, where one of the rules that decide covers the address, one does that is not
written in the mapped form. -/
theorem blocks_iff (acl : IpAcl) (ip : IpAddr) : ((acl.check ip).isSome ↔ acl.Blocks ip) ↔
    ((∃ c ∈ acl.rules, c.Covers ip) → ∃ c ∈ acl.rules, c.toCanonical = c ∧ c.Covers ip) := by
  have hcontains : (∃ c ∈ acl.rules, c.contains ip.toCanonical) ↔ ∃ c ∈ acl.rules, c.toCanonical = c ∧ c.Covers ip := by
    refine exists_congr (fun c => and_congr_right (fun _ => ?_))
    by_cases h : c.toCanonical = c
    · rw [contains_toCanonical_iff h, and_iff_right h]
    · exact iff_of_false (not_contains_of_mapped h ip) (fun hc => h hc.1)
  have hcovers : (∃ c ∈ acl.rules, c.toCanonical = c ∧ c.Covers ip) → ∃ c ∈ acl.rules, c.Covers ip := by
    rintro ⟨c, hc, -, hcovers⟩
    exact ⟨c, hc, hcovers⟩
  rw [check_isSome_iff_rules, blocks_iff_rules, hcontains]
  split
  · exact ⟨fun h => h.mpr, fun h => ⟨hcovers, h⟩⟩
  · rw [not_iff_not]
    exact ⟨fun h => h.mpr, fun h => ⟨hcovers, h⟩⟩

/-- A deny rule in the mapped form lets the address through that it names. -/
theorem mapped_rule_ignored : ∃ c ip, Cidr.parse "::ffff:10.0.0.0/104" = some c ∧ IpAddr.parse "10.0.0.1" = some ip ∧
    IpAcl.Blocks ⟨[], [c]⟩ ip ∧ (IpAcl.check ⟨[], [c]⟩ ip).isSome = false := by
  refine ⟨⟨.v6 0xFFFF0A000000, 104⟩, .v4 0x0A000001, by decide, by decide, ?_, by decide⟩
  refine .inr ⟨rfl, _, mem_singleton.mpr rfl, ?_⟩
  show Agree 8 (0x0A000000 : BitVec 32) 0x0A000001
  unfold Agree
  decide

/-! ## Rate limits -/

/-- Over checks in the order of their times, none of whose windows holds more checks of a key than can be counted, a limiter grants
the key at most twice its limit in any interval as long as a window, denies it nothing before the limit is used up, and goes by
the checks of the key alone. -/
theorem limits_of_countable (quota : Quota) (cs : List Check) (key : Str) (hpos : 0 < quota.window)
    (hsorted : cs.Pairwise (fun a b => a.now ≤ b.now)) (hcount : quota.Countable cs key) : quota.Limits cs key where
  rate := rate_le hpos hsorted hcount
  denied := fun _ _ _ h hkey hdenied => denied_le hpos hsorted hcount h hkey hdenied
  own := filter_decidedFrom rfl cs

/-- Two checks and the next window. -/
theorem limits_of_countable_three : Limits ⟨1, 10⟩ [⟨0, "a"⟩, ⟨9, "a"⟩, ⟨10, "a"⟩] "a" := by
  refine limits_of_countable ⟨1, 10⟩ [⟨0, "a"⟩, ⟨9, "a"⟩, ⟨10, "a"⟩] "a" (by decide) (by decide) (fun t => ?_)
  exact Nat.lt_of_le_of_lt countP_le_length (by decide)

/-- A limiter that is to allow nothing allows the check whose count is 2 ^ 64. -/
theorem limits_wrapped : (List.replicate (2 ^ 64) (⟨0, "a"⟩ : Check)).Pairwise (fun a b => a.now ≤ b.now) ∧
    ¬ Limits ⟨0, 10 ^ 9⟩ (List.replicate (2 ^ 64) ⟨0, "a"⟩) "a" := by
  refine ⟨pairwise_replicate.mpr (.inr (Nat.le_refl _)), ?_⟩
  exact not_limits_replicate (by decide) rfl ⟨0, "a"⟩ (by norm_num) (Nat.mod_self _)

/-- A denied check that is made again after the time it is told is allowed exactly if what is left of the window is a whole number
of seconds, or the count of the window is at its end. -/
theorem allowed_after_reset_iff (quota : Quota) (key : Str) (now : Nat) (before between : List Check) (hlimit : 1 ≤ quota.limit)
    (hsorted : (before ++ ⟨now, key⟩ :: between).Pairwise (fun a b => a.now ≤ b.now)) (hbetween : ∀ c ∈ between, c.key ≠ key)
    (hdenied : (quota.check now key (quota.after before)).1.allowed = false) :
    (quota.check (now + (quota.check now key (quota.after before)).1.resetSecs * 10 ^ 9) key
        (quota.after (before ++ ⟨now, key⟩ :: between))).1.allowed ↔
      ∃ start n, (quota.after before).get? key = some (start, n) ∧ (10 ^ 9 ∣ quota.window - (now - start) ∨ n = 2 ^ 64 - 2) := by
  obtain ⟨start, n, hentry, henter, hopen⟩ := denied_entry hlimit hdenied
  obtain ⟨⟨c, hc, hnow⟩, hn⟩ := exists_of_get?_after hentry
  have hstart : start ≤ now := by
    rw [← hnow]
    exact (pairwise_append.mp hsorted).2.2 c hc ⟨now, key⟩ mem_cons_self
  rw [hentry] at henter
  have hused : quota.used now (some (start, n)) = (n + 1) % 2 ^ 64 := by rw [used, henter]
  have hlast : (quota.after (before ++ ⟨now, key⟩ :: between)).get? key = some (start, (n + 1) % 2 ^ 64) := by
    rw [Quota.after, Lib.run_append, Lib.run_cons, Quota.get?_run_of_ne hbetween]
    rw [Quota.after] at hentry
    refine (Quota.get?_count_self _ ⟨now, key⟩).trans ?_
    rw [hentry, henter, hused]
  have hfull : quota.limit < (n + 1) % 2 ^ 64 := by
    rw [← hused, ← hentry]
    exact not_le.mp (of_decide_eq_false hdenied)
  simp only [check, hlast, hentry, henter, Option.some.injEq, Prod.mk.injEq, ↓existsAndEq, true_and]
  rw [dvd_iff_le_div]
  generalize (quota.window - (now - start)) / 10 ^ 9 * 10 ^ 9 = reset
  simp only [allows, used.eq_def quota (now + reset), enter, getD_some, decide_eq_true_eq]
  by_cases hnew : quota.window ≤ now + reset - start
  · rw [if_pos hnew]
    refine iff_of_true ?_ (.inl (by omega))
    exact le_trans (by norm_num) hlimit
  · rw [if_neg hnew]
    have hnot : ¬ quota.window - (now - start) ≤ reset := by omega
    simp only [hnot, false_or]
    omega

def onePerMinute : Quota := ⟨1, 60 * 10 ^ 9⟩

/-- The second check, a second after the first, is to come back after 59 seconds. -/
theorem allowed_after_reset_iff_whole :
    (onePerMinute.check (10 ^ 9 + (onePerMinute.check (10 ^ 9) "a" (onePerMinute.after [⟨0, "a"⟩])).1.resetSecs * 10 ^ 9) "a"
      (onePerMinute.after [⟨0, "a"⟩, ⟨10 ^ 9, "a"⟩])).1.allowed :=
  (allowed_after_reset_iff onePerMinute "a" (10 ^ 9) [⟨0, "a"⟩] [] (by decide) (by decide) (by decide) (by decide)).mpr
    ⟨0, 1, by decide, .inl (by decide)⟩

/-- Half a second after the first, the second is told 59 seconds too, and comes back half a second too early. -/
theorem denied_after_reset :
    (onePerMinute.check (5 * 10 ^ 8) "a" (onePerMinute.after [⟨0, "a"⟩])).1 = ⟨false, 1, 0, 59⟩ ∧
      (onePerMinute.check (5 * 10 ^ 8 + 59 * 10 ^ 9) "a"
        (onePerMinute.after [⟨0, "a"⟩, ⟨5 * 10 ^ 8, "a"⟩])).1.allowed = false := by
  decide

end Pulsate.Waf
