import Pulsate.Waf.Limiter

/-!
# How a limiter counts

A window begins with a check and lasts at least as long as an interval that is looked at, so that the interval meets two windows
at most.
-/

namespace Pulsate.Waf.Quota

open List Lib
open Lib (run run_concat)

variable {quota : Quota} {cs : List Check} {key : Str} {start n : Nat}

variable {d : Check × Bool} {now : Nat}

/-! ## Decisions -/

theorem decidedFrom_append (buckets : Buckets) (cs ds : List Check) :
    quota.decidedFrom buckets (cs ++ ds) =
      quota.decidedFrom buckets cs ++ quota.decidedFrom (run quota.count buckets cs) ds := by
  induction cs generalizing buckets with
  | nil => rfl
  | cons c cs ih => simp [decidedFrom, ih]

theorem decided_concat (cs : List Check) (c : Check) :
    quota.decided (cs ++ [c]) = quota.decided cs ++ [(c, quota.allows c.now ((quota.after cs).get? c.key))] :=
  decidedFrom_append ∅ cs [c]

theorem map_fst_decidedFrom (quota : Quota) (buckets : Buckets) (cs : List Check) : (quota.decidedFrom buckets cs).map Prod.fst = cs := by
  induction cs generalizing buckets with
  | nil => rfl
  | cons c cs ih => simp [decidedFrom, ih]

theorem mem_of_mem_decided (h : d ∈ quota.decided cs) : d.1 ∈ cs := by
  rw [← map_fst_decidedFrom quota ∅ cs]
  exact mem_map_of_mem h

theorem get?_count_self (buckets : Buckets) (c : Check) :
    (quota.count buckets c).get? c.key =
      some ((quota.enter c.now (buckets.get? c.key)).1, quota.used c.now (buckets.get? c.key)) :=
  Lib.OrdMap.get?_insert_self _ _ _

theorem get?_count_of_ne (buckets : Buckets) {c : Check} (h : c.key ≠ key) :
    (quota.count buckets c).get? key = buckets.get? key :=
  Lib.OrdMap.get?_insert_ne _ _ (Ne.symm h)

theorem filter_decidedFrom {buckets buckets' : Buckets} (h : buckets.get? key = buckets'.get? key) (cs : List Check) :
    (quota.decidedFrom buckets cs).filter (·.1.key = key) = quota.decidedFrom buckets' (cs.filter (·.key = key)) := by
  induction cs generalizing buckets buckets' with
  | nil => rfl
  | cons c cs ih =>
    by_cases hc : c.key = key
    · have hnext : (quota.count buckets c).get? key = (quota.count buckets' c).get? key := by
        rw [← hc, get?_count_self, get?_count_self, hc, h]
      simp [decidedFrom, hc, h, ih hnext]
    · have hnext : (quota.count buckets c).get? key = buckets'.get? key := by rw [get?_count_of_ne _ hc, h]
      simp [decidedFrom, hc, ih hnext]

/-! ## Windows -/

/-- The checks of the key so far, seen from a window that began at `start` and has had `n` of them. -/
structure Entered (quota : Quota) (cs : List Check) (key : Str) (start n : Nat) : Prop where
  within : ∀ c ∈ cs, c.key = key → c.now < start + quota.window
  count : n = cs.countP (fun c => c.key = key ∧ start ≤ c.now)
  granted : (quota.decided cs).countP (fun d => d.1.key = key ∧ d.2 ∧ start ≤ d.1.now) = min n quota.limit
  before : ∀ t, start ≤ t + quota.window →
    (quota.decided cs).countP (fun d => d.1.key = key ∧ d.2 ∧ t ≤ d.1.now ∧ d.1.now < start) ≤ quota.limit

theorem Entered.of_ne {c : Check} (h : quota.Entered cs key start n) (hc : c.key ≠ key) :
    quota.Entered (cs ++ [c]) key start n := by
  refine ⟨?_, ?_, ?_, ?_⟩
  · intro c' hc' hkey
    rcases mem_append.mp hc' with hmem | hmem
    · exact h.within c' hmem hkey
    · cases mem_singleton.mp hmem
      exact absurd hkey hc
  · simpa [countP_append, hc] using h.count
  · simpa [decided_concat, countP_append, hc] using h.granted
  · intro t ht
    simpa [decided_concat, countP_append, hc] using h.before t ht

/-- A window begins: no check of the key is as late, and the window before it has granted no more than the limit. -/
theorem entered_new (hold : ∀ c ∈ cs, c.key = key → c.now < start) (hpos : 0 < quota.window)
    (hbefore : ∀ t, start ≤ t + quota.window →
      (quota.decided cs).countP (fun d => d.1.key = key ∧ d.2 ∧ t ≤ d.1.now ∧ d.1.now < start) ≤ quota.limit) :
    quota.Entered cs key start 0 := by
  refine ⟨?_, ?_, ?_, hbefore⟩
  · intro c hc hkey
    have := hold c hc hkey
    omega
  · symm
    rw [countP_eq_zero]
    intro c hc
    simp only [decide_eq_true_eq, not_and, Nat.not_le]
    exact hold c hc
  · rw [Nat.zero_min, countP_eq_zero]
    intro d hd
    simp only [decide_eq_true_eq, not_and, Nat.not_le]
    exact fun hkey _ => hold d.1 (mem_of_mem_decided hd) hkey

/-- What the bucket of a key says about the checks so far. -/
def Tracks (quota : Quota) (cs : List Check) (key : Str) : Option (Nat × Nat) → Prop
  | none => ∀ c ∈ cs, c.key ≠ key
  | some (start, n) => quota.Entered cs key start n ∧ ∀ t, (∀ c ∈ cs, c.now ≤ t) → start ≤ t

theorem entered_enter {entry : Option (Nat × Nat)} (h : quota.Tracks cs key entry) (hpos : 0 < quota.window)
    (hlate : ∀ c ∈ cs, c.now ≤ now) :
    quota.Entered cs key (quota.enter now entry).1 (quota.enter now entry).2 ∧
      (quota.enter now entry).1 ≤ now ∧ now < (quota.enter now entry).1 + quota.window := by
  cases entry with
  | none =>
    have hnone : ∀ c ∈ cs, c.key ≠ key := h
    have henter : quota.enter now none = (now, 0) := by simp [enter]
    rw [henter]
    refine ⟨entered_new (fun c hc hkey => absurd hkey (hnone c hc)) hpos (fun t _ => ?_), Nat.le_refl _, by omega⟩
    rw [countP_eq_zero.mpr]
    · exact Nat.zero_le _
    · intro d hd
      simp [hnone d.1 (mem_of_mem_decided hd)]
  | some entry =>
    obtain ⟨hentered, hstart⟩ := h
    have hle := hstart now hlate
    by_cases hover : quota.window ≤ now - entry.1
    · have henter : quota.enter now (some entry) = (now, 0) := by simp [enter, hover]
      rw [henter]
      refine ⟨entered_new (fun c hc hkey => ?_) hpos (fun t ht => ?_), Nat.le_refl _, by omega⟩
      · have := hentered.within c hc hkey
        omega
      · calc (quota.decided cs).countP (fun d => d.1.key = key ∧ d.2 ∧ t ≤ d.1.now ∧ d.1.now < now)
            ≤ (quota.decided cs).countP (fun d => d.1.key = key ∧ d.2 ∧ entry.1 ≤ d.1.now) := by
              apply countP_mono_left
              intro d _ hd
              simp only [decide_eq_true_eq] at hd ⊢
              exact ⟨hd.1, hd.2.1, by omega⟩
          _ ≤ quota.limit := by
              rw [hentered.granted]
              exact Nat.min_le_right _ _
    · have henter : quota.enter now (some entry) = entry := by simp [enter, hover]
      rw [henter]
      exact ⟨hentered, by omega, by omega⟩

theorem Entered.counted (h : quota.Entered cs key start n) (hle : start ≤ now) (hlt : now < start + quota.window)
    (hallows : quota.allows now ((quota.after cs).get? key) = decide (n + 1 ≤ quota.limit)) :
    quota.Entered (cs ++ [⟨now, key⟩]) key start (n + 1) := by
  refine ⟨?_, ?_, ?_, ?_⟩
  · intro c hc hkey
    rcases mem_append.mp hc with hmem | hmem
    · exact h.within c hmem hkey
    · cases mem_singleton.mp hmem
      exact hlt
  · simpa [countP_append, hle] using h.count
  · rw [decided_concat, countP_append, h.granted]
    by_cases hn : n + 1 ≤ quota.limit
    · simp [hallows, hn, hle]
      omega
    · simp [hallows, hn]
      omega
  · intro t ht
    have hnot : ¬ now < start := by omega
    simpa [decided_concat, countP_append, hnot] using h.before t ht

theorem Entered.fits (h : quota.Entered cs key start n) (hle : start ≤ now) (hlt : now < start + quota.window)
    (hcount : quota.Countable (cs ++ [⟨now, key⟩]) key) : n + 1 < 2 ^ 64 := by
  have hall : cs.countP (fun c => c.key = key ∧ start ≤ c.now ∧ c.now < start + quota.window) = n := by
    rw [h.count]
    refine countP_congr (fun c hc => ?_)
    simp only [decide_eq_true_eq]
    exact ⟨fun hin => ⟨hin.1, hin.2.1⟩, fun hin => ⟨hin.1, hin.2, h.within c hc hin.1⟩⟩
  have hlast := hcount start
  rw [countP_append, hall] at hlast
  simpa [hle, hlt] using hlast

theorem Countable.of_append {ds : List Check} (h : quota.Countable (cs ++ ds) key) : quota.Countable cs key := by
  intro t
  have ht := h t
  rw [countP_append] at ht
  omega

theorem tracks_next (h : quota.Tracks cs key ((quota.after cs).get? key)) (hpos : 0 < quota.window)
    (hlate : ∀ c ∈ cs, c.now ≤ now) (hcount : quota.Countable (cs ++ [⟨now, key⟩]) key) :
    ∃ start n, quota.Entered cs key start n ∧ start ≤ now ∧ now < start + quota.window ∧
      (quota.after (cs ++ [⟨now, key⟩])).get? key = some (start, n + 1) ∧
      quota.allows now ((quota.after cs).get? key) = decide (n + 1 ≤ quota.limit) := by
  obtain ⟨hentered, hle, hlt⟩ := entered_enter h hpos hlate
  have hused : quota.used now ((quota.after cs).get? key) = (quota.enter now ((quota.after cs).get? key)).2 + 1 :=
    Nat.mod_eq_of_lt (hentered.fits hle hlt hcount)
  refine ⟨_, _, hentered, hle, hlt, ?_, ?_⟩
  · rw [after, run_concat, ← hused]
    exact get?_count_self _ _
  · rw [allows, hused]

theorem tracks_after (hpos : 0 < quota.window) (hsorted : cs.Pairwise (fun a b => a.now ≤ b.now))
    (hcount : quota.Countable cs key) : quota.Tracks cs key ((quota.after cs).get? key) := by
  induction cs using List.reverseRecOn with
  | nil => exact fun c hc => absurd hc not_mem_nil
  | append_singleton cs c ih =>
    obtain ⟨hsorted', -, hlate⟩ := pairwise_append.mp hsorted
    have htracks := ih hsorted' hcount.of_append
    by_cases hc : c.key = key
    · obtain ⟨now, k⟩ := c
      cases hc
      obtain ⟨start, n, hentered, hle, hlt, hget, hallows⟩ :=
        tracks_next htracks hpos (fun a ha => hlate a ha _ (mem_singleton_self _)) hcount
      rw [hget]
      refine ⟨hentered.counted hle hlt hallows, fun t ht => ?_⟩
      exact hle.trans (ht _ (mem_append_right _ (mem_singleton_self _)))
    · have hget : (quota.after (cs ++ [c])).get? key = (quota.after cs).get? key := by
        rw [after, run_concat]
        exact get?_count_of_ne _ hc
      rw [hget]
      cases hentry : (quota.after cs).get? key with
      | none =>
        rw [hentry] at htracks
        intro a ha
        rcases mem_append.mp ha with hmem | hmem
        · exact htracks a hmem
        · cases mem_singleton.mp hmem
          exact hc
      | some entry =>
        rw [hentry] at htracks
        obtain ⟨hentered, hstart⟩ := htracks
        exact ⟨hentered.of_ne hc, fun t ht => hstart t (fun a ha => ht a (mem_append_left _ ha))⟩

/-! ## Intervals -/

theorem Entered.rate (h : quota.Entered cs key start n) {t : Nat} (ht : start ≤ t + quota.window) :
    (quota.decided cs).countP (fun d => d.1.key = key ∧ d.2 ∧ t ≤ d.1.now ∧ d.1.now < t + quota.window) ≤
      2 * quota.limit := by
  rw [countP_eq_countP_filter_add _ _ (fun d => decide (d.1.now < start)), countP_filter, countP_filter]
  have hbefore := h.before t ht
  have hin : (quota.decided cs).countP (fun d => d.1.key = key ∧ d.2 ∧ start ≤ d.1.now) ≤ quota.limit := by
    rw [h.granted]
    exact Nat.min_le_right _ _
  refine (Nat.add_le_add (countP_mono_left ?_ |>.trans hbefore) (countP_mono_left ?_ |>.trans hin)).trans
    (by omega)
  · intro d _ hd
    simp only [Bool.and_eq_true, decide_eq_true_eq] at hd ⊢
    exact ⟨hd.1.1, hd.1.2.1, hd.1.2.2.1, hd.2⟩
  · intro d _ hd
    simp only [Bool.and_eq_true, decide_eq_true_eq, Bool.not_eq_true', decide_eq_false_iff_not, Nat.not_lt] at hd ⊢
    exact ⟨hd.1.1, hd.1.2.1, hd.2⟩

theorem rate_le (hpos : 0 < quota.window) (hsorted : cs.Pairwise (fun a b => a.now ≤ b.now)) (hcount : quota.Countable cs key)
    (t : Nat) :
    (quota.decided cs).countP (fun d => d.1.key = key ∧ d.2 ∧ t ≤ d.1.now ∧ d.1.now < t + quota.window) ≤
      2 * quota.limit := by
  induction cs using List.reverseRecOn with
  | nil => exact Nat.zero_le _
  | append_singleton cs c ih =>
    obtain ⟨hsorted', -, hlate⟩ := pairwise_append.mp hsorted
    have hold := ih hsorted' hcount.of_append
    by_cases hc : c.key = key
    · obtain ⟨now, k⟩ := c
      cases hc
      obtain ⟨start, n, hentered, hle, hlt, -, hallows⟩ :=
        tracks_next (tracks_after hpos hsorted' hcount.of_append) hpos
          (fun a ha => hlate a ha _ (mem_singleton_self _)) hcount
      dsimp only at hle hlt hallows
      by_cases ht : start ≤ t + quota.window
      · exact (hentered.counted hle hlt hallows).rate ht
      · -- the check is behind the interval
        have hnot : ¬ now < t + quota.window := by omega
        simpa [decided_concat, countP_append, hnot] using hold
    · simpa [decided_concat, countP_append, hc] using hold

theorem decided_split {pre post : List (Check × Bool)} (h : quota.decided cs = pre ++ d :: post) :
    cs = pre.map Prod.fst ++ d.1 :: post.map Prod.fst ∧ pre = quota.decided (pre.map Prod.fst) ∧
      d.2 = quota.allows d.1.now ((quota.after (pre.map Prod.fst)).get? d.1.key) := by
  have hcs : cs = pre.map Prod.fst ++ d.1 :: post.map Prod.fst := by
    have hmap := congrArg (List.map Prod.fst) h
    rw [decided, map_fst_decidedFrom] at hmap
    rw [hmap]
    simp
  have hdecided : quota.decided cs = quota.decided (pre.map Prod.fst) ++
      quota.decidedFrom (quota.after (pre.map Prod.fst)) (d.1 :: post.map Prod.fst) := by
    rw [hcs]
    exact decidedFrom_append ∅ _ _
  have hlength : pre.length = (quota.decided (pre.map Prod.fst)).length := by
    have hmap := congrArg List.length (map_fst_decidedFrom quota ∅ (pre.map Prod.fst))
    simpa [decided] using hmap.symm
  rw [h] at hdecided
  obtain ⟨hpre, hrest⟩ := append_inj hdecided hlength
  exact ⟨hcs, hpre, congrArg Prod.snd (List.cons.inj hrest).1⟩

theorem denied_le (hpos : 0 < quota.window) (hsorted : cs.Pairwise (fun a b => a.now ≤ b.now)) (hcount : quota.Countable cs key)
    {pre post : List (Check × Bool)} (h : quota.decided cs = pre ++ d :: post) (hkey : d.1.key = key) (hdenied : d.2 = false) :
    quota.limit ≤ pre.countP (fun a => a.1.key = key ∧ a.2 ∧ d.1.now < a.1.now + quota.window) := by
  obtain ⟨hcs, hpre, hd⟩ := decided_split h
  have hfront : cs = (pre.map Prod.fst ++ [⟨d.1.now, key⟩]) ++ post.map Prod.fst := by
    rw [hcs, ← hkey]
    simp
  rw [hfront] at hsorted hcount
  obtain ⟨hsorted', -, hlate⟩ := pairwise_append.mp (pairwise_append.mp hsorted).1
  obtain ⟨start, n, hentered, hle, hlt, -, hallows⟩ :=
    tracks_next (tracks_after hpos hsorted' hcount.of_append.of_append) hpos
      (fun a ha => hlate a ha _ (mem_singleton_self _)) hcount.of_append
  dsimp only at hle hlt hallows
  rw [hkey, hallows, hdenied] at hd
  have hfull : quota.limit ≤ n := by
    have := of_decide_eq_false hd.symm
    omega
  have hgranted := hentered.granted
  rw [Nat.min_eq_right hfull, ← hpre] at hgranted
  rw [← hgranted]
  refine countP_mono_left (fun a _ ha => ?_)
  simp only [decide_eq_true_eq] at ha ⊢
  exact ⟨ha.1, ha.2.1, by omega⟩

/-! ## When to come back -/

theorem exists_of_get?_after (h : (quota.after cs).get? key = some (start, n)) : (∃ c ∈ cs, c.now = start) ∧ n < 2 ^ 64 := by
  induction cs using List.reverseRecOn generalizing start n with
  | nil => cases h
  | append_singleton cs c ih =>
    rw [after, run_concat] at h
    by_cases hc : c.key = key
    · subst hc
      rw [get?_count_self] at h
      obtain ⟨hstart, rfl⟩ := Prod.mk.inj (Option.some.inj h)
      refine ⟨?_, Nat.mod_lt _ (by decide)⟩
      cases hentry : (quota.after cs).get? c.key with
      | none =>
        rw [after] at hentry
        rw [hentry, enter] at hstart
        exact ⟨c, by simp, by simp [← hstart]⟩
      | some e =>
        obtain ⟨⟨c', hc', hnow⟩, -⟩ := ih hentry
        rw [after] at hentry
        rw [hentry, enter] at hstart
        simp only [Option.getD_some] at hstart
        split at hstart
        · exact ⟨c, by simp, hstart⟩
        · exact ⟨c', by simp [hc'], hnow.trans hstart⟩
    · rw [get?_count_of_ne _ hc] at h
      obtain ⟨⟨c', hc', hnow⟩, hn⟩ := ih h
      exact ⟨⟨c', by simp [hc'], hnow⟩, hn⟩

theorem get?_run_of_ne {buckets : Buckets} (h : ∀ c ∈ cs, c.key ≠ key) : (run quota.count buckets cs).get? key = buckets.get? key := by
  induction cs generalizing buckets with
  | nil => rfl
  | cons c cs ih =>
    rw [forall_mem_cons] at h
    rw [run_cons, ih h.2, get?_count_of_ne _ h.1]

theorem denied_entry {entry : Option (Nat × Nat)} (hlimit : 1 ≤ quota.limit) (h : quota.allows now entry = false) :
    ∃ start n, entry = some (start, n) ∧ quota.enter now entry = (start, n) ∧ now - start < quota.window := by
  have hused : quota.limit < quota.used now entry := by simpa [allows] using h
  cases entry with
  | none =>
    simp [used, enter] at hused
    omega
  | some e =>
    obtain ⟨start, n⟩ := e
    by_cases hopen : quota.window ≤ now - start
    · simp [used, enter, hopen] at hused
      omega
    · exact ⟨start, n, rfl, by simp [enter, hopen], by omega⟩

theorem dvd_iff_le_div (d m : Nat) : m ∣ d ↔ d ≤ d / m * m := by
  rw [Nat.dvd_iff_div_mul_eq]
  exact ⟨fun h => h.ge, fun h => le_antisymm (Nat.div_mul_le_self d m) h⟩

/-! ## Many checks at one time -/

theorem get?_after_replicate (hpos : 0 < quota.window) (c : Check) (n : Nat) :
    (quota.after (List.replicate (n + 1) c)).get? c.key = some (c.now, (n + 1) % 2 ^ 64) := by
  have hnot : ¬ quota.window ≤ 0 := by omega
  induction n with
  | zero =>
    rw [after, replicate_one, run_cons, run_nil, get?_count_self]
    simp [used, enter, hnot]
  | succ n ih =>
    rw [replicate_succ', after, run_concat, get?_count_self]
    rw [after] at ih
    simp [used, enter, ih, hnot]

theorem decided_replicate (hpos : 0 < quota.window) (c : Check) (n : Nat) :
    quota.decided (List.replicate (n + 2) c) =
      quota.decided (List.replicate (n + 1) c) ++ [(c, decide ((n + 2) % 2 ^ 64 ≤ quota.limit))] := by
  have hnot : ¬ quota.window ≤ 0 := by omega
  rw [replicate_succ', decided_concat, get?_after_replicate hpos]
  simp [allows, used, enter, hnot]

theorem not_limits_replicate (hpos : 0 < quota.window) (hlimit : quota.limit = 0) (c : Check) {n : Nat} (hn : 2 ≤ n)
    (hwraps : n % 2 ^ 64 = 0) : ¬ quota.Limits (List.replicate n c) c.key := by
  intro h
  obtain ⟨m, rfl⟩ := Nat.exists_eq_add_of_le' hn
  have hrate := h.rate c.now
  rw [decided_replicate hpos, hwraps, countP_append, hlimit] at hrate
  simp [hpos] at hrate

end Pulsate.Waf.Quota
