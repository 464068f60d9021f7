import Pulsate.Control.Lemmas.Calls

/-!
# The pump follows the audit log

Sequence numbers grow along the log, so the pump is a follower of it: a call from outside lets the log grow by at most an
entry, a tick is a poll, and each round of the loop looks at one entry.
-/

namespace Pulsate.Control

open List
open Waf (AuditEntry)
open Lib (isNew Tail)

variable {mac digest : List UInt8 → List UInt8} {env : Str → Option Str} {indexHtml : Str} {api : AdminApi}

instance instIsStrictOrderUInt64 : IsStrictOrder UInt64 (· < ·) where
  irrefl _ := UInt64.lt_irrefl _
  trans _ _ _ := UInt64.lt_trans

/-! ## Sequence numbers -/

structure Numbered (log : List AuditEntry) : Prop where
  sorted : log.Pairwise (fun a b => a.seq < b.seq)
  last : ∀ e, log.getLast? = some e → e.seq.toNat + 1 = log.length
  fits : log.length ≤ maxEntries

theorem numbered_nil : Numbered [] := ⟨.nil, nofun, Nat.zero_le _⟩

theorem Numbered.le_last {log : List AuditEntry} (h : Numbered log) {last : AuditEntry} (hlast : log.getLast? = some last)
    {e : AuditEntry} (he : e ∈ log) : e.seq.toNat ≤ last.seq.toNat := by
  obtain ⟨front, rfl⟩ := getLast?_eq_some_iff.mp hlast
  rcases mem_append.mp he with he | he
  · exact Nat.le_of_lt (UInt64.lt_iff_toNat_lt.mp ((pairwise_append.mp h.sorted).2.2 e he last mem_cons_self))
  · rw [mem_singleton.mp he]

theorem Numbered.append {log : List AuditEntry} (h : Numbered log) (mac : List UInt8 → List UInt8) (hroom : log.length < maxEntries) (event : Str) :
    ∃ e, Waf.append mac log event = log ++ [e] ∧ (∀ b ∈ log, b.seq < e.seq) ∧ Numbered (log ++ [e]) := by
  have hmax : maxEntries < 2 ^ 64 := by decide
  cases hlast : log.getLast? with
  | none =>
    obtain rfl : log = [] := getLast?_eq_none_iff.mp hlast
    refine ⟨_, rfl, fun b hb => absurd hb not_mem_nil, pairwise_singleton _ _, fun e he => ?_, hroom⟩
    cases he
    rfl
  | some last =>
    have hlen := h.last last hlast
    have hseq : (last.seq + 1).toNat = log.length := by
      rw [UInt64.toNat_add, show (1 : UInt64).toNat = 1 from rfl, hlen]
      exact Nat.mod_eq_of_lt (by omega)
    have habove : ∀ b ∈ log, b.seq < last.seq + 1 := by
      intro b hb
      rw [UInt64.lt_iff_toNat_lt, hseq]
      have hle := h.le_last hlast hb
      omega
    refine ⟨⟨last.seq + 1, event, last.hash, _⟩, by rw [Waf.append, hlast], habove, ?_, ?_, ?_⟩
    · refine pairwise_append.mpr ⟨h.sorted, pairwise_singleton _ _, fun b hb e he => ?_⟩
      rw [mem_singleton.mp he]
      exact habove b hb
    · intro e he
      rw [getLast?_concat] at he
      cases he
      rw [hseq, length_append]
      rfl
    · rw [length_append]
      exact hroom

variable (mac digest env indexHtml) in
theorem serve_audit (h : Numbered api.audit) (c : Call) :
    ((api.serve mac digest env indexHtml c).audit = api.audit ∨
      ∃ e, (api.serve mac digest env indexHtml c).audit = api.audit ++ [e] ∧ (∀ b ∈ api.audit, b.seq < e.seq) ∧
        Numbered (api.audit ++ [e])) ∧
    (api.serve mac digest env indexHtml c).events.filter AdminEvent.isAppended =
      api.events.filter AdminEvent.isAppended := by
  cases c with
  | append event =>
    rw [AdminApi.serve, append_events]
    refine ⟨?_, rfl⟩
    by_cases hroom : api.audit.length < maxEntries
    · obtain ⟨e, he, hspec⟩ := h.append mac hroom event
      rw [AdminApi.append, if_pos hroom]
      exact .inr ⟨e, he, hspec⟩
    · rw [AdminApi.append, if_neg hroom]
      exact .inl rfl
  | rest req =>
    rw [AdminApi.serve, dispatch_api]
    exact ⟨.inl rfl, rfl⟩
  | grpc metadata rpc =>
    rw [AdminApi.serve, call_api]
    refine ⟨.inl rfl, ?_⟩
    rw [filter_append, append_right_eq_self, filter_eq_nil_iff]
    intro ev hev
    obtain ⟨g, -, rfl⟩ := mem_map.mp hev
    exact Bool.false_ne_true

theorem serve_numbered (h : Numbered api.audit) (c : Call) :
    Numbered (api.serve mac digest env indexHtml c).audit := by
  rcases (serve_audit mac digest env indexHtml h c).1 with heq | ⟨e, heq, -, hnum⟩
  · rw [heq]
    exact h
  · rw [heq]
    exact hnum

/-! ## Following -/

/-- The pump as a follower that has passed on these entries. -/
def System.tail (s : System) (passed : List AuditEntry) : Tail AuditEntry UInt64 :=
  ⟨s.api.audit, s.lastSeq, s.polled, s.pending, passed⟩

structure Pumps (mark : Option UInt64) (s : System) : Prop where
  numbered : Numbered s.api.audit
  follows : ∃ passed, s.api.events.filter AdminEvent.isAppended = passed.map appended ∧
    (s.tail passed).Inv AuditEntry.seq mark

variable {mark : Option UInt64} {s : System}

theorem Pumps.call (h : Pumps mark s) (c : Call) : Pumps mark (s.step mac digest env indexHtml (.call c)) := by
  obtain ⟨passed, hpassed, hinv⟩ := h.follows
  obtain ⟨haudit, hevents⟩ := serve_audit mac digest env indexHtml h.numbered c
  refine ⟨serve_numbered h.numbered c, passed, hevents.trans hpassed, ?_⟩
  rcases haudit with heq | ⟨e, heq, habove, -⟩
  · show Tail.Inv _ _ ⟨(s.api.serve mac digest env indexHtml c).audit, _, _, _, _⟩
    rw [heq]
    exact hinv
  · show Tail.Inv _ _ ⟨(s.api.serve mac digest env indexHtml c).audit, _, _, _, _⟩
    rw [heq]
    exact hinv.grow habove

theorem Pumps.tick (h : Pumps mark s) : Pumps mark (s.step mac digest env indexHtml .tick) := by
  rw [System.step]
  split
  · rename_i hidle
    obtain ⟨passed, hpassed, hinv⟩ := h.follows
    exact ⟨h.numbered, passed, hpassed, hinv.poll hidle.2⟩
  · exact h

theorem Pumps.next (h : Pumps mark s) : Pumps mark (s.step mac digest env indexHtml .next) := by
  obtain ⟨passed, hpassed, hinv⟩ := h.follows
  rw [System.step]
  split
  · exact h
  · rename_i entry rest hp
    split
    · rename_i hnew
      refine ⟨h.numbered, passed ++ [entry], ?_, hinv.pass hp hnew⟩
      show (s.api.events ++ [appended entry]).filter AdminEvent.isAppended = _
      rw [filter_append, hpassed, map_append]
      rfl
    · rename_i hnew
      exact ⟨h.numbered, passed, hpassed, hinv.skip hp (eq_false_of_ne_true hnew)⟩

theorem Pumps.changed (h : Pumps mark s) (state : Lifecycle) :
    Pumps mark (s.step mac digest env indexHtml (.changed state)) := by
  rw [System.step]
  split
  · obtain ⟨passed, hpassed, hinv⟩ := h.follows
    refine ⟨h.numbered, passed, ?_, hinv⟩
    show (s.api.events ++ [AdminEvent.lifecycleChanged state.text]).filter AdminEvent.isAppended = _
    rw [filter_append, hpassed]
    exact append_nil _
  · exact h

theorem pumps_step (h : Pumps mark s) (a : Action) : Pumps mark (s.step mac digest env indexHtml a) := by
  cases a with
  | call c => exact h.call c
  | tick => exact h.tick
  | next => exact h.next
  | changed state => exact h.changed state
  | closed =>
    rw [System.step]
    split
    · exact ⟨h.numbered, h.follows⟩
    · exact h

theorem pumps_start (h : Numbered api.audit) (hnone : api.events.filter AdminEvent.isAppended = []) :
    Pumps (System.start api).lastSeq (System.start api) :=
  ⟨h, [], hnone, Tail.inv_begin h.sorted⟩

end Pulsate.Control
