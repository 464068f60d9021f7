import Pulsate.Http.Egress
import Pulsate.Http.Lemmas.Lines

/-!
# Lemmas about responses on the way out
-/

namespace Pulsate.Http

open Option
open Routing (Mw)

variable {gw : Gateway} {requestId : Str} {name : HeaderName}

theorem Response.Same.refl (resp : Response) : resp.Same resp := ⟨rfl, rfl, fun _ => rfl⟩

theorem getLast?_toList_of_length {lines : List HeaderValue} (h : lines.length ≤ 1) : lines.getLast?.toList = lines := by
  cases lines with
  | nil => rfl
  | cons line rest =>
    rw [List.length_eq_zero_iff.mp (Nat.le_zero.mp (Nat.le_of_succ_le_succ h))]
    rfl

/-! ## Headers that are set on every response -/

theorem keeps_stamp (resp : Response) :
    (gw.stamp requestId resp).status = resp.status ∧ (gw.stamp requestId resp).body = resp.body := by
  have hid := keeps_insertStr resp xRequestId requestId
  unfold Gateway.stamp
  cases gw.altSvc with
  | none => exact hid
  | some alt =>
    have halt := keeps_insertStr (resp.insertStr xRequestId requestId) altSvcName alt
    exact ⟨halt.1.trans hid.1, halt.2.trans hid.2⟩

theorem getAll_stamp_of_not (h : gw.stamps requestId name = false) (resp : Response) :
    (gw.stamp requestId resp).headers.getAll name = resp.headers.getAll name := by
  simp only [Gateway.stamps, Bool.or_eq_false_iff, Bool.and_eq_false_iff, decide_eq_false_iff_not] at h
  obtain ⟨hid, halt⟩ := h
  unfold Gateway.stamp
  cases hsvc : gw.altSvc with
  | none => exact getAll_insertStr_of resp hid
  | some alt =>
    rw [hsvc] at halt
    exact (getAll_insertStr_of _ halt).trans (getAll_insertStr_of resp hid)

theorem getAll_stamp_of (h : gw.stamps requestId name) (resp resp' : Response) :
    (gw.stamp requestId resp).headers.getAll name = (gw.stamp requestId resp').headers.getAll name := by
  simp only [Gateway.stamps, Bool.or_eq_true, Bool.and_eq_true, decide_eq_true_eq] at h
  unfold Gateway.stamp
  rcases h with ⟨rfl, hid⟩ | ⟨rfl, halt⟩
  · obtain ⟨v, hv⟩ := isSome_iff_exists.mp hid
    have hset : ∀ r : Response, (r.insertStr xRequestId requestId).headers.getAll xRequestId = [v] := by
      intro r
      rw [getAll_insertStr, hv]
      rfl
    cases gw.altSvc with
    | none => exact (hset resp).trans (hset resp').symm
    | some alt =>
      simp only [getAll_insertStr_ne _ alt (show xRequestId ≠ altSvcName by decide), hset]
  · obtain ⟨alt, hsvc, hsome⟩ := (any_eq_true _ _).mp halt
    obtain ⟨v, hv⟩ := isSome_iff_exists.mp hsome
    simp only [hsvc, getAll_insertStr, hv, map_some, getD_some]

theorem getAll_finalize_eq (gw : Gateway) (requestId : Str) (resp : Response) (name : HeaderName) :
    (finalize gw requestId resp).headers.getAll name = ((gw.stamp requestId resp).headers.getAll name).getLast?.toList :=
  getAll_toHyper (gw.stamp requestId resp) name

/-! ## The steps on the way out -/

theorem same_egress_iff (pipeline : List Mw) (origin : Option Str) (resp : Response) :
    (finalize gw requestId resp).Same (finalize gw requestId (Pipeline.egress pipeline origin resp)) ↔
      Stands gw requestId pipeline origin resp := by
  constructor
  · intro h name lines hstamps hlines
    have hsame := h.lines name
    rw [getAll_finalize_eq, getAll_finalize_eq, getAll_stamp_of_not hstamps, getAll_stamp_of_not hstamps, Pipeline.getAll_egress,
      hlines, getD_some] at hsame
    rw [hsame]
    exact getLast?_toList_of_length (Pipeline.length_egressLines hlines)
  · intro h
    have hkeeps := Pipeline.keeps_egress pipeline origin resp
    refine ⟨?_, ?_, fun name => ?_⟩
    · exact (keeps_stamp resp).1.trans (hkeeps.1.symm.trans (keeps_stamp _).1.symm)
    · exact (keeps_stamp resp).2.trans (hkeeps.2.symm.trans (keeps_stamp _).2.symm)
    · rw [getAll_finalize_eq, getAll_finalize_eq]
      cases hstamps : gw.stamps requestId name with
      | true => rw [getAll_stamp_of hstamps resp (Pipeline.egress pipeline origin resp)]
      | false =>
        rw [getAll_stamp_of_not hstamps, getAll_stamp_of_not hstamps, Pipeline.getAll_egress]
        cases hlines : Pipeline.egressLines pipeline origin name with
        | none => rfl
        | some lines =>
          rw [h name lines hstamps hlines, getD_some]
          exact (getLast?_toList_of_length (Pipeline.length_egressLines hlines)).symm

end Pulsate.Http
