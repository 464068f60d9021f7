import Pulsate.Control.Lemmas.Json
import Pulsate.Lib.OrdMap
import Pulsate.Lib.Run

/-!
# Labelled counters (`pulsate-observe::metrics`)
-/

namespace Pulsate.Observe

open List Lib
open Control (commaJoined commaJoined_cons readChar quoted_inj natText_inj_before)
open Pulsate.Flow (natText)

/-! ## The family -/

structure CounterVec where
  name : Str
  help : Str
  labelNames : List Str
  cap : Nat
  values : OrdMap (List Str) UInt64

namespace CounterVec

def new (name help : Str) (labelNames : List Str) (cap : Nat) : CounterVec := ⟨name, help, labelNames, cap, ∅⟩

/-- Sums wrap around in a release build. -/
def add (f : CounterVec) (labelValues : List Str) (n : UInt64) : CounterVec :=
  match f.values.get? labelValues with
  | some v => { f with values := f.values.insert labelValues (v + n) }
  | none => if f.values.entries.length < f.cap then { f with values := f.values.insert labelValues n } else f

/-- A call of `add`. -/
abbrev step (f : CounterVec) (call : List Str × UInt64) : CounterVec := f.add call.1 call.2

end CounterVec

/-- `str::replace` of a character. -/
def replaceChar (v : Str) (c : Char) (new : Str) : Str := v.flatMap (fun d => if d = c then new else [d])

def escapeLabel (v : Str) : Str :=
  replaceChar (replaceChar (replaceChar v '\\' ['\\', '\\']) '"' ['\\', '"']) '\n' ['\\', 'n']

def renderLabel (pair : Str × Str) : Str := pair.1 ++ '=' :: '"' :: escapeLabel pair.2 ++ ['"']

def renderLabels (names values : List Str) : Str :=
  if names = [] then [] else '{' :: commaJoined ((names.zip values).map renderLabel) ++ ['}']

namespace CounterVec

/-- The line of a series. -/
def row (f : CounterVec) (entry : List Str × UInt64) : Str :=
  f.name ++ renderLabels f.labelNames entry.1 ++ ' ' :: natText entry.2.toNat ++ ['\n']

/-- The rows come in the order of their keys. -/
def renderInto (f : CounterVec) (out : Str) : Str :=
  out ++ "# HELP " ++ f.name ++ ' ' :: f.help ++ "\n# TYPE " ++ f.name ++ " counter\n" ++ f.values.entries.flatMap f.row

end CounterVec

/-! ## Counting -/

variable {cap : Nat} {calls : List (List Str × UInt64)} {f : CounterVec}

/-- All that was added to a tuple, if anything was. -/
def tally (calls : List (List Str × UInt64)) (key : List Str) : Option UInt64 :=
  (calls.filter (·.1 = key)).foldl (fun sum call => some (sum.getD 0 + call.2)) none

theorem tally_concat (call : List Str × UInt64) (key : List Str) : tally (calls ++ [call]) key =
    if key = call.1 then some ((tally calls key).getD 0 + call.2) else tally calls key := by
  rw [tally, filter_append, foldl_append]
  split
  next h => simp [h, tally]
  next h => simp [Ne.symm h, tally]

/-- What a family holds after the given calls. A tuple without a series was refused, which a family does that is full. -/
structure Counted (cap : Nat) (calls : List (List Str × UInt64)) (f : CounterVec) : Prop where
  kept : f.cap = cap
  size : f.values.entries.length ≤ cap
  get : ∀ key, f.values.get? key = tally calls key ∨ f.values.get? key = none ∧ f.values.entries.length = cap

theorem Counted.step (h : Counted cap calls f) (call : List Str × UInt64) :
    Counted cap (calls ++ [call]) (f.step call) := by
  have htally := h.get call.1
  unfold CounterVec.step CounterVec.add
  rw [h.kept]
  split
  next v hv =>
    refine ⟨rfl, (OrdMap.length_insert hv).trans_le h.size, fun key => ?_⟩
    rw [tally_concat, OrdMap.get?_insert, OrdMap.length_insert hv]
    split
    next hkey =>
      rcases htally with htally | ⟨hnone, -⟩
      · rw [hkey, ← htally, hv]
        exact .inl rfl
      · cases hv.symm.trans hnone
    next => exact h.get key
  next hnone =>
    split
    next hroom =>
      have hlen := (OrdMap.perm_insert (v := call.2) hnone).length_eq
      refine ⟨rfl, hlen.trans_le hroom, fun key => .inl ?_⟩
      have hnew : ∀ key, f.values.get? key = tally calls key := fun key => (h.get key).resolve_right (fun hfull => hroom.ne hfull.2)
      rw [tally_concat, OrdMap.get?_insert, ← hnew]
      split
      next hkey => rw [hkey, hnone, Option.getD_none, UInt64.zero_add]
      next => rfl
    next hfull =>
      refine ⟨h.kept, h.size, fun key => ?_⟩
      rw [tally_concat]
      split
      next hkey => exact .inr ⟨hkey ▸ hnone, h.size.antisymm (not_lt.mp hfull)⟩
      next => exact h.get key

/-- Whatever is added in whatever order, a family never has more series than its cap allows, and a series counts all that was
ever added to its tuple. -/
theorem counted_run (name help : Str) (labelNames : List Str) (cap : Nat) (calls : List (List Str × UInt64)) :
    Counted cap calls (run CounterVec.step (.new name help labelNames cap) calls) := by
  induction calls using reverseRecOn with
  | nil => exact ⟨rfl, Nat.zero_le _, fun _ => .inl rfl⟩
  | append_singleton calls call ih =>
    rw [run_concat]
    exact ih.step call

/-! ## Text -/

def escapeLabelChar (c : Char) : Str :=
  if c = '\\' then ['\\', '\\'] else if c = '"' then ['\\', '"'] else if c = '\n' then ['\\', 'n'] else [c]

theorem escapeLabel_eq (v : Str) : escapeLabel v = v.flatMap escapeLabelChar := by
  simp only [escapeLabel, replaceChar, flatMap_assoc]
  refine flatMap_congr fun c _ => ?_
  rw [escapeLabelChar]
  split
  next => rfl
  next =>
    rw [flatMap_singleton]
    split
    next => rfl
    next => exact flatMap_singleton ..

theorem readChar_escapeLabelChar (c : Char) (s : Str) : readChar (escapeLabelChar c ++ s) = some (c, s) := by
  unfold escapeLabelChar
  split
  next h => rw [h]; rfl
  split
  next h => rw [h]; rfl
  split
  next h => rw [h]; rfl
  next hslash _ _ => simp [readChar, hslash]

variable {r s : Str} {names vs ws : List Str}

theorem escapeLabel_inj {v w : Str} (h : escapeLabel v ++ '"' :: r = escapeLabel w ++ '"' :: s) : v = w ∧ r = s := by
  rw [escapeLabel_eq, escapeLabel_eq] at h
  exact quoted_inj readChar_escapeLabelChar h

theorem labels_inj (hvs : vs.length = names.length) (hws : ws.length = names.length)
    (h : ((names.zip vs).map renderLabel).flatMap (',' :: ·) ++ r = ((names.zip ws).map renderLabel).flatMap (',' :: ·) ++ s) :
    vs = ws ∧ r = s := by
  induction names generalizing vs ws with
  | nil =>
    rw [length_eq_zero_iff.mp hvs, length_eq_zero_iff.mp hws] at *
    exact ⟨rfl, h⟩
  | cons name names ih =>
    obtain ⟨v, vs, rfl⟩ := exists_cons_of_length_eq_add_one hvs
    obtain ⟨w, ws, rfl⟩ := exists_cons_of_length_eq_add_one hws
    rw [zip_cons_cons, zip_cons_cons, map_cons, map_cons, flatMap_cons, flatMap_cons, renderLabel, renderLabel] at h
    simp only [append_assoc, cons_append, nil_append, cons.injEq, true_and, append_cancel_left_eq] at h
    obtain ⟨rfl, hrest⟩ := escapeLabel_inj h
    obtain ⟨rfl, hend⟩ := ih (Nat.succ.inj hvs) (Nat.succ.inj hws) hrest
    exact ⟨rfl, hend⟩

theorem renderLabels_inj (hvs : vs.length = names.length) (hws : ws.length = names.length)
    (h : renderLabels names vs ++ r = renderLabels names ws ++ s) : vs = ws ∧ r = s := by
  cases names with
  | nil => exact labels_inj hvs hws h
  | cons name names =>
    obtain ⟨v, vs, rfl⟩ := exists_cons_of_length_eq_add_one hvs
    obtain ⟨w, ws, rfl⟩ := exists_cons_of_length_eq_add_one hws
    have hcomma : ',' :: commaJoined (renderLabel (name, v) :: (names.zip vs).map renderLabel) ++ '}' :: r =
        ',' :: commaJoined (renderLabel (name, w) :: (names.zip ws).map renderLabel) ++ '}' :: s := by
      simpa [renderLabels] using h
    rw [commaJoined_cons, commaJoined_cons] at hcomma
    obtain ⟨hlabels, hrest⟩ := labels_inj hvs hws hcomma
    exact ⟨hlabels, (cons.inj hrest).2⟩

theorem rows_inj (f : CounterVec) {es es' : List (List Str × UInt64)} (hes : ∀ e ∈ es, e.1.length = f.labelNames.length)
    (hes' : ∀ e ∈ es', e.1.length = f.labelNames.length) (h : es.flatMap f.row = es'.flatMap f.row) : es = es' := by
  induction es generalizing es' with
  | nil =>
    cases es' with
    | nil => rfl
    | cons e es' => simp [CounterVec.row] at h
  | cons e es ih =>
    cases es' with
    | nil => simp [CounterVec.row] at h
    | cons e' es' =>
      rw [flatMap_cons, flatMap_cons, CounterVec.row, CounterVec.row] at h
      simp only [append_assoc, cons_append, nil_append, append_cancel_left_eq] at h
      obtain ⟨hkey, hrest⟩ := renderLabels_inj (hes e mem_cons_self) (hes' e' mem_cons_self) h
      obtain ⟨hvalue, hrest⟩ := natText_inj_before (cons.inj hrest).2 rfl rfl
      rw [Prod.ext hkey (UInt64.toNat_inj.mp hvalue), ih (fun e he => hes e (mem_cons_of_mem _ he))
        (fun e he => hes' e (mem_cons_of_mem _ he)) (cons.inj hrest).2]

/-- Two families of one kind with the same text have the same series with the same counts, whatever is in the labels. -/
theorem values_of_render {name help : Str} {labelNames : List Str} {cap cap' : Nat} {values values' : OrdMap (List Str) UInt64}
    {out : Str} (hkeys : ∀ e ∈ values.entries, e.1.length = labelNames.length)
    (hkeys' : ∀ e ∈ values'.entries, e.1.length = labelNames.length)
    (h : CounterVec.renderInto ⟨name, help, labelNames, cap, values⟩ out =
      CounterVec.renderInto ⟨name, help, labelNames, cap', values'⟩ out) : values = values' := by
  have hrows := rows_inj ⟨name, help, labelNames, cap, ∅⟩ hkeys hkeys' (append_cancel_left h)
  exact OrdMap.ext_mem fun e => by rw [hrows]

theorem values_of_render_swapped :
    ((∅ : OrdMap (List Str) UInt64).insert [['a']] 1).insert [['b']] 2 = (OrdMap.insert ∅ [['b']] 2).insert [['a']] 1 :=
  @values_of_render ['n'] ['h'] [['k']] 2 3 _ _ [] (by decide) (by decide) (by decide)

end Pulsate.Observe
