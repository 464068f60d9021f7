import Pulsate.Http.Handlers
import Pulsate.Std.Path

/-!
# Static files (`pulsate-http::handlers`)

What is served from a directory. The file system is a parameter, and each look at it is recorded.
-/

namespace Pulsate.Http

open List Pulsate.Path
open Pulsate.Path (Component)

/-- What the system says about a path: whether it is a directory, and what is in it. -/
structure FileSystem where
  isDir : Str → Option Bool
  read : Str → Option (List UInt8)

inductive Access
  | metadata (path : Str)
  | read (path : Str)
  deriving DecidableEq, Repr

def Access.path : Access → Str
  | .metadata path => path
  | .read path => path

def contentType (path : Str) : HeaderValue :=
  match extension path with
  | none => ⟨Str.bytes "application/octet-stream", by decide⟩
  | some e =>
    if e = "html" ∨ e = "htm" then ⟨Str.bytes "text/html; charset=utf-8", by decide⟩
    else if e = "css" then ⟨Str.bytes "text/css; charset=utf-8", by decide⟩
    else if e = "js" ∨ e = "mjs" then ⟨Str.bytes "text/javascript; charset=utf-8", by decide⟩
    else if e = "json" then ⟨Str.bytes "application/json", by decide⟩
    else if e = "svg" then ⟨Str.bytes "image/svg+xml", by decide⟩
    else if e = "png" then ⟨Str.bytes "image/png", by decide⟩
    else if e = "jpg" ∨ e = "jpeg" then ⟨Str.bytes "image/jpeg", by decide⟩
    else if e = "gif" then ⟨Str.bytes "image/gif", by decide⟩
    else if e = "ico" then ⟨Str.bytes "image/x-icon", by decide⟩
    else if e = "wasm" then ⟨Str.bytes "application/wasm", by decide⟩
    else if e = "txt" then Pipeline.textPlain
    else ⟨Str.bytes "application/octet-stream", by decide⟩

/-- One component goes to the end of what has been joined, unless it could climb out. -/
def joinComponent (out : Str) : Component → Option Str
  | .normal c => some (push out c)
  | .curDir => some out
  | .parentDir | .rootDir => none

def sanitizedJoin (root rel : Str) : Option Str :=
  (components (rel.trimStartMatches '/')).foldlM joinComponent root

/-- One candidate: its response if it is a file that can be read, and what has been looked at. -/
def tryServeOne (fs : FileSystem) (root rel : Str) : Option Response × List Access :=
  match sanitizedJoin root rel with
  | none => (none, [])
  | some safe =>
    match fs.isDir safe with
    | none => (none, [.metadata safe])
    | some isDir =>
      let target := if isDir then push safe "index.html" else safe
      ((fs.read target).map (fun bytes => ((Response.new 200).insert .contentType (contentType target)).withBody bytes),
        [.metadata safe, .read target])

def candidates (tryFiles : List Str) (path : Str) : List Str :=
  if tryFiles = [] then [path] else tryFiles.map (fun t => t.replace "\x7bpath\x7d" path)

/-- The first candidate that is a file is served. -/
def serveFirst (fs : FileSystem) (root : Str) : List Str → Response × List Access
  | [] => (respond 404 "not found", [])
  | rel :: rest =>
    match tryServeOne fs root rel with
    | (some resp, accesses) => (resp, accesses)
    | (none, accesses) => ((serveFirst fs root rest).1, accesses ++ (serveFirst fs root rest).2)

def serveFiles (fs : FileSystem) (root : Str) (tryFiles : List Str) (path : Str) : Response × List Access :=
  serveFirst fs root (candidates tryFiles path)

/-- The surroundings with this file system. -/
def FileSystem.world (fs : FileSystem) (forward : Proxy.Upstream → Forwarded → Response) : World :=
  ⟨fun root tryFiles path => (serveFiles fs root tryFiles path).1, forward⟩

/-! ## What is looked at -/

/-- The path is that of the root with names behind, none of which climbs, and maybe the index. -/
def Under (root path : Str) : Prop :=
  ∃ names index, (∀ c ∈ names, IsNormal c) ∧ (index = [] ∨ index = ["index.html".toList]) ∧
    path = (names ++ index).foldl push root ∧
    components path = components root ++ (names ++ index).map .normal

/-- A handler stays under its root, and refuses a candidate, without a look at the file system, for `..` only. -/
structure StaysUnder (fs : FileSystem) (root : Str) (tryFiles : List Str) (path : Str) : Prop where
  under : ∀ a ∈ (serveFiles fs root tryFiles path).2, Under root a.path
  refused : ∀ rel ∈ candidates tryFiles path,
    tryServeOne fs root rel = (none, []) ↔ .parentDir ∈ components (rel.trimStartMatches '/')

theorem head?_trimStartMatches (s : Str) (c : Char) : (s.trimStartMatches c).head? ≠ some c := by
  intro h
  have hne := head?_dropWhile_not (· == c) s
  rw [Str.trimStartMatches] at h
  rw [h] at hne
  simp at hne

theorem isNormal_index : IsNormal "index.html" := by
  constructor <;> decide

theorem foldlM_joinComponent {comps : List Component}
    (h : ∀ comp ∈ comps, comp = .curDir ∨ comp = .parentDir ∨ ∃ c, comp = .normal c ∧ IsNormal c) (root : Str) :
    (.parentDir ∈ comps ∧ comps.foldlM joinComponent root = none) ∨
    (.parentDir ∉ comps ∧ ∃ names : List Str, (∀ c ∈ names, IsNormal c) ∧
      comps.foldlM joinComponent root = some (names.foldl push root)) := by
  induction comps generalizing root with
  | nil => exact .inr ⟨not_mem_nil, [], fun c hc => absurd hc not_mem_nil, rfl⟩
  | cons comp comps ih =>
    have hrest : ∀ comp ∈ comps, comp = .curDir ∨ comp = .parentDir ∨ ∃ c, comp = .normal c ∧ IsNormal c :=
      fun d hd => h d (mem_cons_of_mem _ hd)
    rw [foldlM_cons]
    rcases h comp mem_cons_self with rfl | rfl | ⟨c, rfl, hc⟩
    · rcases ih hrest root with ⟨hmem, hnone⟩ | ⟨hnot, names, hnames, hsome⟩
      · exact .inl ⟨mem_cons_of_mem _ hmem, hnone⟩
      · exact .inr ⟨by simpa using hnot, names, hnames, hsome⟩
    · exact .inl ⟨mem_cons_self, rfl⟩
    · rcases ih hrest (push root c) with ⟨hmem, hnone⟩ | ⟨hnot, names, hnames, hsome⟩
      · exact .inl ⟨mem_cons_of_mem _ hmem, hnone⟩
      · refine .inr ⟨by simpa using hnot, c :: names, ?_, hsome⟩
        intro d hd
        rcases mem_cons.mp hd with rfl | hd
        · exact hc
        · exact hnames d hd

theorem sanitizedJoin_cases (root rel : Str) :
    (.parentDir ∈ components (rel.trimStartMatches '/') ∧ sanitizedJoin root rel = none) ∨
    (.parentDir ∉ components (rel.trimStartMatches '/') ∧ ∃ names : List Str, (∀ c ∈ names, IsNormal c) ∧
      sanitizedJoin root rel = some (names.foldl push root)) :=
  foldlM_joinComponent (fun _ hcomp => mem_components (head?_trimStartMatches rel '/') hcomp) root

theorem under_of_names (root : Str) {names index : List Str} (hnames : ∀ c ∈ names, IsNormal c)
    (hindex : index = [] ∨ index = ["index.html".toList]) : Under root ((names ++ index).foldl push root) := by
  refine ⟨names, index, hnames, hindex, rfl, components_foldl_push root (fun c hc => ?_)⟩
  rcases mem_append.mp hc with hc | hc
  · exact hnames c hc
  · rcases hindex with rfl | rfl
    · cases hc
    · cases mem_singleton.mp hc
      exact isNormal_index

theorem under_of_tryServeOne {fs : FileSystem} {root rel : Str} {a : Access} (h : a ∈ (tryServeOne fs root rel).2) :
    Under root a.path := by
  unfold tryServeOne at h
  rcases sanitizedJoin_cases root rel with ⟨-, hnone⟩ | ⟨-, names, hnames, hsome⟩
  · rw [hnone] at h
    cases h
  · have hself : Under root (names.foldl push root) := by
      simpa using under_of_names root hnames (.inl rfl)
    have hindex : Under root (push (names.foldl push root) "index.html") := by
      have hunder := under_of_names root hnames (.inr rfl)
      rw [foldl_append] at hunder
      exact hunder
    rw [hsome] at h
    dsimp only at h
    split at h
    · cases mem_singleton.mp h
      exact hself
    · rcases mem_cons.mp h with rfl | h
      · exact hself
      · cases mem_singleton.mp h
        simp only [Access.path]
        split
        · exact hindex
        · exact hself

theorem tryServeOne_refused_iff {fs : FileSystem} {root rel : Str} :
    tryServeOne fs root rel = (none, []) ↔ .parentDir ∈ components (rel.trimStartMatches '/') := by
  unfold tryServeOne
  rcases sanitizedJoin_cases root rel with ⟨hmem, hnone⟩ | ⟨hnot, names, -, hsome⟩
  · rw [hnone]
    exact iff_of_true rfl hmem
  · rw [hsome]
    refine iff_of_false (fun h => ?_) hnot
    have haccesses := congrArg Prod.snd h
    dsimp only at haccesses
    split at haccesses <;> cases haccesses

/-- A handler looks only at paths under its root, and refuses exactly the candidates with a `..` in them. -/
theorem staysUnder (fs : FileSystem) (root : Str) (tryFiles : List Str) (path : Str) : StaysUnder fs root tryFiles path := by
  refine ⟨?_, fun rel _ => tryServeOne_refused_iff⟩
  unfold serveFiles
  induction candidates tryFiles path with
  | nil => exact fun a ha => absurd ha not_mem_nil
  | cons rel rest ih =>
    intro a ha
    rw [serveFirst] at ha
    rcases htry : tryServeOne fs root rel with ⟨_ | resp, accesses⟩
    · rw [htry] at ha
      rcases mem_append.mp ha with ha | ha
      · exact under_of_tryServeOne (by rw [htry]; exact ha)
      · exact ih a ha
    · rw [htry] at ha
      exact under_of_tryServeOne (by rw [htry]; exact ha)

/-- The path goes into the middle of a template. -/
example : candidates ["/a/\x7bpath\x7d/../b"] "/x" = ["/a//x/../b"] ∧
    sanitizedJoin "/srv" "/a//x/./b" = some "/srv/a/x/b" ∧ sanitizedJoin "/srv" "/a//x/../b" = none := by
  decide

end Pulsate.Http
