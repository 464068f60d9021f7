import Pulsate.Migrate.Apache
import Pulsate.Migrate.Caddy
import Pulsate.Migrate.Haproxy
import Pulsate.Migrate.Nginx

/-!
# The blocks of an import

Every importer adds whole blocks to its text, one after another, whatever notes it takes in between.
-/

namespace Pulsate.Migrate

open List

namespace Builder

variable {b b₁ b₂ : Builder} {ls ls' : List Line} {ps ps' : List Piece}

/-- More lines of the block that is open, and any notes. -/
structure Fills (b : Builder) (ls : List Line) (b' : Builder) : Prop where
  flow : b'.flow =
    b.flow ++ ls.flatMap (fun l => (List.replicate b.indent "  ".toList).flatten ++ l.text ++ "\n".toList)
  indent : b'.indent = b.indent

/-- More blocks, and any notes. -/
structure Adds (b : Builder) (ps : List Piece) (b' : Builder) : Prop where
  flow : b'.flow = b.flow ++ ps.flatMap Piece.text
  indent : b'.indent = b.indent

theorem Fills.refl : b.Fills [] b := ⟨by simp, rfl⟩

theorem Adds.refl : b.Adds [] b := ⟨by simp, rfl⟩

theorem Fills.trans (h : b.Fills ls b₁) (h' : b₁.Fills ls' b₂) : b.Fills (ls ++ ls') b₂ where
  flow := by rw [h'.flow, h.flow, h.indent, flatMap_append, append_assoc]
  indent := h'.indent.trans h.indent

theorem Adds.trans (h : b.Adds ps b₁) (h' : b₁.Adds ps' b₂) : b.Adds (ps ++ ps') b₂ where
  flow := by rw [h'.flow, h.flow, flatMap_append, append_assoc]
  indent := h'.indent.trans h.indent

theorem fills_line (l : Line) : b.Fills [l] (b.line l.text) := ⟨by simp [line, append_assoc], rfl⟩

theorem Fills.note (h : b.Fills ls b₁) (d : Str) (f : Fidelity) (m : Str) : b.Fills ls (b₁.note d f m) := ⟨h.flow, h.indent⟩

theorem Adds.note (h : b.Adds ps b₁) (d : Str) (f : Fidelity) (m : Str) : b.Adds ps (b₁.note d f m) := ⟨h.flow, h.indent⟩

theorem Fills.ite (c : Prop) [Decidable c] (h : b.Fills ls b₁) :
    b.Fills (if c then ls else []) (if c then b₁ else b) := by
  split
  · exact h
  · exact .refl

theorem foldl_fills {α : Type} {step : Builder → α → Builder} {lines : α → List Line}
    (h : ∀ (b : Builder) a, b.Fills (lines a) (step b a)) (as : List α) (b : Builder) :
    b.Fills (as.flatMap lines) (as.foldl step b) := by
  induction as generalizing b with
  | nil => exact .refl
  | cons a as ih => exact (h b a).trans (ih _)

theorem foldl_line (ls : List Line) (b : Builder) : b.Fills ls (ls.foldl (fun b l => b.line l.text) b) := by
  induction ls generalizing b with
  | nil => exact .refl
  | cons l ls ih => exact (fills_line l).trans (ih _)

theorem foldl_adds {α : Type} {step : Builder → α → Builder} {pieces : α → List Piece}
    (h : ∀ (b : Builder) a, b.indent = 0 → b.Adds (pieces a) (step b a)) (as : List α) (hb : b.indent = 0) :
    b.Adds (as.flatMap pieces) (as.foldl step b) := by
  induction as generalizing b with
  | nil => exact .refl
  | cons a as ih => exact (h b a hb).trans (ih ((h b a hb).indent.trans hb))

theorem Fills.block {k : Keyword} {words : List Str} (hb : b.indent = 0)
    (h : (b.openBlock (header k words)).Fills ls b₁) : b.Adds [⟨k, words, ls⟩] b₁.close := by
  obtain ⟨hflow, hindent⟩ := h
  constructor
  · simp [openBlock, close, line, hb, hflow, hindent, Piece.text, Piece.textLines, flatMap_map, append_assoc]
  · simp [openBlock, close, line, hb, hindent]

end Builder

/-! ## nginx -/

namespace Nginx

open Builder

variable {b : Builder}

theorem mapMember_fills (b : Builder) (child : Node) : b.Fills (memberLines child) (mapMember b child) := by
  unfold mapMember memberLines
  split
  · cases child.args.head? with
    | none => exact .refl
    | some addr => exact fills_line _
  · exact Fills.refl.note _ _ _

theorem mapUpstream_adds (node : Node) (hb : b.indent = 0) : b.Adds [upstreamPiece node] (mapUpstream node b) :=
  ((foldl_fills mapMember_fills node.block _).block hb).note _ _ _

theorem mapReturn_fst (args : List Str) (b : Builder) : (mapReturn args b).1 = returnHandler args := by
  rcases args with _ | ⟨code, _ | ⟨url, _ | ⟨x, rest⟩⟩⟩
  · rfl
  · rfl
  · rw [mapReturn, returnHandler]
    split <;> rfl
  · rfl

theorem mapReturn_fills (args : List Str) (b : Builder) : b.Fills [] (mapReturn args b).2 := by
  rcases args with _ | ⟨code, _ | ⟨url, _ | ⟨x, rest⟩⟩⟩
  · exact Fills.refl.note _ _ _
  · exact Fills.refl.note _ _ _
  · rw [mapReturn]
    split <;> exact Fills.refl.note _ _ _
  · exact Fills.refl.note _ _ _

theorem pick_handler (st : Picked) (d : Node) : (pick st d).handler = (ownHandler d).or st.handler := by
  unfold pick ownHandler
  split
  · cases d.args.head? <;> rfl
  · split
    · exact congrArg some (mapReturn_fst d.args st.builder)
    · split <;> rfl

theorem pick_tryRoot (st : Picked) (d : Node) : (pick st d).tryRoot = if isRoot d then d.args.head? else st.tryRoot := by
  have hroot : (d.name = "root" ∨ d.name = "alias") ↔ isRoot d := by
    rw [isRoot, Bool.or_eq_true, beq_iff_eq, beq_iff_eq]
  unfold pick
  split
  · rename_i hproxy
    have hno : isRoot d = false := by rw [isRoot, hproxy]; decide
    rw [hno]
    cases d.args.head? <;> rfl
  · split
    · rename_i hreturn
      have hno : isRoot d = false := by rw [isRoot, hreturn]; decide
      rw [hno]
      rfl
    · simp only [hroot]
      split <;> rfl

theorem pick_fills (st : Picked) (d : Node) : st.builder.Fills [] (pick st d).builder := by
  unfold pick
  split
  · cases d.args.head? with
    | none => exact .refl
    | some target => exact Fills.refl.note _ _ _
  · split
    · exact mapReturn_fills d.args st.builder
    · split <;> exact .refl

theorem handlerOf_concat (block : List Node) (d : Node) :
    handlerOf (block ++ [d]) = (ownHandler d).or (handlerOf block) := by
  rw [handlerOf, filterMap_append, getLast?_append, handlerOf]
  cases h : ownHandler d <;> simp [h]

theorem rootOf_concat (block : List Node) (d : Node) :
    rootOf (block ++ [d]) = if isRoot d then d.args.head? else rootOf block := by
  rw [rootOf, filter_append, getLast?_append, rootOf]
  cases h : isRoot d <;> simp [h]

theorem foldl_pick (block : List Node) (b : Builder) :
    ∃ b', b.Fills [] b' ∧ block.foldl pick ⟨none, none, b⟩ = ⟨handlerOf block, rootOf block, b'⟩ := by
  induction block using List.reverseRecOn with
  | nil => exact ⟨b, .refl, rfl⟩
  | append_singleton block d ih =>
    obtain ⟨b', hb', h⟩ := ih
    refine ⟨_, hb'.trans (pick_fills ⟨handlerOf block, rootOf block, b'⟩ d), ?_⟩
    rw [foldl_concat, h, handlerOf_concat, rootOf_concat, ← pick_handler ⟨handlerOf block, rootOf block, b'⟩ d,
      ← pick_tryRoot ⟨handlerOf block, rootOf block, b'⟩ d]

theorem mapLocation_fills (loc : Node) (b : Builder) : b.Fills (locationLines loc) (mapLocation loc b) := by
  unfold mapLocation locationLines
  cases matcher loc.args with
  | none => exact .refl
  | regex => exact Fills.refl.note _ _ _
  | pattern p =>
    obtain ⟨b', hb', h⟩ := foldl_pick loc.block b
    unfold mapHandler chosen
    rw [h]
    cases handlerOf loc.block with
    | some h => exact hb'.trans (fills_line _)
    | none =>
      cases rootOf loc.block with
      | some root => exact (hb'.note _ _ _).trans (fills_line _)
      | none => exact hb'.note _ _ _

theorem mapChild_fills (b : Builder) (child : Node) : b.Fills (childLines child) (mapChild b child) := by
  unfold mapChild childLines
  split
  · exact mapLocation_fills child b
  · exact .refl

theorem mapServer_adds (node : Node) (hb : b.indent = 0) : b.Adds [serverPiece node] (mapServer node b) :=
  (((fills_line .tls).note _ _ _).ite (node.block.any isSslListen)
    |>.trans (foldl_fills mapChild_fills node.block _)).block hb

mutual

theorem mapNode_adds : (node : Node) → {b : Builder} → b.indent = 0 →
    b.Adds (node.tops.flatMap Node.pieces) (mapNode node b)
  | ⟨name, args, block⟩, b, hb => by
    rw [mapNode, Node.tops]
    split
    · exact map_adds block hb
    · rw [flatMap_singleton, Node.pieces]
      dsimp only
      split
      · exact mapUpstream_adds _ hb
      · split
        · exact mapServer_adds _ hb
        · exact Adds.refl.note _ _ _

theorem map_adds : (nodes : List Node) → {b : Builder} → b.indent = 0 →
    b.Adds ((Node.tops.topsAll nodes).flatMap Node.pieces) (map nodes b)
  | [], b, _ => .refl
  | node :: nodes, b, hb => by
    have h := mapNode_adds node hb
    rw [map, Node.tops.topsAll, flatMap_append]
    exact h.trans (map_adds nodes (h.indent.trans hb))

end

/-- The comment an import starts with. -/
def comment : Str := "# Imported from nginx by `pulsate import nginx`. Review the notes."

theorem imported_flow (text : Str) :
    (imported text).flow = comment ++ "\n" ++ (pieces text).flatMap Piece.text :=
  (map_adds _ rfl).flow

end Nginx

/-! ## Apache -/

namespace Apache

open Builder

/-- What a line does to its virtual host does not depend on the text, and it adds no block. -/
def Acts (f : Vhost → Builder → Vhost × Builder) : Prop :=
  ∃ g : Vhost → Vhost, ∀ v b, (f v b).1 = g v ∧ b.Adds [] (f v b).2

theorem Acts.still (g : Vhost → Vhost) : Acts (fun v b => (g v, b)) := ⟨g, fun _ _ => ⟨rfl, .refl⟩⟩

theorem Acts.noted (d : Str) (f : Fidelity) (m : Str) (g : Vhost → Vhost) : Acts (fun v b => (g v, b.note d f m)) :=
  ⟨g, fun _ _ => ⟨rfl, Adds.refl.note d f m⟩⟩

theorem Acts.ite {f g : Vhost → Builder → Vhost × Builder} {c : Prop} [Decidable c] (hf : Acts f) (hg : Acts g) :
    Acts (fun v b => if c then f v b else g v b) := by
  by_cases h : c
  · simpa only [if_pos h] using hf
  · simpa only [if_neg h] using hg

theorem mapProxyPass_acts (args : List Str) : Acts (mapProxyPass args) := by
  rcases args with _ | ⟨path, _ | ⟨target, rest⟩⟩
  · exact .noted _ _ _ id
  · exact .noted _ _ _ id
  · exact .ite (.noted _ _ _ id) (.noted _ _ _ _)

theorem mapRedirect_acts (args : List Str) : Acts (mapRedirect args) := by
  unfold mapRedirect
  cases redirectParts args with
  | none => exact .noted _ _ _ id
  | some parts =>
    obtain ⟨code, src, url⟩ := parts
    exact .noted _ _ _ _

theorem mapWords_acts (words : List Str) : Acts (mapWords words) := by
  cases words with
  | nil => exact .still id
  | cons directive args =>
    refine .ite ?_ (.ite (.still _) (.ite (.still _) ?_))
    · cases args.head? with
      | none => exact .still id
      | some h => exact .still _
    · refine .ite (mapProxyPass_acts args) (.ite (.still _) (.ite (mapRedirect_acts args) ?_))
      exact .ite (.noted _ _ _ id) (.ite (.noted _ _ _ id) (.still id))

theorem mapWords_fst (words : List Str) (v : Vhost) (b : Builder) : (mapWords words v b).1 = v.with words := by
  obtain ⟨g, h⟩ := mapWords_acts words
  rw [(h v b).1, Vhost.with, (h v empty).1]

theorem mapWords_adds (words : List Str) (v : Vhost) (b : Builder) : b.Adds [] (mapWords words v b).2 := by
  obtain ⟨_, h⟩ := mapWords_acts words
  exact (h v b).2

theorem noteGlobal_adds (line : Str) (b : Builder) : b.Adds [] (noteGlobal line b) := by
  unfold noteGlobal
  split
  · exact Adds.refl.note _ _ _
  · exact .refl

theorem claimRoot_acts : Acts claimRoot := by
  refine ⟨Vhost.claimed, fun v b => ?_⟩
  unfold Vhost.claimed claimRoot
  cases v.hasRootRoute with
  | true => exact ⟨rfl, .refl⟩
  | false =>
    cases v.docRoot with
    | none => exact ⟨rfl, .refl⟩
    | some root => exact ⟨rfl, Adds.refl.note _ _ _⟩

theorem claimed_hosts (v : Vhost) : v.claimed.hosts = v.hosts := by
  unfold Vhost.claimed claimRoot
  cases v.hasRootRoute <;> cases v.docRoot <;> rfl

theorem claimed_tls (v : Vhost) : v.claimed.tls = v.tls := by
  unfold Vhost.claimed claimRoot
  cases v.hasRootRoute <;> cases v.docRoot <;> rfl

theorem emitRoutes_fills (routes : List Line) (b : Builder) :
    b.Fills (if routes = [] then [placeholder] else routes.mergeSort (fun r s => routeLen s ≤ routeLen r))
      (emitRoutes routes b) := by
  unfold emitRoutes
  split
  · exact (fills_line _).note _ _ _
  · exact foldl_line _ b

theorem emitVhost_adds (v : Vhost) {b : Builder} (hb : b.indent = 0) : b.Adds [v.piece] (emitVhost b v) := by
  have hfst : (claimRoot v b).1 = v.claimed := by
    obtain ⟨g, h⟩ := claimRoot_acts
    rw [(h v b).1, Vhost.claimed, (h v empty).1]
  have hsnd : b.Adds [] (claimRoot v b).2 := claimRoot_acts.elim (fun _ h => (h v b).2)
  unfold emitVhost emitSite Vhost.piece
  rw [hfst, claimed_hosts, claimed_tls]
  exact hsnd.trans ((((fills_line .tls).note _ _ _).ite v.tls |>.trans (emitRoutes_fills _ _)).block (hsnd.indent.trans hb))

/-- The loop over the lines, and the end of the file. -/
def finished (st : Option Vhost × Builder) : Builder :=
  match st.1 with
  | some v => emitVhost st.2 v
  | none => st.2

theorem foldl_importEntry (es : List Entry) (v : Option Vhost) {b : Builder} (hb : b.indent = 0) :
    b.Adds ((closed v es).map Vhost.piece) (finished (es.foldl importEntry (v, b))) := by
  induction es generalizing v b with
  | nil =>
    cases v with
    | none => exact .refl
    | some v => exact emitVhost_adds v hb
  | cons e es ih =>
    rw [foldl_cons]
    cases e with
    | blank =>
      rw [closed]
      exact ih v hb
    | opening tls => exact ih _ hb
    | closing =>
      cases v with
      | none => exact ih none hb
      | some v =>
        have h := emitVhost_adds v hb
        exact h.trans (ih none (h.indent.trans hb))
    | directive line =>
      cases v with
      | none =>
        have h := noteGlobal_adds line b
        exact h.trans (ih none (h.indent.trans hb))
      | some v =>
        have h := mapWords_adds line.splitWhitespace v b
        rw [closed, Option.map_some, ← mapWords_fst line.splitWhitespace v b]
        exact h.trans (ih _ (h.indent.trans hb))

/-- The comment an import starts with. -/
def comment : Str := "# Imported from Apache by `pulsate import apache`. Review the notes."

theorem imported_flow (text : Str) :
    (imported text).flow = comment ++ "\n" ++ (pieces text).flatMap Piece.text :=
  (foldl_importEntry (entries text) none (b := Builder.empty.line comment) rfl).flow

end Apache

/-! ## HAProxy -/

namespace Haproxy

open Builder Lib

/-- The same gathered, over any notes. -/
def Gathered.Over (b : Builder) (st st' : Gathered) : Prop := ∃ b', b.Adds [] b' ∧ st' = { st with builder := b' }

variable {b : Builder} {st st' : Gathered}

theorem gatherAcl_over (h : st.Over b st') (l : List Str) : (gatherAcl st l).Over b (gatherAcl st' l) := by
  obtain ⟨b', hb', rfl⟩ := h
  unfold gatherAcl
  split
  · split
    · exact ⟨b', hb', rfl⟩
    · split <;> exact ⟨b', hb', rfl⟩
  · exact ⟨b', hb', rfl⟩

theorem gatherUse_over (h : st.Over b st') (l : List Str) : (gatherUse st l).Over b (gatherUse st' l) := by
  obtain ⟨b', hb', rfl⟩ := h
  unfold gatherUse
  dsimp only
  split
  · exact ⟨b', hb', rfl⟩
  · exact ⟨_, hb'.note _ _ _, rfl⟩

theorem mapRedirect_snd (l : List Str) (b b' : Builder) (routes : List (Pattern × Str)) :
    (mapRedirect l b routes).2 = (mapRedirect l b' routes).2 := by
  unfold mapRedirect
  split
  · split <;> rfl
  · rfl

theorem mapRedirect_adds (l : List Str) (b : Builder) (routes : List (Pattern × Str)) :
    b.Adds [] (mapRedirect l b routes).1 := by
  unfold mapRedirect
  split
  · split <;> exact Adds.refl.note _ _ _
  · exact Adds.refl.note _ _ _

theorem gather_over (h : st.Over b st') (l : List Str) : (gather st l).Over b (gather st' l) := by
  have hover := h
  obtain ⟨b', hb', rfl⟩ := h
  cases l with
  | nil => exact ⟨b', hb', rfl⟩
  | cons first rest =>
    unfold gather
    dsimp only
    split
    · split <;> exact ⟨b', hb', rfl⟩
    split
    · exact gatherAcl_over hover _
    split
    · exact gatherUse_over hover _
    split
    · exact ⟨b', hb', rfl⟩
    split
    · refine ⟨_, hb'.trans (mapRedirect_adds (first :: rest) b' st.routes), ?_⟩
      rw [mapRedirect_snd (first :: rest) b' st.builder]
    · exact ⟨b', hb', rfl⟩

theorem foldl_gather_over (ls : List (List Str)) (h : st.Over b st') :
    (ls.foldl gather st).Over b (ls.foldl gather st') := by
  induction ls generalizing st st' with
  | nil => exact h
  | cons l ls ih => exact ih (gather_over h l)

theorem emitDefault_fills (default : Option Str) (routes : List (Pattern × Str)) (b : Builder) :
    b.Fills (defaultLines default routes) (emitDefault default routes b) := by
  unfold emitDefault defaultLines
  cases default with
  | some be => exact (fills_line _).note _ _ _
  | none => exact ((fills_line _).note _ _ _).ite _

theorem emitSite_adds (s : Section) (pools : OrdMap Str (List Str)) (hb : b.indent = 0) (hst : (gathered s).Over b st) :
    b.Adds [sitePiece pools s] (emitSite s.name pools st) := by
  obtain ⟨b', hb', rfl⟩ := hst
  have hroute : ∀ (b : Builder) (r : Pattern × Str), b.Fills [.route r.1 (backendHandler r.2)]
      ((b.line (Line.route r.1 (backendHandler r.2)).text).note "use_backend" .Exact "mapped to a path route + proxy()") :=
    fun b r => (fills_line _).note _ _ _
  rw [sitePiece, map_eq_flatMap]
  refine hb'.trans (Fills.block (hb'.indent.trans hb) ?_)
  exact (((fills_line .tls).note _ _ _).ite (gathered s).tls).trans (foldl_fills hroute _ _)
    |>.trans (emitDefault_fills (defaultOf s pools) (gathered s).routes _)

theorem mapSite_adds (s : Section) (pools : OrdMap Str (List Str)) (hb : b.indent = 0) :
    b.Adds [sitePiece pools s] (mapSite s pools b) :=
  emitSite_adds s pools hb (foldl_gather_over s.lines ⟨b, .refl, rfl⟩)

theorem emitPool_adds (b : Builder) (pool : Str × List Str) (hb : b.indent = 0) :
    b.Adds [poolPiece pool] (emitPool b pool) := by
  have hlines : ∀ b : Builder, b.Fills (pool.2.map .target) (pool.2.foldl (fun b t => b.line (Line.target t).text) b) :=
    fun b => by
      rw [map_eq_flatMap]
      exact foldl_fills (fun b t => fills_line (.target t)) pool.2 b
  exact ((hlines _).block hb).note _ _ _

theorem foldl_mapSite (sections : List Section) (pools : OrdMap Str (List Str)) (hb : b.indent = 0) :
    b.Adds ((sections.filter isSite).map (sitePiece pools))
      (sections.foldl (fun b s => if isSite s then mapSite s pools b else b) b) := by
  rw [← foldl_filter, map_eq_flatMap]
  exact foldl_adds (fun b s hb => mapSite_adds s pools hb) _ hb

/-- The comment an import starts with. -/
def comment : Str := "# Imported from HAProxy by `pulsate import haproxy`. Review the notes."

theorem imported_flow (order : Iteration Str (List Str)) (text : Str) :
    (imported order text).flow = comment ++ "\n" ++ (pieces order text).flatMap Piece.text := by
  have hpools := foldl_adds emitPool_adds (order.arrange (pools text).entries) (b := Builder.empty.line comment) rfl
  have hsites := foldl_mapSite (parse text) (pools text) (hpools.indent.trans rfl)
  rw [← map_eq_flatMap] at hpools
  exact (hpools.trans hsites).flow

end Haproxy

/-! ## Caddy -/

namespace Caddy

open Builder

theorem mapDirective_adds (line : Str) (st : State) : st.builder.Adds [] (mapDirective line st).builder := by
  unfold mapDirective
  split
  · exact .refl
  · dsimp only
    split
    · split
      · exact Adds.refl.note _ _ _
      · exact .refl
    split
    · exact .refl
    split
    · exact Adds.refl.note _ _ _
    split
    · split <;> exact Adds.refl.note _ _ _
    split
    · exact Adds.refl.note _ _ _
    split
    · exact Adds.refl.note _ _ _
    · exact Adds.refl.note _ _ _

theorem emitSite_adds (hosts : List Str) (routes : List Line) {b : Builder} (hb : b.indent = 0) :
    b.Adds [sitePiece hosts routes] (emitSite b hosts routes) := by
  have hroutes : ∀ b : Builder, b.Fills (if routes = [] then [placeholder] else routes)
      (if routes = [] then
        (b.line placeholder.text).note "site" .Manual "no recognized handler; added a placeholder route"
      else routes.foldl (fun b r => b.line r.text) b) := by
    intro b
    split
    · exact (fills_line _).note _ _ _
    · exact foldl_line _ _
  exact ((fills_line .tls).trans (hroutes _)).block hb

theorem importLine_adds (st : State) (raw : Str) (hb : st.builder.indent = 0) :
    st.builder.Adds (st.ends raw) (importLine st raw).builder := by
  have hends : raw.trim ≠ "\x7d" → st.ends raw = [] := fun h => if_neg h
  unfold importLine
  dsimp only
  split
  · rename_i hblank
    rw [hends (by rintro h; rw [h] at hblank; revert hblank; decide)]
    exact .refl
  · split
    · rename_i head hhead
      have hbrace : Str.stripSuffix "\x7d" "\x7b" = none := by decide
      rw [hends (by rintro h; rw [h, hbrace] at hhead; cases hhead)]
      exact .refl
    · split
      · rename_i hclose
        rw [State.ends, if_pos hclose]
        cases hsite : st.site with
        | none => exact .refl
        | some hosts => exact emitSite_adds hosts st.routes hb
      · rename_i hclose
        rw [hends hclose]
        exact mapDirective_adds _ st

theorem foldl_importLine (raws : List Str) (st : State) (hb : st.builder.indent = 0) :
    st.builder.Adds (st.pieces raws) (raws.foldl importLine st).builder := by
  induction raws generalizing st with
  | nil => exact .refl
  | cons raw raws ih =>
    have h := importLine_adds st raw hb
    exact h.trans (ih _ (h.indent.trans hb))

/-- The comment an import starts with. -/
def comment : Str := "# Imported from Caddy by `pulsate import caddy`. Review the notes."

theorem imported_flow (text : Str) :
    (imported text).flow = comment ++ "\n" ++ (pieces text).flatMap Piece.text :=
  (foldl_importLine text.lines State.start rfl).flow

end Caddy

end Pulsate.Migrate
