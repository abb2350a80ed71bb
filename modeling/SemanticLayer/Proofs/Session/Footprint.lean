import SemanticLayer.Proofs.Session.Linking

/-!
What a session looks at. It takes the entries of the URLs that its walk reaches, and of the catalog what the
documents there request; two sessions that agree on these give the same answer, whatever else they hold.
-/
namespace SemanticLayer.Session

open List

open Elaborate

variable {settings : Settings} {s t : Session} {url : String} {n depth : Nat}

def SameEntries (s t : Session) (depth : Nat) : Prop :=
  ∀ n ≤ depth, ∀ url, Chain s n url → s.entry? url = t.entry? url

def SameSchemas (s t : Session) (d : Document) : Prop :=
  (∀ r ∈ d.tables, s.catalog.tables.lookup r.key = t.catalog.tables.lookup r.key) ∧
    ∀ r ∈ d.sqlBlocks, s.catalog.sqlBlocks.lookup r.key = t.catalog.sqlBlocks.lookup r.key

/-! ### One URL -/

theorem document?_congr (same : s.entry? url = t.entry? url) : s.document? url = t.document? url := by
  rw [document?, document?, same]

theorem links_congr (same : s.entry? url = t.entry? url) : links s url = links t url := by
  rw [links, links, document?_congr same]

/-! ### The walk -/

theorem visitsFrom_congr (isLevel : IsLevel s n seen level) (same : SameEntries s t (n + depth)) :
    visitsFrom s depth seen level = visitsFrom t depth seen level := by
  induction depth generalizing n seen level with
  | zero => rfl
  | succ depth ih =>
    have next : level.flatMap (targets s) = level.flatMap (targets t) := by
      refine flatMap_congr fun url mem => ?_
      have held := same n (by omega) url ((isLevel.here url).mp mem).1
      rw [targets, targets, links_congr held]
    have rest := ih isLevel.next (by rwa [Nat.add_right_comm])
    rw [visitsFrom, visitsFrom, ← next, rest]

theorem visits_congr (root : s.root = t.root) (same : SameEntries s t depth) : visits s depth = visits t depth := by
  rw [visits, visits, ← root]
  exact visitsFrom_congr (isLevel_root s) (by rwa [Nat.zero_add])

theorem SameEntries.visit (same : SameEntries s t depth) (mem : v ∈ visits s depth) :
    s.entry? v.url = t.entry? v.url := by
  obtain ⟨n, le, shortest, _⟩ := mem_visits.mp mem
  exact same n le v.url shortest.1

theorem SameEntries.reached (same : SameEntries s t depth) (mem : url ∈ reached s (visits s depth)) :
    s.entry? url = t.entry? url := by
  obtain ⟨_, n, le, chain⟩ := mem_reached.mp mem
  exact same n le url chain

theorem missing_congr (same : SameEntries s t depth) : missing s (visits s depth) = missing t (visits s depth) := by
  refine congrArg ordered (filter_congr fun url mem => ?_)
  obtain ⟨v, visit, rfl⟩ := mem_map.mp mem
  rw [holds, holds, same.visit visit]

theorem reached_congr (same : SameEntries s t depth) : reached s (visits s depth) = reached t (visits s depth) := by
  refine congrArg ordered (filter_congr fun url mem => ?_)
  obtain ⟨v, visit, rfl⟩ := mem_map.mp mem
  rw [document?_congr (same.visit visit)]

/-! ### The graph -/

theorem followed_chain (followed : l ∈ (visits s depth).flatMap (Visit.links s)) :
    ∃ n ≤ depth, Chain s n l.target := by
  obtain ⟨v, mem, followed⟩ := mem_flatMap.mp followed
  obtain ⟨follows, _, written⟩ := mem_visit_links.mp followed
  obtain ⟨n, _, shortest, kept⟩ := mem_visits.mp mem
  obtain ⟨d, held, i, given, linked⟩ := mem_links.mp written
  obtain ⟨target, resolved, rfl⟩ := link_ok.mp linked
  rw [follows, eq_comm, decide_eq_true_iff] at kept
  exact ⟨n + 1, kept, shortest.1.step ⟨d, held, i, given, resolved⟩⟩

theorem graph_congr (same : SameEntries s t depth) : graph s (visits s depth) = graph t (visits s depth) := by
  have followed : (visits s depth).flatMap (Visit.links s) = (visits s depth).flatMap (Visit.links t) := by
    refine flatMap_congr fun v mem => ?_
    rw [Visit.links, Visit.links, links_congr (same.visit mem)]
  have targets : ∀ l ∈ (visits s depth).flatMap (Visit.links s), s.entry? l.target = t.entry? l.target := by
    intro l mem
    obtain ⟨n, le, chain⟩ := followed_chain mem
    exact same n le l.target chain
  have held : (((visits s depth).flatMap (Visit.links s)).filter fun l => (s.document? l.target).isSome) =
      ((visits s depth).flatMap (Visit.links s)).filter fun l => (t.document? l.target).isSome :=
    filter_congr fun l mem => by rw [document?_congr (targets l mem)]
  have unread : ((visits s depth).flatMap (Visit.links s)).filterMap (unreadable? s) =
      ((visits s depth).flatMap (Visit.links s)).filterMap (unreadable? t) :=
    filterMap_congr fun l mem => by rw [unreadable?, unreadable?, targets l mem]
  simp only [graph, ← followed, held, unread, reached_congr same]

/-! ### Schemas and models -/

theorem needed_congr (documents : ∀ url ∈ urls, s.document? url = t.document? url)
    (schemas : ∀ url ∈ urls, ∀ d, s.document? url = some d → SameSchemas s t d) :
    neededTables s urls = neededTables t urls ∧ neededSqlBlocks s urls = neededSqlBlocks t urls := by
  have held : urls.filterMap s.document? = urls.filterMap t.document? := filterMap_congr documents
  have known : ∀ d ∈ urls.filterMap t.document?, SameSchemas s t d := by
    intro d mem
    obtain ⟨url, given, document⟩ := mem_filterMap.mp (held ▸ mem)
    exact schemas url given d document
  rw [neededTables, neededSqlBlocks, held]
  constructor
  all_goals
    refine congrArg ordered (filter_congr fun r mem => ?_)
    obtain ⟨d, given, requested⟩ := mem_flatMap.mp mem
  · rw [(known d given).1 r requested]
  · rw [(known d given).2 r requested]

theorem models_congr (documents : ∀ url ∈ g.order, s.document? url = t.document? url)
    (schemas : ∀ url ∈ g.order, ∀ d, s.document? url = some d → SameSchemas s t d) :
    models settings s g = models settings t g := by
  have catalog : models settings { s with catalog := t.catalog } g = models settings s g := by
    refine models_ignore fun url given d held => ?_
    obtain ⟨tables, sqlBlocks⟩ := schemas url given d held
    exact ⟨fun r mem => (tables r mem).symm, fun r mem => (sqlBlocks r mem).symm⟩
  rw [← catalog]
  refine foldl_ext _ _ _ fun ms url given => ?_
  have document : ({ s with catalog := t.catalog } : Session).document? url = t.document? url := documents url given
  rw [build, build, document]

/-- A session looks at nothing that it did not ask for: the entries of the URLs that it reaches and the schemas that
the documents there request decide its answer. -/
theorem advance_ignores (settings : Settings) (s t : Session) (root : s.root = t.root) (final : s.isFinal = t.isFinal)
    (entries : ∀ n ≤ settings.maxImportDepth, ∀ url, Chain s n url → s.entry? url = t.entry? url)
    (schemas : ∀ n ≤ settings.maxImportDepth, ∀ url d, Chain s n url → s.document? url = some d →
      (∀ r ∈ d.tables, s.catalog.tables.lookup r.key = t.catalog.tables.lookup r.key) ∧
      ∀ r ∈ d.sqlBlocks, s.catalog.sqlBlocks.lookup r.key = t.catalog.sqlBlocks.lookup r.key) :
    advance settings s = advance settings t := by
  have same : SameEntries s t settings.maxImportDepth := entries
  have documents : ∀ url ∈ reached s (visits s settings.maxImportDepth), s.document? url = t.document? url :=
    fun url mem => document?_congr (same.reached mem)
  have known : ∀ url ∈ reached s (visits s settings.maxImportDepth), ∀ d, s.document? url = some d →
      SameSchemas s t d := by
    intro url mem d held
    obtain ⟨_, n, le, chain⟩ := mem_reached.mp mem
    exact schemas n le url d chain held
  have told : (visits s settings.maxImportDepth).flatMap (Visit.diagnostics s settings.maxImportDepth) =
      (visits s settings.maxImportDepth).flatMap (Visit.diagnostics t settings.maxImportDepth) := by
    refine List.flatMap_congr fun v mem => ?_
    rw [Visit.diagnostics, Visit.diagnostics, same.visit mem, links_congr (same.visit mem), root]
  obtain ⟨tables, sqlBlocks⟩ := needed_congr documents known
  have built : models settings s (graph s (visits s settings.maxImportDepth)) =
      models settings t (graph s (visits s settings.maxImportDepth)) :=
    models_congr (fun url mem => documents url (order_reached s _ mem))
      (fun url mem => known url (order_reached s _ mem))
  rw [reached_congr same] at tables sqlBlocks
  rw [graph_congr same] at built
  unfold advance
  simp only [← visits_congr root same, told, missing_congr same, graph_congr same, reached_congr same, tables,
    sqlBlocks, built, root, final]

def salesSession : Session :=
  { orderSession with
    root := "file:///sales.model"
    documents := orderSession.documents ++
      [("file:///sales.model", .document ⟨[.importing "orders.model" default]⟩)] }

def largerSession : Session :=
  { salesSession with
    documents := ("file:///drafts.model", .unreadable "no such file") :: salesSession.documents
    catalog.tables := salesSession.catalog.tables ++ [("regions", .failed "")] }

theorem largerSession_answer :
    (visits salesSession 16).map Visit.url = ["file:///sales.model", "file:///orders.model"] ∧
    salesSession.holds "file:///drafts.model" = false ∧ largerSession.holds "file:///drafts.model" = true ∧
    advance .standard salesSession = advance .standard largerSession := by
  have walk : (visits salesSession 16).map Visit.url = ["file:///sales.model", "file:///orders.model"] := by
    decide +kernel
  have places : ∀ n ≤ 16, ∀ url, Chain salesSession n url →
      url = "file:///sales.model" ∨ url = "file:///orders.model" := by
    intro n le url chain
    have mem := mem_visits_url.mpr ⟨n, le, chain⟩
    rw [walk] at mem
    simpa using mem
  refine ⟨walk, rfl, rfl, advance_ignores .standard salesSession largerSession rfl rfl
    (fun n le url chain => ?_) fun n le url d chain held => ?_⟩
  · rcases places n le url chain with rfl | rfl <;> rfl
  · rcases places n le url chain with rfl | rfl <;> cases held
    · exact ⟨fun r mem => absurd mem List.not_mem_nil, fun r mem => absurd mem List.not_mem_nil⟩
    · refine ⟨?_, fun r mem => absurd mem List.not_mem_nil⟩
      have listed : ∀ r ∈ [TableRequest.mk none "customers", ⟨none, "orders"⟩],
          salesSession.catalog.tables.lookup r.key = largerSession.catalog.tables.lookup r.key := by
        decide
      exact listed

end SemanticLayer.Session
