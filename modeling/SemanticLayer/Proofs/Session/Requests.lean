import SemanticLayer.Proofs.Elaborate.Schemas
import SemanticLayer.Session.Advance

/-!
A session that is done while schemas could still come needs none of them. Every document that was built had
all the schemas that it requests, what it complains about is never a schema that nobody supplied, and a
catalog that knows more would change nothing.
-/
namespace SemanticLayer.Session

open List

open Elaborate

variable {settings : Settings} {s : Session}

theorem orderFrom_subset (ls : List Link) : ∀ (rounds : Nat) (done pending : List String),
    orderFrom ls rounds done pending ⊆ done ++ pending
  | 0, done, pending => subset_append_left _ _
  | rounds + 1, done, pending => by
    refine Subset.trans (orderFrom_subset ls rounds _ _) fun url mem => ?_
    simp only [mem_append, mem_filter] at mem ⊢
    rcases mem with (mem | ⟨mem, _⟩) | ⟨mem, _⟩
    · exact .inl mem
    · exact .inr mem
    · exact .inr mem

theorem order_reached (s : Session) (vs : List Visit) : (graph s vs).order ⊆ reached s vs := by
  unfold graph
  simp only
  split
  · exact orderFrom_subset _ _ _ _
  · exact Subset.refl _

/-- What a document requests has an entry in the catalog. -/
def HasRequests (s : Session) (d : Document) : Prop :=
  Supplied s.catalog d.tables ∧ ∀ r ∈ d.sqlBlocks, (s.catalog.sqlBlocks.lookup r.key).isSome

theorem ordered_isEmpty {α : Type} [Ord α] [DecidableEq α] {as : List α} (empty : (ordered as).isEmpty = true) :
    ∀ a, a ∉ as := by
  intro a mem
  have mem := mem_ordered.mpr mem
  rw [isEmpty_iff.mp empty] at mem
  cases mem

theorem hasRequests (tables : (neededTables s urls).isEmpty = true)
    (sqlBlocks : (neededSqlBlocks s urls).isEmpty = true) (given : url ∈ urls) (held : s.document? url = some d) :
    HasRequests s d := by
  have document : d ∈ urls.filterMap s.document? := mem_filterMap.mpr ⟨url, given, held⟩
  refine ⟨fun r mem => ?_, fun r mem => ?_⟩
  · by_contra absent
    refine ordered_isEmpty tables r (mem_filter.mpr ⟨mem_flatMap.mpr ⟨d, document, mem⟩, ?_⟩)
    rw [Option.not_isSome_iff_eq_none.mp absent, Option.isNone_none]
  · by_contra absent
    refine ordered_isEmpty sqlBlocks r (mem_filter.mpr ⟨mem_flatMap.mpr ⟨d, document, mem⟩, ?_⟩)
    rw [Option.not_isSome_iff_eq_none.mp absent, Option.isNone_none]

theorem advance_done (more : s.isFinal = false) (done : (advance settings s).status = .done model) :
    (neededTables s (reached s (visits s settings.maxImportDepth))).isEmpty = true ∧
    (neededSqlBlocks s (reached s (visits s settings.maxImportDepth))).isEmpty = true ∧
    model = ((models settings s (graph s (visits s settings.maxImportDepth))).lookup s.root).getD .empty := by
  unfold advance at done
  simp only [more] at done
  split at done
  · cases done
  · split at done
    · cases done
    · next complete =>
      cases done
      simp only [Bool.not_false, true_and, Bool.not_eq_true', Bool.not_eq_false,
        Bool.and_eq_true] at complete
      exact ⟨complete.1, complete.2, rfl⟩

theorem imported_mem {ls : List Link} {ms : List (String × Model)}
    (found : (ls.filterMap fun l => (ms.lookup l.target).map (l.written, ·)).lookup url = some imported) :
    ∃ entry ∈ ms, entry.2 = imported := by
  obtain ⟨l, _, same⟩ := mem_filterMap.mp (mem_of_lookup found)
  obtain ⟨m, built, same⟩ := Option.map_eq_some_iff.mp same
  cases same
  exact ⟨_, mem_of_lookup built, rfl⟩

/-- A model that was built from documents, and that complains in one way only. -/
def WellBuilt (K : Complaints) (m : Model) : Prop := Built m ∧ Explained K m

/-- What a document may hear about the schemas that it requests. -/
def HearsOf (K : Complaints) (s : Session) (d : Document) : Prop :=
  Answered K s.catalog d.tables ∧
    ∀ r ∈ d.sqlBlocks, ∀ fault, s.catalog.sqlBlock r.key = .error fault → K.Faults fault

theorem build_wellBuilt (good : ∀ entry ∈ ms, WellBuilt K entry.2)
    (hears : ∀ d, s.document? url = some d → HearsOf K s d) :
    ∀ entry ∈ build settings s ls ms url, WellBuilt K entry.2 := by
  unfold build
  split
  · exact good
  · next d held =>
    obtain ⟨tables, sqlBlocks⟩ := hears d held
    refine forall_mem_append.mpr ⟨good, forall_mem_singleton.mpr ⟨?_, ?_⟩⟩
    · refine .document _ d fun written imported found => ?_
      obtain ⟨entry, mem, rfl⟩ := imported_mem found
      exact (good entry mem).1
    · refine document_explained ⟨url, s.catalog, settings.dialectOf, _⟩ d
        (fun written imported found => ?_) tables sqlBlocks
      obtain ⟨entry, mem, rfl⟩ := imported_mem found
      exact ⟨built_sound (good entry mem).1, (good entry mem).2⟩

variable {g : Graph}

theorem models_complain (hears : ∀ url ∈ g.order, ∀ d, s.document? url = some d → HearsOf K s d) :
    ∀ entry ∈ models settings s g, WellBuilt K entry.2 := by
  have steps : ∀ (urls : List String) (ms : List (String × Model)), urls ⊆ g.order →
      (∀ entry ∈ ms, WellBuilt K entry.2) →
      ∀ entry ∈ urls.foldl (build settings s g.links) ms, WellBuilt K entry.2 := by
    intro urls
    induction urls with
    | nil => exact fun ms _ good => good
    | cons url rest ih =>
      intro ms given good
      obtain ⟨here, others⟩ := cons_subset.mp given
      exact ih _ others (build_wellBuilt good (hears url here))
  exact steps g.order [] (Subset.refl _) (fun _ mem => by cases mem)

theorem models_wellBuilt (requests : ∀ url ∈ g.order, ∀ d, s.document? url = some d → HasRequests s d) :
    ∀ entry ∈ models settings s g, WellBuilt (schemaComplaints s.catalog) entry.2 := by
  refine models_complain fun url given d held => ?_
  obtain ⟨tables, sqlBlocks⟩ := requests url given d held
  exact ⟨tables.answered, fun r mem _ => sqlBlock_answered (sqlBlocks r mem)⟩

theorem models_ignore
    (agree : ∀ url ∈ g.order, ∀ d, s.document? url = some d → AgreeOn c s.catalog d.tables ∧
      ∀ r ∈ d.sqlBlocks, c.sqlBlocks.lookup r.key = s.catalog.sqlBlocks.lookup r.key) :
    models settings { s with catalog := c } g = models settings s g := by
  refine foldl_ext _ _ _ fun ms url given => ?_
  have same : ({ s with catalog := c } : Session).document? url = s.document? url := rfl
  unfold build
  rw [same]
  cases held : s.document? url with
  | none => rfl
  | some d =>
    obtain ⟨tables, sqlBlocks⟩ := agree url given d held
    simp only
    rw [document_ignores ⟨url, s.catalog, settings.dialectOf, _⟩ d tables sqlBlocks]

/-- A session that is done while schemas could still come asked for all that building its documents looks
at: the schemas that they request have entries, no failure lies with a schema that was not supplied, and
the models depend on those entries alone. -/
theorem done_asked_for_all (settings : Settings) (s : Session) {model : Model} (more : s.isFinal = false)
    (done : (advance settings s).status = .done model) :
    model = ((models settings s (graph s (visits s settings.maxImportDepth))).lookup s.root).getD .empty ∧
    (∀ url ∈ (graph s (visits s settings.maxImportDepth)).order, ∀ d, s.document? url = some d →
      (∀ r ∈ d.tables, (s.catalog.tables.lookup r.key).isSome) ∧
      ∀ r ∈ d.sqlBlocks, (s.catalog.sqlBlocks.lookup r.key).isSome) ∧
    (∀ entry ∈ models settings s (graph s (visits s settings.maxImportDepth)), ∀ diagnostic,
      (diagnostic ∈ entry.2.diagnostics ∨ (∃ name, (name, diagnostic) ∈ entry.2.invalid) ∨
        .error diagnostic ∈ entry.2.queries) →
      diagnostic.kind = .schemaDependency →
      ∃ key message location, diagnostic = (Fault.schemaFailed key message).diagnostic location ∧
        (s.catalog.tables.lookup key = some (.failed message) ∨
          s.catalog.sqlBlocks.lookup key = some (.failed message))) ∧
    ∀ c : Catalog, (∀ url ∈ (graph s (visits s settings.maxImportDepth)).order, ∀ d, s.document? url = some d →
        (∀ r ∈ d.tables, c.tables.lookup r.key = s.catalog.tables.lookup r.key) ∧
        ∀ r ∈ d.sqlBlocks, c.sqlBlocks.lookup r.key = s.catalog.sqlBlocks.lookup r.key) →
      models settings { s with catalog := c } (graph s (visits s settings.maxImportDepth)) =
        models settings s (graph s (visits s settings.maxImportDepth)) := by
  obtain ⟨tables, sqlBlocks, same⟩ := advance_done more done
  have requests : ∀ url ∈ (graph s (visits s settings.maxImportDepth)).order, ∀ d,
      s.document? url = some d → HasRequests s d :=
    fun url given d held => hasRequests tables sqlBlocks (order_reached s _ given) held
  refine ⟨same, requests, ?_, fun c agree => models_ignore agree⟩
  intro entry mem diagnostic told
  obtain ⟨_, explained⟩ := models_wellBuilt requests entry mem
  rcases told with told | ⟨name, told⟩ | told
  · exact explained.diagnostics diagnostic told
  · exact explained.invalid _ told
  · exact explained.queries diagnostic told

def orderSession : Session :=
  let name (text : String) : Document.Name := ⟨text, default⟩
  let customers : Document.JoinDecl := ⟨name "customer", .one, some (.table none "customers" default),
    some (.key ⟨.field ⟨["customer_id"], default⟩, default⟩), default⟩
  let orders : Document := ⟨[.source (name "orders")
    (.refine (.table none "orders" default) [.join [customers]] default) default]⟩
  ⟨"file:///orders.model", [("file:///orders.model", .document orders)],
    ⟨[("customers", .failed "no such table"), ("orders", .known [⟨"customer_id", .number⟩])], []⟩, false⟩

theorem orderSession_asked_for_all : orderSession.isFinal = false ∧
    ∃ model, (advance .standard orderSession).status = .done model ∧
      model.diagnostics = [(Fault.schemaFailed "customers" "no such table").diagnostic
        ⟨"file:///orders.model", default⟩] ∧
      (∀ entry ∈ models .standard orderSession (graph orderSession (visits orderSession 16)),
        ∀ diagnostic ∈ entry.2.diagnostics, diagnostic.kind = .schemaDependency →
        ∃ key message location, diagnostic = (Fault.schemaFailed key message).diagnostic location ∧
          (orderSession.catalog.tables.lookup key = some (.failed message) ∨
            orderSession.catalog.sqlBlocks.lookup key = some (.failed message))) ∧
      models .standard
          { orderSession with catalog.tables := orderSession.catalog.tables ++ [("regions", .failed "")] }
          (graph orderSession (visits orderSession 16)) =
        models .standard orderSession (graph orderSession (visits orderSession 16)) := by
  obtain ⟨_, _, explained, ignore⟩ := done_asked_for_all .standard orderSession rfl rfl
  refine ⟨rfl, _, rfl, rfl, fun entry mem diagnostic told => explained entry mem diagnostic (.inl told), ?_⟩
  refine ignore _ fun url given d held => ?_
  obtain rfl : url = "file:///orders.model" := List.mem_singleton.mp given
  cases held
  refine ⟨?_, fun r mem => by cases mem⟩
  have listed : ∀ r ∈ [TableRequest.mk none "customers", ⟨none, "orders"⟩],
      (orderSession.catalog.tables ++ [("regions", SchemaEntry.failed "")]).lookup r.key =
        orderSession.catalog.tables.lookup r.key := by
    decide
  exact listed

end SemanticLayer.Session
