import SemanticLayer.Proofs.Session.Requests
import SemanticLayer.Proofs.Session.Update
import SemanticLayer.Proofs.Session.Walk

/-!
What a session asks for and reports on its walk. Imports that go too deep or close a cycle are reported by the
walk and by linking alone: nothing that elaboration complains about reads like one of these reports.
-/
namespace SemanticLayer

open List

/-! ### How messages begin -/

def Opens (cs : List Char) (text : String) : Prop := cs <+: text.toList

theorem opens_start (cs rest : List Char) : Opens cs (String.ofList (cs ++ rest)) := by
  simp [Opens]

theorem opens_one (c : Char) (rest : List Char) : Opens [c] (String.ofList (c :: rest)) := opens_start [c] rest

theorem opens_two (c d : Char) (rest : List Char) : Opens [c, d] (String.ofList (c :: d :: rest)) :=
  opens_start [c, d] rest

theorem Opens.append (opens : Opens cs text) (more : String) : Opens cs (text ++ more) := by
  rw [Opens, String.toList_append]
  exact opens.trans (prefix_append _ _)

theorem Opens.differs (opens : Opens cs text) (apart : ¬cs <+: ds ∧ ¬ds <+: cs) : ¬Opens ds text := by
  intro other
  rcases prefix_or_prefix_of_prefix opens other with first | second
  · exact apart.1 first
  · exact apart.2 second

namespace Fault

/-- A fault of the import graph: it lies with no document alone. -/
def isLinking : Fault → Bool
  | importCycle _ | importTooDeep _ _ => true
  | _ => false

variable {f : Fault}

theorem linking_opens (linking : f.isLinking = true) : Opens ['i', 'm'] f.message := by
  cases f with
  | importCycle url => exact (opens_two _ _ _).append _
  | importTooDeep url depth => exact (((opens_two _ _ _).append _).append _).append _
  | _ => cases linking

theorem aggregation_opens (fault : AggregateFault) : ¬Opens ['i', 'm'] fault.message := by
  cases fault with
  | withoutArgument function => cases function <;> exact ((opens_one _ _).append _).differs (by decide)
  | inJoinKey _ | inDimension _ | scalarMeasure _ | inScalarItem _ | scalarItem _ =>
    exact (((opens_one _ _).append _).append _).differs (by decide)
  | _ => exact (opens_one _ _).differs (by decide)

theorem stage_opens (fault : StageFault) : ¬Opens ['i', 'm'] fault.message := by
  cases fault with
  | mixedKinds added existing =>
    cases added <;> exact ((((opens_two _ _ _).append _).append _).append _).differs (by decide)
  | emptyView _ | emptyNest _ | ordinal _ | indexAsNest _ | sampledSource _ =>
    exact (((opens_one _ _).append _).append _).differs (by decide)
  | samplePercent _ => exact ((opens_one _ _).append _).differs (by decide)
  | nestLimit _ _ | joinWithoutKey _ _ =>
    exact (((((opens_one _ _).append _).append _).append _).append _).differs (by decide)
  | _ => exact (opens_two _ _ _).differs (by decide)

theorem structural_opens (other : f.isLinking = false) (structural : f.kind = .structural) :
    ¬Opens ['i', 'm'] f.message := by
  cases f with
  | importCycle _ | importTooDeep _ _ => cases other
  | fanOut _ | joinCycle _ | ambiguousJoin _ | circularDefinition _ =>
    exact (((opens_one _ _).append _).append _).differs (by decide)
  | aggregation fault => exact aggregation_opens fault
  | stage fault => exact stage_opens fault
  | _ => cases structural

theorem linking_kind (linking : f.isLinking = true) : f.kind = .structural := by
  cases f with
  | importCycle _ | importTooDeep _ _ => rfl
  | _ => cases linking

theorem diagnostic_ne {g : Fault} (linking : f.isLinking = true) (other : g.isLinking = false) (a b : Location) :
    f.diagnostic a ≠ g.diagnostic b := by
  intro same
  have kinds : f.kind = g.kind := congrArg Diagnostic.kind same
  have messages : f.message = g.message := congrArg Diagnostic.message same
  have opens := linking_opens linking
  rw [messages] at opens
  exact structural_opens other (kinds.symm.trans (linking_kind linking)) opens

theorem importTooDeep_injective (same : (importTooDeep url depth).message = (importTooDeep target depth).message) :
    url = target :=
  (String.append_right_inj _).mp ((String.append_left_inj _).mp ((String.append_left_inj _).mp same))

theorem cycle_ne_tooDeep (url target : String) (depth : Nat) :
    (importCycle url).message ≠ (importTooDeep target depth).message := by
  intro same
  have opens : Opens ['i', 'm', 'p', 'o', 'r', 't', ' ', 'c'] (importCycle url).message :=
    (opens_start ['i', 'm', 'p', 'o', 'r', 't', ' ', 'c'] _).append _
  rw [same] at opens
  exact ((((opens_start ['i', 'm', 'p', 'o', 'r', 't', ' ', 'o'] _).append _).append _).append _).differs
    (by decide) opens

end Fault

namespace Session

open Elaborate

variable {settings : Settings} {s : Session} {url target : String} {depth : Nat} {fault : Fault} {location : Location}

/-- No complaint about the import graph. -/
def linkingComplaints : Complaints where
  Faults fault := fault.isLinking = false
  Reports d := ∀ (fault : Fault) location, fault.isLinking = true → d ≠ fault.diagnostic location
  own {fault} own := by cases fault <;> first | rfl | cases own
  echo _ := rfl
  report other _ _ linking same := Fault.diagnostic_ne linking other _ _ same.symm
  warning _ _ _ _ _ same := Diagnostic.Severity.noConfusion (congrArg Diagnostic.severity same)

theorem find_notLinking (failed : Catalog.find table key = .error fault) : fault.isLinking = false := by
  unfold Catalog.find at failed
  split at failed <;> cases failed <;> rfl

theorem models_silent (linking : fault.isLinking = true) :
    ∀ entry ∈ models settings s g, fault.diagnostic location ∉ entry.2.diagnostics := by
  intro entry mem reported
  have hears : ∀ d, HearsOf linkingComplaints s d :=
    fun d => ⟨fun _ _ _ failed => find_notLinking failed, fun _ _ _ failed => find_notLinking failed⟩
  obtain ⟨_, explained⟩ := models_complain (fun _ _ d _ => hears d) entry mem
  exact explained.diagnostics _ reported fault location linking rfl

theorem advance_reports (linking : fault.isLinking = true) :
    fault.diagnostic location ∈ (advance settings s).diagnostics ↔
      fault.diagnostic location ∈ (visits s settings.maxImportDepth).flatMap
          (Visit.diagnostics s settings.maxImportDepth) ∨
        missing s (visits s settings.maxImportDepth) = [] ∧
          fault.diagnostic location ∈ (graph s (visits s settings.maxImportDepth)).diagnostics := by
  unfold advance
  simp only
  split
  · next waiting => simp [waiting]
  · next complete =>
    rw [complete]
    split
    · simp
    · have silent : ∀ entry ∈ models settings s (graph s (visits s settings.maxImportDepth)),
          fault.diagnostic location ∉ entry.2.diagnostics := models_silent linking
      simp only [mem_append, true_and]
      constructor
      · rintro (reported | reported)
        · exact reported
        · obtain ⟨entry, mem, reported⟩ := mem_flatMap.mp reported
          exact (silent entry mem reported).elim
      · exact .inl

/-! ### Imports that go too deep -/

theorem link_error (failed : link url i = .error d) :
    ∃ message location, d = (Fault.importFailed i.url message).diagnostic location := by
  unfold link at failed
  split at failed
  · cases failed
  · cases failed
    exact ⟨_, _, rfl⟩

theorem mem_visit_diagnostics (plain : s.Plain) (linking : fault.isLinking = true) {v : Visit} :
    fault.diagnostic location ∈ v.diagnostics s depth ↔ v.follows = false ∧
      ∃ l, .ok l ∈ links s v.url ∧ fault.diagnostic location = l.report (.importTooDeep l.target depth) := by
  have unheld (none : s.document? v.url = none) :
      ¬∃ l, .ok l ∈ links s v.url ∧ fault.diagnostic location = l.report (.importTooDeep l.target depth) := by
    rintro ⟨l, mem, _⟩
    obtain ⟨d, held, _⟩ := mem_links.mp mem
    rw [none] at held
    cases held
  unfold Visit.diagnostics
  split
  · next none => simp [unheld (by simp [document?, none])]
  · next message held =>
    have absent := unheld (by simp [document?, held])
    split
    · simp only [mem_singleton, absent, and_false, iff_false]
      exact Fault.diagnostic_ne linking rfl _ _
    · simp [absent]
  · next diagnostics held =>
    have absent := unheld (by simp [document?, held])
    rw [plain _ _ held]
    simp only [mem_singleton, absent, and_false, iff_false]
    intro same
    have kinds : fault.kind = .malformed := congrArg Diagnostic.kind same
    rw [Fault.linking_kind linking] at kinds
    cases kinds
  · next d held =>
    rw [mem_filterMap]
    constructor
    · rintro ⟨written, mem, told⟩
      cases written with
      | error diagnostic =>
        obtain ⟨_, _, i, _, failed⟩ := mem_links.mp mem
        obtain ⟨message, place, rfl⟩ := link_error failed
        exact (Fault.diagnostic_ne linking rfl _ _ (Option.some.inj told).symm).elim
      | ok l =>
        dsimp only at told
        split at told
        · cases told
        · next last => exact ⟨Bool.eq_false_iff.mpr last, l, mem, (Option.some.inj told).symm⟩
    · rintro ⟨last, l, mem, same⟩
      refine ⟨.ok l, mem, ?_⟩
      rw [same]
      simp [last]

theorem report_eq_iff {f : String → Fault} (injective : ∀ a b, (f a).message = (f b).message → a = b) {l : Link}
    {importer : String} {span : Span} :
    (f target).diagnostic ⟨importer, span⟩ = l.report (f l.target) ↔
      importer = l.importer ∧ span = l.span ∧ target = l.target := by
  constructor
  · intro same
    have places : (⟨importer, span⟩ : Location) = l.location := congrArg Diagnostic.location same
    have messages := congrArg Diagnostic.message same
    rw [Location.mk.injEq] at places
    exact ⟨places.1, places.2, injective _ _ messages⟩
  · rintro ⟨rfl, rfl, rfl⟩
    rfl

/-- The walk reports an import as too deep exactly if the shortest chain to its document is as long as chains may
be. -/
theorem walk_tooDeep (plain : s.Plain) {importer : String} {span : Span} :
    (Fault.importTooDeep target depth).diagnostic ⟨importer, span⟩ ∈
        (visits s depth).flatMap (Visit.diagnostics s depth) ↔
      Shortest s depth importer ∧ ∃ d, s.document? importer = some d ∧
        ∃ i ∈ d.imports, i.span = span ∧ Url.resolve importer i.url = .ok target := by
  have linking : (Fault.importTooDeep target depth).isLinking = true := rfl
  have named := @report_eq_iff target (Fault.importTooDeep · depth) fun _ _ => Fault.importTooDeep_injective
  simp only [mem_flatMap, mem_visit_diagnostics plain linking, named, mem_visits]
  constructor
  · rintro ⟨⟨url, follows⟩, ⟨n, le, shortest, same⟩, last, l, mem, rfl, rfl, rfl⟩
    obtain ⟨d, held, i, written, linked⟩ := mem_links.mp mem
    obtain ⟨target, resolved, rfl⟩ := link_ok.mp linked
    have full : n = depth := by
      rw [last, eq_comm, decide_eq_false_iff_not] at same
      omega
    exact ⟨full ▸ shortest, d, held, i, written, rfl, resolved⟩
  · rintro ⟨shortest, d, held, i, written, rfl, resolved⟩
    refine ⟨⟨importer, false⟩, ⟨depth, Nat.le_refl _, shortest, by simp⟩, rfl, ?_⟩
    exact ⟨_, mem_links.mpr ⟨d, held, i, written, link_ok.mpr ⟨target, resolved, rfl⟩⟩, rfl, rfl, rfl⟩

theorem graph_notTooDeep (vs : List Visit) :
    (Fault.importTooDeep target depth).diagnostic location ∉ (graph s vs).diagnostics := by
  intro reported
  rcases mem_append.mp reported with reported | reported
  · obtain ⟨l, _, told⟩ := mem_filterMap.mp reported
    unfold unreadable? at told
    split at told
    · exact Fault.diagnostic_ne rfl rfl _ _ (Option.some.inj told).symm
    · cases told
  · obtain ⟨l, _, told⟩ := mem_map.mp reported
    exact Fault.cycle_ne_tooDeep l.target target depth (congrArg Diagnostic.message told)

theorem advance_needsDocuments :
    (advance settings s).status = .needsDocuments urls ↔
      urls ≠ [] ∧ missing s (visits s settings.maxImportDepth) = urls := by
  unfold advance
  simp only
  split
  · next url rest waiting =>
    rw [waiting, Status.needsDocuments.injEq]
    constructor
    · rintro rfl
      exact ⟨cons_ne_nil _ _, rfl⟩
    · exact And.right
  · next complete =>
    rw [complete]
    split <;> simp

/-- A session waits for the URLs that it does not hold and reaches by chains of imports that are not too long; the
documents at the ends of such chains are those that it goes on with; and it reports an import as too deep
exactly if the shortest chain to its document is as long as chains may be. -/
theorem walk_exact (settings : Settings) (root : String) (data : List Supply) :
    (∀ urls, (advance settings (supplied root data)).status = .needsDocuments urls ↔
      urls ≠ [] ∧ urls.Pairwise (· < ·) ∧ ∀ url, url ∈ urls ↔ (supplied root data).holds url = false ∧
        ∃ n ≤ settings.maxImportDepth, Chain (supplied root data) n url) ∧
    (∀ url, url ∈ reached (supplied root data) (visits (supplied root data) settings.maxImportDepth) ↔
      ((supplied root data).document? url).isSome = true ∧
        ∃ n ≤ settings.maxImportDepth, Chain (supplied root data) n url) ∧
    ∀ importer span target, (Fault.importTooDeep target settings.maxImportDepth).diagnostic ⟨importer, span⟩ ∈
        (advance settings (supplied root data)).diagnostics ↔
      Shortest (supplied root data) settings.maxImportDepth importer ∧
        ∃ d, (supplied root data).document? importer = some d ∧
          ∃ i ∈ d.imports, i.span = span ∧ Url.resolve importer i.url = .ok target := by
  refine ⟨fun urls => ?_, fun url => mem_reached, fun importer span target => ?_⟩
  · rw [advance_needsDocuments]
    refine and_congr_right fun _ => ?_
    constructor
    · rintro rfl
      exact ⟨ordered_ascending _, fun url => mem_missing⟩
    · rintro ⟨ascending, exactly⟩
      exact eq_of_ascending (ordered_ascending _) ascending fun url => mem_missing.trans (exactly url).symm
  · rw [advance_reports rfl, walk_tooDeep (supplied_plain root data), or_iff_left]
    rintro ⟨_, reported⟩
    exact graph_notTooDeep _ reported

end Session

end SemanticLayer
