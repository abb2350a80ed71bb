import Mathlib.Logic.Relation
import SemanticLayer.Proofs.Session.Reports

/-!
How imports are linked. An import whose document leads back to its importer is reported and dropped; what is left
has no cycle, so in each round some document has all its imports before it, and the order comes to an end with
all documents in it.
-/
namespace SemanticLayer.Session

open List hiding span

open Relation

variable {s : Session} {ls : List Link} {l : Link} {url target : String} {depth rounds : Nat}

def Leads (ls : List Link) (url target : String) : Prop := ∃ l ∈ ls, l.importer = url ∧ l.target = target

/-! ### What documents lead to -/

def Closed (ls : List Link) (urls : List String) : Prop := ∀ l ∈ ls, l.importer ∈ urls → l.target ∈ urls

def further (ls : List Link) (urls : List String) : List String :=
  fresh urls ((ls.filter fun l => urls.contains l.importer).map Link.target)

theorem mem_further : target ∈ further ls urls ↔ target ∉ urls ∧ ∃ url ∈ urls, Leads ls url target := by
  rw [further, mem_fresh, mem_map]
  refine and_congr_right fun _ => ?_
  constructor
  · rintro ⟨l, mem, rfl⟩
    obtain ⟨mem, known⟩ := mem_filter.mp mem
    exact ⟨l.importer, contains_iff_mem.mp known, l, mem, rfl, rfl⟩
  · rintro ⟨_, known, l, mem, rfl, rfl⟩
    exact ⟨l, mem_filter.mpr ⟨mem, contains_iff_mem.mpr known⟩, rfl⟩

theorem closed_iff : Closed ls urls ↔ further ls urls = [] := by
  rw [eq_nil_iff_forall_not_mem]
  constructor
  · intro closed target mem
    obtain ⟨new, _, known, l, written, rfl, rfl⟩ := mem_further.mp mem
    exact new (closed l written known)
  · intro none l mem known
    by_contra new
    exact none l.target (mem_further.mpr ⟨new, l.importer, known, l, mem, rfl, rfl⟩)

theorem closure_succ (urls : List String) :
    closure ls (rounds + 1) urls = closure ls rounds (urls ++ further ls urls) := rfl

theorem Closed.closure (closed : Closed ls urls) : closure ls rounds urls = urls := by
  induction rounds with
  | zero => rfl
  | succ rounds ih => rw [closure_succ, closed_iff.mp closed, append_nil, ih]

theorem subset_closure (urls : List String) : urls ⊆ closure ls rounds urls := by
  induction rounds generalizing urls with
  | zero => exact List.Subset.refl _
  | succ rounds ih => exact List.Subset.trans (subset_append_left _ _) (ih _)

theorem closure_sound (mem : target ∈ closure ls rounds urls) : ∃ url ∈ urls, ReflTransGen (Leads ls) url target := by
  induction rounds generalizing urls with
  | zero => exact ⟨target, mem, .refl⟩
  | succ rounds ih =>
    obtain ⟨url, mem, leads⟩ := ih mem
    rcases mem_append.mp mem with mem | mem
    · exact ⟨url, mem, leads⟩
    · obtain ⟨_, importer, mem, first⟩ := mem_further.mp mem
      exact ⟨importer, mem, .head first leads⟩

def unfound (ls : List Link) (urls : List String) : List Link := ls.filter fun l => !urls.contains l.target

theorem mem_unfound : l ∈ unfound ls urls ↔ l ∈ ls ∧ l.target ∉ urls := by
  simp [unfound]

theorem unfound_further (more : ¬Closed ls urls) :
    (unfound ls (urls ++ further ls urls)).length < (unfound ls urls).length := by
  have split : unfound ls (urls ++ further ls urls) =
      (unfound ls urls).filter fun l => !(further ls urls).contains l.target := by
    rw [unfound, unfound]
    simp [Bool.and_comm]
  rw [split, length_filter_lt_length_iff_exists]
  unfold Closed at more
  push Not at more
  obtain ⟨l, mem, known, new⟩ := more
  refine ⟨l, mem_unfound.mpr ⟨mem, new⟩, ?_⟩
  have found : l.target ∈ further ls urls := mem_further.mpr ⟨new, l.importer, known, l, mem, rfl, rfl⟩
  simp [found]

theorem closure_closed (enough : (unfound ls urls).length ≤ rounds) : Closed ls (closure ls rounds urls) := by
  induction rounds generalizing urls with
  | zero =>
    intro l mem _
    by_contra new
    have none := length_eq_zero_iff.mp (Nat.le_zero.mp enough)
    exact not_mem_nil (none ▸ mem_unfound.mpr ⟨mem, new⟩)
  | succ rounds ih =>
    by_cases closed : Closed ls urls
    · rw [closed.closure]
      exact closed
    · have fewer := unfound_further closed
      rw [closure_succ]
      exact ih (by omega)

/-- As many rounds as there are links find all that a document leads to. -/
theorem mem_closure : target ∈ closure ls ls.length [url] ↔ ReflTransGen (Leads ls) url target := by
  constructor
  · intro mem
    obtain ⟨_, start, leads⟩ := closure_sound mem
    rwa [mem_singleton.mp start] at leads
  · intro leads
    have closed : Closed ls (closure ls ls.length [url]) := closure_closed (length_filter_le _ _)
    induction leads with
    | refl => exact subset_closure _ (mem_singleton_self _)
    | tail _ last ih =>
      obtain ⟨l, mem, rfl, rfl⟩ := last
      exact closed l mem ih

/-! ### The order of documents -/

def isReady (ls : List Link) (done : List String) (url : String) : Bool :=
  (ls.filter (·.importer == url)).all fun l => done.contains l.target

theorem orderFrom_succ (done pending : List String) :
    orderFrom ls (rounds + 1) done pending =
      orderFrom ls rounds (done ++ pending.filter (isReady ls done)) (pending.filter fun url => !isReady ls done url) :=
  rfl

theorem isReady_iff : isReady ls done url = true ↔ ∀ l ∈ ls, l.importer = url → l.target ∈ done := by
  simp [isReady, imp_iff_not_or]

def InOrder (ls : List Link) (urls : List String) : Prop :=
  ∀ l ∈ ls, l.importer ∈ urls → ∃ before after, urls = before ++ l.importer :: after ∧ l.target ∈ before

theorem InOrder.append (ordered : InOrder ls done) (ready : ∀ url ∈ more, isReady ls done url = true) :
    InOrder ls (done ++ more) := by
  intro l mem listed
  rcases mem_append.mp listed with listed | listed
  · obtain ⟨before, after, split, earlier⟩ := ordered l mem listed
    exact ⟨before, after ++ more, by rw [split]; simp, earlier⟩
  · obtain ⟨before, after, split⟩ := append_of_mem listed
    refine ⟨done ++ before, after, by rw [split]; simp, mem_append_left _ ?_⟩
    exact isReady_iff.mp (ready l.importer listed) l mem rfl

theorem orderFrom_inOrder (rounds : Nat) (ordered : InOrder ls done) :
    InOrder ls (orderFrom ls rounds done pending) := by
  induction rounds generalizing done pending with
  | zero => exact ordered
  | succ rounds ih =>
    exact ih (ordered.append fun url mem => (mem_filter.mp mem).2)

/-- Links without a cycle end somewhere: of some documents, one leads to none of the others. -/
theorem exists_last (acyclic : ∀ url, ¬TransGen (Leads ls) url url) (some : pending ≠ []) :
    ∃ url ∈ pending, ∀ target ∈ pending, ¬TransGen (Leads ls) url target := by
  induction pending with
  | nil => exact (some rfl).elim
  | cons first rest ih =>
    by_cases alone : rest = []
    · subst alone
      exact ⟨first, .head _, forall_mem_singleton.mpr (acyclic first)⟩
    · obtain ⟨last, mem, ends⟩ := ih alone
      by_cases leads : TransGen (Leads ls) last first
      · -- `first` comes behind `last`, so nothing else can come behind it
        refine ⟨first, .head _, forall_mem_cons.mpr ⟨acyclic first, fun target mem beyond => ?_⟩⟩
        exact ends target mem (leads.trans beyond)
      · exact ⟨last, mem_cons_of_mem _ mem, forall_mem_cons.mpr ⟨leads, ends⟩⟩

theorem exists_ready (acyclic : ∀ url, ¬TransGen (Leads ls) url url)
    (within : ∀ l ∈ ls, l.importer ∈ pending → l.target ∈ done ++ pending) (some : pending ≠ []) :
    ∃ url ∈ pending, isReady ls done url = true := by
  obtain ⟨url, mem, ends⟩ := exists_last acyclic some
  refine ⟨url, mem, isReady_iff.mpr ?_⟩
  rintro l written rfl
  rcases mem_append.mp (within l written mem) with there | left
  · exact there
  · exact (ends l.target left (.single ⟨l, written, rfl, rfl⟩)).elim

theorem orderFrom_perm (acyclic : ∀ url, ¬TransGen (Leads ls) url url)
    (within : ∀ l ∈ ls, l.importer ∈ pending → l.target ∈ done ++ pending) (enough : pending.length ≤ rounds) :
    (orderFrom ls rounds done pending).Perm (done ++ pending) := by
  induction rounds generalizing done pending with
  | zero =>
    rw [length_eq_zero_iff.mp (Nat.le_zero.mp enough), append_nil]
    exact .refl _
  | succ rounds ih =>
    rw [orderFrom_succ]
    have parts : (done ++ pending.filter (isReady ls done) ++ pending.filter fun url => !isReady ls done url).Perm
        (done ++ pending) := by
      rw [List.append_assoc]
      exact (filter_append_perm (isReady ls done) pending).append_left done
    refine (ih (fun l mem listed => ?_) ?_).trans parts
    · exact parts.mem_iff.mpr (within l mem (mem_filter.mp listed).1)
    · by_cases none : pending = []
      · simp [none]
      · obtain ⟨url, mem, ready⟩ := exists_ready acyclic within none
        have fewer : (pending.filter fun url => !isReady ls done url).length < pending.length :=
          length_filter_lt_length_iff_exists.mpr ⟨url, mem, by simp [ready]⟩
        omega

/-! ### The graph -/

/-- An import that the graph may use: it is followed, and its document is held. -/
structure Usable (s : Session) (depth : Nat) (l : Link) : Prop where
  near : ∃ n < depth, Chain s n l.importer
  written : .ok l ∈ links s l.importer
  held : (s.document? l.target).isSome = true

def Linked (s : Session) (depth : Nat) (url target : String) : Prop :=
  ∃ l, Usable s depth l ∧ l.importer = url ∧ l.target = target

def usable (s : Session) (vs : List Visit) : List Link :=
  (vs.flatMap (Visit.links s)).filter fun l => (s.document? l.target).isSome

theorem graph_links (vs : List Visit) :
    (graph s vs).links = (usable s vs).filter fun l => !closesCycle (usable s vs) l := by
  simp only [graph, partition_eq_filter_filter]
  rfl

theorem mem_visit_links {v : Visit} : l ∈ v.links s ↔ v.follows = true ∧ l.importer = v.url ∧ .ok l ∈ links s v.url := by
  unfold Visit.links
  split
  · next follows =>
    rw [mem_filterMap]
    constructor
    · rintro ⟨result, mem, same⟩
      rw [toOption_eq_some.mp same] at mem
      obtain ⟨_, _, i, _, linked⟩ := mem_links.mp mem
      obtain ⟨_, _, rfl⟩ := link_ok.mp linked
      exact ⟨follows, rfl, mem⟩
    · rintro ⟨_, _, mem⟩
      exact ⟨_, mem, rfl⟩
  · next last => simp [last]

theorem mem_usable : l ∈ usable s (visits s depth) ↔ Usable s depth l := by
  rw [usable, mem_filter, mem_flatMap]
  constructor
  · rintro ⟨⟨v, mem, followed⟩, held⟩
    obtain ⟨follows, same, written⟩ := mem_visit_links.mp followed
    obtain ⟨n, _, shortest, kept⟩ := mem_visits.mp mem
    rw [follows, eq_comm, decide_eq_true_iff] at kept
    rw [← same] at shortest written
    exact ⟨⟨n, kept, shortest.1⟩, written, held⟩
  · rintro ⟨⟨n, less, chain⟩, written, held⟩
    obtain ⟨m, le, shortest⟩ := chain.shortest
    have follows : decide (m < depth) = true := decide_eq_true (by omega)
    refine ⟨⟨⟨l.importer, true⟩, mem_visits.mpr ⟨m, by omega, shortest, follows.symm⟩, ?_⟩, held⟩
    exact mem_visit_links.mpr ⟨rfl, rfl, written⟩

theorem leads_usable : Leads (usable s (visits s depth)) = Linked s depth := by
  funext url target
  simp only [Leads, Linked, mem_usable]

theorem usable_closesCycle :
    closesCycle (usable s (visits s depth)) l = true ↔ ReflTransGen (Linked s depth) l.target l.importer := by
  rw [closesCycle, contains_iff_mem, mem_closure, leads_usable]

theorem mem_graph_links : l ∈ (graph s (visits s depth)).links ↔
    Usable s depth l ∧ ¬ReflTransGen (Linked s depth) l.target l.importer := by
  rw [graph_links, mem_filter, mem_usable, Bool.not_eq_true', ← Bool.not_eq_true, usable_closesCycle]

theorem graph_acyclic (url : String) : ¬TransGen (Leads (graph s (visits s depth)).links) url url := by
  intro cycle
  obtain ⟨_, ⟨l, mem, rfl, rfl⟩, back⟩ := TransGen.head'_iff.mp cycle
  refine (mem_graph_links.mp mem).2 (back.lift id ?_)
  rintro _ _ ⟨k, kept, ends⟩
  exact ⟨k, (mem_graph_links.mp kept).1, ends⟩

theorem Usable.importer_reached (usable : Usable s depth l) : l.importer ∈ reached s (visits s depth) := by
  obtain ⟨⟨n, less, chain⟩, written, _⟩ := usable
  obtain ⟨d, document, _⟩ := mem_links.mp written
  exact mem_reached.mpr ⟨by rw [document, Option.isSome_some], n, by omega, chain⟩

theorem Usable.target_reached (usable : Usable s depth l) : l.target ∈ reached s (visits s depth) := by
  obtain ⟨⟨n, less, chain⟩, written, held⟩ := usable
  obtain ⟨d, document, i, mem, linked⟩ := mem_links.mp written
  obtain ⟨target, resolved, same⟩ := link_ok.mp linked
  have imports : Imports s l.importer l.target := ⟨d, document, i, mem, by rw [resolved, same]⟩
  exact mem_reached.mpr ⟨held, n + 1, by omega, chain.step imports⟩

theorem orderFrom_graph : (orderFrom (graph s (visits s depth)).links (reached s (visits s depth)).length []
    (reached s (visits s depth))).Perm (reached s (visits s depth)) :=
  orderFrom_perm graph_acyclic (fun _ mem _ => (mem_graph_links.mp mem).1.target_reached) (Nat.le_refl _)

theorem graph_order : (graph s (visits s depth)).order =
    orderFrom (graph s (visits s depth)).links (reached s (visits s depth)).length [] (reached s (visits s depth)) :=
  if_pos orderFrom_graph.length_eq

theorem graph_inOrder : InOrder (graph s (visits s depth)).links (graph s (visits s depth)).order := by
  rw [graph_order]
  exact orderFrom_inOrder _ fun _ _ listed => absurd listed not_mem_nil

/-! ### Reports of cycles -/

theorem walk_notCycle (plain : s.Plain) :
    (Fault.importCycle target).diagnostic location ∉ (visits s depth).flatMap (Visit.diagnostics s depth) := by
  intro reported
  have linking : (Fault.importCycle target).isLinking = true := rfl
  obtain ⟨v, _, reported⟩ := mem_flatMap.mp reported
  obtain ⟨_, l, _, same⟩ := (mem_visit_diagnostics plain linking).mp reported
  exact Fault.cycle_ne_tooDeep target l.target depth (congrArg Diagnostic.message same)

theorem graph_reports :
    (Fault.importCycle target).diagnostic ⟨importer, span⟩ ∈ (graph s (visits s depth)).diagnostics ↔
      ∃ written, Usable s depth ⟨importer, written, target, span⟩ ∧
        ReflTransGen (Linked s depth) target importer := by
  have named := @report_eq_iff target Fault.importCycle fun _ _ => (String.append_right_inj _).mp
  rw [graph, partition_eq_filter_filter, mem_append, or_iff_right, mem_map]
  · constructor
    · rintro ⟨⟨_, written, _, _⟩, mem, same⟩
      obtain ⟨rfl, rfl, rfl⟩ := named.mp same.symm
      obtain ⟨mem, cyclic⟩ := mem_filter.mp mem
      exact ⟨written, mem_usable.mp mem, usable_closesCycle.mp cyclic⟩
    · rintro ⟨written, found, cyclic⟩
      exact ⟨_, mem_filter.mpr ⟨mem_usable.mpr found, usable_closesCycle.mpr cyclic⟩, rfl⟩
  · intro reported
    obtain ⟨l, _, told⟩ := mem_filterMap.mp reported
    unfold unreadable? at told
    split at told
    · exact Fault.diagnostic_ne rfl rfl _ _ (Option.some.inj told).symm
    · cases told

/-- An import is reported as a cycle and dropped exactly if its document leads back to its importer by imports that
can be used, and all others are kept. The documents that are reached are built once each, after those that they
import: linking leaves nothing that the order could not resolve. -/
theorem linking_exact (settings : Settings) (root : String) (data : List Supply) :
    let s := supplied root data
    let depth := settings.maxImportDepth
    let g := graph s (visits s depth)
    let urls := reached s (visits s depth)
    (∀ l, l ∈ g.links ↔ Usable s depth l ∧ ¬ReflTransGen (Linked s depth) l.target l.importer) ∧
    (∀ importer span target,
      (Fault.importCycle target).diagnostic ⟨importer, span⟩ ∈ (advance settings s).diagnostics ↔
        missing s (visits s depth) = [] ∧ ∃ written, Usable s depth ⟨importer, written, target, span⟩ ∧
          ReflTransGen (Linked s depth) target importer) ∧
    g.order.Nodup ∧
    (∀ url, url ∈ g.order ↔ (s.document? url).isSome = true ∧ ∃ n ≤ depth, Chain s n url) ∧
    (∀ l ∈ g.links, ∃ before after, g.order = before ++ l.importer :: after ∧ l.target ∈ before) ∧
    (orderFrom g.links urls.length [] urls).length = urls.length := by
  intro s depth g urls
  have perm : g.order.Perm urls := graph_order ▸ orderFrom_graph
  refine ⟨fun _ => mem_graph_links, fun importer span target => ?_, ?_, fun url => ?_, fun l mem => ?_,
    orderFrom_graph.length_eq⟩
  · rw [advance_reports rfl, or_iff_right (walk_notCycle (supplied_plain root data)), graph_reports]
  · exact perm.nodup_iff.mpr (nodup_of_ascending (ordered_ascending _))
  · exact perm.mem_iff.trans mem_reached
  · exact graph_inOrder l mem (perm.mem_iff.mpr (mem_graph_links.mp mem).1.importer_reached)

end SemanticLayer.Session
