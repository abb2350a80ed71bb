import SemanticLayer.Proofs.Elaborate.Contents
import SemanticLayer.Proofs.Elaborate.Refinement

/-!
Refining a view by filters, an order and a limit. New filters go to the first stage and the order and the
limit to the last one; a view of one stage is drafted anew and comes out the same.
-/
namespace SemanticLayer

open List hiding filter span

namespace Stage

def order : Stage → List OrderBy
  | reduce _ _ orderBy _ | project _ orderBy _ => orderBy
  | index _ _ _ => []

/-- More filters, and another order and limit. -/
def refine (news : List Filter) (orderBy : List OrderBy) (limit : Option Nat) : Stage → Stage
  | reduce fields having _ r => reduce fields having orderBy ⟨r.filters ++ news, limit, r.sample⟩
  | project fields _ r => project fields orderBy ⟨r.filters ++ news, limit, r.sample⟩
  | index fields weight r => index fields weight ⟨r.filters ++ news, limit, r.sample⟩

def addFilters (news : List Filter) (s : Stage) : Stage := s.refine news s.order s.restriction.limit

def reorder (orderBy : List OrderBy) (limit : Option Nat) : Stage → Stage := refine [] orderBy limit

theorem addFilters_nil (s : Stage) : s.addFilters [] = s := by cases s <;> simp [addFilters, refine, order, restriction]

theorem reorder_addFilters (s : Stage) (news : List Filter) (orderBy : List OrderBy) (limit : Option Nat) :
    (s.addFilters news).reorder orderBy limit = s.refine news orderBy limit := by
  cases s <;> simp [addFilters, reorder, refine]

end Stage

namespace Elaborate

def rowFilter (s : Site) (filter : Document.Expr) : M Memo Filter := do
  let (condition, level) ← condition s filter
  if level.isAggregate then s.fail filter.span (.aggregation .inRowFilter)
  return condition

def wheres (block : List Document.StageProperty) : List Document.Expr :=
  block.flatMap fun
    | .filter filters => filters
    | _ => []

def cutTo (limit : Option Nat) : Document.StageProperty → Option Nat
  | .limit count _ | .top count _ _ => some count.toNat
  | _ => limit

/-- The filters that a block adds to a stage, in the scope of the stage. -/
def addedFilters (url : String) (input : Namespace) (stage : Stage) (position : StagePosition) (span : Span)
    (block : List Document.StageProperty) : Except LocatedFault (List Filter) :=
  let known := (Draft.ofStage stage).fields.filterMap (outputTyped input)
  (((wheres block).mapM (rowFilter ⟨⟨url, input, [], true⟩, position, span⟩)).run.run
    (known.map fun (name, t) => (name, .ok t))).1

def HeadOrTail (block : List Document.StageProperty) : Prop :=
  ∀ p ∈ block, isHeadProperty p = true ∨ isTailProperty p = true

/-- More filters, and another limit. -/
def Draft.refine (d : Draft) (limit : Option Nat) (news : List Filter) : Draft :=
  { d with restriction := ⟨d.restriction.filters ++ news, limit, d.restriction.sample⟩ }

theorem Draft.refine_limit (d : Draft) : (d.refine limit news).restriction.limit = limit := rfl

theorem Draft.refine_refine (d : Draft) (first later : Option Nat) (news : List Filter) :
    (d.refine first news).refine later = fun more => d.refine later (news ++ more) := by
  funext more
  simp [refine]

theorem foldlM_whereItem (s : Site) (d : Draft) (filters : List Document.Expr) :
    filters.foldlM (whereItem s) d = d.refine d.restriction.limit <$> filters.mapM (rowFilter s) := by
  induction filters generalizing d with
  | nil => simp [Draft.refine]
  | cons first rest ih =>
    have step : whereItem s d first = (fun news => d.refine d.restriction.limit [news]) <$> rowFilter s first := by
      simp only [whereItem, rowFilter, map_bind]
      congr 1
      funext x
      split <;> simp [Draft.addFilter, Draft.refine]
    rw [foldlM_cons, step]
    simp [ih, Draft.refine_limit, Draft.refine_refine]

theorem properties_refine (s : Site) (keep : Document.StageProperty → Bool)
    (refines : HeadOrTail (block.filter keep)) (d : Draft) :
    properties s keep block d = d.refine ((block.filter keep).foldl cutTo d.restriction.limit) <$>
      (wheres (block.filter keep)).mapM (rowFilter s) := by
  induction block generalizing d with
  | nil => simp [properties, wheres, Draft.refine]
  | cons p rest ih =>
    rw [properties]
    cases kept : keep p with
    | false => simpa [kept] using ih (by simpa [kept] using refines) d
    | true =>
      rw [filter_cons_of_pos kept] at refines ⊢
      obtain ⟨first, later⟩ := forall_mem_cons.mp refines
      have cut (count : Nat) : properties s keep rest (d.withLimit count) =
          d.refine ((rest.filter keep).foldl cutTo (some count)) <$>
            (wheres (rest.filter keep)).mapM (rowFilter s) := by
        have same : d.withLimit count = d.refine (some count) [] := by simp [Draft.withLimit, Draft.refine]
        rw [same, ih later, Draft.refine_refine]
        rfl
      cases p <;> simp [isHeadProperty, isTailProperty] at first <;> simp only [property]
      case filter filters =>
        simp only [foldlM_whereItem, ih later, bind_map_left, Draft.refine_refine, wheres, flatMap_cons, mapM_append,
          map_bind]
        rfl
      case orderBy => exact ih later d
      case limit | top => exact cut _

theorem stageWith_refine (refines : HeadOrTail (block.filter keep)) :
    stageWith url input (some stage) position (block.filter keep) span (fun site => properties site keep block) =
      (addedFilters url input stage position span (block.filter keep) >>= fun news =>
        finish url (block.filter keep) span ((Draft.ofStage stage).refine
          ((block.filter keep).foldl cutTo stage.restriction.limit) news)) := by
  have undeclared : (block.filter keep).flatMap declared = [] := by
    rw [flatMap_eq_nil_iff]
    intro p mem
    have refines := refines p mem
    cases p <;> simp [isHeadProperty, isTailProperty] at refines <;> rfl
  have limit : (Draft.ofStage stage).restriction = stage.restriction := by cases stage <;> rfl
  simp only [stageWith, declarations, undeclared, foldlM_nil, Option.map_some, Option.getD_some, properties_refine _ _ refines,
    limit]
  simp only [addedFilters, ExceptT.run_map, StateT.run_map, pure_bind]
  generalize StateT.run _ _ = found
  obtain ⟨_ | news, _⟩ := found <;> rfl

theorem ofStage_kind (stage : Stage) : ((Draft.ofStage stage).refine limit news).kind = some stage.kind := by
  cases stage <;> rfl

theorem finish_refine (done : finish url block span ((Draft.ofStage stage).refine limit news) = .ok built) :
    ∃ orderBy, built = stage.refine news orderBy limit := by
  have reordered {orderBy : List OrderBy} (made : Draft.stage { (Draft.ofStage stage).refine limit news with orderBy }
      stage.kind = .ok built) : ∃ orderBy, built = stage.refine news orderBy limit := by
    cases stage <;> simp only [Draft.stage, Stage.kind] at made <;> repeat' split at made
    all_goals cases made
    exacts [⟨_, rfl⟩, ⟨_, rfl⟩, ⟨_, rfl⟩, ⟨orderBy, rfl⟩]
  rw [finish, ofStage_kind] at done
  cases unrepeated : repeated? ((Draft.ofStage stage).refine limit news).fields with
  | some f =>
    rw [unrepeated] at done
    cases done
  | none =>
    simp only [unrepeated] at done
    obtain ⟨_, ⟨⟩, done⟩ := bind_eq_ok done
    split at done
    · cases done
    · obtain ⟨orderBy, _, done⟩ := bind_eq_ok done
      split at done
      · next made =>
        cases done
        split at made
        · exact reordered made
        · exact reordered made
      · cases done

theorem finish_unordered (built : StageBuilt n sampled stage) (unordered : orderItems block = []) :
    finish url block span ((Draft.ofStage stage).refine limit news) = .ok (stage.refine news stage.order limit) := by
  obtain ⟨sound, _, _, settled⟩ := built
  have distinct : (((Draft.ofStage stage).refine limit news).fields.map OutputField.name).Nodup := by
    cases sound with
    | reduce _ distinct | project _ distinct => exact distinct
    | index => exact nodup_nil
  have made : ((Draft.ofStage stage).refine limit news).stage stage.kind = .ok (stage.refine news stage.order limit) := by
    cases sound with
    | reduce nonempty =>
      simp [Draft.ofStage, Draft.refine, Draft.stage, Stage.kind, nonempty, Stage.refine, Stage.order]
      rintro rfl
      exact settled rfl
    | project nonempty | index nonempty =>
      simp [Draft.ofStage, Draft.refine, Draft.stage, Draft.empty, Stage.kind, nonempty, Stage.refine, Stage.order]
  simp [finish, ofStage_kind, repeated?_none.mpr distinct, unordered, made, bind, Except.bind, pure, Except.pure]

theorem yields_true (result : Except ε α) : Yields (fun _ => True) result fun a => result = .ok a := by
  cases result with
  | error f => trivial
  | ok a => rfl

/-- What building one stage again with the properties that are kept yields. -/
def Reframes (url : String) (block : List Document.StageProperty) (span : Span)
    (build : (Document.StageProperty → Bool) → Namespace → Stage → StagePosition → Except LocatedFault Stage) : Prop :=
  ∀ keep input stage position n sampled, StageBuilt n sampled stage →
    Yields (fun _ => True) (build keep input stage position) fun again =>
      ∃ news orderBy, addedFilters url input stage position span (block.filter keep) = .ok news ∧
        again = stage.refine news orderBy ((block.filter keep).foldl cutTo stage.restriction.limit) ∧
        (orderItems (block.filter keep) = [] → orderBy = stage.order)

theorem stageWith_reframes (url : String) (span : Span) (refines : HeadOrTail block) :
    Reframes url block span fun keep input stage position =>
      stageWith url input (some stage) position (block.filter keep) span fun site => properties site keep block := by
  intro keep input stage position n sampled built
  simp only
  rw [stageWith_refine fun p mem => refines p (mem_filter.mp mem).1]
  refine (yields_true _).bind fun news added => (yields_true _).weaken (fun _ h => h) fun again done => ?_
  by_cases unordered : orderItems (block.filter keep) = []
  · exact ⟨news, _, added, Except.ok.inj (done.symm.trans (finish_unordered built unordered)), fun _ => rfl⟩
  · obtain ⟨orderBy, same⟩ := finish_refine done
    exact ⟨news, orderBy, added, same, fun none => absurd none unordered⟩

/-- What the head of a block is, and that its tail adds no filter. -/
theorem block_parts (block : List Document.StageProperty) : wheres (block.filter isHeadProperty) = wheres block ∧
    orderItems (block.filter isHeadProperty) = [] ∧
    (∀ limit, (block.filter isHeadProperty).foldl cutTo limit = limit) ∧ wheres (block.filter isTailProperty) = [] := by
  induction block with
  | nil => exact ⟨rfl, rfl, fun _ => rfl, rfl⟩
  | cons p rest ih => cases p <;> simpa [wheres, orderItems, cutTo, isHeadProperty, isTailProperty, filter_cons] using ih

def onLast (f : α → α) (l : List α) : List α :=
  match l.getLast? with
  | some x => l.dropLast ++ [f x]
  | none => l

theorem map_onLast {f : α → α} {g : α → β} (same : ∀ x, g (f x) = g x) (l : List α) : (onLast f l).map g = l.map g := by
  unfold onLast
  cases last : l.getLast? with
  | none => rfl
  | some x =>
    obtain ⟨init, rfl⟩ := getLast?_eq_some_iff.mp last
    simp [same]

theorem StagesBuilt.each (built : StagesBuilt n sampled stages) :
    ∀ stage ∈ stages, ∃ n sampled, StageBuilt n sampled stage := by
  induction stages generalizing n sampled with
  | nil => exact forall_mem_nil _
  | cons first rest ih =>
    obtain ⟨head, later⟩ := stagesBuilt_cons.mp built
    exact forall_mem_cons.mpr ⟨⟨n, sampled, head⟩, ih later⟩

theorem refineLast_frame {url : String} {position : StagePosition} {block : List Document.StageProperty} {span : Span}
    (built : ∀ stage ∈ stages.getLast?, ∃ n sampled, StageBuilt n sampled stage) (reframes : Reframes url block span build) :
    Yields (fun _ => True) (match stages.getLast? with
      | some last =>
        if block.any isTailProperty then do
          let input := after url span input stages.dropLast
          let last ← build isTailProperty input last { position with sampling := false }
          return stages.dropLast ++ [last]
        else return stages
      | none => return stages) fun out => ∃ orderBy limit, out = onLast (Stage.reorder orderBy limit) stages := by
  split
  · next last ends =>
    have frame (orderBy limit) : onLast (Stage.reorder orderBy limit) stages =
        stages.dropLast ++ [last.reorder orderBy limit] := by simp [onLast, ends]
    split
    · obtain ⟨n, sampled, built⟩ := built last ends
      refine (reframes _ _ last _ n sampled built).bind ?_
      rintro _ ⟨news, orderBy, added, rfl, _⟩
      rw [addedFilters, (block_parts block).2.2.2] at added
      cases added
      exact ⟨orderBy, _, (frame ..).symm⟩
    · refine ⟨last.order, last.restriction.limit, (frame ..).symm ▸ ?_⟩
      obtain ⟨init, rfl⟩ := getLast?_eq_some_iff.mp ends
      rw [dropLast_concat, show last.reorder _ _ = last from last.addFilters_nil]
  · next none => exact ⟨[], some 0, by simp [onLast, none]⟩

theorem refineStages_frame {block : List Document.StageProperty} (built : StagesBuilt n sampled view.stages)
    (reframes : Reframes url block span build) :
    Yields (fun _ => True) (refineStages url input view position block span build) fun stages =>
      ∃ first rest news orderBy limit, view.stages = first :: rest ∧
        addedFilters url input first position span block = .ok news ∧
        stages = onLast (Stage.reorder orderBy limit) (first.addFilters news :: rest) := by
  unfold refineStages
  rcases hv : view.stages with _ | ⟨first, _ | ⟨second, rest⟩⟩ <;> rw [hv] at built
  · trivial
  · refine (reframes _ input first position _ _ (stagesBuilt_cons.mp built).1).bind ?_
    rintro _ ⟨news, orderBy, added, rfl, _⟩
    rw [filter_eq_self.mpr fun _ _ => rfl] at added ⊢
    exact ⟨first, [], news, orderBy, _, rfl, added, congrArg (fun s => [s]) (first.reorder_addFilters ..).symm⟩
  · obtain ⟨head, later⟩ := stagesBuilt_cons.mp built
    have ends (again : Stage) (stage) (last : stage ∈ (again :: second :: rest).getLast?) :
        ∃ n sampled, StageBuilt n sampled stage := by
      exact later.each stage (mem_of_getLast? last)
    simp only
    split
    · trivial
    split
    · refine (reframes _ input first position _ _ head).bind ?_
      rintro _ ⟨news, orderBy, added, rfl, unordered⟩
      rw [addedFilters, (block_parts block).1] at added
      rw [unordered (block_parts block).2.1, (block_parts block).2.2.1]
      refine (refineLast_frame (ends _) reframes).weaken (fun _ h => h) ?_
      rintro _ ⟨orderBy, limit, frame⟩
      exact ⟨first, _, news, orderBy, limit, rfl, added, frame⟩
    · next headless =>
      have none : wheres block = [] := by
        rw [← (block_parts block).1, filter_eq_nil_iff.mpr fun p mem is => headless (any_eq_true.mpr ⟨p, mem, is⟩)]
        rfl
      refine (refineLast_frame (ends _) reframes).weaken (fun _ h => h) ?_
      rintro _ ⟨orderBy, limit, frame⟩
      refine ⟨first, _, [], orderBy, limit, rfl, by rw [addedFilters, none]; rfl, ?_⟩
      rwa [first.addFilters_nil]

theorem refined_empty (built : StagesBuilt n sampled view.stages) (nonempty : view.stages ≠ []) (url : String)
    (input : Namespace) (position : StagePosition) (span : Span) :
    refined url input view position (some ⟨[], span⟩) = .ok view.stages := by
  rw [refined, refineStages]
  rcases hv : view.stages with _ | ⟨first, _ | ⟨second, rest⟩⟩
  · exact absurd hv nonempty
  · rw [hv] at built
    have again : finish url [] span ((Draft.ofStage first).refine first.restriction.limit []) = .ok first :=
      (finish_unordered (stagesBuilt_cons.mp built).1 rfl).trans (congrArg _ first.addFilters_nil)
    simp only
    rw [stageWith_refine (by simp [HeadOrTail])]
    change (finish url [] span ((Draft.ofStage first).refine first.restriction.limit []) >>= _) = _
    rw [again]
    rfl
  · cases (first :: second :: rest).getLast? <;> rfl

/-- A view that a block filters, sorts and cuts has its stages as they were: the first has the new filters after its
own, and the last may have another order and limit. An empty block gives the stages themselves. -/
theorem view_refinement_frame {m : Model} (built : Built m) (holds : m.Holds s)
    (found : s.fields.lookup? name = some (.view v)) :
    (∀ url input position block span stages, HeadOrTail block →
      refined url input v position (some ⟨block, span⟩) = .ok stages →
      (∃ first rest news orderBy limit, v.stages = first :: rest ∧
        addedFilters url input first position span block = .ok news ∧
        stages = onLast (Stage.reorder orderBy limit) (first.addFilters news :: rest)) ∧
      stages.map Stage.kind = v.stages.map Stage.kind ∧ stages.map Stage.outputs = v.stages.map Stage.outputs ∧
      stages.map Stage.outputSchema = v.stages.map Stage.outputSchema) ∧
    (v.stages ≠ [] → ∀ url input position span, refined url input v position (some ⟨[], span⟩) = .ok v.stages) := by
  obtain ⟨_, staged⟩ := (built_sound built).staged (.view holds found)
  refine ⟨fun url input position block span stages refines done => ?_, refined_empty staged⟩
  rw [refined] at done
  have frame := (refineStages_frame staged (stageWith_reframes url span refines)).value done
  obtain ⟨first, rest, news, orderBy, limit, is, _, rfl⟩ := id frame
  have kept {β : Type} (g : Stage → β) (same : ∀ s news orderBy limit, g (Stage.refine news orderBy limit s) = g s) :
      (onLast (Stage.reorder orderBy limit) (first.addFilters news :: rest)).map g = v.stages.map g := by
    rw [map_onLast (f := Stage.reorder orderBy limit) (fun s => same s ..), is, map_cons, Stage.addFilters, same, map_cons]
  refine ⟨frame, kept _ ?_, kept _ ?_, kept _ ?_⟩
  all_goals
    intro s
    cases s <;> intros <;> rfl

def amountView : Document :=
  ⟨[.source ⟨"orders", default⟩ (.refine (.table none "orders" default) [.view [⟨⟨"amounts", default⟩,
    [.stage ⟨[.project [.reference ⟨["amount"], default⟩ []]], default⟩], default⟩]] default) default]⟩

theorem amounts_cut : Built (document orderTable amountView) ∧ ∃ s v stages,
    (document orderTable amountView).Holds s ∧ s.fields.lookup? "amounts" = some (.view v) ∧
    refined "file:///orders.model" s.fields v nestedPosition
      (some ⟨[.filter [⟨.boolean true, default⟩], .limit 5 default], default⟩) = .ok stages ∧
    stages.map Stage.kind = v.stages.map Stage.kind := by
  have built : Built (document orderTable amountView) := .document _ _ fun _ _ found => by cases found
  obtain ⟨s, v, mem, found, accepted⟩ : ∃ s v, ("orders", .source s) ∈ (document orderTable amountView).entities ∧
      s.fields.lookup? "amounts" = some (.view v) ∧
      (refined "file:///orders.model" s.fields v nestedPosition
        (some ⟨[.filter [⟨.boolean true, default⟩], .limit 5 default], default⟩)).isOk = true :=
    ⟨_, _, mem_cons_self, rfl, by decide +kernel⟩
  have holds : (document orderTable amountView).Holds s := .entity mem (.self s)
  cases done : refined "file:///orders.model" s.fields v nestedPosition
    (some ⟨[.filter [⟨.boolean true, default⟩], .limit 5 default], default⟩) with
  | error f =>
    rw [done] at accepted
    cases accepted
  | ok stages =>
    obtain ⟨_, kinds, _⟩ := (view_refinement_frame built holds found).1 _ _ _ _ _ _
      (by simp [HeadOrTail, isHeadProperty, isTailProperty]) done
    exact ⟨built, s, v, stages, holds, found, done, kinds⟩

end Elaborate

end SemanticLayer
