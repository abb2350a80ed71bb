import SemanticLayer.Proofs.Elaborate.Locality
import SemanticLayer.Proofs.Plan.Acyclic
import SemanticLayer.Proofs.Plan.Labels
import SemanticLayer.Proofs.Plan.Needs

/-!
Closing a join tree. Whatever was read into it, closing adds the least that makes it complete: with a join those on
the way to it, and those that its condition and the filters of its source lead along. The joins are then listed once
each, every one after its parent, and as they are declared.
-/
namespace SemanticLayer.Plan

open List

theorem close_joined (sound : FieldsSound root) (rooted : JoinTree.Rooted root t) (closed : t.close = .ok t')
    (within : root.within? place = some parent) (given : slot ∈ parent.entries)
    (mem : place ++ [slot.name] ∈ t'.used) : slot.field.join? ≠ none := by
  obtain ⟨_, closed', spans⟩ := JoinTree.close_over sound rooted (rooted.root ▸ JoinTree.close_along closed)
  cases closed.symm.trans closed'
  obtain ⟨_, _, placed⟩ := spans.along _ mem
  obtain ⟨_, j, before, found, _⟩ := placed.last
  cases within.symm.trans before.within
  cases sound.within within with
  | mk distinct =>
    rw [Slots.lookup?_of_mem distinct given] at found
    rw [Option.some.inj found]
    exact Option.some_ne_none j

theorem usedSlots_siblings (used : List (List String)) (place : List String) (entries : List (Slot FieldDef))
    (joins : ∀ slot ∈ entries, place ++ [slot.name] ∈ used → slot.field.join? ≠ none) :
    ((entries.map fun slot => place ++ [slot.name]).filter (used.contains ·)) <+ usedSlots used place entries := by
  refine usedSlots_induction (P := fun place entries paths =>
    (∀ slot ∈ entries, place ++ [slot.name] ∈ used → slot.field.join? ≠ none) →
      ((entries.map fun slot => place ++ [slot.name]).filter (used.contains ·)) <+ paths) ?_ ?_ ?_ place entries joins
  · exact fun _ => .slnil
  · intro place slot rest paths unused later joins
    have skipped : place ++ [slot.name] ∉ used := unused.elim (fun none mem => joins slot mem_cons_self mem none) id
    rw [map_cons, filter_cons_of_neg (by simpa using skipped)]
    exact later fun slot mem => joins slot (mem_cons_of_mem _ mem)
  · intro place slot j rest inner paths _ mem _ later joins
    rw [map_cons, filter_cons_of_pos (by simpa using mem)]
    refine .cons_cons _ ((later fun slot mem => joins slot (mem_cons_of_mem _ mem)).trans ?_)
    exact sublist_append_right _ _

end Plan

open Plan List in
/-- Closing a tree gives the least complete set of joins with those read so far, and fails only where something that
was read is no join. The list of joins has each of them once, after its parent, and siblings as they are declared. -/
theorem close_least {m : Model} (built : Elaborate.Built m) {root : Namespace} {key : Option String}
    (input : m.Inputs root key) {t : JoinTree} (grown : JoinTree.Grown root key t) :
    ((∃ t', t.close = .ok t') ↔ ∀ path ∈ t.used, ∃ inner, root.within? path = some inner) ∧
    ∀ t', t.close = .ok t' →
      (Complete root (· ∈ t'.used) ∧ (∀ path ∈ t.used, path ∈ t'.used) ∧
        ∀ other, Complete root other → (∀ path ∈ t.used, other path) → ∀ path ∈ t'.used, other path) ∧
      t'.ordered.Nodup ∧ (∀ path, path ∈ t'.ordered ↔ path ∈ t'.used) ∧ ParentsFirst [] t'.ordered ∧
      ∀ place parent, (place = [] ∨ place ∈ t'.used) → root.within? place = some parent →
        (parent.entries.map fun slot => place ++ [slot.name]).filter (t'.used.contains ·) <+ t'.ordered := by
  have sound := ((Elaborate.built_sound built).input input).1
  have rooted := grown.rooted
  refine ⟨JoinTree.close_iff sound rooted, fun t' closed => ?_⟩
  have wider := JoinTree.closeWithin_wider _ closed
  have root' : t'.root = root := wider.root.trans rooted.root
  have complete := JoinTree.close_complete sound rooted closed
  have below {path : List String} {inner : Namespace} (mem : path ∈ t'.used) (within : root.within? path = some inner) :
      path :: usedSlots t'.used path inner.entries <+ t'.ordered := by
    rw [JoinTree.ordered, root', ← nil_append path]
    exact usedSlots_below within ((rooted.close closed).starts path mem).1 fun _ => complete.starts mem
  refine ⟨⟨complete, wider.used, fun other least read => ?_⟩, ?_, fun path => ⟨t'.ordered_used, fun mem => ?_⟩, ?_, ?_⟩
  · exact JoinTree.closeWithin_least (fun q p => rooted.root ▸ least.pulls) _ read closed
  · rw [JoinTree.ordered, root']
    exact usedSlots_nodup (slotsSound sound)
  · obtain ⟨_, closed', spans⟩ := JoinTree.close_over sound rooted (rooted.root ▸ JoinTree.close_along closed)
    cases closed.symm.trans closed'
    obtain ⟨_, inner, placed⟩ := spans.along path mem
    exact (below mem placed.within).subset mem_cons_self
  · exact usedSlots_parentsFirst _
  · rintro place parent given within
    have siblings := usedSlots_siblings t'.used place parent.entries fun slot =>
      close_joined sound rooted closed within
    rcases given with rfl | mem
    · cases within
      rwa [JoinTree.ordered, root']
    · exact siblings.trans ((sublist_cons_self _ _).trans (below mem within))

theorem Model.inputs_of_named {m : Model} (named : m.source? name = some s) : m.Inputs s.fields s.primaryKey := by
  unfold source? at named
  split at named
  · next found =>
    cases named
    exact .source (.entity (mem_of_lookup found) (.self s))
  · cases named

namespace Elaborate

def refunds : Document :=
  ⟨[.source ⟨"customers", default⟩ (.refine (.table none "customers" default) [.primaryKey ⟨"id", default⟩] default)
      default,
    .source ⟨"orders", default⟩ (.refine (.table none "orders" default)
      [.join [⟨⟨"customers", default⟩, .one, some (.named ⟨"customers", default⟩), some (.key (fieldAt ["customer_id"])),
          default⟩,
        ⟨⟨"refunds", default⟩, .many, some (.table none "items" default),
          some (.on ⟨.binary .eq (fieldAt ["refunds", "order_id"]) (fieldAt ["customers", "id"]), default⟩), default⟩]]
      default) default]⟩

theorem refunds_closed : Built (document shopTables refunds) ∧ ∃ s t t',
    (document shopTables refunds).source? "orders" = some s ∧ Plan.JoinTree.Grown s.fields s.primaryKey t ∧
    t.used = [["refunds"]] ∧ t.close = .ok t' ∧ t'.used = [["customers"], ["refunds"]] ∧
    Plan.Complete s.fields (· ∈ t'.used) ∧ t'.ordered.Nodup := by
  have built : Built (document shopTables refunds) := .document _ _ fun _ _ found => by cases found
  obtain ⟨s, t, t', named, read, used, closed, more⟩ : ∃ s t t', (document shopTables refunds).source? "orders" = some s ∧
      Plan.JoinTree.read (.ofRoot s.fields s.primaryKey) (.field ["refunds", "price"]) = .ok t ∧ t.used = [["refunds"]] ∧
      t.close = .ok t' ∧ t'.used = [["customers"], ["refunds"]] := ⟨_, _, _, rfl, rfl, rfl, rfl, rfl⟩
  have grown : Plan.JoinTree.Grown s.fields s.primaryKey t := .read .start read
  obtain ⟨_, results⟩ := close_least built (Model.inputs_of_named named) grown
  obtain ⟨⟨complete, _⟩, nodup, _⟩ := results t' closed
  exact ⟨built, s, t, t', named, grown, used, closed, more, complete, nodup⟩

end Elaborate

end SemanticLayer
