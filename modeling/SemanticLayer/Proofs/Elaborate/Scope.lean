import Mathlib.Data.List.Perm.Subperm
import SemanticLayer.Elaborate.Scope
import SemanticLayer.Proofs.Elaborate.Discipline

/-!
The outcomes that a block keeps of its declarations. An outcome is recorded once, after the outcomes that
it rests on, and a fault that echoes another declaration echoes one that failed before. One declaration
waits for another at most as often as there are declarations, so the bound on that is never met.
-/
namespace SemanticLayer.Elaborate

open List

namespace Memo

def Keeps (memo later : Memo) : Prop :=
  ∀ name outcome, memo.lookup name = some outcome → later.lookup name = some outcome

theorem keeps_refl (memo : Memo) : Keeps memo memo := fun _ _ h => h

theorem keeps_trans (first : Keeps a b) (second : Keeps b c) : Keeps a c :=
  fun name outcome h => second name outcome (first name outcome h)

theorem keeps_record (fresh : memo.lookup name = none) (outcome : Except LocatedFault Typed) :
    Keeps memo ((name, outcome) :: memo) := by
  intro other found h
  have distinct : other ≠ name := by
    rintro rfl
    rw [fresh] at h
    cases h
  rw [lookup_cons, beq_eq_false_iff_ne.mpr distinct]
  exact h

/-- A fault of its own, or the echo of a declaration that failed. -/
def Echoes (memo : Memo) (fault : Fault) : Prop :=
  fault.isOwn = true ∨ ∃ name f, fault = .invalidReference name ∧ memo.lookup name = some (.error f)

theorem echoes_later (keeps : Keeps memo later) (echoes : Echoes memo fault) : Echoes later fault := by
  refine echoes.imp_right ?_
  rintro ⟨name, f, same, found⟩
  exact ⟨name, f, same, keeps name _ found⟩

end Memo

open Memo

/-- The outcomes `memo` were recorded after those of `known`, each one once, after what it rests on. -/
inductive Grounded (s : Scope) (Good : Memo → Typed → Prop) (known : Memo) : Memo → Prop where
  | known : Grounded s Good known known
  | record {memo : Memo} {name : String} {outcome : Except LocatedFault Typed}
      (older : Grounded s Good known memo) (fresh : memo.lookup name = none)
      (declared : (s.declaration? name).isSome)
      (yields : Yields (fun f => Echoes memo f.fault) outcome (Good memo)) : Grounded s Good known ((name, outcome) :: memo)

/-- While the declarations `busy` are being elaborated, none of them is recorded. -/
def Scope.discipline (s : Scope) (Good : Memo → Typed → Prop) (known : Memo) (busy : List String) :
    Discipline Memo where
  Holds memo := Grounded s Good known memo ∧ ∀ name ∈ busy, memo.lookup name = none
  Grows := Keeps
  Admits := Echoes
  grows_refl := keeps_refl
  grows_trans := keeps_trans
  admits_own _ _ own := .inl own

/-- What a reference to a declaration of the block is. -/
def Scope.reference (s : Scope) (t : Typed) : Reference :=
  ⟨if t.isAggregate then .measure else .dimension, t.type, [], false, t.reads,
    if s.inlining then some t.expr else none⟩

/-- A judgement that holds of all that a block starts from. -/
structure Scope.Judges (s : Scope) (J : Judgement Keeps) (known : Memo) : Prop where
  root : ∀ {memo first rest r}, s.declaration? first = none → memo.lookup first = none →
    s.root.refer (first :: rest) = .ok r → J.Refers memo (first :: rest) r
  declared : ∀ {memo name t}, (s.declaration? name).isSome ∨ known.lookup name = some (.ok t) →
    memo.lookup name = some (.ok t) → J.Good memo t → J.Refers memo [name] (s.reference t)
  good : ∀ {name t}, known.lookup name = some (.ok t) → J.Good known t
  faultless : ∀ {name f}, known.lookup name ≠ some (.error f)

theorem resolveWith_own (find : Namespace → String → Option FieldDef) : ∀ (path walked : List String)
    (ns : Namespace), Own (Namespace.resolveWith find walked ns path) fun _ => True
  | [], walked, ns => rfl
  | [last], walked, ns => by
    rw [Namespace.resolveWith]
    split
    · trivial
    · rfl
  | name :: next :: rest, walked, ns => by
    rw [Namespace.resolveWith]
    · split
      · rfl
      · next join _ =>
        exact (resolveWith_own find (next :: rest) (walked ++ [name]) join.source.fields).bind fun _ _ => trivial
      · rfl
    · simp

theorem refer_own (ns : Namespace) (path : List String) : Own (ns.refer path) fun r => ns.refer path = .ok r :=
  have own : Own (ns.refer path) fun _ => True := (resolveWith_own _ _ _ _).bind fun _ _ => trivial
  own.named

section Resolution

variable {s : Scope} {J : Judgement Keeps} {known : Memo}

variable {memo : Memo}

theorem lookup_record {outcome : Except LocatedFault Typed}
    (h : List.lookup other ((name, outcome) :: memo) = some found) :
    (other = name ∧ outcome = found) ∨ memo.lookup other = some found := by
  rw [lookup_cons] at h
  cases same : other == name with
  | true => exact .inl ⟨by simpa using same, by simpa [same] using h⟩
  | false => exact .inr (by simpa [same] using h)

theorem grounded_yields (judges : s.Judges J known) (grounded : Grounded s J.Good known memo) :
    ∀ {name outcome}, memo.lookup name = some outcome →
      Yields (fun f => Echoes memo f.fault) outcome (J.Good memo) := by
  induction grounded with
  | known =>
    rintro name (f | t) h
    · exact (judges.faultless h).elim
    · exact judges.good h
  | @record memo name outcome older fresh declared yields ih =>
    intro other found h
    have grows := keeps_record fresh outcome
    have before : Yields (fun f => Echoes memo f.fault) found (J.Good memo) := by
      rcases lookup_record h with ⟨_, rfl⟩ | before
      · exact yields
      · exact ih before
    exact before.weaken (fun _ => echoes_later grows) fun _ => J.stable grows

theorem grounded_present (grounded : Grounded s J.Good known memo) :
    ∀ {name outcome}, memo.lookup name = some outcome →
      (s.declaration? name).isSome ∨ known.lookup name = some outcome := by
  induction grounded with
  | known => exact .inr
  | record older fresh declared yields ih =>
    intro other found h
    rcases lookup_record h with ⟨same, _⟩ | before
    · exact .inl (same ▸ declared)
    · exact ih before

theorem grounded_declared (judges : s.Judges J known) (grounded : Grounded s J.Good known memo)
    (found : memo.lookup name = some (.error f)) : (s.declaration? name).isSome :=
  (grounded_present grounded found).resolve_right judges.faultless

/-- Where a declaration failed, one failed with a fault that echoes no other: the first one. -/
theorem grounded_root (judges : s.Judges J known) (grounded : Grounded s J.Good known memo) :
    ∀ {name f}, memo.lookup name = some (.error f) →
      ∃ root g, memo.lookup root = some (.error g) ∧ g.fault.isCascade = false := by
  induction grounded with
  | known => exact fun h => (judges.faultless h).elim
  | @record memo name outcome older fresh declared yields ih =>
    intro other f h
    have grows := keeps_record fresh outcome
    have before : ∀ {other g}, memo.lookup other = some (.error g) → ∃ root g,
        lookup root ((name, outcome) :: memo) = some (.error g) ∧ g.fault.isCascade = false := by
      intro other g found
      obtain ⟨root, g, found, own⟩ := ih found
      exact ⟨root, g, grows _ _ found, own⟩
    rcases lookup_record h with ⟨rfl, rfl⟩ | found
    · rcases yields with own | ⟨_, _, _, found⟩
      · exact ⟨other, f, by simp, Fault.isCascade_of_own own⟩
      · exact before found
    · exact before found

/-- Outcomes of declarations that are not being elaborated are found and recorded. -/
def Resolves (s : Scope) (J : Judgement Keeps) (known : Memo) (busy : List String)
    (outcome : String → StateM Memo (Except LocatedFault Typed)) : Prop :=
  ∀ memo name, (s.declaration? name).isSome ∨ (memo.lookup name).isSome → name ∉ busy →
    Leaves (s.discipline J.Good known busy) memo (outcome name) fun later found =>
      Grounded s J.Good known later ∧ later.lookup name = some found

theorem lookup_finds {outcome : String → StateM Memo (Except LocatedFault Typed)} (judges : s.Judges J known)
    (resolves : Resolves s J known busy outcome) :
    Finds (s.discipline J.Good known busy) J ⟨s.url, s.lookup outcome busy⟩ := by
  intro memo path
  cases path with
  | nil => exact leaves_pure (.inl rfl)
  | cons first rest =>
    refine leaves_get ?_
    split
    · next foreign =>
      simp only [Bool.and_eq_true, Option.isNone_iff_eq_none] at foreign
      exact leaves_pure ((refer_own _ _).weaken (fun _ => .inl) fun r => judges.root foreign.1 foreign.2)
    · next known =>
      have known : (s.declaration? first).isSome ∨ (memo.lookup first).isSome := by
        cases hd : s.declaration? first <;> simp_all
      split
      · exact leaves_pure (.inl rfl)
      · next idle =>
        refine leaves_bind (resolves memo first known (by simpa using idle)) ?_
        rintro later (f | t) _ ⟨grounded, recorded⟩
        · exact leaves_pure (.inr ⟨first, f, rfl, recorded⟩)
        · dsimp only
          split
          · next last =>
            cases isEmpty_iff.mp last
            exact leaves_pure (judges.declared (grounded_present grounded recorded) recorded
              (grounded_yields judges grounded recorded))
          · exact leaves_pure (.inl rfl)

def Scope.declaredNames (s : Scope) : List String := s.declarations.map fun decl => decl.name.node

theorem declared_mem (h : (s.declaration? name).isSome) : name ∈ s.declaredNames := by
  obtain ⟨decl, found⟩ := Option.isSome_iff_exists.mp h
  have same : decl.name.node = name := by simpa using find?_some found
  exact mem_map.mpr ⟨decl, mem_of_find?_eq_some found, same⟩

section

variable (judges : s.Judges J known)

include judges

/-- The bound on how long declarations wait for one another is the number of those that do not wait. -/
theorem resolveWithin_resolves : ∀ (depth : Nat) (busy : List String),
    busy.Nodup → busy ⊆ s.declaredNames → depth + busy.length = s.declarations.length + 1 →
    Resolves s J known busy (s.resolveWithin depth busy)
  | 0, busy, nodup, declared, spent => by
    have fits := (subperm_of_subset nodup declared).length_le
    simp only [Scope.declaredNames, length_map] at fits
    omega
  | depth + 1, busy, nodup, declared, spent => by
    intro memo name present idle
    refine leaves_get fun holds => ?_
    cases found : memo.lookup name with
    | some outcome => exact ⟨holds, keeps_refl memo, holds.1, found⟩
    | none =>
      have isDeclared : (s.declaration? name).isSome := by simpa [found] using present
      obtain ⟨decl, declares⟩ := Option.isSome_iff_exists.mp isDeclared
      have waiting : Resolves s J known (name :: busy) (s.resolveWithin depth (name :: busy)) := by
        refine resolveWithin_resolves depth (name :: busy) (nodup_cons.mpr ⟨idle, nodup⟩) ?_ ?_
        · exact cons_subset.mpr ⟨declared_mem isDeclared, declared⟩
        · simp only [length_cons]; omega
      have holds' : (s.discipline J.Good known (name :: busy)).Holds memo :=
        ⟨holds.1, forall_mem_cons.mpr ⟨found, holds.2⟩⟩
      obtain ⟨after, keeps, yields⟩ := expr_ensures (lookup_finds judges waiting) decl.expr memo holds'
      have fresh := after.2 name mem_cons_self
      have recorded := Grounded.record after.1 fresh isDeclared yields
      simp only [declares, contains_iff_mem, idle]
      refine ⟨⟨recorded, fun other mem => ?_⟩, keeps_trans keeps (keeps_record fresh _), recorded, lookup_cons_self⟩
      have distinct : other ≠ name := fun same => idle (same ▸ mem)
      show lookup other ((name, _) :: _) = none
      rw [lookup_cons, beq_eq_false_iff_ne.mpr distinct]
      exact after.2 other (mem_cons_of_mem _ mem)

theorem resolve_resolves :
    Resolves s J known [] (s.resolveWithin s.depth []) :=
  resolveWithin_resolves judges s.depth [] nodup_nil (nil_subset _) rfl

theorem context_finds :
    Finds (s.discipline J.Good known []) J s.context :=
  lookup_finds judges (resolve_resolves judges)

theorem typed_ensures (e : Document.Expr) : Ensures (s.discipline J.Good known []) memo (s.typed e) J.Good :=
  expr_ensures (context_finds judges) e memo

theorem resolve_ensures (declared : (s.declaration? name).isSome) :
    Leaves (s.discipline J.Good known []) memo (s.resolve name).run fun later found =>
      Yields (fun f => Echoes later f.fault) found (J.Good later) ∧ later.lookup name = some found := by
  refine leaves_weaken (resolve_resolves judges memo name (.inl declared) not_mem_nil) ?_
  exact fun later found _ _ ⟨grounded, recorded⟩ => ⟨grounded_yields judges grounded recorded, recorded⟩

end

end Resolution

end SemanticLayer.Elaborate
