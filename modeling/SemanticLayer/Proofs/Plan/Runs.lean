import SemanticLayer.Plan.Basic
import Mathlib.Data.List.Forall2

/-!
Runs that succeed. What a sequence of actions gives is taken apart into what each of them gives, in the same
way for compiling, for planning, and for planning one `SELECT`.
-/
namespace SemanticLayer.Plan

open List

class Runs (m : Type → Type) (σ : outParam Type) [Monad m] where
  Gives {α : Type} : m α → σ → α → σ → Prop
  gives_pure {α : Type} {a b : α} {s s' : σ} : Gives (pure a) s b s' ↔ b = a ∧ s' = s
  gives_bind {α β : Type} {x : m α} {f : α → m β} {b : β} {s s' : σ} :
    Gives (x >>= f) s b s' ↔ ∃ a mid, Gives x s a mid ∧ Gives (f a) mid b s'

export Runs (Gives gives_pure gives_bind)

attribute [simp] gives_pure gives_bind

theorem exists_of_forall₂ {α β : Type} {R : α → β → Prop} {as : List α} {bs : List β}
    (all : List.Forall₂ R as bs) {b : β} (mem : b ∈ bs) : ∃ a ∈ as, R a b := by
  induction all with
  | nil => cases mem
  | @cons a b' _ _ here _ ih =>
    rcases mem_cons.mp mem with rfl | mem
    · exact ⟨a, mem_cons_self, here⟩
    · obtain ⟨a', given, holds⟩ := ih mem
      exact ⟨a', mem_cons_of_mem _ given, holds⟩

theorem gives_mapM {m : Type → Type} {σ : Type} [Monad m] [LawfulMonad m] [Runs m σ] {α β : Type}
    {f : α → m β} {P : σ → Prop} {R : σ → σ → Prop} {Q : α → β → σ → Prop} (refl : ∀ s, R s s)
    (trans : ∀ {s t u}, R s t → R t u → R s u) (stable : ∀ {a b s s'}, R s s' → Q a b s → Q a b s') :
    ∀ {items : List α} {s s' : σ} {results : List β}, Gives (items.mapM f) s results s' → P s →
      (∀ a ∈ items, ∀ {s b s'}, P s → Gives (f a) s b s' → P s' ∧ R s s' ∧ Q a b s') →
      P s' ∧ R s s' ∧ List.Forall₂ (fun a b => Q a b s') items results
  | [], s, s', results, run, holds, _ => by
    rw [mapM_nil, gives_pure] at run
    obtain ⟨rfl, rfl⟩ := run
    exact ⟨holds, refl _, .nil⟩
  | a :: rest, s, s', results, run, holds, each => by
    simp only [mapM_cons, gives_bind, gives_pure] at run
    obtain ⟨b, mid, first, bs, last, run, rfl, rfl⟩ := run
    obtain ⟨holds, grown, here⟩ := each a mem_cons_self holds first
    obtain ⟨holds, grown', tail⟩ :=
      gives_mapM (Q := Q) refl trans stable run holds fun a mem => each a (mem_cons_of_mem _ mem)
    exact ⟨holds, trans grown grown', .cons (stable grown' here) tail⟩

theorem gives_mapM_each {m : Type → Type} {σ : Type} [Monad m] [LawfulMonad m] [Runs m σ] {α β : Type}
    {f : α → m β} {P : σ → Prop} {Q : α → β → Prop} {items : List α} {s s' : σ} {results : List β}
    (run : Gives (items.mapM f) s results s') (holds : P s)
    (each : ∀ a ∈ items, ∀ {s b s'}, P s → Gives (f a) s b s' → P s' ∧ Q a b) :
    P s' ∧ List.Forall₂ Q items results := by
  obtain ⟨holds, _, results⟩ := gives_mapM
    (fun _ => trivial) (fun _ _ => trivial) (fun _ q => q) run holds
    fun a mem s b s' holds step => ⟨(each a mem holds step).1, trivial, (each a mem holds step).2⟩
  exact ⟨holds, results⟩

instance : Runs CompileM Compilation where
  Gives action c a c' := action.run.run c = (.ok a, c')
  gives_pure := by
    intro α a b c c'
    constructor
    · intro run
      cases run
      exact ⟨rfl, rfl⟩
    · rintro ⟨rfl, rfl⟩
      rfl
  gives_bind := by
    intro α β x f b c c'
    rw [ExceptT.run_bind, StateT.run_bind]
    constructor
    · intro run
      rcases h : x.run.run c with ⟨_ | a, mid⟩
      · rw [h] at run
        cases run
      · rw [h] at run
        exact ⟨a, mid, rfl, run⟩
    · rintro ⟨a, mid, first, second⟩
      rw [first]
      exact second

instance : Runs PlanM Progress where
  Gives action s a s' := action.run s = .ok (a, s')
  gives_pure := by
    intro α a b s s'
    constructor
    · intro run
      cases run
      exact ⟨rfl, rfl⟩
    · rintro ⟨rfl, rfl⟩
      rfl
  gives_bind := by
    intro α β x f b s s'
    rw [StateT.run_bind]
    constructor
    · intro run
      rcases h : x.run s with _ | ⟨a, mid⟩
      · rw [h] at run
        cases run
      · rw [h] at run
        exact ⟨a, mid, rfl, run⟩
    · rintro ⟨a, mid, first, second⟩
      rw [first]
      exact second

instance : Runs RowsM (Compilation × Progress) where
  Gives action s a s' := Gives (action.run s.1) s.2 (a, s'.1) s'.2
  gives_pure := by
    rintro α a b ⟨c, s⟩ ⟨c', s'⟩
    rw [StateT.run_pure, gives_pure]
    simp [and_assoc]
  gives_bind := by
    rintro α β x f b ⟨c, s⟩ ⟨c', s'⟩
    rw [StateT.run_bind, gives_bind]
    constructor
    · rintro ⟨⟨a, mid⟩, done, first, second⟩
      exact ⟨a, (mid, done), first, second⟩
    · rintro ⟨a, ⟨mid, done⟩, first, second⟩
      exact ⟨(a, mid), done, first, second⟩

section Compiling

variable {α : Type} {c c' : Compilation} {a : α}

@[simp] theorem not_gives_throw : ¬Gives (throw fault : CompileM α) c a c' := nofun

@[simp] theorem gives_ofExcept {r : Except Fault α} :
    Gives (CompileM.ofExcept r) c a c' ↔ r = .ok a ∧ c' = c := by
  constructor
  · intro run
    cases run
    exact ⟨rfl, rfl⟩
  · rintro ⟨rfl, rfl⟩
    rfl

@[simp] theorem gives_ofDialect {r : Except Unsupported α} :
    Gives (CompileM.ofDialect r) c a c' ↔ r = .ok a ∧ c' = c := by
  rw [CompileM.ofDialect]
  cases r <;> simp [Except.mapError]

@[simp] theorem gives_get : Gives (get : CompileM Compilation) c s c' ↔ s = c ∧ c' = c :=
  gives_pure (m := CompileM)

@[simp] theorem gives_modify : Gives (modify f : CompileM PUnit) c u c' ↔ c' = f c := by
  constructor
  · intro run
    cases run
    rfl
  · rintro rfl
    rfl

variable {β : Type} {f : α → CompileM β} {b : β}

theorem gives_ofExcept_bind {r : Except Fault α} :
    Gives (CompileM.ofExcept r >>= f) c b c' ↔ ∃ a, r = .ok a ∧ Gives (f a) c b c' := by
  simp only [gives_bind, gives_ofExcept]
  constructor
  · rintro ⟨a, _, ⟨is, rfl⟩, run⟩
    exact ⟨a, is, run⟩
  · rintro ⟨a, is, run⟩
    exact ⟨a, c, ⟨is, rfl⟩, run⟩

theorem gives_get_bind {f : Compilation → CompileM β} :
    Gives (get >>= f) c b c' ↔ Gives (f c) c b c' := by
  simp

theorem gives_modify_bind {f : PUnit → CompileM β} : Gives (modify g >>= f) c b c' ↔ Gives (f ⟨⟩) (g c) b c' := by
  rw [gives_bind]
  constructor
  · rintro ⟨⟨⟩, _, step, run⟩
    rwa [gives_modify.mp step] at run
  · intro run
    exact ⟨⟨⟩, g c, gives_modify.mpr rfl, run⟩

theorem gives_between {action other : CompileM α} (enter : Compilation → Compilation)
    (leave : Compilation → Compilation → Compilation)
    (same : ∀ c, other.run.run c = let r := action.run.run (enter c); (r.1, leave c r.2)) :
    Gives other c a c' ↔ ∃ inner, Gives action (enter c) a inner ∧ c' = leave c inner := by
  simp only [Gives]
  rw [same]
  constructor
  · intro run
    rcases h : action.run.run (enter c) with ⟨result, inner⟩
    rw [h] at run
    cases run
    exact ⟨inner, rfl, rfl⟩
  · rintro ⟨inner, run, rfl⟩
    rw [run]

@[simp] theorem gives_withFilter {action : CompileM α} :
    Gives (CompileM.withFilter condition action) c a c' ↔
      ∃ inner, Gives action { c with filters := c.filters ++ [condition] } a inner ∧
        c' = { inner with filters := c.filters } :=
  gives_between (fun c => { c with filters := c.filters ++ [condition] }) (fun c inner => { inner with filters := c.filters })
    fun _ => rfl

@[simp] theorem gives_withoutFrame {action : CompileM α} :
    Gives (CompileM.withoutFrame action) c a c' ↔
      ∃ inner, Gives action { c with frame := none } a inner ∧ c' = { inner with frame := c.frame } :=
  gives_between (fun c => { c with frame := none }) (fun c inner => { inner with frame := c.frame }) fun _ => rfl

end Compiling

section Planning

variable {α : Type} {s s' : Progress} {a : α}

@[simp] theorem not_gives_fault : ¬Gives (throw fault : PlanM α) s a s' := nofun

@[simp] theorem gives_liftExcept {r : Except Fault α} :
    Gives (liftExcept r : PlanM α) s a s' ↔ r = .ok a ∧ s' = s := by
  constructor
  · intro run
    cases r with
    | error => cases run
    | ok => cases run; exact ⟨rfl, rfl⟩
  · rintro ⟨rfl, rfl⟩
    rfl

@[simp] theorem gives_define :
    Gives (define stem query) s name s' ↔
      name = s!"__{stem}{s.counter}" ∧ s' = ⟨s.ctes ++ [⟨name, query⟩], s.counter + 1⟩ := by
  constructor
  · intro run
    cases run
    exact ⟨rfl, rfl⟩
  · rintro ⟨rfl, rfl⟩
    rfl

end Planning

section Rows

variable {α : Type} {c c' : Compilation} {s s' : Progress} {a : α}

@[simp] theorem gives_compiling {action : CompileM α} :
    Gives (RowsM.compiling action) (c, s) a (c', s') ↔ Gives action c a c' ∧ s' = s := by
  show Gives (RowsM.compiling action c) s (a, c') s' ↔ action.run.run c = (.ok a, c') ∧ s' = s
  unfold RowsM.compiling
  rcases action.run.run c with ⟨_ | result, mid⟩
  · constructor
    · exact nofun
    · rintro ⟨run, _⟩
      cases run
  · rw [gives_pure]
    constructor
    · rintro ⟨same, rfl⟩
      cases same
      exact ⟨rfl, rfl⟩
    · rintro ⟨run, rfl⟩
      cases run
      exact ⟨rfl, rfl⟩

@[simp] theorem gives_lift {action : PlanM α} :
    Gives (liftM action : RowsM α) (c, s) a (c', s') ↔ Gives action s a s' ∧ c' = c := by
  show Gives (action >>= fun a => pure (a, c)) s (a, c') s' ↔ _
  simp only [gives_bind, gives_pure, Prod.mk.injEq]
  constructor
  · rintro ⟨_, _, run, ⟨rfl, rfl⟩, rfl⟩
    exact ⟨run, rfl⟩
  · rintro ⟨run, rfl⟩
    exact ⟨a, s', run, ⟨rfl, rfl⟩, rfl⟩

@[simp] theorem gives_compilation :
    Gives (get : RowsM Compilation) (c, s) state (c', s') ↔ state = c ∧ c' = c ∧ s' = s := by
  show Gives (pure (c, c) : PlanM _) s (state, c') s' ↔ _
  rw [gives_pure, Prod.mk.injEq, and_assoc]

variable {β : Type} {f : α → RowsM β} {b : β} {after : Compilation × Progress}

theorem gives_compiling_bind {action : CompileM α} :
    Gives (RowsM.compiling action >>= f) (c, s) b after ↔
      ∃ a mid, Gives action c a mid ∧ Gives (f a) (mid, s) b after := by
  simp only [gives_bind, Prod.exists, gives_compiling]
  constructor
  · rintro ⟨a, mid, _, ⟨first, rfl⟩, rest⟩
    exact ⟨a, mid, first, rest⟩
  · rintro ⟨a, mid, first, rest⟩
    exact ⟨a, mid, s, ⟨first, rfl⟩, rest⟩

theorem gives_lift_bind {action : PlanM α} :
    Gives ((liftM action : RowsM α) >>= f) (c, s) b after ↔
      ∃ a mid, Gives action s a mid ∧ Gives (f a) (c, mid) b after := by
  simp only [gives_bind, Prod.exists, gives_lift]
  constructor
  · rintro ⟨a, _, mid, ⟨first, rfl⟩, rest⟩
    exact ⟨a, mid, first, rest⟩
  · rintro ⟨a, mid, first, rest⟩
    exact ⟨a, c, mid, ⟨first, rfl⟩, rest⟩

theorem gives_compilation_bind {f : Compilation → RowsM β} :
    Gives (get >>= f) (c, s) b after ↔ Gives (f c) (c, s) b after := by
  simp only [gives_bind, Prod.exists, gives_compilation]
  constructor
  · rintro ⟨_, _, _, ⟨rfl, rfl, rfl⟩, rest⟩
    exact rest
  · intro rest
    exact ⟨c, c, s, ⟨rfl, rfl, rfl⟩, rest⟩

end Rows

end SemanticLayer.Plan
