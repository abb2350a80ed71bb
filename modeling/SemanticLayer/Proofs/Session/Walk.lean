import SemanticLayer.Proofs.Sorted
import SemanticLayer.Session.Imports

/-!
Which documents a session reaches. A chain of imports leads from the root to a URL, each import written in a
document that is held. The walk goes level by level, so it comes to every URL by a shortest chain, and it
follows no import of a document whose shortest chain is as long as chains may be.
-/
namespace SemanticLayer.Session

open List

variable {s : Session} {url target : String} {n depth : Nat}

def Imports (s : Session) (url target : String) : Prop :=
  ∃ d, s.document? url = some d ∧ ∃ i ∈ d.imports, Url.resolve url i.url = .ok target

/-- A URL is reached from the root by a number of imports. -/
inductive Chain (s : Session) : Nat → String → Prop where
  | root : Chain s 0 s.root
  | step {n : Nat} {url target : String} : Chain s n url → Imports s url target → Chain s (n + 1) target

/-- The number of imports by which a URL is reached at best. -/
def Shortest (s : Session) (n : Nat) (url : String) : Prop := Chain s n url ∧ ∀ m < n, ¬Chain s m url

theorem Chain.shortest (chain : Chain s n url) : ∃ m ≤ n, Shortest s m url := by
  induction n using Nat.strongRecOn with
  | ind n ih =>
    by_cases shorter : ∃ m < n, Chain s m url
    · obtain ⟨m, less, chain⟩ := shorter
      obtain ⟨k, le, shortest⟩ := ih m less chain
      exact ⟨k, by omega, shortest⟩
    · exact ⟨n, Nat.le_refl n, chain, fun m less chain => shorter ⟨m, less, chain⟩⟩

theorem Shortest.last (shortest : Shortest s (n + 1) target) : ∃ url, Shortest s n url ∧ Imports s url target := by
  obtain ⟨chain, least⟩ := shortest
  cases chain with
  | step before imports =>
    refine ⟨_, ⟨before, fun m less chain => ?_⟩, imports⟩
    exact least (m + 1) (by omega) (chain.step imports)

/-! ### Imports as links -/

theorem toOption_eq_some {ε α : Type} {result : Except ε α} {a : α} : result.toOption = some a ↔ result = .ok a := by
  cases result <;> simp [Except.toOption]

theorem link_ok :
    link url i = .ok l ↔ ∃ target, Url.resolve url i.url = .ok target ∧ l = ⟨url, i.url, target, i.span⟩ := by
  unfold link
  cases Url.resolve url i.url with
  | ok target => simp [eq_comm]
  | error fault => simp

theorem mem_links : l ∈ links s url ↔ ∃ d, s.document? url = some d ∧ ∃ i ∈ d.imports, link url i = l := by
  unfold links
  cases s.document? url with
  | none => simp
  | some d => simp

theorem mem_targets : target ∈ targets s url ↔ Imports s url target := by
  unfold targets
  rw [mem_filterMap]
  constructor
  · rintro ⟨l, mem, found⟩
    obtain ⟨l, same, rfl⟩ := Option.map_eq_some_iff.mp found
    obtain ⟨d, held, i, written, rfl⟩ := mem_links.mp mem
    obtain ⟨target, resolved, rfl⟩ := link_ok.mp (toOption_eq_some.mp same)
    exact ⟨d, held, i, written, resolved⟩
  · rintro ⟨d, held, i, written, resolved⟩
    refine ⟨_, mem_links.mpr ⟨d, held, i, written, rfl⟩, ?_⟩
    rw [link_ok.mpr ⟨target, resolved, rfl⟩]
    rfl

/-! ### The walk -/

theorem mem_fresh : url ∈ fresh seen urls ↔ url ∉ seen ∧ url ∈ urls := by
  induction urls generalizing seen with
  | nil => simp [fresh]
  | cons first rest ih =>
    rw [fresh]
    split
    · next old =>
      have old : first ∈ seen := contains_iff_mem.mp old
      rw [ih, mem_cons]
      constructor
      · rintro ⟨new, mem⟩
        exact ⟨new, .inr mem⟩
      · rintro ⟨new, rfl | mem⟩
        · exact (new old).elim
        · exact ⟨new, mem⟩
    · next new =>
      have new : first ∉ seen := fun old => new (contains_iff_mem.mpr old)
      simp only [mem_cons, ih]
      by_cases same : url = first
      · simp [same, new]
      · simp [same]

/-- A level of the walk: the URLs at one distance from the root, after those that are nearer. -/
structure IsLevel (s : Session) (n : Nat) (seen level : List String) : Prop where
  here : ∀ url, url ∈ level ↔ Shortest s n url
  before : ∀ url, url ∈ seen ↔ ∃ m ≤ n, Chain s m url

theorem isLevel_root (s : Session) : IsLevel s 0 [s.root] [s.root] := by
  have chains : ∀ url, url ∈ [s.root] ↔ Chain s 0 url := by
    intro url
    rw [mem_singleton]
    constructor
    · rintro rfl
      exact .root
    · intro chain
      cases chain
      rfl
  refine ⟨fun url => (chains url).trans ?_, fun url => (chains url).trans ?_⟩
  · exact ⟨fun chain => ⟨chain, fun m less => absurd less (Nat.not_lt_zero m)⟩, And.left⟩
  · constructor
    · exact fun chain => ⟨0, Nat.le_refl 0, chain⟩
    · rintro ⟨m, le, chain⟩
      rwa [Nat.le_zero.mp le] at chain

theorem IsLevel.next (isLevel : IsLevel s n seen level) :
    IsLevel s (n + 1) (seen ++ fresh seen (level.flatMap (targets s)))
      (fresh seen (level.flatMap (targets s))) := by
  have here : ∀ url, url ∈ fresh seen (level.flatMap (targets s)) ↔ Shortest s (n + 1) url := by
    intro url
    rw [mem_fresh, isLevel.before, mem_flatMap]
    constructor
    · rintro ⟨new, importer, mem, imports⟩
      refine ⟨((isLevel.here importer).mp mem).1.step (mem_targets.mp imports), fun m less chain => ?_⟩
      exact new ⟨m, by omega, chain⟩
    · intro shortest
      obtain ⟨importer, near, imports⟩ := shortest.last
      refine ⟨?_, importer, (isLevel.here importer).mpr near, mem_targets.mpr imports⟩
      rintro ⟨m, le, chain⟩
      exact shortest.2 m (by omega) chain
  refine ⟨here, fun url => ?_⟩
  rw [mem_append, here, isLevel.before]
  constructor
  · rintro (⟨m, le, chain⟩ | shortest)
    · exact ⟨m, by omega, chain⟩
    · exact ⟨n + 1, Nat.le_refl _, shortest.1⟩
  · rintro ⟨m, le, chain⟩
    obtain ⟨k, le', shortest⟩ := chain.shortest
    by_cases last : k = n + 1
    · subst last
      exact .inr shortest
    · exact .inl ⟨k, by omega, shortest.1⟩

theorem mem_visitsFrom (isLevel : IsLevel s n seen level) :
    v ∈ visitsFrom s depth seen level ↔
      ∃ m, n ≤ m ∧ m ≤ n + depth ∧ Shortest s m v.url ∧ v.follows = decide (m < n + depth) := by
  obtain ⟨url, follows⟩ := v
  induction depth generalizing n seen level with
  | zero =>
    rw [visitsFrom, mem_map]
    simp only [Visit.mk.injEq, isLevel.here]
    constructor
    · rintro ⟨_, shortest, rfl, rfl⟩
      exact ⟨n, Nat.le_refl n, Nat.le_refl n, shortest, by simp⟩
    · rintro ⟨m, low, high, shortest, same⟩
      obtain rfl : m = n := by omega
      exact ⟨url, shortest, rfl, by simpa using same.symm⟩
  | succ depth ih =>
    rw [visitsFrom]
    simp only [mem_append, mem_map, Visit.mk.injEq, isLevel.here, ih isLevel.next]
    constructor
    · rintro (⟨_, shortest, rfl, rfl⟩ | ⟨m, low, high, shortest, same⟩)
      · exact ⟨n, Nat.le_refl n, by omega, shortest, by simp⟩
      · refine ⟨m, by omega, by omega, shortest, ?_⟩
        rw [same]
        congr 2
        omega
    · rintro ⟨m, low, high, shortest, same⟩
      by_cases first : m = n
      · subst first
        exact .inl ⟨url, shortest, rfl, by simpa using same.symm⟩
      · refine .inr ⟨m, by omega, by omega, shortest, ?_⟩
        rw [same]
        congr 2
        omega

/-- The walk comes to a URL by a shortest chain, and goes on unless that is as long as chains may be. -/
theorem mem_visits : v ∈ visits s depth ↔ ∃ n ≤ depth, Shortest s n v.url ∧ v.follows = decide (n < depth) := by
  rw [visits, mem_visitsFrom (isLevel_root s)]
  simp

theorem mem_visits_url : url ∈ (visits s depth).map Visit.url ↔ ∃ n ≤ depth, Chain s n url := by
  rw [mem_map]
  constructor
  · rintro ⟨v, mem, rfl⟩
    obtain ⟨n, le, shortest, _⟩ := mem_visits.mp mem
    exact ⟨n, le, shortest.1⟩
  · rintro ⟨n, le, chain⟩
    obtain ⟨m, le', shortest⟩ := chain.shortest
    exact ⟨⟨url, _⟩, mem_visits.mpr ⟨m, by omega, shortest, rfl⟩, rfl⟩

theorem mem_missing : url ∈ missing s (visits s depth) ↔ s.holds url = false ∧ ∃ n ≤ depth, Chain s n url := by
  rw [missing, mem_ordered, mem_filter, mem_visits_url, and_comm, Bool.not_eq_true']

theorem mem_reached :
    url ∈ reached s (visits s depth) ↔ (s.document? url).isSome = true ∧ ∃ n ≤ depth, Chain s n url := by
  rw [reached, mem_ordered, mem_filter, mem_visits_url, and_comm]

end SemanticLayer.Session
