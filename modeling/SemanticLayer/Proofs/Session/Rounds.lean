import SemanticLayer.Proofs.Session.Reports

/-!
A session comes to an end. Whoever answers what it waits for brings it, with each answer, all documents that are
one import further from the root; after the last level only schemas are missing, and they are asked for once.
-/
namespace SemanticLayer.Session

open List

variable {settings : Settings} {s : Session} {data : Supply} {url target : String} {n k : Nat}

/-- Data that answer what a session waits for: every document comes with its text or the reason why there is
none, and every schema with what is known about it, unless no more will come. -/
def Supply.Answers (data : Supply) : Status → Prop
  | .needsDocuments urls => ∀ url ∈ urls, url ∈ data.texts.map Prod.fst ∨ url ∈ data.unreadable.map Prod.fst
  | .needsSchemas tables sqlBlocks => data.isFinal = true ∨
      (∀ r ∈ tables, r.key ∈ data.tables.map Prod.fst) ∧ ∀ r ∈ sqlBlocks, r.key ∈ data.sqlBlocks.map Prod.fst
  | .done _ => True

def afterUpdates (root : String) (data : Nat → Supply) : Nat → Session
  | 0 => start root
  | n + 1 => (afterUpdates root data n).update (data n)

/-! ### Documents -/

/-- All URLs that fewer than `k` imports lead to are held. -/
def Filled (s : Session) (k : Nat) : Prop := ∀ n < k, ∀ url, Chain s n url → s.holds url = true

theorem imports_update (held : s.holds url = true) (imports : Imports (s.update data) url target) :
    Imports s url target := by
  obtain ⟨d, found, written⟩ := imports
  rw [document?_update held] at found
  exact ⟨d, found, written⟩

theorem Filled.chain (filled : s.Filled k) (chain : Chain (s.update data) n url) (le : n ≤ k) : Chain s n url := by
  induction chain with
  | root => exact .root
  | @step n importer target before imports ih =>
    have before := ih (by omega)
    exact before.step (imports_update (filled n (by omega) importer before) imports)

theorem Filled.update (filled : s.Filled k) (data : Supply) : (s.update data).Filled k :=
  fun n less url chain => holds_update (filled n less url (filled.chain chain (by omega)))

theorem Filled.answered (filled : s.Filled k) (within : k ≤ settings.maxImportDepth)
    (answers : data.Answers (advance settings s).status) : (s.update data).Filled (k + 1) := by
  intro n less url chain
  have chain := filled.chain chain (by omega)
  cases held : s.holds url with
  | true => exact holds_update held
  | false =>
    have missed : url ∈ missing s (visits s settings.maxImportDepth) := mem_missing.mpr ⟨held, n, by omega, chain⟩
    rw [advance_needsDocuments.mpr ⟨ne_nil_of_mem missed, rfl⟩] at answers
    exact holds_supplied (answers url missed)

/-- Nothing is missing exactly if all that chains of imports lead to is held. -/
theorem missing_eq_nil : missing s (visits s n) = [] ↔ s.Filled (n + 1) := by
  rw [eq_nil_iff_forall_not_mem]
  constructor
  · intro none m less url chain
    by_contra unheld
    exact none url (mem_missing.mpr ⟨Bool.eq_false_iff.mpr unheld, m, by omega, chain⟩)
  · intro filled url missed
    obtain ⟨unheld, m, le, chain⟩ := mem_missing.mp missed
    rw [filled m (by omega) url chain] at unheld
    cases unheld

/-! ### Schemas -/

theorem lookup_addSchemas_isSome (known : (table.lookup key).isSome = true ∨ key ∈ schemas.map Prod.fst) :
    ((addSchemas table schemas).lookup key).isSome = true := by
  rw [lookup_addSchemas, Option.isSome_or, Bool.or_eq_true]
  rcases known with known | given
  · exact .inr known
  · obtain ⟨item, mem, rfl⟩ := mem_map.mp given
    exact .inl (lookup_isSome_iff.mpr ⟨item, mem_reverse.mpr mem, beq_self_eq_true _⟩)

theorem HasRequests.update (requests : HasRequests s d) (data : Supply) : HasRequests (s.update data) d :=
  ⟨fun r mem => lookup_addSchemas_isSome (.inl (requests.1 r mem)),
    fun r mem => lookup_addSchemas_isSome (.inl (requests.2 r mem))⟩

/-- The documents that are reached have the schemas that they request, or no more will come. -/
def Equipped (s : Session) (depth : Nat) : Prop :=
  s.isFinal = true ∨ ∀ url ∈ reached s (visits s depth), ∀ d, s.document? url = some d → HasRequests s d

theorem reached_update (filled : s.Filled (n + 1)) (mem : url ∈ reached (s.update data) (visits (s.update data) n)) :
    url ∈ reached s (visits s n) ∧ (s.update data).document? url = s.document? url := by
  obtain ⟨held, m, le, chain⟩ := mem_reached.mp mem
  have chain := filled.chain chain (by omega)
  have same : (s.update data).document? url = s.document? url := document?_update (filled m (by omega) url chain)
  rw [same] at held
  exact ⟨mem_reached.mpr ⟨held, m, le, chain⟩, same⟩

theorem Equipped.update (filled : s.Filled (n + 1)) (equipped : s.Equipped n) (data : Supply) :
    (s.update data).Equipped n := by
  rcases equipped with final | requests
  · exact .inl (Bool.or_eq_true _ _ ▸ .inl final)
  · refine .inr fun url mem d found => ?_
    obtain ⟨mem, same⟩ := reached_update filled mem
    exact (requests url mem d (same ▸ found)).update data

theorem mem_needed {α : Type} [Ord α] [DecidableEq α] {urls : List String} {lists : Document → List α}
    {needed : α → Bool} {a : α} :
    a ∈ ordered (((urls.filterMap s.document?).flatMap lists).filter needed) ↔
      (∃ url ∈ urls, ∃ d, s.document? url = some d ∧ a ∈ lists d) ∧ needed a = true := by
  simp only [mem_ordered, mem_filter, mem_flatMap, mem_filterMap]
  refine and_congr_left fun _ => ?_
  constructor
  · rintro ⟨d, ⟨url, given, held⟩, mem⟩
    exact ⟨url, given, d, held, mem⟩
  · rintro ⟨url, given, d, held, mem⟩
    exact ⟨d, ⟨url, given, held⟩, mem⟩

theorem HasRequests.answered (given : url ∈ urls) (held : s.document? url = some d)
    (tables : ∀ r ∈ neededTables s urls, r.key ∈ data.tables.map Prod.fst)
    (sqlBlocks : ∀ r ∈ neededSqlBlocks s urls, r.key ∈ data.sqlBlocks.map Prod.fst) :
    HasRequests (s.update data) d := by
  refine ⟨fun r mem => lookup_addSchemas_isSome ?_, fun r mem => lookup_addSchemas_isSome ?_⟩
  · cases known : s.catalog.tables.lookup r.key with
    | some entry => exact .inl rfl
    | none => exact .inr (tables r (mem_needed.mpr ⟨⟨url, given, d, held, mem⟩, by rw [known]; rfl⟩))
  · cases known : s.catalog.sqlBlocks.lookup r.key with
    | some entry => exact .inl rfl
    | none => exact .inr (sqlBlocks r (mem_needed.mpr ⟨⟨url, given, d, held, mem⟩, by rw [known]; rfl⟩))

theorem needed_eq_nil : neededTables s urls = [] ∧ neededSqlBlocks s urls = [] ↔
    ∀ url ∈ urls, ∀ d, s.document? url = some d → HasRequests s d := by
  constructor
  · rintro ⟨tables, sqlBlocks⟩ url mem d held
    exact hasRequests (isEmpty_iff.mpr tables) (isEmpty_iff.mpr sqlBlocks) mem held
  · intro requests
    simp only [eq_nil_iff_forall_not_mem, neededTables, neededSqlBlocks, mem_needed]
    constructor
    · rintro r ⟨⟨url, given, d, held, mem⟩, unknown⟩
      have known := (requests url given d held).1 r mem
      rw [Option.isNone_iff_eq_none.mp unknown] at known
      cases known
    · rintro r ⟨⟨url, given, d, held, mem⟩, unknown⟩
      have known := (requests url given d held).2 r mem
      rw [Option.isNone_iff_eq_none.mp unknown] at known
      cases known

/-! ### Rounds -/

theorem advance_filled (filled : s.Filled (settings.maxImportDepth + 1)) :
    s.Equipped settings.maxImportDepth ∧ (∃ model, (advance settings s).status = .done model) ∨
      (advance settings s).status = .needsSchemas
        (neededTables s (reached s (visits s settings.maxImportDepth)))
        (neededSqlBlocks s (reached s (visits s settings.maxImportDepth))) ∧ ¬s.Equipped settings.maxImportDepth := by
  have equipped : s.Equipped settings.maxImportDepth ↔
      (!s.isFinal && !((neededTables s (reached s (visits s settings.maxImportDepth))).isEmpty &&
        (neededSqlBlocks s (reached s (visits s settings.maxImportDepth))).isEmpty)) = false := by
    rw [Equipped, ← needed_eq_nil]
    cases s.isFinal <;> simp
  unfold advance
  simp only [missing_eq_nil.mpr filled]
  split
  · next waits => exact .inr ⟨rfl, fun has => by rw [equipped.mp has] at waits; cases waits⟩
  · next has => exact .inl ⟨equipped.mpr (Bool.eq_false_iff.mpr has), _, rfl⟩

theorem Filled.equipped (filled : s.Filled (settings.maxImportDepth + 1))
    (answers : data.Answers (advance settings s).status) : (s.update data).Equipped settings.maxImportDepth := by
  rcases advance_filled filled with ⟨equipped, _⟩ | ⟨waits, _⟩
  · exact equipped.update filled data
  · rw [waits] at answers
    rcases answers with final | ⟨tables, sqlBlocks⟩
    · exact .inl (Bool.or_eq_true _ _ ▸ .inr final)
    · refine .inr fun url mem d found => ?_
      obtain ⟨mem, same⟩ := reached_update filled mem
      exact .answered mem (same ▸ found) tables sqlBlocks

theorem afterUpdates_filled {root : String} {data : Nat → Supply} (le : n ≤ m)
    (filled : (afterUpdates root data n).Filled k) : (afterUpdates root data m).Filled k := by
  induction le with
  | refl => exact filled
  | step _ ih => exact ih.update _

/-- A caller that answers what the session waits for, whatever else it supplies, needs one answer for each level of
documents and one for the schemas: after these the session is done, and stays so. -/
theorem answered_session_ends (settings : Settings) (root : String) (data : Nat → Supply)
    (answers : ∀ n, (data n).Answers (advance settings (afterUpdates root data n)).status) :
    ∃ n ≤ settings.maxImportDepth + 2, ∀ m ≥ n, ∃ model,
      (advance settings (afterUpdates root data m)).status = .done model := by
  have levels : ∀ k ≤ settings.maxImportDepth + 1, (afterUpdates root data k).Filled k := by
    intro k
    induction k with
    | zero => exact fun _ n less => absurd less (Nat.not_lt_zero n)
    | succ k ih => exact fun le => (ih (by omega)).answered (by omega) (answers k)
  have documents : ∀ m ≥ settings.maxImportDepth + 1,
      (afterUpdates root data m).Filled (settings.maxImportDepth + 1) :=
    fun m le => afterUpdates_filled le (levels _ (Nat.le_refl _))
  refine ⟨settings.maxImportDepth + 2, Nat.le_refl _, fun m le => ?_⟩
  obtain ⟨m, rfl⟩ : ∃ k, m = k + 1 := ⟨m - 1, by omega⟩
  have before := documents m (by omega)
  rcases advance_filled (documents (m + 1) (by omega)) with ⟨_, done⟩ | ⟨_, lacks⟩
  · exact done
  · exact (lacks (before.equipped (answers m))).elim

theorem answers_simply
    (simple : (∃ url ∈ data.texts.map Prod.fst, missing s (visits s settings.maxImportDepth) = [url]) ∨
      data.isFinal = true ∧ s.Filled (settings.maxImportDepth + 1)) : data.Answers (advance settings s).status := by
  rcases simple with ⟨url, given, missed⟩ | ⟨final, filled⟩
  · rw [advance_needsDocuments.mpr ⟨cons_ne_nil _ _, missed⟩]
    exact forall_mem_singleton.mpr (.inl given)
  · rcases advance_filled filled with ⟨_, model, done⟩ | ⟨needed, _⟩
    · rw [done]
      trivial
    · rw [needed]
      exact .inl final

/-- Two documents that import each other come one after the other; the schema of a table never comes. -/
def mutualImports : Nat → Supply
  | 0 => { Supply.empty with
      texts := [("file:///a.model", "\x7b\"statements\":[\x7b\"type\":\"import\",\"url\":\"b.model\"\x7d]\x7d")] }
  | 1 => { Supply.empty with
      texts := [("file:///b.model", "\x7b\"statements\":[\x7b\"type\":\"import\",\"url\":\"a.model\"\x7d,\x7b\"type\":\"source\"," ++
        "\"name\":\x7b\"node\":\"t\"\x7d,\"source\":\x7b\"type\":\"table\",\"path\":\"t\"\x7d\x7d]\x7d")] }
  | _ => { Supply.empty with isFinal := true }

theorem mutualImports_end :
    (∀ n, (mutualImports n).Answers (advance .standard (afterUpdates "file:///a.model" mutualImports n)).status) ∧
    ∃ n ≤ 18, ∀ m ≥ n, ∃ model,
      (advance .standard (afterUpdates "file:///a.model" mutualImports m)).status = .done model := by
  have filled : (afterUpdates "file:///a.model" mutualImports 2).Filled (Settings.standard.maxImportDepth + 1) :=
    missing_eq_nil.mp (by decide +kernel)
  have answers : ∀ n, (mutualImports n).Answers
      (advance .standard (afterUpdates "file:///a.model" mutualImports n)).status := by
    refine fun n => answers_simply ?_
    rcases n with _ | _ | n
    · exact .inl ⟨"file:///a.model", .head _, by decide +kernel⟩
    · exact .inl ⟨"file:///b.model", .head _, by decide +kernel⟩
    · exact .inr ⟨rfl, afterUpdates_filled (Nat.le_add_left 2 n) filled⟩
  exact ⟨answers, answered_session_ends .standard "file:///a.model" mutualImports answers⟩

end SemanticLayer.Session
