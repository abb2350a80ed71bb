import SemanticLayer.Elaborate.Expr
import SemanticLayer.Proofs.Model.Parts

/-!
What elaborating an expression keeps, whatever the names of the expression stand for. A discipline says
how the state behind the names may change and which faults may come out; a judgement is a property of
typed expressions that every rule for putting expressions together passes on. Looking names up is the only
place where the state changes, so a judgement that holds of what names refer to holds of all expressions.
-/
namespace SemanticLayer

open List hiding span

namespace Fault

/-- A fault of what is elaborated itself: it echoes no other one, and tells of nothing outside the document. -/
def isOwn : Fault → Bool
  | invalidReference _ | missingSchema _ | schemaFailed _ _ => false
  | importFailed _ _ | importCycle _ | importTooDeep _ _ => false
  | _ => true

theorem isCascade_of_own {fault : Fault} (own : fault.isOwn = true) : fault.isCascade = false := by
  cases fault <;> first | rfl | cases own

end Fault

namespace Elaborate

/-- Other faults than those of what is elaborated are admitted by the state alone. -/
structure Discipline (σ : Type) where
  Holds : σ → Prop
  Grows : σ → σ → Prop
  Admits : σ → Fault → Prop
  grows_refl : ∀ s, Grows s s
  grows_trans : ∀ {s t u}, Grows s t → Grows t u → Grows s u
  admits_own : ∀ s {fault}, fault.isOwn = true → Admits s fault

variable {σ α β ε : Type}

/-- A value has a property, and a fault is one of some faults. -/
def Yields (Faults : ε → Prop) (result : Except ε α) (post : α → Prop) : Prop :=
  match result with
  | .ok a => post a
  | .error f => Faults f

section Results

variable {Faults : ε → Prop} {result : Except ε α} {Q post : α → Prop}

theorem Yields.bind {next : α → Except ε β} {post : β → Prop} (first : Yields Faults result Q)
    (rest : ∀ a, Q a → Yields Faults (next a) post) : Yields Faults (result >>= next) post := by
  cases result with
  | error f => exact first
  | ok a => exact rest a first

theorem Yields.map {f : α → β} {post : β → Prop} (first : Yields Faults result Q) (image : ∀ a, Q a → post (f a)) :
    Yields Faults (result.map f) post := by
  cases result with
  | error f => exact first
  | ok a => exact image a first

theorem Yields.weaken {More : ε → Prop} (first : Yields Faults result Q) (faults : ∀ f, Faults f → More f)
    (image : ∀ a, Q a → post a) : Yields More result post := by
  cases result with
  | error f => exact faults f first
  | ok a => exact image a first

theorem Yields.value (yields : Yields Faults result post) (h : result = .ok a) : post a := by
  rw [h] at yields
  exact yields

theorem Yields.fault (yields : Yields Faults result post) (h : result = .error f) : Faults f := by
  rw [h] at yields
  exact yields

theorem Yields.named (yields : Yields Faults result post) : Yields Faults result fun a => result = .ok a := by
  cases result with
  | error f => exact yields
  | ok a => rfl

theorem Yields.mapM {γ : Type} {f : γ → Except ε α} (items : List γ) (each : ∀ x, Yields Faults (f x) post) :
    Yields Faults (items.mapM f) fun as => ∀ a ∈ as, post a := by
  induction items with
  | nil => exact forall_mem_nil _
  | cons x rest ih =>
    rw [mapM_cons]
    refine (each x).bind fun a here => ih.bind fun as later => ?_
    exact forall_mem_cons.mpr ⟨here, later⟩

end Results

abbrev Own (result : Except Fault α) (post : α → Prop) : Prop := Yields (fun fault => fault.isOwn = true) result post

/-- Run from a state of a discipline, an action keeps the discipline, and what it gives has a property. -/
def Leaves (D : Discipline σ) (s : σ) (action : StateM σ α) (post : σ → α → Prop) : Prop :=
  D.Holds s → D.Holds (action.run s).2 ∧ D.Grows s (action.run s).2 ∧ post (action.run s).2 (action.run s).1

abbrev Ensures (D : Discipline σ) (s : σ) (action : M σ α) (post : σ → α → Prop) : Prop :=
  Leaves D s action.run fun t result => Yields (fun f => D.Admits t f.fault) result (post t)

section Rules

variable {D : Discipline σ} {s : σ}

theorem leaves_pure {a : α} {post : σ → α → Prop} (value : post s a) : Leaves D s (pure a) post :=
  fun holds => ⟨holds, D.grows_refl s, value⟩

theorem leaves_bind {action : StateM σ α} {f : α → StateM σ β} {Q : σ → α → Prop} {post : σ → β → Prop}
    (first : Leaves D s action Q) (rest : ∀ t a, D.Grows s t → Q t a → Leaves D t (f a) post) :
    Leaves D s (action >>= f) post := by
  intro holds
  obtain ⟨holds, grows, value⟩ := first holds
  obtain ⟨holds, grows', value⟩ := rest _ _ grows value holds
  exact ⟨holds, D.grows_trans grows grows', value⟩

theorem leaves_weaken {action : StateM σ α} {Q post : σ → α → Prop} (first : Leaves D s action Q)
    (image : ∀ t a, D.Holds t → D.Grows s t → Q t a → post t a) : Leaves D s action post := by
  intro holds
  obtain ⟨holds, grows, value⟩ := first holds
  exact ⟨holds, grows, image _ _ holds grows value⟩

theorem leaves_get {f : σ → StateM σ α} {post : σ → α → Prop} (rest : Leaves D s (f s) post) :
    Leaves D s (get >>= f) post :=
  rest

variable {post : σ → α → Prop} {action : M σ α}

theorem ensures_pure {a : α} (value : post s a) : Ensures D s (pure a) post := leaves_pure value

theorem ensures_throw (admitted : D.Admits s f.fault) : Ensures D s (throw f) post := leaves_pure admitted

theorem run_bind (action : M σ α) (next : α → M σ β) (s : σ) :
    (action >>= next).run.run s = match action.run.run s with
      | (.ok a, t) => (next a).run.run t
      | (.error f, t) => (.error f, t) := by
  simp only [ExceptT.run_bind, StateT.run_bind]
  rcases action.run.run s with ⟨_ | _, t⟩ <;> rfl

theorem ensures_bind {next : α → M σ β} {Q : σ → α → Prop} {post : σ → β → Prop} (first : Ensures D s action Q)
    (rest : ∀ t a, D.Grows s t → Q t a → Ensures D t (next a) post) : Ensures D s (action >>= next) post := by
  refine leaves_bind (f := ExceptT.bindCont next) first fun t result grows yields => ?_
  cases result with
  | error f => exact leaves_pure yields
  | ok a => exact rest t a grows yields

theorem ensures_lift {action : StateM σ α} (first : Leaves D s action post) :
    Ensures D s (ExceptT.lift action) post :=
  first

theorem ensures_map {f : α → β} {Q : σ → α → Prop} {post : σ → β → Prop} (first : Ensures D s action Q)
    (image : ∀ t a, Q t a → post t (f a)) : Ensures D s (do return f (← action)) post :=
  ensures_bind first fun t a _ value => ensures_pure (image t a value)

theorem ensures_weaken {wider : σ → α → Prop} (first : Ensures D s action post)
    (image : ∀ t a, D.Grows s t → post t a → wider t a) : Ensures D s action wider :=
  leaves_weaken first fun t _ _ grows yields => yields.weaken (fun _ h => h) fun a => image t a grows

theorem ensures_fail (c : Context σ) {fault : Fault} (own : fault.isOwn = true) :
    Ensures D s (c.fail span fault) post :=
  ensures_throw (D.admits_own s own)

theorem ensures_located (c : Context σ) {result : Except Fault α} (own : Own result (post s)) :
    Ensures D s (c.located span result) post := by
  cases result with
  | ok a => exact ensures_pure own
  | error fault => exact ensures_fail c own

theorem ensures_own (c : Context σ) {result : Except Fault α} {post : α → Prop} (own : Own result post) :
    Ensures D s (c.located span result) fun _ => post :=
  ensures_located c own

theorem ensures_guard [Decidable bad] {next : M σ α} (own : f.fault.isOwn = true)
    (rest : ¬bad → Ensures D s next post) :
    Ensures D s (do if bad then throw f
                    next) post := by
  by_cases h : bad
  · rw [if_pos h]
    refine ensures_bind (Q := fun _ _ => False) (ensures_throw (D.admits_own s own)) ?_
    exact fun t a _ impossible => impossible.elim
  · rw [if_neg h]
    exact rest h

theorem ensures_unless (c : Context σ) {fault : Fault} {next : M σ α} (own : fault.isOwn = true)
    (rest : bad = false → Ensures D s next post) :
    Ensures D s (do if bad then c.fail span fault
                    next) post :=
  ensures_guard own fun good => rest (by simpa using good)

theorem ensures_mapM {γ : Type} {f : γ → M σ α} {post : α → Prop} (items : List γ)
    (each : ∀ x ∈ items, ∀ t, Ensures D t (f x) fun _ => post) :
    Ensures D s (items.mapM f) fun _ as => ∀ a ∈ as, post a := by
  induction items generalizing s with
  | nil =>
    exact ensures_pure (by simp)
  | cons x rest ih =>
    rw [mapM_cons]
    refine ensures_bind (each x mem_cons_self s) fun t a _ here => ?_
    refine ensures_bind (ih fun y mem => each y (mem_cons_of_mem _ mem)) fun u as _ later => ?_
    exact ensures_pure (forall_mem_cons.mpr ⟨here, later⟩)

theorem ensures_foldlM {γ : Type} {f : α → γ → M σ α} {P : α → Prop} (items : List γ) {a : α}
    (each : ∀ x ∈ items, ∀ t b, P b → Ensures D t (f b x) fun _ => P) (start : P a) :
    Ensures D s (items.foldlM f a) fun _ => P := by
  induction items generalizing s a with
  | nil => exact ensures_pure start
  | cons x rest ih =>
    refine ensures_bind (each x mem_cons_self s a start) fun t b _ here => ?_
    exact ih (fun y mem => each y (mem_cons_of_mem _ mem)) here

def Discipline.admitting (D : Discipline σ) (extra : Fault → Prop) : Discipline σ :=
  { D with
    Admits := fun s fault => D.Admits s fault ∨ extra fault
    admits_own := fun s _ own => .inl (D.admits_own s own) }

theorem ensures_admitting (first : Ensures D s action post) : Ensures (D.admitting extra) s action post :=
  fun holds => have ⟨holds, grows, yields⟩ := first holds
  ⟨holds, grows, yields.weaken (fun _ h => .inl h) fun _ h => h⟩

end Rules

/-- A property of typed expressions that all rules pass on, and that the growth of the state keeps.
`Refers` says what is known of a reference, and `Reaches` holds of the paths at which an aggregate can be
computed. -/
structure Judgement (Grows : σ → σ → Prop) where
  Good : σ → Typed → Prop
  Refers : σ → List String → Reference → Prop
  Reaches : List String → Prop
  stable : ∀ {s t e}, Grows s t → Good s e → Good t e
  literal : ∀ s l, Good s (.ofLiteral l)
  now : ∀ s, Good s (.scalar .now .timestamp)
  reference : ∀ {s path r}, Refers s path r → ∀ text, Own (Typed.ofReference path text r) (Good s)
  joined : ∀ {s path r source}, Refers s path r → r.shape = .join source → Reaches path
  deepest : ∀ {s e}, Good s e → Own (Typed.locality e.reads) Reaches
  base : Reaches []
  wrap : ∀ {s a x type}, Good s a → x.isOperation = true → x.parts = [a.expr] →
    Good s { a with expr := x, type := type }
  build : ∀ {s x parts}, (∀ part ∈ parts, Good s part) → x.isOperation = true →
    x.parts = parts.map Typed.expr → ∀ type, Own (Typed.build x type parts) (Good s)
  aggregate : ∀ {s function path arg type}, (∀ a ∈ arg, Good s a ∧ a.isAggregate = false) →
    arg.isSome = true ∨ function = .count → Reaches path → Good s (.aggregate function path arg type)
  filtered : ∀ {s a conditions}, Good s a → a.isAggregate = true →
    (∀ e ∈ conditions, Good s e ∧ e.isAggregate = false) → Good s (a.filtered conditions)
  ungroup : ∀ {s a}, Good s a → ∀ kind fields, Own (Typed.ungroup kind fields a) (Good s)

/-- Looking a name up keeps the discipline, and what it refers to is known. -/
def Finds (D : Discipline σ) (J : Judgement D.Grows) (c : Context σ) : Prop :=
  ∀ s path, Leaves D s (c.find path) fun t result => Yields (D.Admits t) result (J.Refers t path)

section Expressions

variable {D : Discipline σ} {J : Judgement D.Grows} {c : Context σ} {s : σ}

theorem refer_ensures (finds : Finds D J c) (path : Document.FieldPath) :
    Ensures D s (c.refer path) fun t => J.Refers t path.names := by
  refine ensures_bind (ensures_lift (finds s path.names)) fun t result _ yields => ?_
  cases result with
  | error f => exact ensures_throw yields
  | ok r => exact ensures_pure yields

/-! Whatever a rule for typed expressions complains about is its own, and what it makes has the judgement. -/

theorem requireTemporal_own (operation : String) (t : Typed) : Own (Typed.requireTemporal operation t) fun _ => True := by
  unfold Typed.requireTemporal
  split
  · trivial
  · rfl

theorem aggregateType_own (function : AggregateFunction) (arg : Option Typed) :
    Own (Typed.aggregateType function arg) fun _ => arg.isSome = true ∨ function = .count := by
  cases function <;> cases arg <;> simp only [Typed.aggregateType]
  case sum.some | avg.some =>
    split
    · exact .inl rfl
    · rfl
  case sum.none | avg.none | min.none | max.none | countDistinct.none => rfl
  case count.none => exact .inr trivial
  all_goals exact .inl rfl

theorem pickType_own (type : AtomicType) (value : Typed) : Own (Typed.pickType type value) fun _ => True := by
  unfold Typed.pickType
  split
  · trivial
  · rfl

theorem pair_good {l r : Typed} (left : J.Good s l) (right : J.Good s r) (operation : x.isOperation = true)
    (same : x.parts = [l.expr, r.expr]) (type : AtomicType) : Own (Typed.build x type [l, r]) (J.Good s) :=
  J.build (forall_mem_cons.mpr ⟨left, forall_mem_singleton.mpr right⟩) operation same type

section

variable (good : J.Good s a)

include good

theorem unary_good (op : UnaryOp) : Own (Typed.unary op a) (J.Good s) := by
  cases op <;> simp only [Typed.unary] <;> split
  case not.isTrue | neg.isTrue => exact J.wrap good rfl rfl
  all_goals rfl

theorem truncate_good (unit : TimeUnit) : Own (Typed.truncate unit a) (J.Good s) := by
  refine (requireTemporal_own _ a).bind fun _ _ => ?_
  split
  · rfl
  · exact J.wrap good rfl rfl

theorem extract_good (unit : ExtractUnit) : Own (Typed.extract unit a) (J.Good s) :=
  (requireTemporal_own _ a).bind fun _ _ => J.wrap good rfl rfl

theorem widened_good (other : Typed) : J.Good s { a with expr := a.widened other } := by
  unfold Typed.widened
  split
  · exact J.wrap good rfl rfl
  · exact good

theorem rowCondition_good : Own a.rowCondition fun e => J.Good s e ∧ e.isAggregate = false := by
  unfold Typed.rowCondition
  split
  · rfl
  · next scalar =>
    split
    · exact ⟨good, by simpa using scalar⟩
    · rfl

end

section

variable (left : J.Good s l) (right : J.Good s r)

include left right

theorem compare_good (op : BinaryOp) : Own (Typed.compare op l r) (J.Good s) := by
  have same (x a b : Expr) : Typed.build x .boolean [{ l with expr := a }, { r with expr := b }] =
      Typed.build x .boolean [l, r] := by
    obtain ⟨_, _, _ | _, _, _⟩ := l <;> obtain ⟨_, _, _ | _, _, _⟩ := r <;> rfl
  unfold Typed.compare
  split
  · rw [← same]
    exact pair_good (widened_good left r) (widened_good right l) rfl rfl .boolean
  · rfl

theorem uniform_good (op : BinaryOp) (wanted result : AtomicType) :
    Own (Typed.uniform op wanted result l r) (J.Good s) := by
  unfold Typed.uniform
  split
  · exact pair_good left right rfl rfl _
  · rfl

theorem binary_good (op : BinaryOp) : Own (Typed.binary op l r) (J.Good s) := by
  cases op <;> simp only [Typed.binary]
  case coalesce =>
    split
    · exact pair_good left right rfl rfl _
    · rfl
  case eq | ne | lt | lte | gt | gte => exact compare_good left right _
  all_goals exact uniform_good left right _ _ _

theorem offset_good (unit : TimeUnit) (subtract : Bool) : Own (Typed.offset l r unit subtract) (J.Good s) := by
  unfold Typed.offset
  split
  · exact pair_good left right rfl rfl _
  · rfl

end

theorem arms_parts (arms : List (Typed × Typed)) :
    ((arms.map fun (condition, value) => (condition.expr, value.expr)).flatMap fun arm => [arm.1, arm.2]) =
      (arms.flatMap fun (condition, value) => [condition, value]).map Typed.expr := by
  induction arms with
  | nil => rfl
  | cons arm rest ih =>
    rw [map_cons, flatMap_cons, ih, flatMap_cons]
    rfl

theorem pick_good (goods : ∀ arm ∈ arms, J.Good s arm.1 ∧ J.Good s arm.2)
    (good : ∀ a ∈ otherwise, J.Good s a) (type : AtomicType) : Own (Typed.pick arms otherwise type) (J.Good s) := by
  refine J.build (fun part mem => ?_) rfl ?_ type
  · rcases mem_append.mp mem with mem | mem
    · obtain ⟨arm, given, mem⟩ := mem_flatMap.mp mem
      rcases mem_pair.mp mem with rfl | rfl
      · exact (goods arm given).1
      · exact (goods arm given).2
    · exact good part (Option.mem_toList.mp mem)
  · rw [Expr.parts, map_append, arms_parts]
    cases otherwise <;> rfl

theorem halfOpen_good {value start stop : Typed} (good : J.Good s value) (lower : J.Good s start)
    (upper : J.Good s stop) : Own (value.halfOpen start stop) (J.Good s) :=
  (compare_good good lower _).bind fun _ first => (compare_good good upper _).bind fun _ second =>
    pair_good first second rfl rfl _

theorem matchesTime_good (good : J.Good s value) (l : Literal) (unit : TimeUnit) :
    Own (value.matchesTime l unit) (J.Good s) := by
  cases unit
  case second => exact compare_good good (J.literal s l) _
  all_goals
    refine halfOpen_good good (J.literal s l) ?_
    exact pair_good (J.literal s l) (J.literal s (.number "1")) rfl rfl _

theorem timeLiteral_ensures (text : String) (span : Span) :
    Ensures D s (timeLiteral c text span) fun _ _ => True := by
  unfold timeLiteral
  split
  · exact ensures_pure trivial
  · exact ensures_fail c rfl

theorem moved_ensures {amount : M σ Typed} (span : Span) (unit : TimeUnit) (backwards : Bool) (good : J.Good s base)
    (amounts : ∀ t, Ensures D t amount J.Good) : Ensures D s (moved c span base amount unit backwards) J.Good := by
  refine ensures_bind (ensures_own c (requireTemporal_own _ _)) fun t _ grows _ => ?_
  refine ensures_bind (amounts t) fun u e grows' good' => ?_
  exact ensures_located c (offset_good (J.stable (D.grows_trans grows grows') good) good' _ _)

variable (finds : Finds D J c)

include finds

theorem joinLocality_ensures (path : Document.FieldPath) : Ensures D s (joinLocality c path) fun _ => J.Reaches := by
  refine ensures_bind (refer_ensures finds path) fun t r _ refers => ?_
  split
  · next source shape => exact ensures_pure (J.joined refers shape)
  · exact ensures_fail c rfl

theorem aggregateOf_ensures (function : AggregateFunction) (source : Option Document.FieldPath) (arg : Option Typed)
    (span : Span) (good : ∀ a ∈ arg, J.Good s a) : Ensures D s (aggregateOf c function source arg span) J.Good := by
  refine ensures_unless c rfl fun scalar => ?_
  refine ensures_bind (ensures_own c (aggregateType_own _ _)) fun t type grows argued => ?_
  have finish : ∀ u path, D.Grows t u → J.Reaches path →
      Ensures D u (pure (.aggregate (Typed.effectiveFunction function arg) path arg type)) J.Good := by
    intro u path grows' reaches
    refine ensures_pure (J.aggregate (fun a mem => ⟨J.stable (D.grows_trans grows grows') (good a mem), ?_⟩) argued reaches)
    cases mem
    exact scalar
  cases source with
  | some path => exact ensures_bind (joinLocality_ensures finds path) finish
  | none =>
    cases arg with
    | none => exact ensures_bind (ensures_pure J.base) finish
    | some a => exact ensures_bind (ensures_located c (J.deepest (good a rfl))) finish

-- within the recursion the linter does not see that the names are found
set_option linter.unusedSectionVars false

mutual

/-- Every elaborated expression has the judgement. -/
theorem expr_ensures : ∀ (e : Document.Expr) (s : σ), Ensures D s (expr c e) J.Good
  | ⟨kind, span⟩, s => by
    exact exprKind_ensures span kind s

theorem exprKind_ensures (span : Span) : ∀ (kind : Document.ExprKind) (s : σ),
    Ensures D s (exprKind c span kind) J.Good
  | .number _, s | .string _, s | .boolean _, s | .null, s => by rw [exprKind]; exact ensures_pure (J.literal s _)
  | .time text, s => by
    exact ensures_bind (timeLiteral_ensures text span) fun t a _ _ => ensures_pure (J.literal t _)
  | .now, s => by rw [exprKind]; exact ensures_pure (J.now s)
  | .field path, s => by
    refine ensures_bind (refer_ensures finds path) fun t r _ refers => ?_
    exact ensures_located c (J.reference refers _)
  | .unary op operand, s => by
    exact ensures_bind (expr_ensures operand s) fun t a _ good => ensures_located c (unary_good good _)
  | .binary op left right, s => by
    refine ensures_bind (expr_ensures left s) fun t l _ good => ?_
    split
    · exact ensures_pure (J.wrap good rfl rfl)
    · exact operation_ensures span op l right t good
  | .aggregate function source arg, s => by
    refine ensures_bind (exprOption_ensures arg s) fun t a _ good => ?_
    exact aggregateOf_ensures finds function source a span good
  | .filtered inner filters, s => by
    refine ensures_bind (expr_ensures inner s) fun t a _ good => ?_
    refine ensures_unless c rfl fun aggregate => ?_
    refine ensures_bind (conditions_ensures filters t) fun u es grows goods => ?_
    exact ensures_pure (J.filtered (J.stable grows good) (by simpa using aggregate) goods)
  | .pick arms otherwise, s => by
    refine ensures_bind (pickArms_ensures arms .null s) fun t arms' _ goods => ?_
    refine ensures_bind (pickOtherwise_ensures otherwise arms'.2 t) fun u other grows good => ?_
    refine ensures_located c (pick_good (fun arm mem => ?_) good _)
    exact ⟨J.stable grows (goods arm mem).1, J.stable grows (goods arm mem).2⟩
  | .cast inner _ _, s | .isNull inner _, s => by
    exact ensures_map (expr_ensures inner s) fun t a good => J.wrap good rfl rfl
  | .truncate inner unit, s => by
    exact ensures_bind (expr_ensures inner s) fun t a _ good => ensures_located c (truncate_good good _)
  | .extract unit inner, s => by
    exact ensures_bind (expr_ensures inner s) fun t a _ good => ensures_located c (extract_good good _)
  | .duration _ _, s | .range _ _, s => by rw [exprKind]; exact ensures_fail c rfl
  | .apply value pattern, s => by
    exact ensures_bind (expr_ensures value s) fun t a _ good => matching_ensures pattern a t good
  | .isIn inner values negated, s => by
    refine ensures_bind (expr_ensures inner s) fun t a _ good => ?_
    refine ensures_bind (members_ensures a values t) fun u vs grows goods => ?_
    exact ensures_located c (J.build (forall_mem_cons.mpr ⟨J.stable grows good, goods⟩) rfl rfl _)
  | .ungroup kind inner fields, s => by
    exact ensures_bind (expr_ensures inner s) fun t a _ good => ensures_located c (J.ungroup good _ _)
  | .call name args, s => by
    rw [exprKind]
    split
    · exact ensures_fail c rfl
    · refine ensures_unless c rfl fun _ => ?_
      exact ensures_bind (exprList_ensures args s) fun t as _ goods => ensures_located c (J.build goods rfl rfl _)

theorem operation_ensures (span : Span) (op : BinaryOp) (l : Typed) :
    ∀ (e : Document.Expr) (s : σ), J.Good s l → Ensures D s (operation c span op l e) J.Good
  | ⟨kind, rightSpan⟩, s, left => by
    have plain : Ensures D s (do c.located span (Typed.binary op l (← exprKind c rightSpan kind))) J.Good := by
      refine ensures_bind (exprKind_ensures rightSpan kind s) fun t r grows right => ?_
      exact ensures_located c (binary_good (J.stable grows left) right _)
    cases kind
    case duration amount unit =>
      rw [operation]
      split
      · exact moved_ensures span unit _ left (expr_ensures amount)
      · exact ensures_fail c rfl
    all_goals
      rw [operation]
      · exact plain
      · simp

theorem matching_ensures : ∀ (e : Document.Expr) (value : Typed) (s : σ), J.Good s value →
    Ensures D s (matching c value e) J.Good
  | ⟨kind, span⟩, value, s, good => by
    have plain : Ensures D s (do c.located span (Typed.compare .eq value (← exprKind c span kind))) J.Good := by
      refine ensures_bind (exprKind_ensures span kind s) fun t other grows goodOther => ?_
      exact ensures_located c (compare_good (J.stable grows good) goodOther _)
    cases kind
    case range start stop =>
      refine ensures_bind (expr_ensures start s) fun t lower grows goodLower => ?_
      refine ensures_bind (rangeStop_ensures span lower stop t goodLower) fun u upper grows' goodUpper => ?_
      exact ensures_located c (halfOpen_good (J.stable (D.grows_trans grows grows') good) (J.stable grows' goodLower)
        goodUpper)
    case time text =>
      refine ensures_bind (timeLiteral_ensures text span) fun t a grows _ => ?_
      exact ensures_located c (matchesTime_good (J.stable grows good) _ _)
    case null =>
      exact ensures_pure (J.wrap good rfl rfl)
    case binary op left right =>
      cases op
      case and | or =>
        refine ensures_bind (matching_ensures left value s good) fun t l grows goodLeft => ?_
        refine ensures_bind (matching_ensures right value t (J.stable grows good)) fun u r grows' goodRight => ?_
        exact ensures_located c (pair_good (J.stable grows' goodLeft) goodRight rfl rfl _)
      all_goals exact plain
    all_goals exact plain

theorem rangeStop_ensures (span : Span) (start : Typed) : ∀ (e : Document.Expr) (s : σ), J.Good s start →
    Ensures D s (rangeStop c span start e) J.Good
  | ⟨kind, stopSpan⟩, s, good => by
    have plain := exprKind_ensures stopSpan kind s
    cases kind
    case duration amount unit =>
      exact moved_ensures span unit _ good (expr_ensures amount)
    all_goals exact plain

theorem exprOption_ensures : ∀ (e : Option Document.Expr) (s : σ),
    Ensures D s (exprOption c e) fun t a => ∀ x ∈ a, J.Good t x
  | none, s => by
    exact ensures_pure (by simp)
  | some e, s => by
    exact ensures_map (expr_ensures e s) fun t a good => by simpa using good

theorem exprList_ensures : ∀ (es : List Document.Expr) (s : σ),
    Ensures D s (exprList c es) fun t as => ∀ a ∈ as, J.Good t a
  | [], s => by
    exact ensures_pure (by simp)
  | e :: rest, s => by
    refine ensures_bind (expr_ensures e s) fun t a _ good => ?_
    refine ensures_bind (exprList_ensures rest t) fun u as grows goods => ?_
    exact ensures_pure (forall_mem_cons.mpr ⟨J.stable grows good, goods⟩)

theorem conditions_ensures : ∀ (es : List Document.Expr) (s : σ),
    Ensures D s (conditions c es) fun t as => ∀ a ∈ as, J.Good t a ∧ a.isAggregate = false
  | [], s => by
    exact ensures_pure (by simp)
  | ⟨kind, span⟩ :: rest, s => by
    refine ensures_bind (exprKind_ensures span kind s) fun t a _ good => ?_
    refine ensures_bind (Q := fun t e => J.Good t e ∧ e.isAggregate = false) (ensures_located c (rowCondition_good good))
      fun u b _ good => ?_
    refine ensures_bind (conditions_ensures rest u) fun v bs grows goods => ?_
    exact ensures_pure (forall_mem_cons.mpr ⟨⟨J.stable grows good.1, good.2⟩, goods⟩)

theorem members_ensures (target : Typed) : ∀ (es : List Document.Expr) (s : σ),
    Ensures D s (members c target es) fun t as => ∀ a ∈ as, J.Good t a
  | [], s => by
    exact ensures_pure (by simp)
  | ⟨kind, span⟩ :: rest, s => by
    refine ensures_bind (exprKind_ensures span kind s) fun t a _ good => ?_
    refine ensures_unless c rfl fun _ => ?_
    refine ensures_bind (members_ensures target rest t) fun u as grows goods => ?_
    exact ensures_pure (forall_mem_cons.mpr ⟨J.stable grows good, goods⟩)

theorem pickArms_ensures : ∀ (arms : List Document.PickArm) (type : AtomicType) (s : σ),
    Ensures D s (pickArms c type arms) fun t as => ∀ arm ∈ as.1, J.Good t arm.1 ∧ J.Good t arm.2
  | [], type, s => by
    exact ensures_pure (by simp)
  | ⟨⟨valueKind, valueSpan⟩, ⟨conditionKind, conditionSpan⟩⟩ :: rest, type, s => by
    refine ensures_bind (exprKind_ensures conditionSpan conditionKind s) fun t condition _ goodCondition => ?_
    refine ensures_unless c rfl fun _ => ?_
    refine ensures_bind (exprKind_ensures valueSpan valueKind t) fun u value grows goodValue => ?_
    refine ensures_bind (ensures_own c (pickType_own _ _)) fun v type grows' _ => ?_
    refine ensures_bind (pickArms_ensures rest type v) fun w arms grows'' goods => ?_
    have later := D.grows_trans grows' grows''
    refine ensures_pure (forall_mem_cons.mpr ⟨⟨?_, J.stable later goodValue⟩, goods⟩)
    exact J.stable (D.grows_trans grows later) goodCondition

theorem pickOtherwise_ensures : ∀ (e : Option Document.Expr) (type : AtomicType) (s : σ),
    Ensures D s (pickOtherwise c type e) fun t a => ∀ x ∈ a.1, J.Good t x
  | none, type, s => by
    exact ensures_pure (by simp)
  | some ⟨kind, span⟩, type, s => by
    refine ensures_bind (exprKind_ensures span kind s) fun t a _ good => ?_
    refine ensures_bind (ensures_own c (pickType_own _ _)) fun u type grows _ => ?_
    exact ensures_pure (by simpa using J.stable grows good)

end

end Expressions

end Elaborate

end SemanticLayer
