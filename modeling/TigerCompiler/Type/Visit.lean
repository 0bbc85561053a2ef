import TigerCompiler.Type.TypeChecker

/-!
# What a method of the checker may do

A method only changes the state through a few operations, and only calls `accept` on the nodes
`calls` lists: its children and, for a `SimpleVar`, the `VarDec` its `def_` leads to.  So what
those operations and those calls keep is kept by the method (`visit_ends`).
-/

namespace TigerCompiler

namespace TypeChecker

variable {j k : Kind}

/-! ## The calls of a method -/

/-- The nodes `accept` is called on when a part of a node is gone over: the part itself, or what
it holds when its class has no method that is called. -/
def entries : {k : Kind} → Ast Addr k → List (Σ k, Ast Addr k)
  | _, .nil => []
  | _, .cons x xs => entries x ++ entries xs
  | _, .none => []
  | _, .some x => entries x
  | _, .field _ _ t => entries t
  | _, .fieldInit _ _ i => entries i
  | _, .functionDec _ _ (.varChunk _ formals) result body =>
    entries formals ++ entries result ++ entries body
  | _, .typeDec _ _ ty => entries ty
  | _, t => [⟨_, t⟩]

/-- The nodes on which the method of a node may call `accept`. -/
def calls (m : Tree) : {k : Kind} → Ast Addr k → List (Σ k, Ast Addr k)
  | _, .simpleVar a _ => ((m.defs a).bind m.varDec).toList.map (⟨_, ·⟩)
  | _, .fieldVar _ v _ => entries v
  | _, .subscriptVar _ v i => entries v ++ entries i
  | _, .ofVar v => entries v
  | _, .callExp _ _ args => entries args
  | _, .opExp _ l _ r => entries l ++ entries r
  | _, .recordExp _ t fs => entries t ++ entries fs
  | _, .seqExp _ es => entries es
  | _, .assignExp _ v e => entries v ++ entries e
  | _, .ifExp _ c t e => entries c ++ entries t ++ entries e
  | _, .whileExp _ c body => entries c ++ entries body
  | _, .forExp _ vardec hi body => entries vardec ++ entries hi ++ entries body
  | _, .letExp _ chunks body => entries chunks ++ entries body
  | _, .arrayExp _ t s i => entries t ++ entries s ++ entries i
  | _, .castExp _ _ ty => entries ty
  | _, .ofNameTy t => entries t
  | _, .recordTy _ fs => entries fs
  | _, .arrayTy _ t => entries t
  | _, .varDec _ _ t i => entries t ++ entries i
  | _, .varChunk _ ds => entries ds
  | _, .ofVarChunk c => entries c
  | _, .functionChunk _ ds => entries ds
  | _, .typeChunk _ ds => entries ds
  | _, .chunkList _ cs => entries cs
  | _, _ => []

/-- A class of nodes with a method that `accept` calls. -/
def HasMethod : Kind → Bool
  | .exp | .var | .ty | .nameTy | .varDec | .varChunk | .chunk | .chunkList => true
  | .field | .fieldInit | .functionDec | .typeDec | .list _ | .opt _ => false

@[simp] theorem entries_of_hasMethod {t : Ast Addr k} (h : HasMethod k = true) :
    entries t = [⟨k, t⟩] := by
  cases t <;> simp_all [HasMethod, entries]

theorem mem_entries_list {c : Σ k, Ast Addr k} :
    (xs : Ast Addr (.list k)) → (c ∈ entries xs ↔ ∃ x ∈ xs.toList, c ∈ entries x)
  | .nil => by simp [entries]
  | .cons x xs => by simp [entries, mem_entries_list xs]

theorem entries_subset {x : Ast Addr k} {xs : Ast Addr (.list k)} (h : x ∈ xs.toList) :
    entries x ⊆ entries xs := fun _ hc => (mem_entries_list xs).mpr ⟨x, h, hc⟩

theorem mem_entries_of_mem {x : Ast Addr k} {xs : Ast Addr (.list k)} (h : x ∈ xs.toList)
    (hk : HasMethod k = true) : ⟨k, x⟩ ∈ entries xs :=
  entries_subset h (by rw [entries_of_hasMethod hk]; exact .head _)

/-! ## Invariants -/

/-- `I` is kept by what a method does to the state, and the computations on types stop for
reasons in `E` only. -/
structure Keeps (E : Stop → Prop) (I : TypeChecker → Prop) (n : Nat) : Prop where
  undefined : E .undefined
  error (e : Error) : E (.error e)
  actual {s : TypeChecker} (hs : I s) (t : TypePtr) :
    Ends E (fun _ => True) (s.heap.actual n t)
  compatibleWith {s : TypeChecker} (hs : I s) (t u : TypePtr) :
    Ends E (fun _ => True) (s.heap.compatibleWith n t u)
  sound {s : TypeChecker} (hs : I s) (a : Addr) : Ends E (fun _ => True) (s.heap.sound n a)
  typeSet {s : TypeChecker} (hs : I s) (a : Addr) (t : Option TypePtr) : I (s.typeSet a t)
  createNamed {s : TypeChecker} (hs : I s) (a : Addr) (x : Symbol) : I (s.createNamed a x)
  createRecord {s : TypeChecker} (hs : I s) (a : Addr) (fs : List (Symbol × TypePtr)) :
    I (s.createRecord a fs)
  createArray {s : TypeChecker} (hs : I s) (a : Addr) (t : TypePtr) : I (s.createArray a t)
  createFunction {s : TypeChecker} (hs : I s) (a : Addr) (fs : List (Symbol × TypePtr))
    (r : TypePtr) : I (s.createFunction a fs r)
  namedTypeSet {s : TypeChecker} (hs : I s) (a : Addr) (ty : Ast Addr .ty) :
    I (s.namedTypeSet a (s.createdTy ty))
  report {s : TypeChecker} (hs : I s) (r : Report) : I { s with errors := s.errors ++ [r] }
  readOnly {s : TypeChecker} (hs : I s) (as : List Addr) : I { s with readOnly := as }

section Ends

variable {E : Stop → Prop} {I : TypeChecker → Prop} {n : Nat} {m : Tree} {s : TypeChecker}
  {acc : ⦃k : Kind⦄ → Ast Addr k → TypeChecker → Except Stop TypeChecker}

/-- `accept` keeps `I` on a node. -/
def Accepts (E : Stop → Prop) (I : TypeChecker → Prop)
    (acc : ⦃k : Kind⦄ → Ast Addr k → TypeChecker → Except Stop TypeChecker)
    (e : Ast Addr k) : Prop :=
  ∀ s, I s → Ends E I (acc e s)

theorem Keeps.checkTypes (h : Keeps E I n) (hs : I s) {a : Addr} {x y : Str} {t u : TypePtr} :
    Ends E I (s.checkTypes n a x t y u) := by
  refine (h.actual hs u).bind fun u' _ => (h.compatibleWith hs t u').bind fun c _ => ?_
  cases c
  · exact h.report hs _
  · exact hs

theorem Keeps.errorAndRecover (h : Keeps E I n) (hs : I s) {a : Addr} {x : Str} {c : Culprit} :
    I (s.errorAndRecover a x c) :=
  h.typeSet (h.report hs _) _ _

theorem Keeps.type (hs : I s) {e : Ast Addr k} (he : Accepts E I acc e) :
    Ends E I (s.type acc e) := by
  unfold TypeChecker.type
  split
  · exact hs
  · exact he s hs

theorem Keeps.typeRef (h : Keeps E I n) (hs : I s) {e : Ast Addr k} (he : Accepts E I acc e) :
    Ends E (fun r => I r.1) (s.typeRef acc e) := by
  refine (type hs he).bind fun s' hs' => ?_
  cases s'.typeGet e with
  | none => exact h.undefined
  | some t => exact hs'

theorem Keeps.checkTypesOf (h : Keeps E I n) (hs : I s) {a : Addr} {x y : Str} {e : Ast Addr k}
    {e' : Ast Addr j} (he : Accepts E I acc e) (he' : Accepts E I acc e') :
    Ends E I (s.checkTypesOf n acc a x e y e') :=
  (h.typeRef hs he).bind fun _ hs => (h.typeRef hs he').bind fun _ hs => h.checkTypes hs

theorem Keeps.checkType (h : Keeps E I n) (hs : I s) {x : Str} {t : TypePtr} {e : Ast Addr k}
    (he : Accepts E I acc e) : Ends E I (s.checkType n acc e x t) := by
  refine (h.typeRef hs he).bind fun r hs => (h.actual hs r.2).bind fun u _ => ?_
  split
  · exact hs
  · exact h.errorAndRecover hs

theorem Keeps.typeFields (h : Keeps E I n) (hs : I s) {es : List (Symbol × Ast Addr k)}
    (he : ∀ e ∈ es, Accepts E I acc e.2) : Ends E (fun r => I r.1) (s.typeFields acc es) := by
  induction es generalizing s with
  | nil => exact hs
  | cons e es ih =>
    refine (h.typeRef hs (he e (.head _))).bind fun r hs => ?_
    exact (ih hs fun e he' => he e (.tail _ he')).bind fun r hs => hs

theorem Keeps.typeSeq (hs : I s) {last : Option TypePtr} {es : List (Ast Addr .exp)}
    (he : ∀ e ∈ es, Accepts E I acc e) : Ends E (fun r => I r.1) (s.typeSeq acc last es) := by
  induction es generalizing s last with
  | nil => exact hs
  | cons e es ih =>
    exact (type hs (he e (.head _))).bind fun s hs => ih hs fun e he' => he e (.tail _ he')

theorem Keeps.checkFields (h : Keeps E I n) (hs : I s) {a : Addr}
    {es : List (Ast Addr .fieldInit)} {ts : List (Symbol × TypePtr)}
    (he : ∀ b x i, Ast.fieldInit b x i ∈ es → Accepts E I acc i) :
    Ends E I (s.checkFields n acc a es ts) := by
  induction es generalizing s ts with
  | nil => exact hs
  | cons e es ih =>
    cases e with
    | fieldInit b x i =>
      cases ts with
      | nil => exact h.undefined
      | cons t ts =>
        refine (h.typeRef hs (he b x i (.head _))).bind fun r hs => (h.checkTypes hs).bind ?_
        exact fun s hs => ih hs fun b x i hi => he b x i (.tail _ hi)

theorem Keeps.checkArgs (h : Keeps E I n) (hs : I s) {a : Addr} {es : List (Ast Addr .exp)}
    {ts : List (Symbol × TypePtr)} (he : ∀ e ∈ es, Accepts E I acc e) :
    Ends E I (s.checkArgs n acc a es ts) := by
  induction es generalizing s ts with
  | nil => exact hs
  | cons e es ih =>
    cases ts with
    | nil => exact hs
    | cons t ts =>
      refine (h.typeRef hs (he e (.head _))).bind fun r hs => (h.checkTypes hs).bind ?_
      exact fun s hs => ih hs fun e he' => he e (.tail _ he')

theorem Keeps.checkCall (h : Keeps E I n) (hs : I s) {a : Addr} {es : List (Ast Addr .exp)}
    {ts : List (Symbol × TypePtr)} (he : ∀ e ∈ es, Accepts E I acc e) :
    Ends E I (s.checkCall n acc a es ts) := by
  unfold TypeChecker.checkCall
  split
  · exact h.report hs _
  · exact h.checkArgs hs he

theorem Keeps.checkRecord (h : Keeps E I n) (hs : I s) {a : Addr}
    {es : List (Ast Addr .fieldInit)} {fields : Option (List (Symbol × TypePtr))}
    (he : ∀ b x i, Ast.fieldInit b x i ∈ es → Accepts E I acc i) :
    Ends E I (s.checkRecord n acc a es fields) := by
  cases fields with
  | none => exact h.checkFields (h.report hs _) he
  | some fields => exact h.checkFields hs he

theorem Keeps.checkReadOnly (h : Keeps E I n) (hs : I s) {a : Addr} {v : Ast Addr .var} :
    I (s.checkReadOnly m a v) := by
  unfold TypeChecker.checkReadOnly
  split
  · split
    · exact h.report hs _
    · exact hs
  · exact hs

theorem Keeps.visitAll {f : TypeChecker → Ast Addr k → Except Stop TypeChecker} (hs : I s)
    {ds : List (Ast Addr k)} (hf : ∀ d ∈ ds, ∀ s, I s → Ends E I (f s d)) :
    Ends E I (s.visitAll f ds) := by
  induction ds generalizing s with
  | nil => exact hs
  | cons d ds ih =>
    exact (hf d (.head _) s hs).bind fun s hs => ih hs fun d hd => hf d (.tail _ hd)

theorem Keeps.checkOperands (h : Keeps E I n) (hs : I s) {a : Addr} {l r : Ast Addr .exp}
    {op : Oper} (hl : Accepts E I acc l) (hr : Accepts E I acc r) :
    Ends E I (s.checkOperands n acc a l r op) := by
  cases op
  case add | sub | mul | div => exact (h.checkType hs hl).bind fun s hs => h.checkType hs hr
  case eq | ne => exact h.checkTypesOf hs hl hr
  all_goals
    refine (h.checkTypesOf hs hl hr).bind fun s hs => ?_
    cases s.typeGet l with
    | none => exact h.undefined
    | some t =>
      refine (h.actual hs t).bind fun u _ => ?_
      split
      · exact h.errorAndRecover hs
      · exact hs

theorem Keeps.typeResult (h : Keeps E I n) (hs : I s) {r : Ast Addr (.opt .nameTy)}
    (hr : ∀ c ∈ entries r, Accepts E I acc c.2) : Ends E (fun p => I p.1) (s.typeResult acc r) := by
  cases r with
  | none => exact hs
  | some r => exact h.typeRef hs (hr ⟨_, r⟩ (by simp (disch := decide) [entries]))

theorem Keeps.functionHeader (h : Keeps E I n) (hs : I s) {d : Ast Addr .functionDec}
    (hd : ∀ c ∈ entries d, Accepts E I acc c.2) : Ends E I (s.functionHeader acc d) := by
  cases d with
  | functionDec a x fs r b =>
    cases fs with
    | varChunk c fs =>
      refine (h.typeFields hs fun e he => ?_).bind fun p hs => ?_
      · simp only [formalsOf, List.mem_map] at he
        obtain ⟨d, hd', rfl⟩ := he
        exact hd ⟨_, d⟩ (by simp [entries, mem_entries_of_mem hd' rfl])
      · refine (h.typeResult hs fun c hc => hd c ?_).bind fun p hs => h.createFunction hs ..
        simp [entries, hc]

theorem Keeps.functionBody (h : Keeps E I n) (hs : I s) {d : Ast Addr .functionDec}
    (hd : ∀ c ∈ entries d, Accepts E I acc c.2) : Ends E I (s.functionBody n acc d) := by
  cases d with
  | functionDec a x fs r b =>
    cases fs with
    | varChunk c fs =>
      cases b with
      | none => exact hs
      | some b =>
        simp only [TypeChecker.functionBody]
        split
        · refine (h.typeRef hs (hd ⟨_, b⟩ (by simp (disch := decide) [entries]))).bind ?_
          exact fun p hs => h.checkTypes hs
        · exact h.undefined

theorem Keeps.typeBody (h : Keeps E I n) (hs : I s) {a : Addr} {x : Symbol} {ty : Ast Addr .ty}
    (hty : Accepts E I acc ty) : Ends E I (s.typeBody n acc (.typeDec a x ty)) := by
  refine (type hs hty).bind fun s hs => ?_
  have hs := h.namedTypeSet hs a ty
  refine (h.sound hs a).bind fun c _ => ?_
  cases c
  · exact h.errorAndRecover hs
  · exact hs

theorem Keeps.checkInit (h : Keeps E I n) (hs : I s) {a : Addr} {t : Option TypePtr}
    {i : Ast Addr .exp} (hi : Accepts E I acc i) : Ends E I (s.checkInit n acc a t i) := by
  refine (h.typeRef hs hi).bind fun p hs => ?_
  cases t with
  | none => exact h.undefined
  | some t => exact (h.checkTypes hs).bind fun s hs => h.typeSet hs ..

theorem Keeps.visitVarDec (h : Keeps E I n) (hs : I s) {a : Addr} {t : Ast Addr (.opt .nameTy)}
    {i : Ast Addr (.opt .exp)} (ht : ∀ c ∈ entries t, Accepts E I acc c.2)
    (hi : ∀ c ∈ entries i, Accepts E I acc c.2) : Ends E I (s.visitVarDec n acc a t i) := by
  cases t with
  | none =>
    cases i with
    | none => exact h.report hs _
    | some i =>
      have hi := hi ⟨_, i⟩ (by simp (disch := decide) [entries])
      exact (Keeps.type hs hi).bind fun s hs => h.typeSet hs ..
  | some t =>
    have ht := ht ⟨_, t⟩ (by simp (disch := decide) [entries])
    cases i with
    | none => exact (Keeps.type hs ht).bind fun s hs => h.typeSet hs ..
    | some i =>
      have hi := hi ⟨_, i⟩ (by simp (disch := decide) [entries])
      exact (Keeps.type hs ht).bind fun s hs => h.checkInit hs hi

/-- **A method of the visitor keeps what its operations and its calls keep.** -/
theorem visit_ends (h : Keeps E I n) {t : Ast Addr k}
    (hc : ∀ c ∈ calls m t, Accepts E I acc c.2) (hs : I s) : Ends E I (s.visit m n acc t) := by
  cases t with
  | simpleVar a x =>
    simp only [visit]
    split
    · exact hs
    · rename_i d hd
      split
      · exact h.undefined
      · rename_i v hv
        have hcv := hc ⟨_, v⟩ (by simp [calls, hd, hv])
        exact (Keeps.type hs hcv).bind fun s hs => h.typeSet hs ..
  | fieldVar a v x =>
    refine (Keeps.type hs (hc ⟨_, v⟩ (by simp (disch := decide) [calls]))).bind fun s hs => ?_
    split
    · rename_i fields _
      unfold fieldType
      split
      · exact h.typeSet hs ..
      · exact h.error _
    · exact h.errorAndRecover hs
  | subscriptVar a v i =>
    refine (h.checkType hs (hc ⟨_, i⟩ (by simp (disch := decide) [calls]))).bind fun s hs => ?_
    refine (Keeps.type hs (hc ⟨_, v⟩ (by simp (disch := decide) [calls]))).bind fun s hs => ?_
    split
    · exact h.typeSet hs ..
    · exact h.errorAndRecover hs
  | nilExp | intExp | stringExp | breakExp => exact h.typeSet hs ..
  | ofVar e | ofNameTy e | ofVarChunk e => exact hc ⟨_, e⟩ (by simp (disch := decide) [calls]) s hs
  | callExp a x args =>
    simp only [visit]
    split
    · refine (h.checkCall hs fun e he => hc ⟨_, e⟩ (mem_entries_of_mem he rfl)).bind ?_
      exact fun s hs => h.typeSet hs ..
    · exact h.undefined
  | opExp a l op r =>
    refine (h.checkOperands hs (hc ⟨_, l⟩ ?_) (hc ⟨_, r⟩ ?_)).bind fun s hs => h.typeSet hs ..
    all_goals simp (disch := decide) [calls]
  | recordExp a t fs =>
    have ht := hc ⟨_, t⟩ (by simp (disch := decide) [calls])
    have hi (b x i) (he : Ast.fieldInit b x i ∈ fs.toList) : Accepts E I acc i :=
      hc ⟨_, i⟩ (List.mem_append_right _ (entries_subset he (by
        simp (disch := decide) [entries])))
    refine Ends.bind (I := fun _ => True) ?_ fun t' _ => ?_
    · unfold typeOfBody
      split
      · trivial
      · exact h.undefined
    · refine (h.checkRecord hs hi).bind fun s hs => (Keeps.type hs ht).bind fun s hs => ?_
      exact h.typeSet hs ..
  | seqExp a es =>
    refine (Keeps.typeSeq hs fun e he => hc ⟨_, e⟩ (mem_entries_of_mem he rfl)).bind ?_
    exact fun p hs => h.typeSet hs ..
  | assignExp a v e =>
    have hs := h.checkReadOnly hs (m := m) (a := a) (v := v)
    refine (h.checkTypesOf hs (hc ⟨_, v⟩ ?_) (hc ⟨_, e⟩ ?_)).bind fun s hs => h.typeSet hs ..
    all_goals simp (disch := decide) [calls]
  | ifExp a c t e =>
    refine (h.checkType hs (hc ⟨_, c⟩ (by simp (disch := decide) [calls]))).bind fun s hs => ?_
    refine (h.checkTypesOf hs (hc ⟨_, t⟩ ?_) (hc ⟨_, e⟩ ?_)).bind fun s hs => h.typeSet hs ..
    all_goals simp (disch := decide) [calls]
  | whileExp a c b =>
    refine (h.checkType hs (hc ⟨_, c⟩ (by simp (disch := decide) [calls]))).bind fun s hs => ?_
    refine (h.checkType hs (hc ⟨_, b⟩ (by simp (disch := decide) [calls]))).bind ?_
    exact fun s hs => h.typeSet hs ..
  | forExp a d hi b =>
    refine (h.checkType hs (hc ⟨_, d⟩ (by simp (disch := decide) [calls]))).bind fun s hs => ?_
    refine (h.checkType hs (hc ⟨_, hi⟩ (by simp (disch := decide) [calls]))).bind fun s hs => ?_
    refine (h.checkType (h.readOnly hs _) (hc ⟨_, b⟩ (by simp (disch := decide) [calls]))).bind ?_
    exact fun s hs => h.typeSet hs ..
  | letExp a cs b =>
    refine (hc ⟨_, cs⟩ (by simp (disch := decide) [calls]) s hs).bind fun s hs => ?_
    refine (Keeps.type hs (hc ⟨_, b⟩ (by simp (disch := decide) [calls]))).bind ?_
    exact fun s hs => h.typeSet hs ..
  | arrayExp a t size i =>
    refine (h.typeRef hs (hc ⟨_, size⟩ (by simp (disch := decide) [calls]))).bind fun p hs => ?_
    refine (h.checkTypes hs).bind fun s hs => ?_
    refine (h.checkTypesOf hs (hc ⟨_, t⟩ ?_) (hc ⟨_, i⟩ ?_)).bind fun s hs => h.typeSet hs ..
    all_goals simp (disch := decide) [calls]
  | castExp a e ty =>
    refine (Keeps.type hs (hc ⟨_, ty⟩ (by simp (disch := decide) [calls]))).bind ?_
    exact fun s hs => h.typeSet hs ..
  | nameTy a x =>
    simp only [visit]
    split
    · exact h.typeSet hs ..
    · split
      · exact h.typeSet hs ..
      · split
        · exact h.typeSet hs ..
        · exact hs
  | recordTy a fs =>
    refine (h.typeFields hs fun e he => ?_).bind fun p hs => h.createRecord hs ..
    simp only [fieldsOf, List.mem_map] at he
    obtain ⟨f, hf, rfl⟩ := he
    cases f
    exact hc ⟨_, _⟩ (entries_subset hf (by simp (disch := decide) [entries]))
  | arrayTy a t =>
    refine (h.typeRef hs (hc ⟨_, t⟩ (by simp (disch := decide) [calls]))).bind ?_
    exact fun p hs => h.createArray hs ..
  | varDec a x t i =>
    refine h.visitVarDec hs (fun c hc' => hc c ?_) fun c hc' => hc c ?_
    all_goals simp [calls, hc']
  | varChunk a ds | chunkList a ds =>
    exact Keeps.visitAll hs fun d hd => hc ⟨_, d⟩ (mem_entries_of_mem hd rfl)
  | functionChunk a ds =>
    have hd (d) (hd : d ∈ ds.toList) : ∀ c ∈ entries d, Accepts E I acc c.2 :=
      fun c hc' => hc c (entries_subset hd hc')
    refine (Keeps.visitAll hs fun d h' s hs => h.functionHeader hs (hd d h')).bind fun s hs => ?_
    exact Keeps.visitAll hs fun d h' s hs => h.functionBody hs (hd d h')
  | typeChunk a ds =>
    refine (Keeps.visitAll hs fun d hd s hs => ?_).bind fun s hs =>
      Keeps.visitAll hs fun d hd s hs => ?_
    · cases d
      exact h.createNamed hs ..
    · cases d
      exact h.typeBody hs (hc ⟨_, _⟩ (entries_subset hd (by simp (disch := decide) [entries])))
  | _ => exact h.undefined

theorem ends_true {ε α : Type} (x : Except ε α) : Ends (fun _ => True) (fun _ => True) x := by
  cases x <;> trivial

/-- What every method keeps is kept by `accept`, when it does not matter why a run stops. -/
theorem accept_keeps (h : ∀ n, Keeps (fun _ => True) I n) (m : Tree) (n : Nat) (t : Ast Addr k) :
    Accepts (fun _ => True) I (accept m n) t := by
  induction n generalizing k with
  | zero => exact fun _ _ => trivial
  | succ n ih => exact fun _ hs => visit_ends (h n) (fun c _ => ih c.2) hs

end Ends

end TypeChecker

end TigerCompiler
