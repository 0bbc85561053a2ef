import TigerCompiler.Misc.Error

/-!
# Cloning a tree

`astclone::Cloner` and the methods that `desugar::DesugarVisitor` overrides in it.  A visiting
method leaves the node it makes in the one slot `result_`, and whoever visited takes it from there
by a `dynamic_cast` to the class that is expected.
-/

namespace TigerCompiler

/-- What a node carries: where it lives in memory, and its location. -/
structure Node (L : Type) where
  addr : Addr
  location : L
  deriving DecidableEq

/-- `dynamic_cast` of an `Ast*` to a pointer to the class `k`. -/
def dynamicCast {α : Type} : (k : Kind) → (Σ j, Ast α j) → Option (Ast α k)
  | .exp, ⟨.var, v⟩ => some (.ofVar v)
  | .ty, ⟨.nameTy, n⟩ => some (.ofNameTy n)
  | .chunk, ⟨.varChunk, c⟩ => some (.ofVarChunk c)
  | k, ⟨j, t⟩ => if h : j = k then some (h ▸ t) else none

/-- `Cloner`: the slot, and the first address that is free. -/
structure Cloner (L : Type) where
  result : Option (Σ k, Ast (Node L) k) := none
  next : Addr

/-- What a visit gives besides what it leaves in the slot: the copy of a collection or of a member
that may be null. -/
abbrev Kind.Copied (L : Type) : Kind → Type
  | .list k => Ast (Node L) (.list k)
  | .opt k => Ast (Node L) (.opt k)
  | _ => Unit

/-- How `DesugarVisitor` replaces a `for` loop: its text is parsed, which leaves the new tree in the
slot. -/
abbrev ForLoop (L : Type) : Type :=
  Node L → Ast (Node L) .varDec → Ast (Node L) .exp → Ast (Node L) .exp → Cloner L →
    Except Stop (Cloner L)

/-- The pass that clones: `Cloner` itself, where nothing is set, or `DesugarVisitor`. -/
structure Pass (L : Type) where
  /-- Set where `desugar_for_p_` is. -/
  desugarFor : Option (ForLoop L) := none
  /-- Set where `desugar_string_cmp_p_` is: whether the type of an expression is `String`, `none`
  where it has no type. -/
  desugarStringCmp : Option (Ast (Node L) .exp → Option Bool) := none

namespace Cloner

variable {L : Type} {k : Kind}

/-- A node is allocated at the location of another one. -/
def allocate (c : Cloner L) (a : Node L) (make : Node L → Ast (Node L) k) :
    Ast (Node L) k × Cloner L :=
  (make ⟨c.next, a.location⟩, { c with next := c.next + 1 })

/-- `result_ = new …`. -/
def make (c : Cloner L) (a : Node L) (f : Node L → Ast (Node L) k) : Cloner L :=
  { c with result := some ⟨k, f ⟨c.next, a.location⟩⟩, next := c.next + 1 }

/-- What is left in the slot, as a node of the class that is expected. -/
def get (c : Cloner L) (k : Kind) : Except Stop (Ast (Node L) k) :=
  match c.result.bind (dynamicCast k) with
  | some t => .ok t
  | none => .error .undefined

/-- `recurse`: the node that a visit has left. -/
def recurse {β : Type} (k : Kind) (r : Except Stop (β × Cloner L)) :
    Except Stop (Ast (Node L) k × Cloner L) := do
  let (_, c) ← r
  let t ← c.get k
  return (t, c)

/-- `DesugarVisitor::operator()(const OpExp&)` where string comparisons are desugared, from the
copies of the operands. -/
def compareStrings (a : Node L) (oper : Oper) (l r : Ast (Node L) .exp) (c : Cloner L) :
    Cloner L :=
  if oper = .eq then c.make a (.callExp · "streq".toList (.cons l (.cons r .nil)))
  else
    let (call, c) := c.allocate a (.callExp · "strcmp".toList (.cons l (.cons r .nil)))
    let (zero, c) := c.allocate a (.intExp · 0)
    c.make a (.opExp · call oper zero)

/-- The visiting methods. -/
def visit (p : Pass L) : {k : Kind} → Ast (Node L) k → Cloner L →
    Except Stop (k.Copied L × Cloner L)
  | _, .nil, c => return (.nil, c)
  | _, .cons (k := k) x xs, c => do
    let (x, c) ← recurse k (visit p x c)
    let (xs, c) ← visit p xs c
    return (.cons x xs, c)
  | _, .none, c => return (.none, c)
  | _, .some (k := k) x, c => do
    let (x, c) ← recurse k (visit p x c)
    return (.some x, c)
  | _, .arrayExp a typeName size init, c => do
    let (typeName, c) ← recurse .nameTy (visit p typeName c)
    let (size, c) ← recurse .exp (visit p size c)
    let (init, c) ← recurse .exp (visit p init c)
    return ((), c.make a (.arrayExp · typeName size init))
  | _, .arrayTy a baseType, c => do
    let (baseType, c) ← recurse .nameTy (visit p baseType c)
    return ((), c.make a (.arrayTy · baseType))
  | _, .assignExp a var exp, c => do
    let (var, c) ← recurse .var (visit p var c)
    let (exp, c) ← recurse .exp (visit p exp c)
    return ((), c.make a (.assignExp · var exp))
  | _, .breakExp a, c => return ((), c.make a .breakExp)
  | _, .callExp a name args, c => do
    let (args, c) ← visit p args c
    return ((), c.make a (.callExp · name args))
  | _, .castExp a exp ty, c => do
    let (exp, c) ← recurse .exp (visit p exp c)
    let (ty, c) ← recurse .ty (visit p ty c)
    return ((), c.make a (.castExp · exp ty))
  | _, .chunkList a chunks, c => do
    let (chunks, c) ← visit p chunks c
    return ((), c.make a (.chunkList · chunks))
  | _, .field a name typeName, c => do
    let (typeName, c) ← recurse .nameTy (visit p typeName c)
    return ((), c.make a (.field · name typeName))
  | _, .fieldInit a name init, c => do
    let (init, c) ← recurse .exp (visit p init c)
    return ((), c.make a (.fieldInit · name init))
  | _, .fieldVar a var name, c => do
    let (var, c) ← recurse .var (visit p var c)
    return ((), c.make a (.fieldVar · var name))
  | _, .forExp a vardec hi body, c =>
    match p.desugarFor with
    | some forLoop => do
      let c ← forLoop a vardec hi body c
      return ((), c)
    | none => do
      let (vardec, c) ← recurse .varDec (visit p vardec c)
      let (hi, c) ← recurse .exp (visit p hi c)
      let (body, c) ← recurse .exp (visit p body c)
      return ((), c.make a (.forExp · vardec hi body))
  | _, .functionDec a name formals result body, c => do
    let (formals, c) ← recurse .varChunk (visit p formals c)
    let (result, c) ← visit p result c
    let (body, c) ← visit p body c
    return ((), c.make a (.functionDec · name formals result body))
  | _, .ifExp a test thenclause elseclause, c => do
    let (test, c) ← recurse .exp (visit p test c)
    let (elseclause, c) ← recurse .exp (visit p elseclause c)
    let (thenclause, c) ← recurse .exp (visit p thenclause c)
    return ((), c.make a (.ifExp · test thenclause elseclause))
  | _, .intExp a value, c => return ((), c.make a (.intExp · value))
  | _, .letExp a chunks body, c => do
    let (body, c) ← recurse .exp (visit p body c)
    let (chunks, c) ← recurse .chunkList (visit p chunks c)
    return ((), c.make a (.letExp · chunks body))
  | _, .nameTy a name, c => return ((), c.make a (.nameTy · name))
  | _, .nilExp a, c => return ((), c.make a .nilExp)
  | _, .opExp a left oper right, c => do
    let strings ← match p.desugarStringCmp with
      | none => .ok false
      | some isString =>
        match isString left with
        | some b => .ok b
        | none => .error .undefined
    let (left, c) ← recurse .exp (visit p left c)
    let (right, c) ← recurse .exp (visit p right c)
    return ((), if strings then compareStrings a oper left right c
      else c.make a (.opExp · left oper right))
  | _, .recordExp a typeName fields, c => do
    let (typeName, c) ← recurse .nameTy (visit p typeName c)
    let (fields, c) ← visit p fields c
    return ((), c.make a (.recordExp · typeName fields))
  | _, .recordTy a fields, c => do
    let (fields, c) ← visit p fields c
    return ((), c.make a (.recordTy · fields))
  | _, .seqExp a exps, c => do
    let (exps, c) ← visit p exps c
    return ((), c.make a (.seqExp · exps))
  | _, .simpleVar a name, c => return ((), c.make a (.simpleVar · name))
  | _, .stringExp a value, c => return ((), c.make a (.stringExp · value))
  | _, .subscriptVar a var index, c => do
    let (var, c) ← recurse .var (visit p var c)
    let (index, c) ← recurse .exp (visit p index c)
    return ((), c.make a (.subscriptVar · var index))
  | _, .typeDec a name ty, c => do
    let (ty, c) ← recurse .ty (visit p ty c)
    return ((), c.make a (.typeDec · name ty))
  | _, .varDec a name typeName init, c => do
    let (typeName, c) ← visit p typeName c
    let (init, c) ← visit p init c
    return ((), c.make a (.varDec · name typeName init))
  | _, .whileExp a test body, c => do
    let (test, c) ← recurse .exp (visit p test c)
    let (body, c) ← recurse .exp (visit p body c)
    return ((), c.make a (.whileExp · test body))
  | _, .functionChunk a decs, c => do
    let (decs, c) ← visit p decs c
    return ((), c.make a (.functionChunk · decs))
  | _, .typeChunk a decs, c => do
    let (decs, c) ← visit p decs c
    return ((), c.make a (.typeChunk · decs))
  | _, .varChunk a decs, c => do
    let (decs, c) ← visit p decs c
    return ((), c.make a (.varChunk · decs))
  -- A class that derives from another one has its own method.
  | _, .ofVar v, c => do
    let (_, c) ← visit p v c
    return ((), c)
  | _, .ofNameTy n, c => do
    let (_, c) ← visit p n c
    return ((), c)
  | _, .ofVarChunk ch, c => do
    let (_, c) ← visit p ch c
    return ((), c)

end Cloner

/-! ## Copies -/

/-- The tree with something else on its nodes. -/
def Ast.map {α β : Type} (f : α → β) : {k : Kind} → Ast α k → Ast β k
  | _, .nil => .nil
  | _, .cons x xs => .cons (x.map f) (xs.map f)
  | _, .none => .none
  | _, .some x => .some (x.map f)
  | _, .simpleVar a x => .simpleVar (f a) x
  | _, .fieldVar a v x => .fieldVar (f a) (v.map f) x
  | _, .subscriptVar a v i => .subscriptVar (f a) (v.map f) (i.map f)
  | _, .ofVar v => .ofVar (v.map f)
  | _, .nilExp a => .nilExp (f a)
  | _, .intExp a n => .intExp (f a) n
  | _, .stringExp a s => .stringExp (f a) s
  | _, .callExp a x args => .callExp (f a) x (args.map f)
  | _, .opExp a l o r => .opExp (f a) (l.map f) o (r.map f)
  | _, .recordExp a t fs => .recordExp (f a) (t.map f) (fs.map f)
  | _, .seqExp a es => .seqExp (f a) (es.map f)
  | _, .assignExp a v e => .assignExp (f a) (v.map f) (e.map f)
  | _, .ifExp a c t e => .ifExp (f a) (c.map f) (t.map f) (e.map f)
  | _, .whileExp a c b => .whileExp (f a) (c.map f) (b.map f)
  | _, .forExp a d h b => .forExp (f a) (d.map f) (h.map f) (b.map f)
  | _, .breakExp a => .breakExp (f a)
  | _, .letExp a cs b => .letExp (f a) (cs.map f) (b.map f)
  | _, .arrayExp a t s i => .arrayExp (f a) (t.map f) (s.map f) (i.map f)
  | _, .castExp a e t => .castExp (f a) (e.map f) (t.map f)
  | _, .nameTy a x => .nameTy (f a) x
  | _, .ofNameTy n => .ofNameTy (n.map f)
  | _, .recordTy a fs => .recordTy (f a) (fs.map f)
  | _, .arrayTy a b => .arrayTy (f a) (b.map f)
  | _, .field a x t => .field (f a) x (t.map f)
  | _, .fieldInit a x i => .fieldInit (f a) x (i.map f)
  | _, .varDec a x t i => .varDec (f a) x (t.map f) (i.map f)
  | _, .functionDec a x fs r b => .functionDec (f a) x (fs.map f) (r.map f) (b.map f)
  | _, .typeDec a x t => .typeDec (f a) x (t.map f)
  | _, .varChunk a ds => .varChunk (f a) (ds.map f)
  | _, .ofVarChunk c => .ofVarChunk (c.map f)
  | _, .functionChunk a ds => .functionChunk (f a) (ds.map f)
  | _, .typeChunk a ds => .typeChunk (f a) (ds.map f)
  | _, .chunkList a cs => .chunkList (f a) (cs.map f)

namespace Cloner

variable {L : Type} {k : Kind}

/-- Whether a class is one of nodes, and not of collections or of members that may be null. -/
def isNode : Kind → Bool
  | .list _ | .opt _ => false
  | _ => true

/-- The nodes of a class and the collections of them. -/
def isProper : Kind → Bool
  | .list k | .opt k => isNode k
  | _ => true

/-- Distinct addresses between two bounds. -/
structure Fresh (lo hi : Addr) (ns : List Addr) : Prop where
  le : lo ≤ hi
  bounds : ∀ n ∈ ns, lo ≤ n ∧ n < hi
  nodup : ns.Nodup

/-- The addresses of the nodes of a tree. -/
def addrs (t : Ast (Node L) k) : List Addr := t.nodes.map Node.addr

/-- `t'` is a copy of `t` in the memory allocated from one state to another. -/
structure Copy (t t' : Ast (Node L) k) (c c' : Cloner L) : Prop where
  /-- The classes, the names, the operators, the literals, the locations and the children are the
  same, in the same order, and what is null is null. -/
  same : t'.map Node.location = t.map Node.location
  fresh : Fresh c.next c'.next (addrs t')

/-- What a visit leaves, in the slot or as the copy of a collection. -/
def Leaves : (k : Kind) → k.Copied L → Cloner L → Ast (Node L) k → Prop
  | .list _, o, _, t | .opt _, o, _, t => o = t
  | k, _, c, t => c.get k = .ok t

/-- A visit ends and leaves a copy. -/
def Clones (p : Pass L) (t : Ast (Node L) k) (c : Cloner L) : Prop :=
  ∃ o c' t', visit p t c = .ok (o, c') ∧ Leaves k o c' t' ∧ Copy t t' c c'

section fresh

variable {lo mid hi : Addr} {ns ms : List Addr}

theorem Fresh.nil : Fresh lo lo [] := ⟨Nat.le_refl _, nofun, List.nodup_nil⟩

theorem Fresh.append (h : Fresh lo mid ns) (h' : Fresh mid hi ms) : Fresh lo hi (ns ++ ms) where
  le := Nat.le_trans h.le h'.le
  bounds n hn := by
    rcases List.mem_append.mp hn with hn | hn
    · exact ⟨(h.bounds n hn).1, Nat.lt_of_lt_of_le (h.bounds n hn).2 h'.le⟩
    · exact ⟨Nat.le_trans h.le (h'.bounds n hn).1, (h'.bounds n hn).2⟩
  nodup := by
    refine List.nodup_append.mpr ⟨h.nodup, h'.nodup, ?_⟩
    rintro n hn _ hm rfl
    exact Nat.lt_irrefl n (Nat.lt_of_lt_of_le (h.bounds n hn).2 (h'.bounds n hm).1)

/-- What counts is what is there, not the order in which it was allocated. -/
theorem Fresh.perm (h : Fresh lo hi ns) (hp : ns.Perm ms) : Fresh lo hi ms where
  le := h.le
  bounds n hn := h.bounds n (hp.mem_iff.mpr hn)
  nodup := hp.nodup_iff.mp h.nodup

theorem Fresh.cons (h : Fresh lo hi ns) : Fresh lo (hi + 1) (hi :: ns) where
  le := Nat.le_succ_of_le h.le
  bounds n hn := by
    rcases List.mem_cons.mp hn with rfl | hn
    · exact ⟨h.le, Nat.lt_succ_self _⟩
    · exact ⟨(h.bounds n hn).1, Nat.lt_succ_of_lt (h.bounds n hn).2⟩
  nodup := List.nodup_cons.mpr ⟨fun hn => Nat.lt_irrefl _ (h.bounds _ hn).2, h.nodup⟩

end fresh

section copies

variable {p : Pass L} {c c' c₁ : Cloner L} {a : Node L} {t t' : Ast (Node L) k}

theorem dynamicCast_self : dynamicCast k ⟨k, t⟩ = some t := by
  cases k <;> simp [dynamicCast]

theorem get_make {f : Node L → Ast (Node L) k} :
    (c.make a f).get k = .ok (f ⟨c.next, a.location⟩) := by
  simp only [get, make, Option.bind_some, dynamicCast_self]

theorem leaves_iff {o : k.Copied L} (hk : isNode k = true) :
    Leaves k o c t ↔ c.get k = .ok t := by
  cases k with
  | list | opt => cases hk
  | _ => rfl

/-- What `recurse` gives is a copy. -/
theorem Clones.recurse (h : Clones p t c) (hk : isNode k = true) :
    ∃ t' c', Cloner.recurse k (visit p t c) = .ok (t', c') ∧ Copy t t' c c' := by
  obtain ⟨o, c', t', hv, hl, hc⟩ := h
  rw [leaves_iff hk] at hl
  refine ⟨t', c', ?_, hc⟩
  rw [hv, Cloner.recurse, ok_bind]
  simp only [hl]
  rfl

/-- The copy of a collection. -/
theorem Clones.list {t : Ast (Node L) (.list k)} (h : Clones p t c) :
    ∃ t' c', visit p t c = .ok (t', c') ∧ Copy t t' c c' := by
  obtain ⟨o, c', t', hv, rfl, hc⟩ := h
  exact ⟨o, c', hv, hc⟩

/-- The copy of a member that may be null. -/
theorem Clones.opt {t : Ast (Node L) (.opt k)} (h : Clones p t c) :
    ∃ t' c', visit p t c = .ok (t', c') ∧ Copy t t' c c' := by
  obtain ⟨o, c', t', hv, rfl, hc⟩ := h
  exact ⟨o, c', hv, hc⟩

/-- A visit that puts a new node in the slot leaves a copy if the node is one. -/
theorem Clones.of_make {o : k.Copied L} {f : Node L → Ast (Node L) k} (hk : isNode k = true)
    (hv : visit p t c = .ok (o, c₁.make a f))
    (hs : (f ⟨c₁.next, a.location⟩).map Node.location = t.map Node.location) {ns : List Addr}
    (ha : addrs (f ⟨c₁.next, a.location⟩) = c₁.next :: ns) (hf : Fresh c.next c₁.next ns) :
    Clones p t c :=
  ⟨o, _, _, hv, (leaves_iff hk).mpr get_make, hs, ha ▸ hf.cons⟩

theorem isProper_of_isNode (hk : isNode k = true) : isProper k = true := by
  cases k with
  | list | opt => cases hk
  | _ => rfl

/-- Only a class with classes derived from it is given for a node of another one. -/
theorem result_of_get (hk : k ≠ .exp ∧ k ≠ .ty ∧ k ≠ .chunk) (h : c.get k = .ok t) :
    c.result = some ⟨k, t⟩ := by
  rw [get] at h
  cases hr : c.result with
  | none =>
    rw [hr] at h
    cases h
  | some s =>
    obtain ⟨j, u⟩ := s
    have hcast : dynamicCast k ⟨j, u⟩ = if h : j = k then some (h ▸ u) else none := by
      cases k with
      | exp => exact absurd rfl hk.1
      | ty => exact absurd rfl hk.2.1
      | chunk => exact absurd rfl hk.2.2
      | _ => simp [dynamicCast]
    rw [hr, Option.bind_some, hcast] at h
    by_cases hj : j = k
    · subst hj
      rw [dif_pos rfl] at h
      cases h
      rfl
    · rw [dif_neg hj] at h
      cases h

/-- A variable in the slot is an expression as well. -/
theorem get_ofVar {v : Ast (Node L) .var} (h : c.get .var = .ok v) :
    c.get .exp = .ok (.ofVar v) := by
  rw [get, result_of_get (k := .var) (by decide) h]
  rfl

theorem get_ofNameTy {n : Ast (Node L) .nameTy} (h : c.get .nameTy = .ok n) :
    c.get .ty = .ok (.ofNameTy n) := by
  rw [get, result_of_get (k := .nameTy) (by decide) h]
  rfl

theorem get_ofVarChunk {ch : Ast (Node L) .varChunk} (h : c.get .varChunk = .ok ch) :
    c.get .chunk = .ok (.ofVarChunk ch) := by
  rw [get, result_of_get (k := .varChunk) (by decide) h]
  rfl

/-! ### The shapes of the methods -/

section Shapes

variable {i j l : Kind} {x : Ast (Node L) i} {y : Ast (Node L) j} {z : Ast (Node L) l}

/-- A part is copied. -/
def GivesCopy (r : Except Stop (Ast (Node L) i × Cloner L)) (x : Ast (Node L) i) (c : Cloner L) :
    Prop :=
  ∃ x' c', r = .ok (x', c') ∧ Copy x x' c c'

theorem Clones.one {r : Except Stop (Ast (Node L) i × Cloner L)}
    {f : Node L → Ast (Node L) i → Ast (Node L) k} (hk : isNode k = true) (hx : GivesCopy r x c)
    (hv : ∀ x' c', r = .ok (x', c') → ∃ o, visit p t c = .ok (o, c'.make a (f · x')))
    (hs : ∀ n x', n.location = a.location → x'.map Node.location = x.map Node.location →
      (f n x').map Node.location = t.map Node.location)
    (ha : ∀ n x', addrs (f n x') = n.addr :: addrs x') : Clones p t c := by
  obtain ⟨x', c', hr, d⟩ := hx
  obtain ⟨o, hv⟩ := hv x' c' hr
  exact .of_make hk hv (hs _ x' rfl d.same) (ha _ x') d.fresh

/-- The parts are copied in the order `x`, `y`; the node may hold them in another. -/
theorem Clones.two {r : Except Stop (Ast (Node L) i × Cloner L)}
    {r' : Cloner L → Except Stop (Ast (Node L) j × Cloner L)}
    {f : Node L → Ast (Node L) i → Ast (Node L) j → Ast (Node L) k} (hk : isNode k = true)
    (hx : GivesCopy r x c) (hy : ∀ c, GivesCopy (r' c) y c)
    (hv : ∀ x' c' y' c'', r = .ok (x', c') → r' c' = .ok (y', c'') →
      ∃ o, visit p t c = .ok (o, c''.make a (f · x' y')))
    (hs : ∀ n x' y', n.location = a.location → x'.map Node.location = x.map Node.location →
      y'.map Node.location = y.map Node.location →
      (f n x' y').map Node.location = t.map Node.location)
    (ha : ∀ n x' y', ∃ ns, addrs (f n x' y') = n.addr :: ns ∧
      (addrs x' ++ addrs y').Perm ns) : Clones p t c := by
  obtain ⟨x', c', hr, d⟩ := hx
  obtain ⟨y', c'', hr', d'⟩ := hy c'
  obtain ⟨o, hv⟩ := hv x' c' y' c'' hr hr'
  obtain ⟨ns, hns, hperm⟩ := ha ⟨c''.next, a.location⟩ x' y'
  exact .of_make hk hv (hs _ x' y' rfl d.same d'.same) hns ((d.fresh.append d'.fresh).perm hperm)

theorem Clones.three {r : Except Stop (Ast (Node L) i × Cloner L)}
    {r' : Cloner L → Except Stop (Ast (Node L) j × Cloner L)}
    {r'' : Cloner L → Except Stop (Ast (Node L) l × Cloner L)}
    {f : Node L → Ast (Node L) i → Ast (Node L) j → Ast (Node L) l → Ast (Node L) k}
    (hk : isNode k = true) (hx : GivesCopy r x c) (hy : ∀ c, GivesCopy (r' c) y c)
    (hz : ∀ c, GivesCopy (r'' c) z c)
    (hv : ∀ x' c₁ y' c₂ z' c₃, r = .ok (x', c₁) → r' c₁ = .ok (y', c₂) → r'' c₂ = .ok (z', c₃) →
      ∃ o, visit p t c = .ok (o, c₃.make a (f · x' y' z')))
    (hs : ∀ n x' y' z', n.location = a.location → x'.map Node.location = x.map Node.location →
      y'.map Node.location = y.map Node.location → z'.map Node.location = z.map Node.location →
      (f n x' y' z').map Node.location = t.map Node.location)
    (ha : ∀ n x' y' z', ∃ ns, addrs (f n x' y' z') = n.addr :: ns ∧
      (addrs x' ++ addrs y' ++ addrs z').Perm ns) : Clones p t c := by
  obtain ⟨x', c₁, hr, d₁⟩ := hx
  obtain ⟨y', c₂, hr', d₂⟩ := hy c₁
  obtain ⟨z', c₃, hr'', d₃⟩ := hz c₂
  obtain ⟨o, hv⟩ := hv x' c₁ y' c₂ z' c₃ hr hr' hr''
  obtain ⟨ns, hns, hperm⟩ := ha ⟨c₃.next, a.location⟩ x' y' z'
  exact .of_make hk hv (hs _ x' y' z' rfl d₁.same d₂.same d₃.same) hns
    (((d₁.fresh.append d₂.fresh).append d₃.fresh).perm hperm)

/-- A node of a derived class is given for one of its base class. -/
theorem Clones.inclusion {u : Ast (Node L) j} {f : Ast (Node L) j → Ast (Node L) k}
    (h : Clones p u c) (hj : isNode j = true) (hk : isNode k = true)
    (hv : ∀ o c', visit p u c = .ok (o, c') → ∃ o', visit p t c = .ok (o', c'))
    (hget : ∀ (c' : Cloner L) u', c'.get j = .ok u' → c'.get k = .ok (f u'))
    (hs : ∀ u', u'.map Node.location = u.map Node.location →
      (f u').map Node.location = t.map Node.location)
    (ha : ∀ u', addrs (f u') = addrs u') : Clones p t c := by
  obtain ⟨o, c', u', hu, hl, d⟩ := h
  obtain ⟨o', hv⟩ := hv o c' hu
  exact ⟨o', c', f u', hv, (leaves_iff hk).mpr (hget c' u' ((leaves_iff hj).mp hl)),
    hs u' d.same, (ha u').symm ▸ d.fresh⟩

end Shapes

/-- Each visiting method leaves a copy of the node. -/
theorem visit_spec (hf : p.desugarFor = none) (hs : p.desugarStringCmp = none)
    (hk : isProper k = true) : Clones p t c := by
  induction t generalizing c with
  | nil => exact ⟨_, c, _, rfl, rfl, rfl, .nil⟩
  | cons x xs ihx ihxs =>
    obtain ⟨x', c₁, hv₁, d₁⟩ := (ihx (c := c) (isProper_of_isNode hk)).recurse hk
    obtain ⟨xs', c₂, hv₂, d₂⟩ := (ihxs (c := c₁) hk).list
    have hv : visit p (.cons x xs) c = .ok (.cons x' xs', c₂) := by
      rw [visit, hv₁, ok_bind]
      simp only [hv₂, ok_bind]
      rfl
    refine ⟨_, c₂, _, hv, rfl, ?_, ?_⟩
    · rw [Ast.map, d₁.same, d₂.same, Ast.map]
    · simpa [addrs, Ast.nodes] using d₁.fresh.append d₂.fresh
  | none => exact ⟨_, c, _, rfl, rfl, rfl, .nil⟩
  | some x ih =>
    obtain ⟨x', c₁, hv, d⟩ := (ih (c := c) (isProper_of_isNode hk)).recurse hk
    have hv' : visit p (.some x) c = .ok (.some x', c₁) := by
      rw [visit, hv]
      rfl
    exact ⟨_, c₁, _, hv', rfl, by rw [Ast.map, d.same, Ast.map], d.fresh⟩
  | simpleVar a x => exact .of_make rfl rfl rfl rfl .nil
  | fieldVar a v x ih =>
    exact .one (f := fun n v => .fieldVar n v x) rfl ((ih rfl).recurse rfl)
      (fun _ _ h => ⟨(), by rw [visit, h]; rfl⟩)
      (fun n _ hn h => by rw [Ast.map, hn, h, Ast.map]) fun _ _ => rfl
  | subscriptVar a v i ih₁ ih₂ =>
    exact .two (f := .subscriptVar) rfl ((ih₁ rfl).recurse rfl) (fun _ => (ih₂ rfl).recurse rfl)
      (fun _ _ _ _ h₁ h₂ => ⟨(), by simp only [visit, h₁, h₂, ok_bind]; rfl⟩)
      (fun n _ _ hn h₁ h₂ => by rw [Ast.map, hn, h₁, h₂, Ast.map])
      fun _ _ _ => ⟨_, by simp only [addrs, Ast.nodes, List.map_cons, List.map_append], .refl _⟩
  | ofVar u ih =>
    exact (ih rfl).inclusion (f := .ofVar) rfl rfl (fun _ _ h => ⟨(), by rw [visit, h]; rfl⟩)
      (fun _ _ => get_ofVar) (fun _ h => by rw [Ast.map, h, Ast.map]) fun _ => rfl
  | nilExp a => exact .of_make rfl rfl rfl rfl .nil
  | intExp a n => exact .of_make rfl rfl rfl rfl .nil
  | stringExp a s => exact .of_make rfl rfl rfl rfl .nil
  | callExp a x args ih =>
    exact .one (f := fun n args => .callExp n x args) rfl ((ih rfl).list)
      (fun _ _ h => ⟨(), by rw [visit, h]; rfl⟩)
      (fun n _ hn h => by rw [Ast.map, hn, h, Ast.map]) fun _ _ => rfl
  | opExp a l o r ih₁ ih₂ =>
    -- The option is off: the method of the Cloner is called.
    exact .two (f := fun n l r => .opExp n l o r) rfl ((ih₁ rfl).recurse rfl)
      (fun _ => (ih₂ rfl).recurse rfl)
      (fun _ _ _ _ h₁ h₂ => ⟨(), by simp only [visit, hs, h₁, h₂, ok_bind]; rfl⟩)
      (fun n _ _ hn h₁ h₂ => by rw [Ast.map, hn, h₁, h₂, Ast.map])
      fun _ _ _ => ⟨_, by simp only [addrs, Ast.nodes, List.map_cons, List.map_append], .refl _⟩
  | recordExp a n fs ih₁ ih₂ =>
    exact .two (f := .recordExp) rfl ((ih₁ rfl).recurse rfl) (fun _ => (ih₂ rfl).list)
      (fun _ _ _ _ h₁ h₂ => ⟨(), by simp only [visit, h₁, h₂, ok_bind]; rfl⟩)
      (fun n _ _ hn h₁ h₂ => by rw [Ast.map, hn, h₁, h₂, Ast.map])
      fun _ _ _ => ⟨_, by simp only [addrs, Ast.nodes, List.map_cons, List.map_append], .refl _⟩
  | seqExp a es ih =>
    exact .one (f := .seqExp) rfl ((ih rfl).list)
      (fun _ _ h => ⟨(), by rw [visit, h]; rfl⟩)
      (fun n _ hn h => by rw [Ast.map, hn, h, Ast.map]) fun _ _ => rfl
  | assignExp a v e ih₁ ih₂ =>
    exact .two (f := .assignExp) rfl ((ih₁ rfl).recurse rfl) (fun _ => (ih₂ rfl).recurse rfl)
      (fun _ _ _ _ h₁ h₂ => ⟨(), by simp only [visit, h₁, h₂, ok_bind]; rfl⟩)
      (fun n _ _ hn h₁ h₂ => by rw [Ast.map, hn, h₁, h₂, Ast.map])
      fun _ _ _ => ⟨_, by simp only [addrs, Ast.nodes, List.map_cons, List.map_append], .refl _⟩
  | ifExp a x y z ih₁ ih₂ ih₃ =>
    exact .three (f := fun n x z y => .ifExp n x y z) rfl ((ih₁ rfl).recurse rfl)
      (fun _ => (ih₃ rfl).recurse rfl) (fun _ => (ih₂ rfl).recurse rfl)
      (fun _ _ _ _ _ _ h₁ h₂ h₃ => ⟨(), by simp only [visit, h₁, h₂, h₃, ok_bind]; rfl⟩)
      (fun n _ _ _ hn h₁ h₂ h₃ => by rw [Ast.map, hn, h₁, h₂, h₃, Ast.map])
      fun _ x z y => ⟨addrs x ++ addrs y ++ addrs z,
        by simp only [addrs, Ast.nodes, List.map_cons, List.map_append], by
        rw [List.append_assoc, List.append_assoc]
        exact (List.Perm.refl _).append List.perm_append_comm⟩
  | whileExp a x y ih₁ ih₂ =>
    exact .two (f := .whileExp) rfl ((ih₁ rfl).recurse rfl) (fun _ => (ih₂ rfl).recurse rfl)
      (fun _ _ _ _ h₁ h₂ => ⟨(), by simp only [visit, h₁, h₂, ok_bind]; rfl⟩)
      (fun n _ _ hn h₁ h₂ => by rw [Ast.map, hn, h₁, h₂, Ast.map])
      fun _ _ _ => ⟨_, by simp only [addrs, Ast.nodes, List.map_cons, List.map_append], .refl _⟩
  | forExp a d h b ih₁ ih₂ ih₃ =>
    exact .three (f := .forExp) rfl ((ih₁ rfl).recurse rfl)
      (fun _ => (ih₂ rfl).recurse rfl) (fun _ => (ih₃ rfl).recurse rfl)
      (fun _ _ _ _ _ _ h₁ h₂ h₃ => ⟨(), by simp only [visit, hf, h₁, h₂, h₃, ok_bind]; rfl⟩)
      (fun n _ _ _ hn h₁ h₂ h₃ => by rw [Ast.map, hn, h₁, h₂, h₃, Ast.map])
      fun _ _ _ _ => ⟨_, by simp only [addrs, Ast.nodes, List.map_cons, List.map_append], .refl _⟩
  | breakExp a => exact .of_make rfl rfl rfl rfl .nil
  | letExp a cs b ih₁ ih₂ =>
    exact .two (f := fun n b cs => .letExp n cs b) rfl ((ih₂ rfl).recurse rfl)
      (fun _ => (ih₁ rfl).recurse rfl)
      (fun _ _ _ _ h₁ h₂ => ⟨(), by simp only [visit, h₁, h₂, ok_bind]; rfl⟩)
      (fun n _ _ hn h₁ h₂ => by rw [Ast.map, hn, h₁, h₂, Ast.map])
      fun _ _ _ => ⟨_, by simp only [addrs, Ast.nodes, List.map_cons, List.map_append],
        List.perm_append_comm⟩
  | arrayExp a n x y ih₁ ih₂ ih₃ =>
    exact .three (f := .arrayExp) rfl ((ih₁ rfl).recurse rfl)
      (fun _ => (ih₂ rfl).recurse rfl) (fun _ => (ih₃ rfl).recurse rfl)
      (fun _ _ _ _ _ _ h₁ h₂ h₃ => ⟨(), by simp only [visit, h₁, h₂, h₃, ok_bind]; rfl⟩)
      (fun n _ _ _ hn h₁ h₂ h₃ => by rw [Ast.map, hn, h₁, h₂, h₃, Ast.map])
      fun _ _ _ _ => ⟨_, by simp only [addrs, Ast.nodes, List.map_cons, List.map_append], .refl _⟩
  | castExp a e ty ih₁ ih₂ =>
    exact .two (f := .castExp) rfl ((ih₁ rfl).recurse rfl) (fun _ => (ih₂ rfl).recurse rfl)
      (fun _ _ _ _ h₁ h₂ => ⟨(), by simp only [visit, h₁, h₂, ok_bind]; rfl⟩)
      (fun n _ _ hn h₁ h₂ => by rw [Ast.map, hn, h₁, h₂, Ast.map])
      fun _ _ _ => ⟨_, by simp only [addrs, Ast.nodes, List.map_cons, List.map_append], .refl _⟩
  | nameTy a x => exact .of_make rfl rfl rfl rfl .nil
  | ofNameTy u ih =>
    exact (ih rfl).inclusion (f := .ofNameTy) rfl rfl (fun _ _ h => ⟨(), by rw [visit, h]; rfl⟩)
      (fun _ _ => get_ofNameTy) (fun _ h => by rw [Ast.map, h, Ast.map]) fun _ => rfl
  | recordTy a fs ih =>
    exact .one (f := .recordTy) rfl ((ih rfl).list)
      (fun _ _ h => ⟨(), by rw [visit, h]; rfl⟩)
      (fun n _ hn h => by rw [Ast.map, hn, h, Ast.map]) fun _ _ => rfl
  | arrayTy a n ih =>
    exact .one (f := .arrayTy) rfl ((ih rfl).recurse rfl)
      (fun _ _ h => ⟨(), by rw [visit, h]; rfl⟩)
      (fun n _ hn h => by rw [Ast.map, hn, h, Ast.map]) fun _ _ => rfl
  | field a x n ih =>
    exact .one (f := fun m n => .field m x n) rfl ((ih rfl).recurse rfl)
      (fun _ _ h => ⟨(), by rw [visit, h]; rfl⟩)
      (fun n _ hn h => by rw [Ast.map, hn, h, Ast.map]) fun _ _ => rfl
  | fieldInit a x e ih =>
    exact .one (f := fun n e => .fieldInit n x e) rfl ((ih rfl).recurse rfl)
      (fun _ _ h => ⟨(), by rw [visit, h]; rfl⟩)
      (fun n _ hn h => by rw [Ast.map, hn, h, Ast.map]) fun _ _ => rfl
  | varDec a x n e ih₁ ih₂ =>
    exact .two (f := fun m n e => .varDec m x n e) rfl ((ih₁ rfl).opt) (fun _ => (ih₂ rfl).opt)
      (fun _ _ _ _ h₁ h₂ => ⟨(), by simp only [visit, h₁, h₂, ok_bind]; rfl⟩)
      (fun n _ _ hn h₁ h₂ => by rw [Ast.map, hn, h₁, h₂, Ast.map])
      fun _ _ _ => ⟨_, by simp only [addrs, Ast.nodes, List.map_cons, List.map_append], .refl _⟩
  | functionDec a x fs r b ih₁ ih₂ ih₃ =>
    exact .three (f := fun n fs r b => .functionDec n x fs r b) rfl ((ih₁ rfl).recurse rfl)
      (fun _ => (ih₂ rfl).opt) (fun _ => (ih₃ rfl).opt)
      (fun _ _ _ _ _ _ h₁ h₂ h₃ => ⟨(), by simp only [visit, h₁, h₂, h₃, ok_bind]; rfl⟩)
      (fun n _ _ _ hn h₁ h₂ h₃ => by rw [Ast.map, hn, h₁, h₂, h₃, Ast.map])
      fun _ _ _ _ => ⟨_, by simp only [addrs, Ast.nodes, List.map_cons, List.map_append], .refl _⟩
  | typeDec a x ty ih =>
    exact .one (f := fun n ty => .typeDec n x ty) rfl ((ih rfl).recurse rfl)
      (fun _ _ h => ⟨(), by rw [visit, h]; rfl⟩)
      (fun n _ hn h => by rw [Ast.map, hn, h, Ast.map]) fun _ _ => rfl
  | varChunk a ds ih =>
    exact .one (f := .varChunk) rfl ((ih rfl).list)
      (fun _ _ h => ⟨(), by rw [visit, h]; rfl⟩)
      (fun n _ hn h => by rw [Ast.map, hn, h, Ast.map]) fun _ _ => rfl
  | ofVarChunk u ih =>
    exact (ih rfl).inclusion (f := .ofVarChunk) rfl rfl (fun _ _ h => ⟨(), by rw [visit, h]; rfl⟩)
      (fun _ _ => get_ofVarChunk) (fun _ h => by rw [Ast.map, h, Ast.map]) fun _ => rfl
  | functionChunk a ds ih =>
    exact .one (f := .functionChunk) rfl ((ih rfl).list)
      (fun _ _ h => ⟨(), by rw [visit, h]; rfl⟩)
      (fun n _ hn h => by rw [Ast.map, hn, h, Ast.map]) fun _ _ => rfl
  | typeChunk a ds ih =>
    exact .one (f := .typeChunk) rfl ((ih rfl).list)
      (fun _ _ h => ⟨(), by rw [visit, h]; rfl⟩)
      (fun n _ hn h => by rw [Ast.map, hn, h, Ast.map]) fun _ _ => rfl
  | chunkList a cs ih =>
    exact .one (f := .chunkList) rfl ((ih rfl).list)
      (fun _ _ h => ⟨(), by rw [visit, h]; rfl⟩)
      (fun n _ hn h => by rw [Ast.map, hn, h, Ast.map]) fun _ _ => rfl

/-- The pass run on a tree from a state of the memory: the slot holds a copy of the tree in the
end, whose nodes are all new. -/
def ClonesTree (p : Pass L) (t : Ast (Node L) k) : Prop :=
  ∀ c : Cloner L, (∀ n ∈ addrs t, n < c.next) → ∃ o c' t', visit p t c = .ok (o, c') ∧
    c'.get k = .ok t' ∧ t'.map Node.location = t.map Node.location ∧ (addrs t').Nodup ∧
    ∀ n ∈ addrs t', n ∉ addrs t

theorem clonesTree_of_off (hk : isNode k = true) (hf : p.desugarFor = none)
    (hs : p.desugarStringCmp = none) : ClonesTree p t := by
  intro c hc
  obtain ⟨o, c', t', hv, hl, hsame, hfresh⟩ :=
    visit_spec (t := t) (c := c) hf hs (isProper_of_isNode hk)
  refine ⟨o, c', t', hv, (leaves_iff hk).mp hl, hsame, hfresh.nodup, fun n hn ht => ?_⟩
  exact Nat.lt_irrefl n (Nat.lt_of_lt_of_le (hc n ht) (hfresh.bounds n hn).1)

/-- Cloning is a structural identity, and so is desugaring with both options off. -/
theorem clonesTree (L : Type) (k : Kind) (hk : isNode k = true) (t : Ast (Node L) k) :
    ClonesTree {} t ∧
      ∀ p : Pass L, p.desugarFor = none → p.desugarStringCmp = none → ClonesTree p t :=
  ⟨clonesTree_of_off hk rfl rfl, fun _ => clonesTree_of_off hk⟩

end copies

/-- `if x then y else ()`, with the addresses from 0 on and no locations. -/
def conditional : Ast (Node Unit) .exp :=
  .ifExp ⟨0, ()⟩ (.ofVar (.simpleVar ⟨1, ()⟩ "x".toList)) (.ofVar (.simpleVar ⟨2, ()⟩ "y".toList))
    (.seqExp ⟨3, ()⟩ .nil)

theorem conditional_clonesTree : isNode .exp = true ∧ ClonesTree {} conditional :=
  ⟨rfl, (clonesTree Unit .exp rfl conditional).1⟩

end Cloner

end TigerCompiler
