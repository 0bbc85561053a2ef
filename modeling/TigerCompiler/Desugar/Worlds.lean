import TigerCompiler.Bind.Lexical
import TigerCompiler.Desugar.DesugarVisitor
import TigerCompiler.Misc.Related
import TigerCompiler.Semantics.Reference

/-!
# A program and its desugared copy, side by side

What is known of the stores of both while they run: each cell of the program is somewhere in the
store of its copy, which has those of the variables of the texts besides.
-/

namespace TigerCompiler.DesugarVisitor

open Reference (Val Lvalue Obj Cell Store Binding Env Interrupt Run Platform State)

variable {α W : Type}

/-! ## Worlds -/

/-- The cells of both stores, and where each of the program is in the store of the copy. -/
structure World where
  inj : List Nat
  left : List Cell
  right : List Cell

/-- What becomes of the cells. -/
structure World.Le (w w₁ : World) : Prop where
  inj : w.inj <+: w₁.inj
  fresh : ∀ l ∈ w₁.inj, l ∈ w.inj ∨ w.right.length ≤ l
  length : w.right.length ≤ w₁.right.length
  /-- The cells that only the copy has are left alone. -/
  frame : ∀ (l : Nat) (c : Cell), l ∉ w.inj → w.right[l]? = some c → w₁.right[l]? = some c
  flags : ∀ (l : Nat) (c : Cell), w.right[l]? = some c → ∃ v, w₁.right[l]? = some ⟨v, c.writable⟩
  /-- So are the variables of the loops that the program is in. -/
  kept : ∀ (l : Nat) (v : Val), w.left[l]? = some ⟨v, false⟩ → w₁.left[l]? = some ⟨v, false⟩

theorem World.Le.refl (w : World) : w.Le w where
  inj := List.prefix_refl _
  fresh _ hl := .inl hl
  length := Nat.le_refl _
  frame _ _ _ hc := hc
  flags _ c hc := ⟨c.val, hc⟩
  kept _ _ hv := hv

theorem World.Le.trans {w w₁ w₂ : World} (h : w.Le w₁) (h' : w₁.Le w₂) : w.Le w₂ where
  inj := h.inj.trans h'.inj
  fresh l hl := by
    rcases h'.fresh l hl with hl | hl
    · exact h.fresh l hl
    · exact .inr (Nat.le_trans h.length hl)
  length := Nat.le_trans h.length h'.length
  frame l c hl hc := by
    refine h'.frame l c ?_ (h.frame l c hl hc)
    intro hmem
    rcases h.fresh l hmem with hmem | hge
    · exact hl hmem
    · rw [List.getElem?_eq_none hge] at hc
      cases hc
  flags l c hc := by
    obtain ⟨v, hv⟩ := h.flags l c hc
    exact h'.flags l ⟨v, c.writable⟩ hv
  kept l v hv := h'.kept l v (h.kept l v hv)

instance : Preorder World where
  le := World.Le
  le_refl := World.Le.refl
  le_trans _ _ _ h h' := h.trans h'

theorem World.Le.inj_later {w w₁ : World} (h : w.Le w₁) {i l : Nat} (hl : w.inj[i]? = some l) :
    w₁.inj[i]? = some l := by
  obtain ⟨rest, hrest⟩ := h.inj
  rw [← hrest, List.getElem?_append_left (List.getElem?_eq_some_iff.mp hl).1, hl]

/-- Where a cell is, it holds the same value, and may be assigned to if it may in the program. -/
structure World.Good (w : World) : Prop where
  nodup : ∀ (i j l : Nat), w.inj[i]? = some l → w.inj[j]? = some l → i = j
  length : w.inj.length = w.left.length
  cell : ∀ (i l : Nat), w.inj[i]? = some l → ∃ c c', w.left[i]? = some c ∧
    w.right[l]? = some c' ∧ c'.val = c.val ∧ (c.writable = true → c'.writable = true)

namespace World

variable {w w₀ : World} {i j l : Nat} {c c' : Cell} {a b : Val}

theorem Good.lt (h : w.Good) (hl : l ∈ w.inj) : l < w.right.length := by
  obtain ⟨i, hi⟩ := List.mem_iff_getElem?.mp hl
  obtain ⟨c, c', -, hc', -⟩ := h.cell i l hi
  exact (List.getElem?_eq_some_iff.mp hc').1

/-- A new cell on both sides. -/
def push (w : World) (c c' : Cell) : World :=
  ⟨w.inj ++ [w.right.length], w.left ++ [c], w.right ++ [c']⟩

theorem getElem?_concat {β : Type} {xs : List β} {x y : β} {n : Nat} :
    (xs ++ [x])[n]? = some y ↔ xs[n]? = some y ∨ n = xs.length ∧ x = y := by
  rw [List.getElem?_append]
  grind

theorem le_push : w ≤ w.push c c' where
  inj := List.prefix_append _ _
  fresh l hl := by
    rcases List.mem_append.mp hl with hl | hl
    · exact .inl hl
    · exact .inr (List.mem_singleton.mp hl ▸ Nat.le_refl _)
  length := by simp [push]
  frame l c₁ _ hc := getElem?_concat.mpr (.inl hc)
  flags l c₁ hc := ⟨c₁.val, getElem?_concat.mpr (.inl hc)⟩
  kept l v hv := getElem?_concat.mpr (.inl hv)

theorem Good.push (h : w.Good) (hval : c'.val = c.val)
    (hflag : c.writable = true → c'.writable = true) : (w.push c c').Good where
  nodup i j l hi hj := by
    have hold {n : Nat} (hn : w.inj[n]? = some w.right.length) : False :=
      Nat.lt_irrefl _ (h.lt (List.mem_of_getElem? hn))
    rcases getElem?_concat.mp hi with hi | ⟨hi', rfl⟩
    · rcases getElem?_concat.mp hj with hj | ⟨-, rfl⟩
      · exact h.nodup i j l hi hj
      · exact (hold hi).elim
    · rcases getElem?_concat.mp hj with hj | ⟨hj', -⟩
      · exact (hold hj).elim
      · exact hi'.trans hj'.symm
  length := by simp [World.push, h.length]
  cell i l hi := by
    rcases getElem?_concat.mp hi with hi | ⟨rfl, rfl⟩
    · obtain ⟨c₁, c₁', hc, hc', hrel⟩ := h.cell i l hi
      exact ⟨c₁, c₁', getElem?_concat.mpr (.inl hc), getElem?_concat.mpr (.inl hc'), hrel⟩
    · exact ⟨c, c', getElem?_concat.mpr (.inr ⟨h.length, rfl⟩),
        getElem?_concat.mpr (.inr ⟨rfl, rfl⟩), hval, hflag⟩

/-- A new cell of the copy. -/
def pushRight (w : World) (c : Cell) : World := ⟨w.inj, w.left, w.right ++ [c]⟩

theorem le_pushRight : w ≤ w.pushRight c where
  inj := List.prefix_refl _
  fresh l hl := .inl hl
  length := by simp [pushRight]
  frame l c₁ _ hc := getElem?_concat.mpr (.inl hc)
  flags l c₁ hc := ⟨c₁.val, getElem?_concat.mpr (.inl hc)⟩
  kept l v hv := hv

theorem Good.pushRight (h : w.Good) : (w.pushRight c).Good where
  nodup := h.nodup
  length := h.length
  cell i l hi := by
    obtain ⟨c₁, c₁', hc, hc', hrel⟩ := h.cell i l hi
    exact ⟨c₁, c₁', hc, getElem?_concat.mpr (.inl hc'), hrel⟩

/-- The cell `i`, which is at `l` in the copy, is written to. -/
def set (w : World) (i l : Nat) (c c' : Cell) : World := ⟨w.inj, w.left.set i c, w.right.set l c'⟩

/-- What is written may be a cell of the program that was not there in the world that one looks
from, or one that may be assigned to. -/
theorem le_set (hle : w₀ ≤ w) (h : w.Good) (hl : w.inj[i]? = some l)
    (hkept : ∀ v, w₀.left[i]? ≠ some ⟨v, false⟩)
    (hflag : ∀ c₁, w.right[l]? = some c₁ → c'.writable = c₁.writable) :
    w₀ ≤ w.set i l c c' := by
  have hlt : l < w.right.length := h.lt (List.mem_of_getElem? hl)
  refine ⟨hle.inj, hle.fresh, ?_, ?_, ?_, ?_⟩
  · rw [set, List.length_set]
    exact hle.length
  · intro l' c₁ hmem hc
    have hne : l ≠ l' := by
      rintro rfl
      rcases hle.fresh l (List.mem_of_getElem? hl) with hin | hge
      · exact hmem hin
      · rw [List.getElem?_eq_none hge] at hc
        cases hc
    rw [set, List.getElem?_set_ne hne]
    exact hle.frame l' c₁ hmem hc
  · intro l' c₁ hc
    obtain ⟨v, hv⟩ := hle.flags l' c₁ hc
    by_cases hne : l = l'
    · subst hne
      refine ⟨c'.val, ?_⟩
      rw [set, List.getElem?_set_self hlt, ← hflag _ hv]
    · exact ⟨v, by rw [set, List.getElem?_set_ne hne, hv]⟩
  · intro l' v hv
    have hne : i ≠ l' := by
      rintro rfl
      exact hkept v hv
    rw [set, List.getElem?_set_ne hne]
    exact hle.kept l' v hv

theorem Good.set (h : w.Good) (hl : w.inj[i]? = some l) (hval : c'.val = c.val)
    (hflag : c.writable = true → c'.writable = true) : (w.set i l c c').Good where
  nodup := h.nodup
  length := by rw [World.set, List.length_set, h.length]
  cell j l' hj := by
    obtain ⟨c₁, c₁', hc, hc', hrel⟩ := h.cell j l' hj
    by_cases hij : i = j
    · subst hij
      obtain rfl : l = l' := Option.some.inj (hl.symm.trans hj)
      refine ⟨c, c', ?_, ?_, hval, hflag⟩
      · exact List.getElem?_set_self (List.getElem?_eq_some_iff.mp hc).1
      · exact List.getElem?_set_self (List.getElem?_eq_some_iff.mp hc').1
    · have hne : l ≠ l' := by
        rintro rfl
        exact hij (h.nodup i j l hl hj)
      refine ⟨c₁, c₁', ?_, ?_, hrel⟩
      · rw [World.set, List.getElem?_set_ne hij, hc]
      · rw [World.set, List.getElem?_set_ne hne, hc']

end World

/-! ## Stores -/

/-- The stores of both in a world. -/
structure StoreRel (w : World) (σ σ' : Store W) : Prop where
  good : w.Good
  left : σ.cells = w.left
  right : σ'.cells = w.right
  heap : σ'.heap = σ.heap
  world : σ'.world = σ.world

/-- Where both find a value. -/
def LvalueRel (w : World) : Lvalue → Lvalue → Prop
  | .cell i, .cell l => w.inj[i]? = some l
  | p, p' => p = p'

/-- Why both stop. -/
def InterruptRel (w : World) : Interrupt W → Interrupt W → Prop
  | .broke σ, .broke σ' => StoreRel w σ σ'
  | .fault f, .fault f' => f = f'
  | _, _ => False

/-- Nothing is asked of the copy of a program that goes wrong. -/
def Excused (i : Interrupt W) : Prop := i = .fault .wrong

/-- Two runs side by side. -/
abbrev Side {β β' : Type} (w : World) (R : World → β → β' → Prop) (x : Run W β) (x' : Run W β') :
    Prop :=
  Together InterruptRel Excused w R x x'

variable {w w₁ : World} {σ σ' : Store W} {p p' : Lvalue} {v : Val}

namespace StoreRel

theorem read (h : StoreRel w σ σ') (hp : LvalueRel w p p') : σ'.read p' = σ.read p := by
  cases p with
  | cell i =>
    cases p' with
    | cell l =>
      obtain ⟨c, c', hc, hc', hval, -⟩ := h.good.cell i l hp
      rw [Store.read, Store.read, h.left, h.right, hc, hc', Option.map_some, Option.map_some, hval]
    | field | elem => cases hp
  | field b x =>
    cases p' with
    | field b' x' =>
      cases hp
      rw [Store.read, Store.read, h.heap]
    | cell | elem => cases hp
  | elem b i =>
    cases p' with
    | elem b' i' =>
      cases hp
      rw [Store.read, Store.read, h.heap]
    | cell | field => cases hp

theorem push (h : StoreRel w σ σ') {c c' : Cell} (hval : c'.val = c.val)
    (hflag : c.writable = true → c'.writable = true) :
    StoreRel (w.push c c') (σ.push c) (σ'.push c') where
  good := h.good.push hval hflag
  left := by rw [Store.push, World.push, h.left]
  right := by rw [Store.push, World.push, h.right]
  heap := h.heap
  world := h.world

/-- Where the new cell is. -/
theorem inj_push (h : StoreRel w σ σ') (c c' : Cell) :
    (w.push c c').inj[σ.cells.length]? = some σ'.cells.length := by
  rw [h.left, ← h.good.length, h.right]
  exact List.getElem?_concat_length

theorem pushRight (h : StoreRel w σ σ') {c : Cell} : StoreRel (w.pushRight c) σ (σ'.push c) where
  good := h.good.pushRight
  left := h.left
  right := by rw [Store.push, World.pushRight, h.right]
  heap := h.heap
  world := h.world

theorem alloc (h : StoreRel w σ σ') (o : Obj) :
    (σ'.alloc o).1 = (σ.alloc o).1 ∧ StoreRel w (σ.alloc o).2 (σ'.alloc o).2 := by
  refine ⟨?_, h.good, h.left, h.right, ?_, h.world⟩
  · rw [Store.alloc, Store.alloc, h.heap]
  · rw [Store.alloc, Store.alloc, h.heap]

theorem setHeap (h : StoreRel w σ σ') (os : List Obj) :
    StoreRel w { σ with heap := os } { σ' with heap := os } :=
  ⟨h.good, h.left, h.right, rfl, h.world⟩

theorem set (h : StoreRel w σ σ') {i l : Nat} {c c' : Cell} (hl : w.inj[i]? = some l)
    (hval : c'.val = c.val) (hflag : c.writable = true → c'.writable = true) :
    StoreRel (w.set i l c c') { σ with cells := σ.cells.set i c }
      { σ' with cells := σ'.cells.set l c' } where
  good := h.good.set hl hval hflag
  left := by rw [World.set, h.left]
  right := by rw [World.set, h.right]
  heap := h.heap
  world := h.world

end StoreRel

theorem side_fail {β β' : Type} {R : World → β → β' → Prop} (f : Semantics.Fault) :
    Side (W := W) w R (Reference.fail f) (Reference.fail f) := .error (le_refl w) rfl

/-- A program that goes wrong is excused. -/
theorem side_wrong {β β' : Type} {R : World → β → β' → Prop} {x : Run W β'} :
    Side w R (Reference.fail .wrong) x := .excuse rfl

theorem side_orFail {β : Type} {f : Semantics.Fault} {o o' : Option β} (h : o' = o) :
    Side (W := W) w (fun w' a a' => w' = w ∧ a' = a ∧ o = some a) (Reference.orFail f o)
      (Reference.orFail f o') := by
  subst h
  cases o' with
  | none => exact side_fail f
  | some a => exact .ok (le_refl w) ⟨rfl, rfl, rfl⟩

theorem side_ofFault {β : Type} {x x' : Except Semantics.Fault β} (h : x' = x) :
    Side (W := W) w (fun w' a a' => w' = w ∧ a' = a) (Reference.ofFault x)
      (Reference.ofFault x') := by
  subst h
  cases x' with
  | error f => exact side_fail f
  | ok a => exact .ok (le_refl w) ⟨rfl, rfl⟩

/-- Both write. -/
theorem StoreRel.write (h : StoreRel w σ σ') (hp : LvalueRel w p p') :
    Side w (fun w₁ σ₁ σ₁' => w₁.inj = w.inj ∧ StoreRel w₁ σ₁ σ₁') (σ.write v p)
      (σ'.write v p') := by
  cases p with
  | cell i =>
    cases p' with
    | cell l =>
      obtain ⟨⟨a, writable⟩, ⟨a', writable'⟩, hc, hc', hval, hflag⟩ := h.good.cell i l hp
      have hleft : σ.cells[i]? = some ⟨a, writable⟩ := by rw [h.left, hc]
      have hright : σ'.cells[l]? = some ⟨a', writable'⟩ := by rw [h.right, hc']
      cases writable with
      | false =>
        rw [Store.write_loop v hleft]
        exact side_wrong
      | true =>
        obtain rfl : writable' = true := hflag rfl
        rw [Store.write_cell v hleft, Store.write_cell v hright]
        refine .ok (World.le_set (le_refl w) h.good hp ?_ ?_) ⟨rfl, h.set hp rfl id⟩
        · intro b hb
          rw [hc] at hb
          cases hb
        · intro c₁ hc₁
          rw [hc'] at hc₁
          cases hc₁
          rfl
    | field | elem => cases hp
  | field | elem =>
    cases hp
    apply (side_ofFault (by rw [h.heap])).bind
    rintro w₁ - os os' ⟨rfl, rfl⟩
    exact .ok (le_refl w₁) ⟨rfl, h.setHeap os'⟩

/-! ## Declarations -/

/-- Whether a node leaves alone the names of the texts, and of what they call. -/
def cleanAt (v : DesugarVisitor α) : {k : Kind} → Ast α k → Bool
  | _, .simpleVar _ x => x ∉ [loName, hiName]
  | _, .varDec _ x _ _ => x ∉ [loName, hiName]
  | _, .functionDec _ x _ _ _ => !v.desugarStringCmpP || x ∉ [streqName, strcmpName]
  | _, _ => true

/-- No part of a tree declares or uses a variable of the texts, nor declares a function with the
name of one that compares strings. -/
def Clean (v : DesugarVisitor α) {k : Kind} (t : Ast α k) : Prop :=
  ∀ c ∈ t.subterms, v.cleanAt c.2 = true

variable {v : DesugarVisitor α} {k : Kind}

instance {t : Ast α k} : Decidable (v.Clean t) :=
  inferInstanceAs (Decidable (∀ c ∈ t.subterms, v.cleanAt c.2 = true))

theorem Clean.part {t : Ast α k} (h : v.Clean t) {j : Kind} {u : Ast α j}
    (hu : ⟨j, u⟩ ∈ t.subterms) : v.Clean u := fun c hc => h c (Ast.subterms_subset hu hc)

theorem Clean.here {t : Ast α k} (h : v.Clean t) : v.cleanAt t = true :=
  h ⟨k, t⟩ (Ast.mem_subterms_self t)

/-- Functions without bodies, among which those that compare strings. -/
structure Prelude (v : DesugarVisitor α) (ds : List (Ast α .functionDec)) : Prop where
  primitive : ∀ d ∈ ds, d.hasBody = false
  compare : v.desugarStringCmpP = true → ∀ x ∈ [streqName, strcmpName],
    ∃ d ∈ ds, d.functionName = x

/-- The declarations around a place of a program and of its copy. -/
inductive EnvRel (v : DesugarVisitor α) (inj : List Nat) : Env α → Env α → Prop
  | prelude {ds : List (Ast α .functionDec)} (h : v.Prelude ds) :
      EnvRel v inj [.funs ds] [.funs (ds.map v.visit)]
  | var {x : Symbol} {i l : Nat} {ρ ρ' : Env α} (hl : inj[i]? = some l) (h : EnvRel v inj ρ ρ') :
      EnvRel v inj (.var x i :: ρ) (.var x l :: ρ')
  | funs {ds : List (Ast α .functionDec)} {ρ ρ' : Env α} (clean : ∀ d ∈ ds, v.Clean d)
      (h : EnvRel v inj ρ ρ') : EnvRel v inj (.funs ds :: ρ) (.funs (ds.map v.visit) :: ρ')
  /-- A variable of a text. -/
  | text {x : Symbol} {l : Nat} {ρ ρ' : Env α} (hx : x ∈ [loName, hiName])
      (h : EnvRel v inj ρ ρ') : EnvRel v inj ρ (.var x l :: ρ')

namespace EnvRel

variable {inj inj₁ : List Nat} {ρ ρ' ρ₁ : Env α} {x : Symbol} {i : Nat}

theorem mono (h : EnvRel v inj ρ ρ') (hinj : inj <+: inj₁) : EnvRel v inj₁ ρ ρ' := by
  induction h with
  | prelude h => exact .prelude h
  | var hl _ ih =>
    obtain ⟨rest, rfl⟩ := hinj
    exact .var (List.getElem?_append_left (List.getElem?_eq_some_iff.mp hl).1 ▸ hl) ih
  | funs clean _ ih => exact .funs clean ih
  | text hx _ ih => exact .text hx ih

theorem var_eq_some (h : EnvRel v inj ρ ρ') (hx : x ∉ [loName, hiName])
    (hi : ρ.var x = some i) : ∃ l, ρ'.var x = some l ∧ inj[i]? = some l := by
  induction h with
  | prelude h => cases hi
  | @var y j l ρ ρ' hl _ ih =>
    rw [Env.var] at hi ⊢
    by_cases hy : y = x
    · rw [if_pos hy] at hi ⊢
      cases hi
      exact ⟨l, rfl, hl⟩
    · rw [if_neg hy] at hi ⊢
      exact ih hi
  | funs _ _ ih => exact ih hi
  | text hy _ ih =>
    rw [Env.var, if_neg]
    · exact ih hi
    · rintro rfl
      exact hx hy

theorem find?_map {ds : List (Ast α .functionDec)} :
    (ds.map v.visit).find? (fun d => d.functionName = x) =
      (ds.find? fun d => d.functionName = x).map v.visit := by
  have hname : (fun d : Ast α .functionDec => decide (d.functionName = x)) ∘ v.visit =
      fun d => decide (d.functionName = x) := funext fun d => by simp
  rw [List.find?_map, hname]

theorem function_eq_some (h : EnvRel v inj ρ ρ') {d : Ast α .functionDec}
    (hd : ρ.function x = some (d, ρ₁)) :
    (d.hasBody = true → v.Clean d) ∧
      ∃ ρ₁', ρ'.function x = some (v.visit d, ρ₁') ∧ EnvRel v inj ρ₁ ρ₁' := by
  induction h with
  | @prelude ds h =>
    rw [Env.function] at hd ⊢
    rw [find?_map]
    cases hf : ds.find? (fun d => d.functionName = x) with
    | none =>
      rw [hf] at hd
      cases hd
    | some d' =>
      rw [hf] at hd
      cases hd
      refine ⟨?_, _, rfl, .prelude h⟩
      intro hbody
      rw [h.primitive d (List.mem_of_find?_eq_some hf)] at hbody
      cases hbody
  | var _ _ ih => exact ih hd
  | @funs ds ρ ρ' clean h ih =>
    rw [Env.function] at hd ⊢
    rw [find?_map]
    cases hf : ds.find? (fun d => d.functionName = x) with
    | none =>
      rw [hf] at hd
      exact ih hd
    | some d' =>
      rw [hf] at hd
      cases hd
      exact ⟨fun _ => clean d (List.mem_of_find?_eq_some hf), _, rfl, .funs clean h⟩
  | text _ _ ih => exact ih hd

/-- The functions that compare strings are found from everywhere. -/
theorem exists_primitive (h : EnvRel v inj ρ ρ') (hv : v.desugarStringCmpP = true)
    (hx : x ∈ [streqName, strcmpName]) :
    ∃ d ρ₁, ρ'.function x = some (d, ρ₁) ∧ d.hasBody = false ∧ d.functionName = x := by
  induction h with
  | @prelude ds h =>
    rw [Env.function, find?_map]
    cases hf : ds.find? (fun d => d.functionName = x) with
    | none =>
      obtain ⟨d, hd, hname⟩ := h.compare hv x hx
      exact absurd (decide_eq_true hname) (List.find?_eq_none.mp hf d hd)
    | some d =>
      refine ⟨v.visit d, _, rfl, ?_, ?_⟩
      · rw [hasBody_visit, h.primitive d (List.mem_of_find?_eq_some hf)]
      · rw [functionName_visit]
        simpa using List.find?_some hf
  | var _ _ ih => exact ih
  | @funs ds ρ ρ' clean _ ih =>
    rw [Env.function, find?_map]
    cases hf : ds.find? (fun d => d.functionName = x) with
    | none => exact ih
    | some d =>
      have hname : d.functionName = x := by simpa using List.find?_some hf
      have hclean := (clean d (List.mem_of_find?_eq_some hf)).here
      cases d with
      | functionDec a y fs r b =>
        cases hname
        have hmem : y ∈ [streqName, strcmpName] := hx
        simp [cleanAt, hv] at hclean
        simp [hclean] at hmem
  | text _ _ ih => exact ih

end EnvRel

end TigerCompiler.DesugarVisitor
