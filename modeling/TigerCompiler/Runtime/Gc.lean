import TigerCompiler.Runtime.Arrays
import Mathlib.Logic.Function.Basic

/-!
# The garbage collector of the runtime

`runtime/tiger-gc.c` and the allocator in `runtime/gc-alloc.c`.  The blocks are chained in one
list, most recent first.  A collection marks the blocks that the words of the stack lead to, any
word that is the address of the first field of a block counting as a pointer to it, and then
walks the list to free the others.

Memory is two maps, from addresses to the list nodes and to the blocks that `malloc` has
returned and `free` has not taken back.  Following a pointer that leads nowhere, or freeing one,
has no defined behaviour, and neither has a store into the metadata of a block too small for it.
-/

namespace TigerCompiler

/-- `tc_word_t`. -/
abbrev Word := UInt64

/-- `struct gc_object`: the metadata and the words that follow. -/
structure GcObject where
  marked : Bool := false
  size : UInt64
  f : Nat → Word

/-- `struct list_obj`. -/
structure ListObj where
  actual : Word
  next : Option Word
  deriving DecidableEq

/-- `gc_ctx_` without the top of the stack, and the memory. -/
structure Gc where
  heap : Option Word := none
  gcEnabled : Bool := true
  nodes : Word → Option ListObj := fun _ => none
  objects : Word → Option GcObject := fun _ => none

/-- The address of the first field of the block at `a`: `struct gc_md` takes two words. -/
def firstField (a : Word) : Word := a + 16

namespace GcObject

/-- `size / sizeof(size_t)`. -/
def words (o : GcObject) : Nat := o.size.toNat / 8

end GcObject

namespace Gc

/-- `p->next` and the other members of a list node. -/
def node (g : Gc) (p : Word) : Except Stop ListObj :=
  match g.nodes p with
  | some o => .ok o
  | none => .error .undefined

/-- `p->md` and the fields of a block. -/
def object (g : Gc) (p : Word) : Except Stop GcObject :=
  match g.objects p with
  | some o => .ok o
  | none => .error .undefined

/-- A store into a block. -/
def setObject (g : Gc) (p : Word) (o : GcObject) : Gc :=
  { g with objects := Function.update g.objects p (some o) }

/-- A store into a list node. -/
def setNode (g : Gc) (p : Word) (o : ListObj) : Gc :=
  { g with nodes := Function.update g.nodes p (some o) }

/-- `free` of a block. -/
def freeObject (g : Gc) (p : Word) : Except Stop Gc := do
  let _ ← g.object p
  return { g with objects := Function.update g.objects p none }

/-- `free` of a list node. -/
def freeNode (g : Gc) (p : Word) : Except Stop Gc := do
  let _ ← g.node p
  return { g with nodes := Function.update g.nodes p none }

/-- The loop of `find_in_heap`. -/
def findInHeap (g : Gc) : Nat → Option Word → Word → Except Stop (Option Word)
  | 0, _, _ => .error .outOfFuel
  | _ + 1, none, _ => .ok none
  | n + 1, some objs, word => do
    let o ← g.node objs
    if firstField o.actual = word then return some o.actual else g.findInHeap n o.next word

/-- The loop of `DFS` over the fields of the block at `obj`. -/
def dfsFields (dfs : Gc → Word → Except Stop Gc) (obj : Word) : List Nat → Gc → Except Stop Gc
  | [], g => .ok g
  | i :: is, g => do
    let o ← g.object obj
    dfsFields dfs obj is (← dfs g (o.f i))

/-- `DFS`. -/
def dfs : Nat → Gc → Word → Except Stop Gc
  | 0, _, _ => .error .outOfFuel
  | n + 1, g, word => do
    match ← g.findInHeap n g.heap word with
    | none => return g
    | some obj =>
      let o ← g.object obj
      if o.marked then return g
      else dfsFields (dfs n) obj (List.range o.words) (g.setObject obj { o with marked := true })

/-- The first loop of `gc_collect`, over the words of the stack. -/
def markRoots (n : Nat) : Gc → List Word → Except Stop Gc
  | g, [] => .ok g
  | g, w :: ws => do markRoots n (← dfs n g w) ws

/-- `gc_ctx_.heap = next`, or `prev->next = next`. -/
def unlink (g : Gc) (next : Option Word) : Option Word → Except Stop Gc
  | none => .ok { g with heap := next }
  | some prev => do return g.setNode prev { ← g.node prev with next := next }

/-- The second loop of `gc_collect`. -/
def sweep : Nat → Gc → Option Word → Option Word → Except Stop Gc
  | 0, _, _, _ => .error .outOfFuel
  | _ + 1, g, none, _ => .ok g
  | n + 1, g, some h, prev => do
    let o ← g.node h
    let obj ← g.object o.actual
    if obj.marked then sweep n (g.setObject o.actual { obj with marked := false }) o.next (some h)
    else
      let g ← g.freeObject o.actual
      let g ← g.unlink o.next prev
      let g ← g.freeNode h
      sweep n g o.next prev

/-- `gc_collect`, the words of the stack being `roots`. -/
def collect (n : Nat) (g : Gc) (roots : List Word) : Except Stop Gc :=
  if g.gcEnabled then do
    let g ← markRoots n g roots
    sweep n g g.heap none
  else return g

/-- The stores of `tc_malloc`: into the node at `node`, and into the metadata at `res`. -/
def link (g : Gc) (size : UInt64) (res node : Word) : Gc :=
  { (g.setObject res { size, f := fun _ => 0 }).setNode node { actual := res, next := g.heap } with
    heap := some node }

/-- `tc_malloc` once memory is found: `calloc` has returned `res` and `malloc` has returned
`node`.  The bytes of the block are those asked for, in the arithmetic of `size_t`. -/
def tcMalloc (g : Gc) (size : UInt64) (res node : Word) : Except Stop Gc :=
  if Runtime.WithGc.gcMd + size < Runtime.WithGc.gcMd then .error .undefined
  else .ok (g.link size res node)

/-- What a program does to its blocks. -/
inductive GcOp
  /-- `tc_malloc(size)` where memory is found; `retry` holds the words of the stack if the first
  `calloc` fails. -/
  | malloc (size : UInt64) (res node : Word) (retry : Option (List Word))
  /-- The word `w` is stored in the field `i` of the block at `a`. -/
  | store (a : Word) (i : Nat) (w : Word)
  /-- `tc_gc_enable(enable)`. -/
  | enable (enable : Bool)
  /-- `gc_collect()`, the words of the stack being `roots`. -/
  | collect (roots : List Word)

/-- One operation of a program. -/
def perform (n : Nat) (g : Gc) : GcOp → Except Stop Gc
  | .malloc size res node none => g.tcMalloc size res node
  | .malloc size res node (some roots) => do (← collect n g roots).tcMalloc size res node
  | .store a i w => do
    let o ← g.object a
    return g.setObject a { o with f := Function.update o.f i w }
  | .enable enable => return { g with gcEnabled := enable }
  | .collect roots => collect n g roots

/-! ## Fuel

A run that comes to its end does not depend on how much fuel it was given. -/

section fuel

variable {g g' : Gc} {n m : Nat}

theorem findInHeap_succ {p : Option Word} {w : Word} {r : Option Word}
    (h : g.findInHeap n p w = .ok r) : g.findInHeap (n + 1) p w = .ok r := by
  induction n generalizing p with
  | zero => cases h
  | succ n ih =>
    cases p with
    | none => exact h
    | some p =>
      simp only [findInHeap, bind_eq_ok] at h ⊢
      obtain ⟨o, ho, h⟩ := h
      refine ⟨o, ho, ?_⟩
      by_cases hw : firstField o.actual = w
      · rwa [if_pos hw] at h ⊢
      · rw [if_neg hw] at h ⊢
        exact ih h

theorem dfsFields_congr {f f' : Gc → Word → Except Stop Gc} {obj : Word} {is : List Nat}
    (hf : ∀ g w g', f g w = .ok g' → f' g w = .ok g') (h : dfsFields f obj is g = .ok g') :
    dfsFields f' obj is g = .ok g' := by
  induction is generalizing g with
  | nil => exact h
  | cons i is ih =>
    simp only [dfsFields, bind_eq_ok] at h ⊢
    obtain ⟨o, ho, g₁, hg₁, h⟩ := h
    exact ⟨o, ho, g₁, hf _ _ _ hg₁, ih h⟩

theorem dfs_succ {w : Word} (h : dfs n g w = .ok g') : dfs (n + 1) g w = .ok g' := by
  induction n generalizing g w g' with
  | zero => cases h
  | succ n ih =>
    rw [dfs, bind_eq_ok] at h ⊢
    obtain ⟨r, hr, h⟩ := h
    refine ⟨r, findInHeap_succ hr, ?_⟩
    cases r with
    | none => exact h
    | some obj =>
      simp only [bind_eq_ok] at h ⊢
      obtain ⟨o, ho, h⟩ := h
      refine ⟨o, ho, ?_⟩
      by_cases hm : o.marked = true
      · rwa [if_pos hm] at h ⊢
      · rw [if_neg hm] at h ⊢
        exact dfsFields_congr (fun _ _ _ => ih) h

theorem markRoots_succ {roots : List Word} (h : markRoots n g roots = .ok g') :
    markRoots (n + 1) g roots = .ok g' := by
  induction roots generalizing g with
  | nil => exact h
  | cons w ws ih =>
    simp only [markRoots, bind_eq_ok] at h ⊢
    obtain ⟨g₁, hg₁, h⟩ := h
    exact ⟨g₁, dfs_succ hg₁, ih h⟩

theorem sweep_succ {p prev : Option Word} (h : sweep n g p prev = .ok g') :
    sweep (n + 1) g p prev = .ok g' := by
  induction n generalizing g p prev with
  | zero => cases h
  | succ n ih =>
    cases p with
    | none => exact h
    | some p =>
      rw [sweep, bind_eq_ok] at h ⊢
      obtain ⟨o, ho, h⟩ := h
      refine ⟨o, ho, ?_⟩
      rw [bind_eq_ok] at h ⊢
      obtain ⟨obj, hobj, h⟩ := h
      refine ⟨obj, hobj, ?_⟩
      by_cases hm : obj.marked = true
      · rw [if_pos hm] at h ⊢
        exact ih h
      · rw [if_neg hm] at h ⊢
        simp only [bind_eq_ok] at h ⊢
        obtain ⟨g₁, h₁, g₂, h₂, g₃, h₃, h⟩ := h
        exact ⟨g₁, h₁, g₂, h₂, g₃, h₃, ih h⟩

theorem collect_succ {roots : List Word} (h : g.collect n roots = .ok g') :
    g.collect (n + 1) roots = .ok g' := by
  unfold collect at h ⊢
  by_cases he : g.gcEnabled = true
  · rw [if_pos he, bind_eq_ok] at h ⊢
    obtain ⟨g₁, h₁, h⟩ := h
    exact ⟨g₁, markRoots_succ h₁, sweep_succ h⟩
  · rwa [if_neg he] at h ⊢

theorem collect_of_le {roots : List Word} (h : g.collect n roots = .ok g') (hnm : n ≤ m) :
    g.collect m roots = .ok g' := by
  induction hnm with
  | refl => exact h
  | step _ ih => exact collect_succ ih

end fuel

end Gc

end TigerCompiler
