import TigerCompiler.Runtime.MarkSweep

/-!
# Every run of a program keeps its blocks in the list

The state between two operations is `WellFormed`: the blocks that are not freed are those of the
list, each once.  Each operation keeps it, a collection freeing only blocks that are not reached
from the words it starts from, and comes to its end unless it is a request whose size is not one
of `size_t` once the metadata is added: the block is then too small for the metadata.
-/

namespace TigerCompiler

namespace Gc

/-- The words of the stack that an operation collects from, when it collects. -/
def GcOp.roots : GcOp → Option (List Word)
  | .malloc _ _ _ retry => retry
  | .collect roots => some roots
  | .store .. | .enable _ => none

/-- With enough fuel the result is `g'`. -/
def Yields (r : Nat → Except Stop Gc) (g' : Gc) : Prop :=
  ∃ n, ∀ m, n ≤ m → r m = .ok g'

/-- What the environment promises of an operation: the allocator returns memory that is not in
use, and a program stores into a field of a block that is not freed. -/
def Possible (g : Gc) : GcOp → Prop
  | .malloc _ res node none => g.objects res = none ∧ g.nodes node = none
  | .malloc _ res node (some roots) => ∀ g', Yields (g.collect · roots) g' →
      g'.objects res = none ∧ g'.nodes node = none
  | .store a i _ => ∃ o, g.objects a = some o ∧ i < o.words
  | .enable _ | .collect _ => True

/-- Each of the operations is possible where it is made. -/
def Admits (g : Gc) : List GcOp → Prop
  | [] => True
  | op :: ops => g.Possible op ∧ ∀ g', Yields (g.perform · op) g' → g'.Admits ops

/-- The metadata and the fields of a new block come to a number of bytes that `size_t` can hold. -/
def GcOp.Fits : GcOp → Prop
  | .malloc size _ _ _ => 16 + size.toNat < 2 ^ 64
  | .store .. | .enable _ | .collect _ => True

instance : (op : GcOp) → Decidable op.Fits
  | .malloc size _ _ _ => inferInstanceAs (Decidable (16 + size.toNat < 2 ^ 64))
  | .store .. | .enable _ | .collect _ => inferInstanceAs (Decidable True)

/-- Every block and every node that is not freed is in the list exactly once. -/
structure WellFormed (g : Gc) (l : List (Word × Word)) : Prop extends g.Heap l where
  clear : g.Clear l
  objects_iff : ∀ a, (∃ o, g.objects a = some o) ↔ a ∈ blocksOf l
  nodes_iff : ∀ p, (∃ o, g.nodes p = some o) ↔ p ∈ l.map Prod.fst

/-- An operation frees blocks only by collecting, and then none that is reached. -/
def Spares (g : Gc) (op : GcOp) : Prop :=
  match op.roots with
  | none => ∀ g', Yields (g.perform · op) g' → ∀ a, (∃ o, g.objects a = some o) →
      ∃ o, g'.objects a = some o
  | some roots => ∀ l, g.Heap l → ∀ g', Yields (g.collect · roots) g' →
      ∀ a, g.Reachable (blocksOf l) roots a → g'.objects a = g.objects a

/-- What is to hold of a sequence of operations: in each state every block that is not freed is in
the list once, no operation frees a block that is reached, and each comes to its end. -/
def Keeps (g : Gc) : List GcOp → Prop
  | [] => ∃ l, g.WellFormed l
  | op :: ops => (∃ l, g.WellFormed l) ∧ g.Spares op ∧
    ∃ g', Yields (g.perform · op) g' ∧ g'.Keeps ops

/-! ### One operation -/

section operations

variable {g g' : Gc} {l : List (Word × Word)} {roots : List Word}

theorem wellFormed_init : WellFormed {} [] where
  chain := rfl
  distinct := List.nodup_nil
  live := by simp [blocksOf]
  clear := by simp [Clear, blocksOf]
  objects_iff := by simp [blocksOf]
  nodes_iff := by simp

theorem Collected.wellFormed (h : g.Collected l roots g') (hg : g.WellFormed l) :
    g'.WellFormed (g.reached roots l) where
  toHeap := h.heap
  clear := h.clear
  objects_iff := by
    classical
    intro a
    rw [h.objects a]
    by_cases hr : g.Reachable (blocksOf l) roots a
    · rw [if_neg (fun hn => hn.2 hr), hg.objects_iff a]
      refine ⟨fun ha => ?_, fun _ => hr.mem⟩
      obtain ⟨x, hx, rfl⟩ := List.mem_map.mp ha
      exact List.mem_map_of_mem (List.mem_filter.mpr ⟨hx, decide_eq_true hr⟩)
    · have hn : a ∉ blocksOf (g.reached roots l) := by
        intro ha
        obtain ⟨x, hx, rfl⟩ := List.mem_map.mp ha
        exact hr (of_decide_eq_true (List.mem_filter.mp hx).2)
      by_cases ha : a ∈ blocksOf l
      · rw [if_pos ⟨ha, hr⟩]
        simp [hn]
      · rw [if_neg (fun h => ha h.1), hg.objects_iff a]
        simp [ha, hn]
  nodes_iff := by
    classical
    intro p
    rw [h.nodes p, hg.nodes_iff p]
    constructor
    · rintro ⟨hp, hr⟩
      obtain ⟨x, hx, rfl⟩ := List.mem_map.mp hp
      exact List.mem_map_of_mem (List.mem_filter.mpr ⟨hx, decide_eq_true (hr x hx rfl)⟩)
    · intro hp
      obtain ⟨x, hx, rfl⟩ := List.mem_map.mp hp
      obtain ⟨hxl, hr⟩ := List.mem_filter.mp hx
      refine ⟨List.mem_map_of_mem hxl, ?_⟩
      intro y hy hyx
      -- A node is in the list once.
      have heq : y = x := List.inj_on_of_nodup_map hg.chain.nodup hy hxl hyx
      rw [heq]
      exact of_decide_eq_true hr

theorem Yields.unique {r : Nat → Except Stop Gc} (h : Yields r g) (h' : Yields r g') : g = g' := by
  obtain ⟨n, hn⟩ := h
  obtain ⟨m, hm⟩ := h'
  have heq := (hn _ (le_max_left n m)).symm.trans (hm _ (le_max_right n m))
  exact Except.ok.inj heq

theorem Yields.of_ok {r : Nat → Except Stop Gc} (h : ∀ n, r n = .ok g) : Yields r g :=
  ⟨0, fun n _ => h n⟩

theorem collect_disabled (he : g.gcEnabled = false) (n : Nat) : g.collect n roots = .ok g := by
  rw [Gc.collect, if_neg (by simp [he])]
  rfl

/-- A collection of a well-formed list ends, and what is left is well formed. -/
theorem WellFormed.collect (hg : g.WellFormed l) (roots : List Word) :
    ∃ g', Yields (g.collect · roots) g' ∧ (∃ l', g'.WellFormed l') ∧
      ∀ a, g.Reachable (blocksOf l) roots a → g'.objects a = g.objects a := by
  cases he : g.gcEnabled with
  | false => exact ⟨g, .of_ok (collect_disabled he), ⟨l, hg⟩, fun _ _ => rfl⟩
  | true =>
    obtain ⟨g', hg', hcol⟩ := collect_enabled roots hg.toHeap hg.clear he le_rfl
    refine ⟨g', ⟨_, fun m hm => collect_of_le hg' hm⟩, ⟨_, hcol.wellFormed hg⟩, ?_⟩
    intro a hr
    rw [hcol.objects a, if_neg (fun h => h.2 hr)]

/-- `tc_malloc` puts the new block before the others. -/
theorem WellFormed.link (hg : g.WellFormed l) {size : UInt64} {res node : Word}
    (hres : g.objects res = none) (hnode : g.nodes node = none) :
    (g.link size res node).WellFormed ((node, res) :: l) := by
  have hfresh : res ∉ blocksOf l := by
    intro h
    obtain ⟨o, ho⟩ := (hg.objects_iff res).mpr h
    rw [hres] at ho
    cases ho
  have hfresh' : node ∉ l.map Prod.fst := by
    intro h
    obtain ⟨o, ho⟩ := (hg.nodes_iff node).mpr h
    rw [hnode] at ho
    cases ho
  have hobj : ∀ a ∈ blocksOf l, (g.link size res node).objects a = g.objects a := by
    intro a ha
    have hne : a ≠ res := fun h => hfresh (h ▸ ha)
    simp [Gc.link, setNode, setObject, Function.update_of_ne hne]
  have hself : (g.link size res node).objects res = some { size, f := fun _ => 0 } := by
    simp [Gc.link, setNode, setObject]
  refine ⟨⟨?_, List.nodup_cons.mpr ⟨hfresh, hg.distinct⟩, ?_⟩, ?_, ?_, ?_⟩
  · refine ⟨rfl, g.heap, ?_, hg.chain.update hfresh' _⟩
    simp [Gc.link, setNode]
  · intro a ha
    rcases List.mem_cons.mp ha with rfl | ha
    · exact ⟨_, hself⟩
    · rw [hobj a ha]
      exact hg.live a ha
  · intro a ha
    rcases List.mem_cons.mp ha with rfl | ha
    · simp [isMarked, hself]
    · rw [isMarked, hobj a ha]
      exact hg.clear a ha
  · intro a
    by_cases ha : a = res
    · subst ha
      simp [hself, blocksOf]
    · have hiff := hg.objects_iff a
      simpa [Gc.link, setNode, setObject, Function.update_of_ne ha, blocksOf, ha] using hiff
  · intro p
    by_cases hp : p = node
    · subst hp
      simp [Gc.link, setNode]
    · have hiff := hg.nodes_iff p
      simpa [Gc.link, setNode, setObject, Function.update_of_ne hp, hp] using hiff

/-- A store changes the fields of a block of the list. -/
theorem WellFormed.store (hg : g.WellFormed l) {a : Word} {o : GcObject} (o' : GcObject)
    (ho : g.objects a = some o) (hm : o'.marked = o.marked) :
    (g.setObject a o').WellFormed l := by
  have hlive : ∀ b, (∃ v, (g.setObject a o').objects b = some v) ↔ ∃ v, g.objects b = some v := by
    intro b
    by_cases hb : b = a
    · subst hb
      simp [setObject, ho]
    · simp [setObject, Function.update_of_ne hb]
  have hmark : ∀ b, (g.setObject a o').isMarked b = g.isMarked b := by
    intro b
    by_cases hb : b = a
    · subst hb
      simp [isMarked, setObject, ho, hm]
    · simp [isMarked, setObject, Function.update_of_ne hb]
  refine ⟨⟨hg.chain, hg.distinct, ?_⟩, ?_, ?_, hg.nodes_iff⟩
  · intro b hb
    exact (hlive b).mpr (hg.live b hb)
  · intro b hb
    exact (hmark b).trans (hg.clear b hb)
  · intro b
    exact (hlive b).trans (hg.objects_iff b)

/-- The block has room for its metadata exactly when the request does not wrap. -/
theorem fits_iff {size : UInt64} {res node : Word} {retry : Option (List Word)} :
    GcOp.Fits (.malloc size res node retry) ↔
      ¬ Runtime.WithGc.gcMd + size < Runtime.WithGc.gcMd := by
  have hadd : (Runtime.WithGc.gcMd + size).toNat = (16 + size.toNat) % 2 ^ 64 :=
    UInt64.toNat_add 16 size
  have hmd : Runtime.WithGc.gcMd.toNat = 16 := rfl
  have hsize := size.toNat_lt
  rw [UInt64.lt_iff_toNat_lt, hadd, hmd]
  show 16 + size.toNat < 2 ^ 64 ↔ _
  omega

/-- Each operation that is possible ends, unless its request wraps, and what is left is well
formed. -/
theorem WellFormed.perform (hg : g.WellFormed l) {op : GcOp} (hop : g.Possible op)
    (hfits : op.Fits) : ∃ g', Yields (g.perform · op) g' ∧ ∃ l', g'.WellFormed l' := by
  cases op with
  | malloc size res node retry =>
    have hlink : ∀ h : Gc, h.tcMalloc size res node = .ok (h.link size res node) := fun h =>
      if_neg (fits_iff.mp hfits)
    cases retry with
    | none => exact ⟨_, .of_ok fun _ => hlink g, _, hg.link hop.1 hop.2⟩
    | some roots =>
      obtain ⟨g₁, hg₁, ⟨l₁, hl₁⟩, -⟩ := hg.collect roots
      obtain ⟨hres, hnode⟩ := hop g₁ hg₁
      obtain ⟨n, hn⟩ := hg₁
      refine ⟨g₁.link size res node, ⟨n, fun m hm => ?_⟩, _, hl₁.link hres hnode⟩
      simp only [Gc.perform, hn m hm]
      exact hlink g₁
  | store a i w =>
    obtain ⟨o, ho, -⟩ := hop
    refine ⟨_, .of_ok fun n => ?_, l, hg.store { o with f := Function.update o.f i w } ho rfl⟩
    simp only [Gc.perform, object, ho]
    rfl
  | enable enable =>
    exact ⟨{ g with gcEnabled := enable }, .of_ok fun _ => rfl, l,
      ⟨⟨hg.chain, hg.distinct, hg.live⟩, hg.clear, hg.objects_iff, hg.nodes_iff⟩⟩
  | collect roots =>
    obtain ⟨g₁, hg₁, hl₁, -⟩ := hg.collect roots
    exact ⟨g₁, hg₁, hl₁⟩

/-- A request that wraps has no result. -/
theorem fits_of_yields {op : GcOp} (h : Yields (g.perform · op) g') : op.Fits := by
  obtain ⟨n, hn⟩ := h
  have hrun := hn n le_rfl
  cases op with
  | malloc size res node retry =>
    rw [fits_iff]
    intro hwrap
    have hstop : ∀ h : Gc, h.tcMalloc size res node = .error .undefined := fun h => if_pos hwrap
    cases retry with
    | none =>
      have hrun' : g.tcMalloc size res node = .ok g' := hrun
      rw [hstop] at hrun'
      cases hrun'
    | some roots =>
      simp only [Gc.perform, bind_eq_ok] at hrun
      obtain ⟨g₁, -, hrun⟩ := hrun
      rw [hstop] at hrun
      cases hrun
  | store | enable | collect => trivial

theorem setObject_live {a b : Word} (o : GcObject) (h : ∃ v, g.objects b = some v) :
    ∃ v, (g.setObject a o).objects b = some v := by
  by_cases hb : b = a
  · subst hb
    exact ⟨o, Function.update_self _ _ _⟩
  · simpa [setObject, Function.update_of_ne hb] using h

theorem WellFormed.spares (hg : g.WellFormed l) (op : GcOp) : g.Spares op := by
  have hcollect : ∀ roots, ∀ k, g.Heap k → ∀ g', Yields (g.collect · roots) g' →
      ∀ a, g.Reachable (blocksOf k) roots a → g'.objects a = g.objects a := by
    intro roots k hk g' hg' a ha
    obtain ⟨g₁, hg₁, -, hsame⟩ := hg.collect roots
    rw [hk.chain.unique hg.chain] at ha
    rw [hg'.unique hg₁]
    exact hsame a ha
  cases op with
  | malloc size res node retry =>
    cases retry with
    | none =>
      intro g' hg' a ha
      rw [hg'.unique (.of_ok fun _ => if_neg (fits_iff.mp (fits_of_yields hg')))]
      exact setObject_live _ ha
    | some roots => exact hcollect roots
  | store b i w =>
    intro g' hg' a ha
    obtain ⟨n, hn⟩ := hg'
    have hrun := hn n le_rfl
    simp only [Gc.perform, bind_eq_ok] at hrun
    obtain ⟨o, -, hrun⟩ := hrun
    rw [← Except.ok.inj hrun]
    exact setObject_live _ ha
  | enable enable =>
    intro g' hg' a ha
    rw [hg'.unique (.of_ok fun _ => rfl)]
    exact ha
  | collect roots => exact hcollect roots

end operations

/-! ### Runs -/

/-- A sequence keeps the blocks that are reached exactly when no request of it wraps. -/
theorem WellFormed.keeps_iff {g : Gc} {l : List (Word × Word)} (hg : g.WellFormed l)
    {ops : List GcOp} (hops : g.Admits ops) : g.Keeps ops ↔ ∀ op ∈ ops, op.Fits := by
  induction ops generalizing g l with
  | nil => exact iff_of_true ⟨l, hg⟩ (by simp)
  | cons op ops ih =>
    obtain ⟨hop, hops⟩ := hops
    rw [List.forall_mem_cons]
    constructor
    · rintro ⟨-, -, g', hg', hkeeps⟩
      have hfits := fits_of_yields hg'
      obtain ⟨g₁, hg₁, l₁, hl₁⟩ := hg.perform hop hfits
      obtain rfl := hg'.unique hg₁
      exact ⟨hfits, (ih hl₁ (hops _ hg')).mp hkeeps⟩
    · rintro ⟨hfits, hrest⟩
      obtain ⟨g₁, hg₁, l₁, hl₁⟩ := hg.perform hop hfits
      exact ⟨⟨l, hg⟩, hg.spares op, g₁, hg₁, (ih hl₁ (hops _ hg₁)).mpr hrest⟩

/-- **Mark and sweep keeps exactly the blocks that are reached, and a sequence of operations frees
no other one exactly when none of its requests wraps.** -/
theorem collect_keeps_exactly_reachable {ops : List GcOp} (hops : Admits {} ops) :
    (∀ (g : Gc) (l : List (Word × Word)) (roots : List Word), g.Heap l → g.Clear l →
      (g.gcEnabled = true → ∃ g', (∀ n, 2 * l.length + 2 ≤ n → g.collect n roots = .ok g') ∧
        g.Collected l roots g') ∧
      (g.gcEnabled = false → ∀ n, g.collect n roots = .ok g)) ∧
    (Keeps {} ops ↔ ∀ op ∈ ops, op.Fits) := by
  refine ⟨?_, wellFormed_init.keeps_iff hops⟩
  intro g l roots hg hc
  refine ⟨?_, collect_disabled⟩
  intro he
  obtain ⟨g', hg', hcol⟩ := collect_enabled roots hg hc he le_rfl
  exact ⟨g', fun n hn => collect_of_le hg' hn, hcol⟩

/-- The operations after which the blocks 4096 and 4128 point to each other, and three others, at
the head, in the middle and at the end of the list, are reached by no word. -/
def cycleOps : List GcOp :=
  [.malloc 8 4224 8320 none, .malloc 8 4096 8288 none, .malloc 8 4192 8256 none,
    .malloc 8 4128 8224 none, .malloc 8 4160 8192 none, .store 4096 0 4144, .store 4128 0 4112,
    .store 4192 0 4112, .store 4160 0 4208, .collect [4112]]

/-- The state before the collection. -/
def cycle : Gc :=
  let g := ((((link {} 8 4224 8320).link 8 4096 8288).link 8 4192 8256).link 8 4128 8224).link 8
    4160 8192
  let field (w : Word) : GcObject := { size := 8, f := Function.update (fun _ => 0) 0 w }
  (((g.setObject 4096 (field 4144)).setObject 4128 (field 4112)).setObject 4192
    (field 4112)).setObject 4160 (field 4208)

theorem Admits.cons {g g' : Gc} {op : GcOp} {ops : List GcOp} (hop : g.Possible op)
    (hrun : ∀ n, g.perform n op = .ok g') (hops : g'.Admits ops) : g.Admits (op :: ops) :=
  ⟨hop, fun _ h => h.unique (.of_ok hrun) ▸ hops⟩

theorem admits_cycleOps : Admits {} cycleOps := by
  refine .cons ⟨rfl, rfl⟩ (fun _ => rfl) ?_
  refine .cons ⟨rfl, rfl⟩ (fun _ => rfl) ?_
  refine .cons ⟨rfl, rfl⟩ (fun _ => rfl) ?_
  refine .cons ⟨rfl, rfl⟩ (fun _ => rfl) ?_
  refine .cons ⟨rfl, rfl⟩ (fun _ => rfl) ?_
  refine .cons ⟨_, rfl, Nat.one_pos⟩ (fun _ => rfl) ?_
  refine .cons ⟨_, rfl, Nat.one_pos⟩ (fun _ => rfl) ?_
  refine .cons ⟨_, rfl, Nat.one_pos⟩ (fun _ => rfl) ?_
  refine .cons ⟨_, rfl, Nat.one_pos⟩ (fun _ => rfl) ?_
  exact ⟨trivial, fun _ _ => trivial⟩

/-- The nodes and the blocks of `cycle`. -/
def cycleList : List (Word × Word) :=
  [(8192, 4160), (8224, 4128), (8256, 4192), (8288, 4096), (8320, 4224)]

theorem heap_cycle : cycle.Heap cycleList where
  chain := ⟨rfl, _, rfl, rfl, _, rfl, rfl, _, rfl, rfl, _, rfl, rfl, _, rfl, rfl⟩
  distinct := by decide
  live := by
    simp only [blocksOf, cycleList, List.map_cons, List.map_nil, List.forall_mem_cons]
    exact ⟨⟨_, rfl⟩, ⟨_, rfl⟩, ⟨_, rfl⟩, ⟨_, rfl⟩, ⟨_, rfl⟩, List.forall_mem_nil _⟩

/-- Only the two blocks of the cycle are reached from 4112. -/
theorem reachable_cycle {a : Word} (h : cycle.Reachable (blocksOf cycleList) [4112] a) :
    a = 4096 ∨ a = 4128 := by
  obtain ⟨t, ⟨w, hw, ht⟩, hta⟩ := h
  obtain rfl := List.mem_singleton.mp hw
  induction hta with
  | refl => exact .inl (firstField_inj ht.2)
  | tail _ hbc ih =>
    obtain ⟨o, ho, i, hi, hlead⟩ := hbc
    rcases ih with rfl | rfl
    · obtain rfl := Option.some.inj (ho.symm.trans rfl)
      obtain rfl : i = 0 := Nat.lt_one_iff.mp hi
      exact .inr (firstField_inj hlead.2)
    · obtain rfl := Option.some.inj (ho.symm.trans rfl)
      obtain rfl : i = 0 := Nat.lt_one_iff.mp hi
      exact .inl (firstField_inj hlead.2)

/-- The cycle is kept while a word of the stack leads to it, and the rest is freed. -/
theorem collect_keeps_cycle :
    (∃ g', (∀ n, 12 ≤ n → cycle.collect n [4112] = .ok g') ∧
      g'.objects 4096 = cycle.objects 4096 ∧ g'.objects 4128 = cycle.objects 4128 ∧
      g'.objects 4160 = none ∧ g'.objects 4192 = none ∧ g'.objects 4224 = none) ∧
    Keeps {} cycleOps := by
  have hclear : cycle.Clear cycleList := by
    simp only [Clear, blocksOf, cycleList, List.map_cons, List.map_nil, List.forall_mem_cons]
    exact ⟨rfl, rfl, rfl, rfl, rfl, List.forall_mem_nil _⟩
  have hroot : cycle.Reachable (blocksOf cycleList) [4112] 4096 :=
    ⟨4096, ⟨4112, by simp, by decide, rfl⟩, .refl⟩
  have hnext : cycle.Reachable (blocksOf cycleList) [4112] 4128 :=
    ⟨4096, ⟨4112, by simp, by decide, rfl⟩, .single ⟨_, rfl, 0, Nat.one_pos, by decide, rfl⟩⟩
  refine ⟨?_, (collect_keeps_exactly_reachable admits_cycleOps).2.mpr (by decide)⟩
  obtain ⟨g', hg', hcol⟩ :=
    ((collect_keeps_exactly_reachable admits_cycleOps).1 _ _ [4112] heap_cycle hclear).1 rfl
  refine ⟨g', hg', ?_, ?_, ?_, ?_, ?_⟩
  · rw [hcol.objects, if_neg fun h => h.2 hroot]
  · rw [hcol.objects, if_neg fun h => h.2 hnext]
  · rw [hcol.objects, if_pos ⟨by decide, fun h => absurd (reachable_cycle h) (by decide)⟩]
  · rw [hcol.objects, if_pos ⟨by decide, fun h => absurd (reachable_cycle h) (by decide)⟩]
  · rw [hcol.objects, if_pos ⟨by decide, fun h => absurd (reachable_cycle h) (by decide)⟩]

/-- A request of `2 ^ 64 - 16` bytes: `calloc` is asked for none, and the metadata is stored. -/
theorem not_keeps_of_wrap :
    ¬ ∀ ops : List GcOp, Admits {} ops → Keeps {} ops := by
  intro hall
  obtain ⟨-, -, g', hg', -⟩ := hall [.malloc 18446744073709551600 4096 8192 none]
    ⟨⟨rfl, rfl⟩, fun _ _ => trivial⟩
  have hfits := fits_of_yields hg'
  exact absurd hfits (by decide)

end Gc

end TigerCompiler
