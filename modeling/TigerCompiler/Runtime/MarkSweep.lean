import TigerCompiler.Runtime.Gc
import TigerCompiler.Misc.Marking
import Mathlib.Data.Finset.Card
import Mathlib.Data.List.Nodup

/-!
# The collector keeps the reachable blocks

The list of blocks is described by the pairs of a list node and of the block it holds
(`Segment`, `Heap`).  The marking phase is a search in the sense of `Marking` and leaves all but
the marks alone (`Marks`); the sweeping phase is an induction over what is left of the list, with
the blocks it has kept before it.
-/

namespace TigerCompiler

open Relation

namespace Gc

/-- From `p` the nodes lead through the pairs of node and block of the list, and then to `q`. -/
def Segment (nodes : Word → Option ListObj) : Option Word → List (Word × Word) → Option Word → Prop
  | p, [], q => p = q
  | p, (n, a) :: l, q => p = some n ∧ ∃ next, nodes n = some ⟨a, next⟩ ∧ Segment nodes next l q

/-- The blocks of a list. -/
def blocksOf (l : List (Word × Word)) : List Word :=
  l.map Prod.snd

/-- `gc_ctx_.heap` is the list `l` of blocks, whose base addresses are distinct. -/
structure Heap (g : Gc) (l : List (Word × Word)) : Prop where
  chain : Segment g.nodes g.heap l none
  distinct : (blocksOf l).Nodup
  live : ∀ a ∈ blocksOf l, ∃ o, g.objects a = some o

/-- The mark of the block at `a`. -/
def isMarked (g : Gc) (a : Word) : Bool :=
  (g.objects a).any (·.marked)

/-- The blocks that are marked. -/
def marked (g : Gc) : Set Word :=
  {a | g.isMarked a = true}

/-- A word leads to a block when it is the address of its first field. -/
def Leads (blocks : List Word) (w a : Word) : Prop :=
  a ∈ blocks ∧ firstField a = w

/-- One of the first `size / 8` words of the block `a` leads to the block `b`. -/
def Points (g : Gc) (blocks : List Word) (a b : Word) : Prop :=
  ∃ o, g.objects a = some o ∧ ∃ i < o.words, Leads blocks (o.f i) b

/-- The words `roots` reach the block `a`. -/
def Reachable (g : Gc) (blocks : List Word) (roots : List Word) (a : Word) : Prop :=
  ∃ t, (∃ w ∈ roots, Leads blocks w t) ∧ ReflTransGen (g.Points blocks) t a

/-! ### Segments -/

section segments

variable {nodes : Word → Option ListObj} {p q r : Option Word} {l l₁ l₂ : List (Word × Word)}

theorem segment_append :
    Segment nodes p (l₁ ++ l₂) r ↔ ∃ q, Segment nodes p l₁ q ∧ Segment nodes q l₂ r := by
  induction l₁ generalizing p with
  | nil => simp [Segment]
  | cons x l₁ ih =>
    simp only [List.cons_append, Segment, ih]
    constructor
    · rintro ⟨hp, next, hn, q, h₁, h₂⟩
      exact ⟨q, ⟨hp, next, hn, h₁⟩, h₂⟩
    · rintro ⟨q, ⟨hp, next, hn, h₁⟩, h₂⟩
      exact ⟨hp, next, hn, q, h₁, h₂⟩

/-- A list that ends is determined by where it starts. -/
theorem Segment.unique (h₁ : Segment nodes p l₁ none) (h₂ : Segment nodes p l₂ none) :
    l₁ = l₂ := by
  induction l₁ generalizing p l₂ with
  | nil =>
    have hp : p = none := h₁
    subst hp
    cases l₂ with
    | nil => rfl
    | cons y l₂ => exact absurd h₂.1 (by simp)
  | cons x l₁ ih =>
    obtain ⟨rfl, next, hn, h₁⟩ := h₁
    cases l₂ with
    | nil => exact absurd (show some x.1 = none from h₂) (by simp)
    | cons y l₂ =>
      obtain ⟨hp, next', hn', h₂⟩ := h₂
      have hxy : x.1 = y.1 := Option.some.inj hp
      rw [← hxy, hn] at hn'
      have heq := Option.some.inj hn'
      injection heq with ha hnext
      subst hnext
      rw [ih h₁ h₂, Prod.ext hxy ha]

/-- A list that ends goes through each node once. -/
theorem Segment.nodup (h : Segment nodes p l none) : (l.map Prod.fst).Nodup := by
  induction l generalizing p with
  | nil => simp
  | cons x l ih =>
    have hl := h
    obtain ⟨rfl, next, -, h⟩ := h
    refine List.nodup_cons.mpr ⟨?_, ih h⟩
    intro hx
    -- A second visit of the node would go on as the first did, without end.
    obtain ⟨y, hy, hyx⟩ := List.mem_map.mp hx
    obtain ⟨l₁, l₂, rfl⟩ := List.append_of_mem hy
    obtain ⟨q, -, hq⟩ := segment_append.mp h
    have hq' : q = some x.1 := by rw [← hyx]; exact hq.1
    subst hq'
    have hlen := congrArg List.length (hl.unique hq)
    simp at hlen
    omega

/-- A segment depends on the nodes it goes through only. -/
theorem Segment.congr {nodes' : Word → Option ListObj} (h : Segment nodes p l q)
    (hn : ∀ n ∈ l.map Prod.fst, nodes' n = nodes n) : Segment nodes' p l q := by
  induction l generalizing p with
  | nil => exact h
  | cons x l ih =>
    obtain ⟨hp, next, hx, h⟩ := h
    rw [List.map_cons, List.forall_mem_cons] at hn
    exact ⟨hp, next, hn.1.trans hx, ih h hn.2⟩

theorem Segment.update (h : Segment nodes p l q) {n : Word} (hn : n ∉ l.map Prod.fst)
    (o : Option ListObj) : Segment (Function.update nodes n o) p l q := by
  refine h.congr fun m hm => ?_
  have hmn : m ≠ n := fun heq => hn (heq ▸ hm)
  exact Function.update_of_ne hmn _ _

end segments

/-! ### The marking phase -/

/-- `g'` is `g` with other marks. -/
structure Marks (g g' : Gc) : Prop where
  heap : g'.heap = g.heap
  gcEnabled : g'.gcEnabled = g.gcEnabled
  nodes : g'.nodes = g.nodes
  objects : ∀ a, (g'.objects a).map ({ · with marked := false }) =
    (g.objects a).map ({ · with marked := false })

namespace Marks

variable {g g' g'' : Gc} {l : List (Word × Word)} {blocks : List Word} {a : Word}

theorem refl (g : Gc) : Marks g g :=
  ⟨rfl, rfl, rfl, fun _ => rfl⟩

theorem trans (h : Marks g g') (h' : Marks g' g'') : Marks g g'' where
  heap := h'.heap.trans h.heap
  gcEnabled := h'.gcEnabled.trans h.gcEnabled
  nodes := h'.nodes.trans h.nodes
  objects := fun a => (h'.objects a).trans (h.objects a)

theorem symm (h : Marks g g') : Marks g' g :=
  ⟨h.heap.symm, h.gcEnabled.symm, h.nodes.symm, fun a => (h.objects a).symm⟩

/-- A block keeps its fields. -/
theorem object (h : Marks g g') {o : GcObject} (ho : g.objects a = some o) :
    ∃ b, g'.objects a = some { o with marked := b } := by
  have ha := h.objects a
  rw [ho] at ha
  obtain ⟨o', ho', heq⟩ := Option.map_eq_some_iff.mp ha
  refine ⟨o'.marked, ?_⟩
  rw [ho']
  cases o
  cases o'
  injection heq with _ hsize hf
  subst hsize hf
  rfl

theorem object_eq (h : Marks g g') (hm : g'.isMarked a = g.isMarked a) :
    g'.objects a = g.objects a := by
  cases ho : g.objects a with
  | none =>
    have ha := h.objects a
    rw [ho] at ha
    exact Option.map_eq_none_iff.mp ha
  | some o =>
    obtain ⟨b, hb⟩ := h.object ho
    simp only [isMarked, ho, hb, Option.any_some] at hm
    rw [hb, hm]

theorem heap_iff (h : Marks g g') (hg : g.Heap l) : g'.Heap l where
  chain := by
    rw [h.nodes, h.heap]
    exact hg.chain
  distinct := hg.distinct
  live := by
    intro a ha
    obtain ⟨o, ho⟩ := hg.live a ha
    obtain ⟨b, hb⟩ := h.object ho
    exact ⟨_, hb⟩

theorem points_le (h : Marks g g') {b : Word} (hab : g.Points blocks a b) :
    g'.Points blocks a b := by
  obtain ⟨o, ho, i, hi, hl⟩ := hab
  obtain ⟨m, hm⟩ := h.object ho
  exact ⟨_, hm, i, hi, hl⟩

theorem points_eq (h : Marks g g') : g'.Points blocks = g.Points blocks := by
  funext a b
  exact propext ⟨h.symm.points_le, h.points_le⟩

/-- Setting the mark of a block. -/
theorem setMark {o : GcObject} (ho : g.objects a = some o) (b : Bool) :
    Marks g (g.setObject a { o with marked := b }) := by
  refine ⟨rfl, rfl, rfl, ?_⟩
  intro c
  by_cases hc : c = a
  · subst hc
    simp [setObject, ho]
  · simp [setObject, Function.update_of_ne hc]

end Marks

theorem firstField_inj {a b : Word} (h : firstField a = firstField b) : a = b :=
  (UInt64.add_left_inj 16).mp h

section marking

variable {g : Gc} {l : List (Word × Word)}

/-- `find_in_heap` finds the block that the word leads to. -/
theorem findInHeap_spec {p : Option Word} (h : Segment g.nodes p l none) {n : Nat}
    (hn : l.length < n) (w : Word) :
    ∃ r, g.findInHeap n p w = .ok r ∧ ∀ a, Leads (blocksOf l) w a ↔ r = some a := by
  induction l generalizing p n with
  | nil =>
    have hp : p = none := h
    subst hp
    cases n with
    | zero => omega
    | succ n => exact ⟨none, rfl, by simp [Leads, blocksOf]⟩
  | cons x l ih =>
    obtain ⟨rfl, next, hx, h⟩ := h
    cases n with
    | zero => omega
    | succ n =>
      have hnode : g.node x.1 = .ok ⟨x.2, next⟩ := by simp [node, hx]
      by_cases hw : firstField x.2 = w
      · refine ⟨some x.2, ?_, ?_⟩
        · rw [findInHeap, hnode]
          exact if_pos hw
        · intro a
          constructor
          · rintro ⟨-, ha⟩
            rw [firstField_inj (ha.trans hw.symm)]
          · intro ha
            obtain rfl := Option.some.inj ha
            exact ⟨by simp [blocksOf], hw⟩
      · obtain ⟨r, hr, hl⟩ := ih h (n := n) (by simpa using hn)
        refine ⟨r, ?_, ?_⟩
        · rw [findInHeap, hnode, ← hr]
          exact if_neg hw
        · intro a
          rw [← hl a]
          constructor
          · rintro ⟨ha, haw⟩
            rcases List.mem_cons.mp ha with rfl | ha
            · exact absurd haw hw
            · exact ⟨ha, haw⟩
          · rintro ⟨ha, haw⟩
            exact ⟨List.mem_cons_of_mem _ ha, haw⟩

/-- The blocks of the list that are not marked: what bounds the recursion of `DFS`. -/
def unmarked (g : Gc) (l : List (Word × Word)) : Finset Word :=
  (blocksOf l).toFinset.filter (g.isMarked · = false)

theorem mem_unmarked {a : Word} :
    a ∈ g.unmarked l ↔ a ∈ blocksOf l ∧ g.isMarked a = false := by
  simp only [unmarked, Finset.mem_filter, List.mem_toFinset]

theorem unmarked_subset {g' : Gc} (h : g.marked ⊆ g'.marked) : g'.unmarked l ⊆ g.unmarked l := by
  intro a ha
  rw [mem_unmarked] at ha ⊢
  refine ⟨ha.1, ?_⟩
  by_contra hm
  have hm' : g'.isMarked a = true := h (by simpa [marked] using hm)
  simp [hm'] at ha

/-- Marking a block makes the bound smaller. -/
theorem card_unmarked_setMark {a : Word} {o : GcObject} (ha : a ∈ blocksOf l)
    (ho : g.objects a = some o) (hm : o.marked = false) :
    ((g.setObject a { o with marked := true }).unmarked l).card < (g.unmarked l).card := by
  apply Finset.card_lt_card
  refine ⟨unmarked_subset ?_, ?_⟩
  · intro b hb
    by_cases hba : b = a
    · subst hba
      simp [marked, isMarked, setObject]
    · simpa [marked, isMarked, setObject, Function.update_of_ne hba] using hb
  · intro hsub
    have ha' : a ∈ g.unmarked l := mem_unmarked.mpr ⟨ha, by simp [isMarked, ho, hm]⟩
    have hmem := (mem_unmarked.mp (hsub ha')).2
    simp [isMarked, setObject] at hmem

theorem marked_setMark {a : Word} {o : GcObject} :
    (g.setObject a { o with marked := true }).marked = insert a g.marked := by
  ext b
  by_cases hba : b = a
  · subst hba
    simp [marked, isMarked, setObject]
  · simp [marked, isMarked, setObject, hba]

/-- What a search for the words `ws` does: it ends, and it marks what they lead to and what the
newly marked blocks lead to. -/
def Searches (l : List (Word × Word)) (ws : Set Word) (g : Gc) (r : Except Stop Gc) : Prop :=
  ∃ g', r = .ok g' ∧ Marks g g' ∧
    Marking (g.Points (blocksOf l)) {a | ∃ w ∈ ws, Leads (blocksOf l) w a} g.marked g'.marked

theorem Searches.nothing {ws : Set Word}
    (h : ∀ a, ∀ w ∈ ws, Leads (blocksOf l) w a → a ∈ g.marked) : Searches l ws g (.ok g) := by
  refine ⟨g, rfl, .refl g, .refl ?_⟩
  rintro a ⟨w, hw, ha⟩
  exact h a w hw ha

/-- One search after the other. -/
theorem Searches.bind {ws : Set Word} (ws' : Set Word) {r : Except Stop Gc}
    {k : Gc → Except Stop Gc} (h : Searches l ws g r)
    (hk : ∀ g', Marks g g' → g.marked ⊆ g'.marked → Searches l ws' g' (k g')) :
    Searches l (ws ∪ ws') g (r >>= k) := by
  obtain ⟨g₁, rfl, hg₁, hm₁⟩ := h
  obtain ⟨g₂, hr, hg₂, hm₂⟩ := hk g₁ hg₁ hm₁.mono
  refine ⟨g₂, hr, hg₁.trans hg₂, ?_⟩
  rw [hg₁.points_eq] at hm₂
  have hunion : {a | ∃ w ∈ ws ∪ ws', Leads (blocksOf l) w a} =
      {a | ∃ w ∈ ws, Leads (blocksOf l) w a} ∪ {a | ∃ w ∈ ws', Leads (blocksOf l) w a} := by
    ext a
    simp only [Set.mem_union, Set.mem_ofPred_eq, or_and_right, exists_or]
  rw [hunion]
  exact hm₁.trans hm₂

/-- The loop over the fields searches for the words they hold. -/
theorem dfsFields_spec {search : Gc → Word → Except Stop Gc} {k : Nat} {obj : Word} {f : Nat → Word}
    (hs : ∀ g w, g.Heap l → (g.unmarked l).card ≤ k → Searches l {w} g (search g w))
    (is : List Nat) (hg : g.Heap l) (hk : (g.unmarked l).card ≤ k)
    (ho : ∃ o, g.objects obj = some o ∧ o.f = f) :
    Searches l {w | ∃ i ∈ is, f i = w} g (dfsFields search obj is g) := by
  induction is generalizing g with
  | nil => exact .nothing (by simp)
  | cons i is ih =>
    obtain ⟨o, ho, rfl⟩ := ho
    have hobj : g.object obj = .ok o := by simp [object, ho]
    have hrun := (hs g (o.f i) hg hk).bind {w | ∃ i ∈ is, o.f i = w}
      (k := dfsFields search obj is) (by
        intro g' hg' hm
        obtain ⟨b, hb⟩ := hg'.object ho
        exact ih (hg'.heap_iff hg) ((Finset.card_le_card (unmarked_subset hm)).trans hk)
          ⟨_, hb, rfl⟩)
    have hwords : {w | ∃ j ∈ i :: is, o.f j = w} = {o.f i} ∪ {w | ∃ i ∈ is, o.f i = w} := by
      ext w
      simp [eq_comm]
    rw [hwords, dfsFields, hobj]
    exact hrun

/-- `DFS` ends, as each call that goes on has marked one more block. -/
theorem dfs_spec (n : Nat) (g : Gc) (w : Word) (hg : g.Heap l)
    (hn : (g.unmarked l).card + l.length + 2 ≤ n) : Searches l {w} g (dfs n g w) := by
  induction n generalizing g w with
  | zero => omega
  | succ n ih =>
    obtain ⟨r, hr, hl⟩ := findInHeap_spec hg.chain (n := n) (by omega) w
    cases r with
    | none =>
      have hrun : dfs (n + 1) g w = .ok g := by rw [dfs, hr]; rfl
      rw [hrun]
      refine .nothing ?_
      rintro a _ rfl ha
      exact absurd ((hl a).mp ha) (by simp)
    | some obj =>
      have hobj : Leads (blocksOf l) w obj := (hl obj).mpr rfl
      obtain ⟨o, ho⟩ := hg.live obj hobj.1
      have hoo : g.object obj = .ok o := by simp [object, ho]
      have htargets : {a | ∃ v ∈ ({w} : Set Word), Leads (blocksOf l) v a} = {obj} := by
        ext a
        simp [hl a, eq_comm]
      cases hm : o.marked with
      | true =>
        have hrun : dfs (n + 1) g w = .ok g := by
          rw [dfs, hr]
          show (do let o ← g.object obj; _) = _
          rw [hoo]
          exact if_pos hm
        rw [hrun]
        refine .nothing ?_
        rintro a _ rfl ha
        obtain rfl := Option.some.inj ((hl a).mp ha)
        simp [marked, isMarked, ho, hm]
      | false =>
        have hrun : dfs (n + 1) g w = dfsFields (dfs n) obj (List.range o.words)
            (g.setObject obj { o with marked := true }) := by
          rw [dfs, hr]
          show (do let o ← g.object obj; _) = _
          rw [hoo]
          exact if_neg (by simp [hm])
        have hset := Marks.setMark ho true
        have hcard := card_unmarked_setMark hobj.1 ho hm
        have hself : (g.setObject obj { o with marked := true }).objects obj =
            some { o with marked := true } := Function.update_self _ _ _
        obtain ⟨g', hg', hmarks, hmarking⟩ := dfsFields_spec (f := o.f)
          (k := ((g.setObject obj { o with marked := true }).unmarked l).card)
          (fun g w hg hk => ih g w hg (by omega)) (List.range o.words)
          (hset.heap_iff hg) le_rfl ⟨_, hself, rfl⟩
        refine ⟨g', hrun.trans hg', hset.trans hmarks, ?_⟩
        rw [htargets]
        apply Marking.visit
        rw [hset.points_eq, marked_setMark] at hmarking
        have hsucc : {b | g.Points (blocksOf l) obj b} =
            {a | ∃ v ∈ {v | ∃ i ∈ List.range o.words, o.f i = v}, Leads (blocksOf l) v a} := by
          ext b
          simp only [Points, ho, Option.some.injEq, exists_eq_left', Set.mem_ofPred_eq,
            List.mem_range]
          constructor
          · rintro ⟨i, hi, hb⟩
            exact ⟨_, ⟨i, hi, rfl⟩, hb⟩
          · rintro ⟨_, ⟨i, hi, rfl⟩, hb⟩
            exact ⟨i, hi, hb⟩
        rw [hsucc]
        exact hmarking

/-- The loop over the words of the stack. -/
theorem markRoots_spec {n : Nat} (roots : List Word) (hg : g.Heap l)
    (hn : (g.unmarked l).card + l.length + 2 ≤ n) :
    Searches l {w | w ∈ roots} g (markRoots n g roots) := by
  induction roots generalizing g with
  | nil => exact .nothing (by simp)
  | cons w ws ih =>
    have hrun := (dfs_spec n g w hg hn).bind {v | v ∈ ws} (k := fun g => markRoots n g ws) (by
      intro g' hg' hm
      have hcard := Finset.card_le_card (unmarked_subset (l := l) hm)
      exact ih (hg'.heap_iff hg) (by omega))
    have hwords : {v | v ∈ w :: ws} = {w} ∪ {v | v ∈ ws} := by
      ext v
      simp
    rw [hwords, markRoots]
    exact hrun

end marking

/-! ### The sweeping phase -/

/-- What a marked block becomes, and one that is not. -/
def sweptObject (o : GcObject) : Option GcObject :=
  if o.marked then some { o with marked := false } else none

/-- The blocks of the list that are kept. -/
def kept (g : Gc) (l : List (Word × Word)) : List (Word × Word) :=
  l.filter (g.isMarked ·.2)

/-- `g'` is `g` after the sweep of the nodes `l`, the nodes `before` them being kept. -/
structure Swept (g : Gc) (before l : List (Word × Word)) (g' : Gc) : Prop where
  chain : Segment g'.nodes g'.heap (before ++ g.kept l) none
  gcEnabled : g'.gcEnabled = g.gcEnabled
  objects : ∀ a, g'.objects a =
    if a ∈ blocksOf l then (g.objects a).bind sweptObject else g.objects a
  nodes : ∀ p, (∃ o, g'.nodes p = some o) ↔
    (∃ o, g.nodes p = some o) ∧ ∀ x ∈ l, x.1 = p → g.isMarked x.2 = true

section sweeping

variable {g : Gc} {before l : List (Word × Word)}

/-- Unlinking a node leaves the nodes before it linked to the next one. -/
theorem unlink_spec {h : Option Word} (hseg : Segment g.nodes g.heap before h)
    (hnd : (before.map Prod.fst).Nodup) (next : Option Word) :
    ∃ g', g.unlink next (before.getLast?.map Prod.fst) = .ok g' ∧
      Segment g'.nodes g'.heap before next ∧ g'.gcEnabled = g.gcEnabled ∧
      g'.objects = g.objects ∧ (∀ p, p ∉ before.map Prod.fst → g'.nodes p = g.nodes p) ∧
      ∀ p, (∃ o, g'.nodes p = some o) ↔ ∃ o, g.nodes p = some o := by
  induction before using List.reverseRecOn with
  | nil => exact ⟨_, rfl, rfl, rfl, rfl, fun _ _ => rfl, fun _ => Iff.rfl⟩
  | append_singleton before x =>
    obtain ⟨q, hbefore, rfl, next', hx, hlast⟩ := segment_append.mp hseg
    have hnode : g.node x.1 = .ok ⟨x.2, next'⟩ := by simp [node, hx]
    have hxb : x.1 ∉ before.map Prod.fst := by
      rw [List.map_append, List.nodup_append] at hnd
      intro hmem
      exact hnd.2.2 _ hmem _ (by simp) rfl
    refine ⟨g.setNode x.1 ⟨x.2, next⟩, ?_, ?_, rfl, rfl, ?_, ?_⟩
    · rw [List.getLast?_concat]
      show (do return g.setNode x.1 { ← g.node x.1 with next := next }) = _
      rw [hnode]
      rfl
    · refine segment_append.mpr ⟨_, hbefore.update hxb _, rfl, next, ?_, rfl⟩
      exact Function.update_self _ _ _
    · intro p hp
      have hpx : p ≠ x.1 := fun h => hp (by simp [h])
      exact Function.update_of_ne hpx _ _
    · intro p
      by_cases hpx : p = x.1
      · subst hpx
        simp [setNode, hx]
      · simp [setNode, Function.update_of_ne hpx]

/-- One round of the loop, which has handled the node `x` and its block, and then the rest. -/
theorem Swept.cons {x : Word × Word} {g₁ g' : Gc} {before' : List (Word × Word)}
    (h : Swept g₁ before' l g') (hx : x.2 ∉ blocksOf l)
    (hobjects : g₁.objects = Function.update g.objects x.2 ((g.objects x.2).bind sweptObject))
    (hnodes : ∀ p, (∃ o, g₁.nodes p = some o) ↔
      (∃ o, g.nodes p = some o) ∧ (x.1 = p → g.isMarked x.2 = true))
    (henabled : g₁.gcEnabled = g.gcEnabled)
    (hbefore : before' ++ g.kept l = before ++ g.kept (x :: l)) :
    Swept g before (x :: l) g' := by
  have hobj : ∀ a ∈ blocksOf l, g₁.objects a = g.objects a := by
    intro a ha
    have hax : a ≠ x.2 := fun h => hx (h ▸ ha)
    rw [hobjects, Function.update_of_ne hax]
  have hmark : ∀ y ∈ l, g₁.isMarked y.2 = g.isMarked y.2 := by
    intro y hy
    rw [isMarked, isMarked, hobj y.2 (List.mem_map_of_mem hy)]
  have hkept : g₁.kept l = g.kept l := List.filter_congr hmark
  refine ⟨?_, h.gcEnabled.trans henabled, ?_, ?_⟩
  · rw [← hbefore, ← hkept]
    exact h.chain
  · intro a
    rw [h.objects a]
    by_cases hax : a = x.2
    · subst hax
      rw [if_neg hx, if_pos (by simp [blocksOf]), hobjects, Function.update_self]
    · by_cases ha : a ∈ blocksOf l
      · have ha' : a ∈ blocksOf (x :: l) := List.mem_cons_of_mem _ ha
        rw [if_pos ha, if_pos ha', hobj a ha]
      · have ha' : a ∉ blocksOf (x :: l) := by
          intro hmem
          rcases List.mem_cons.mp hmem with h | h
          · exact hax h
          · exact ha h
        rw [if_neg ha, if_neg ha', hobjects, Function.update_of_ne hax]
  · intro p
    rw [h.nodes p, hnodes p, and_assoc, List.forall_mem_cons]
    refine and_congr_right fun _ => and_congr_right fun _ => ?_
    refine forall₂_congr fun y hy => ?_
    rw [hmark y hy]

/-- The second loop of `gc_collect` ends, and it keeps the marked blocks of what it walks. -/
theorem sweep_spec {h : Option Word} (hbefore : Segment g.nodes g.heap before h)
    (hl : Segment g.nodes h l none) (hnd : (blocksOf l).Nodup)
    (hlive : ∀ a ∈ blocksOf l, ∃ o, g.objects a = some o) {n : Nat} (hn : l.length < n) :
    ∃ g', g.sweep n h (before.getLast?.map Prod.fst) = .ok g' ∧ Swept g before l g' := by
  induction l generalizing g before h n with
  | nil =>
    have hh : h = none := hl
    subst hh
    cases n with
    | zero => omega
    | succ n =>
      refine ⟨g, rfl, ?_, rfl, ?_, ?_⟩
      · simpa [kept] using hbefore
      · simp [blocksOf]
      · simp
  | cons x l ih =>
    have hnodes := (segment_append.mpr ⟨h, hbefore, hl⟩).nodup
    rw [List.map_append, List.nodup_append] at hnodes
    obtain ⟨hndb, hndl, hdisj⟩ := hnodes
    have hxb : x.1 ∉ before.map Prod.fst := fun hmem => hdisj _ hmem _ (by simp) rfl
    have hxl : x.1 ∉ l.map Prod.fst := (List.nodup_cons.mp hndl).1
    obtain ⟨hx, hnd⟩ := List.nodup_cons.mp hnd
    obtain ⟨o, ho⟩ := hlive x.2 (by simp [blocksOf])
    have hlive' : ∀ a ∈ blocksOf l, ∃ o, g.objects a = some o := fun a ha =>
      hlive a (List.mem_cons_of_mem _ ha)
    obtain ⟨rfl, next, hnext, hl⟩ := hl
    have hnode : g.node x.1 = .ok ⟨x.2, next⟩ := by simp [node, hnext]
    have hobj : g.object x.2 = .ok o := by simp [object, ho]
    cases n with
    | zero => omega
    | succ n =>
      have hn' : l.length < n := by simpa using hn
      cases hm : o.marked with
      | true =>
        have hlive₁ : ∀ a ∈ blocksOf l,
            ∃ v, (g.setObject x.2 { o with marked := false }).objects a = some v := by
          intro a ha
          obtain ⟨v, hv⟩ := hlive' a ha
          have hax : a ≠ x.2 := fun h => hx (h ▸ ha)
          exact ⟨v, by simp [setObject, Function.update_of_ne hax, hv]⟩
        have hbefore₁ : Segment g.nodes g.heap (before ++ [x]) next :=
          segment_append.mpr ⟨_, hbefore, rfl, next, hnext, rfl⟩
        obtain ⟨g', hg', hswept⟩ := ih (g := g.setObject x.2 { o with marked := false })
          hbefore₁ hl hnd hlive₁ hn'
        refine ⟨g', ?_, hswept.cons hx ?_ ?_ rfl ?_⟩
        · rw [List.getLast?_concat] at hg'
          rw [sweep, hnode]
          show (do let obj ← g.object x.2; _) = _
          rw [hobj]
          exact (if_pos hm).trans hg'
        · simp [setObject, ho, sweptObject, hm]
        · intro p
          simp [setObject, isMarked, ho, hm]
        · simp [kept, isMarked, ho, hm]
      | false =>
        obtain ⟨g₁, hfree⟩ : ∃ g₁ : Gc, g₁ =
          { g with objects := Function.update g.objects x.2 none } := ⟨_, rfl⟩
        have hfreed : g.freeObject x.2 = .ok g₁ := by rw [freeObject, hobj, hfree]; rfl
        obtain ⟨g₂, hunlink, hseg, hen, hobj₂, hkeep, hnodes₂⟩ :=
          unlink_spec (g := g₁) (by rw [hfree]; exact hbefore) hndb next
        have hnode₂ : ∃ v, g₂.nodes x.1 = some v := by
          rw [hnodes₂, hfree]
          exact ⟨_, hnext⟩
        obtain ⟨v, hv⟩ := hnode₂
        have hfreed₂ : g₂.freeNode x.1 =
            .ok { g₂ with nodes := Function.update g₂.nodes x.1 none } := by
          simp only [freeNode, node, hv]
          rfl
        have hl₂ : Segment (Function.update g₂.nodes x.1 none) next l none := by
          refine Segment.update ?_ hxl none
          refine hl.congr fun m hm => ?_
          rw [hkeep m fun hmb => hdisj m hmb m (by simp [hm]) rfl, hfree]
        have hlive₂ : ∀ a ∈ blocksOf l, ∃ v, g₂.objects a = some v := by
          intro a ha
          have hax : a ≠ x.2 := fun h => hx (h ▸ ha)
          rw [hobj₂, hfree]
          simpa [Function.update_of_ne hax] using hlive' a ha
        obtain ⟨g', hg', hswept⟩ := ih
          (g := { g₂ with nodes := Function.update g₂.nodes x.1 none })
          (hseg.update hxb none) hl₂ hnd hlive₂ hn'
        refine ⟨g', ?_, hswept.cons hx ?_ ?_ ?_ ?_⟩
        · rw [sweep, hnode]
          show (do let obj ← g.object x.2; _) = _
          rw [hobj]
          refine (if_neg (by simp [hm])).trans ?_
          rw [hfreed]
          show (do let g ← g₁.unlink next _; _) = _
          rw [hunlink]
          show (do let g ← g₂.freeNode x.1; _) = _
          rw [hfreed₂]
          exact hg'
        · show g₂.objects = _
          rw [hobj₂, hfree, ho]
          simp [sweptObject, hm]
        · intro p
          by_cases hp : x.1 = p
          · subst hp
            simp [isMarked, ho, hm]
          · have hpx : p ≠ x.1 := fun h => hp h.symm
            simp only [Function.update_of_ne hpx, hnodes₂ p]
            simp [hfree, hp]
        · show g₂.gcEnabled = _
          rw [hen, hfree]
        · simp [kept, isMarked, ho, hm]

end sweeping

/-! ### A collection -/

/-- The marks of the list are clear. -/
def Clear (g : Gc) (l : List (Word × Word)) : Prop :=
  ∀ a ∈ blocksOf l, g.isMarked a = false

open Classical in
/-- The blocks of the list that the words `roots` reach, in their order. -/
noncomputable def reached (g : Gc) (roots : List Word) (l : List (Word × Word)) :
    List (Word × Word) :=
  l.filter (g.Reachable (blocksOf l) roots ·.2)

open Classical in
/-- `g'` is `g` after a collection: the list holds the blocks that are reached, they are as they
were, and the other ones are freed with their nodes. -/
structure Collected (g : Gc) (l : List (Word × Word)) (roots : List Word) (g' : Gc) : Prop where
  heap : g'.Heap (g.reached roots l)
  clear : g'.Clear (g.reached roots l)
  gcEnabled : g'.gcEnabled = g.gcEnabled
  objects : ∀ a, g'.objects a =
    if a ∈ blocksOf l ∧ ¬ g.Reachable (blocksOf l) roots a then none else g.objects a
  nodes : ∀ p, (∃ o, g'.nodes p = some o) ↔
    (∃ o, g.nodes p = some o) ∧ ∀ x ∈ l, x.1 = p → g.Reachable (blocksOf l) roots x.2

section collecting

variable {g : Gc} {l : List (Word × Word)} {roots : List Word}

theorem Reachable.mem {a : Word} (h : g.Reachable (blocksOf l) roots a) : a ∈ blocksOf l := by
  obtain ⟨t, ⟨w, -, ht⟩, hta⟩ := h
  induction hta with
  | refl => exact ht.1
  | tail _ hbc =>
    obtain ⟨_, _, _, _, hl⟩ := hbc
    exact hl.1

variable (roots) in
/-- The marking phase marks the blocks that are reached. -/
theorem markRoots_marks (hg : g.Heap l) (hc : g.Clear l) {n : Nat} (hn : 2 * l.length + 2 ≤ n) :
    ∃ g', markRoots n g roots = .ok g' ∧ Marks g g' ∧
      (∀ a ∈ blocksOf l, g'.isMarked a = true ↔ g.Reachable (blocksOf l) roots a) ∧
      ∀ a, a ∉ blocksOf l → g'.isMarked a = g.isMarked a := by
  have hcard : (g.unmarked l).card ≤ l.length := by
    have h₁ := Finset.card_filter_le (blocksOf l).toFinset (g.isMarked · = false)
    have h₂ := (blocksOf l).toFinset_card_le
    have h₃ : (blocksOf l).length = l.length := List.length_map _
    have h₄ : (g.unmarked l).card ≤ (blocksOf l).toFinset.card := h₁
    omega
  obtain ⟨g', hrun, hmarks, hmarking⟩ := markRoots_spec (n := n) roots hg (by omega)
  have hclear : ∀ b ∈ blocksOf l, b ∉ g.marked := by
    intro b hb hm
    have hm' : g.isMarked b = true := hm
    rw [hc b hb] at hm'
    exact absurd hm' (by simp)
  refine ⟨g', hrun, hmarks, ?_, ?_⟩
  · intro a ha
    refine hmarking.mem_iff ?_ (hclear a ha)
    intro t ht b htb
    have hr : g.Reachable (blocksOf l) roots b := ⟨t, ht, htb⟩
    exact hclear b hr.mem
  · intro a ha
    rw [Bool.eq_iff_iff]
    refine ⟨?_, fun hm => hmarking.mono hm⟩
    intro hm
    by_contra hn
    have hr : g.Reachable (blocksOf l) roots a := hmarking.sound a hm hn
    exact ha hr.mem

variable (roots) in
/-- A collection ends with the blocks that are reached. -/
theorem collect_enabled (hg : g.Heap l) (hc : g.Clear l) (he : g.gcEnabled = true) {n : Nat}
    (hn : 2 * l.length + 2 ≤ n) :
    ∃ g', g.collect n roots = .ok g' ∧ g.Collected l roots g' := by
  classical
  obtain ⟨g₁, hmark, hmarks, hiff, hother⟩ := markRoots_marks roots hg hc hn
  have hg₁ := hmarks.heap_iff hg
  have hstart : Segment g₁.nodes g₁.heap [] g₁.heap := rfl
  obtain ⟨g', hsweep, hswept⟩ := sweep_spec hstart hg₁.chain hg₁.distinct hg₁.live (n := n)
    (by omega)
  have hkept : g₁.kept l = g.reached roots l := by
    refine List.filter_congr fun x hx => ?_
    rw [Bool.eq_iff_iff, hiff x.2 (List.mem_map_of_mem hx), decide_eq_true_iff]
  have hobj : ∀ a ∈ blocksOf l, g.Reachable (blocksOf l) roots a →
      g'.objects a = g.objects a := by
    intro a ha hr
    obtain ⟨o, ho⟩ := hg.live a ha
    obtain ⟨b, hb⟩ := hmarks.object ho
    have hm₁ := (hiff a ha).mpr hr
    have hm := hc a ha
    simp only [isMarked, hb, ho, Option.any_some] at hm₁ hm
    rw [hswept.objects a, if_pos ha, hb, ho]
    subst hm₁
    cases o
    simp only at hm
    subst hm
    rfl
  have hfree : ∀ a ∈ blocksOf l, ¬ g.Reachable (blocksOf l) roots a → g'.objects a = none := by
    intro a ha hr
    obtain ⟨o, ho⟩ := hg.live a ha
    obtain ⟨b, hb⟩ := hmarks.object ho
    have hm₁ : ¬ g₁.isMarked a = true := fun h => hr ((hiff a ha).mp h)
    simp only [isMarked, hb, Option.any_some] at hm₁
    rw [hswept.objects a, if_pos ha, hb]
    exact if_neg hm₁
  have hsub : ∀ a ∈ blocksOf (g.reached roots l),
      a ∈ blocksOf l ∧ g.Reachable (blocksOf l) roots a := by
    intro a ha
    obtain ⟨x, hx, rfl⟩ := List.mem_map.mp ha
    obtain ⟨hxl, hr⟩ := List.mem_filter.mp hx
    exact ⟨List.mem_map_of_mem hxl, of_decide_eq_true hr⟩
  refine ⟨g', ?_, ⟨?_, ?_, ?_⟩, ?_, ?_, ?_, ?_⟩
  · rw [collect, if_pos he, hmark]
    exact hsweep
  · rw [← hkept]
    exact hswept.chain
  · exact hg.distinct.sublist (List.filter_sublist.map _)
  · intro a ha
    obtain ⟨hal, hr⟩ := hsub a ha
    rw [hobj a hal hr]
    exact hg.live a hal
  · intro a ha
    obtain ⟨hal, hr⟩ := hsub a ha
    rw [isMarked, hobj a hal hr]
    exact hc a hal
  · exact hswept.gcEnabled.trans hmarks.gcEnabled
  · intro a
    by_cases ha : a ∈ blocksOf l
    · by_cases hr : g.Reachable (blocksOf l) roots a
      · rw [if_neg (fun h => h.2 hr), hobj a ha hr]
      · rw [if_pos ⟨ha, hr⟩, hfree a ha hr]
    · rw [if_neg (fun h => ha h.1), hswept.objects a, if_neg ha]
      exact hmarks.object_eq (hother a ha)
  · intro p
    rw [hswept.nodes p, hmarks.nodes]
    refine and_congr_right fun _ => forall₂_congr fun x hx => ?_
    rw [hiff x.2 (List.mem_map_of_mem hx)]

end collecting

end Gc

end TigerCompiler
