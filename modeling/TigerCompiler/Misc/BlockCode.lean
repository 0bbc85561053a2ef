import TigerCompiler.Misc.Blocks

/-!
# The code of basic blocks

A builder appends to the block it stands in, but for the instructions of a kind that it puts at the
beginning of the block a function begins with.  The others are the code of a block.  It only
grows, and where the builder does not stand it stays as it is: what follows a point of it is what
is appended from then on.
-/

variable {φ ι : Type}

namespace BlockBuilder

/-! ## Looking at blocks -/

/-- The instructions of a block. -/
def instrsAt (b : BlockBuilder φ ι) (c : Nat) : List ι :=
  (b.blocks[c]?.map BasicBlock.instrs).getD []

/-- What a block belongs to. -/
def parentAt (b : BlockBuilder φ ι) (c : Nat) : Option φ := b.blocks[c]?.map BasicBlock.parent

/-- The instructions that are appended to a block. -/
def code (front : ι → Bool) (b : BlockBuilder φ ι) (c : Nat) : List ι :=
  (b.instrsAt c).filter fun i => !front i

variable {front : ι → Bool} {b b' b₁ : BlockBuilder φ ι} {c d n : Nat} {o : Option Nat} {i j : ι}
  {p : φ}

@[simp] theorem instrsAt_moveTo : (b.moveTo o).instrsAt c = b.instrsAt c := rfl

@[simp] theorem parentAt_moveTo : (b.moveTo o).parentAt c = b.parentAt c := rfl

@[simp] theorem code_moveTo : (b.moveTo o).code front c = b.code front c := rfl

@[simp] theorem instrsAt_newBlock : (b.newBlock p).instrsAt c = b.instrsAt c := by
  unfold instrsAt newBlock
  rw [List.getElem?_append]
  split
  · rfl
  · rename_i h
    rw [List.getElem?_eq_none (Nat.le_of_not_lt h)]
    cases c - b.blocks.length <;> rfl

@[simp] theorem code_newBlock : (b.newBlock p).code front c = b.code front c := by
  rw [code, instrsAt_newBlock, code]

theorem parentAt_newBlock_of_lt (h : c < b.next) : (b.newBlock p).parentAt c = b.parentAt c := by
  unfold parentAt newBlock
  rw [List.getElem?_append_left h]

theorem parentAt_newBlock : (b.newBlock p).parentAt b.next = some p := by
  unfold parentAt newBlock next
  rw [List.getElem?_concat_length]
  rfl

theorem parentAt_eq_none (h : b.next ≤ c) : b.parentAt c = none := by
  unfold parentAt
  rw [List.getElem?_eq_none h]
  rfl

theorem lt_next_of_parentAt (h : b.parentAt c = some p) : c < b.next := by
  by_contra hc
  rw [parentAt_eq_none (Nat.le_of_not_lt hc)] at h
  cases h

theorem instrsAt_eq_nil (h : b.next ≤ c) : b.instrsAt c = [] := by
  unfold instrsAt
  rw [List.getElem?_eq_none h]
  rfl

section Modify

variable {f : BasicBlock φ ι → BasicBlock φ ι}

theorem instrsAt_modify_of_ne (h : d ≠ c) :
    instrsAt { b with blocks := b.blocks.modify d f } c = b.instrsAt c := by
  simp [instrsAt, h]

theorem instrsAt_modify (h : c < b.next) {g : List ι → List ι}
    (hf : ∀ x, (f x).instrs = g x.instrs) :
    instrsAt { b with blocks := b.blocks.modify c f } c = g (b.instrsAt c) := by
  simp [instrsAt, List.getElem?_eq_getElem (show c < b.blocks.length from h), hf]

theorem parentAt_modify (hf : ∀ x, (f x).parent = x.parent) :
    parentAt { b with blocks := b.blocks.modify d f } c = b.parentAt c := by
  simp only [parentAt, List.getElem?_modify, Option.map_eq_map, Option.map_map]
  congr 1
  funext x
  simp only [Function.comp]
  split
  · exact hf x
  · rfl

end Modify

@[simp] theorem parentAt_insert : (b.insert i).parentAt c = b.parentAt c := by
  unfold insert
  split
  · rfl
  · exact parentAt_modify fun _ => rfl

@[simp] theorem parentAt_insertFront : (b.insertFront d i).parentAt c = b.parentAt c :=
  parentAt_modify fun _ => rfl

theorem instrsAt_insert_of_ne (h : b.cursor ≠ some c) : (b.insert i).instrsAt c = b.instrsAt c := by
  unfold insert
  split
  · rfl
  · rename_i d hd
    exact instrsAt_modify_of_ne fun hdc => h (hdc ▸ hd)

theorem instrsAt_insert (hc : b.cursor = some c) (h : c < b.next) :
    (b.insert i).instrsAt c = b.instrsAt c ++ [i] := by
  unfold insert
  rw [hc]
  exact instrsAt_modify h (g := (· ++ [i])) fun _ => rfl

theorem instrsAt_insertFront_of_ne (h : d ≠ c) :
    (b.insertFront d i).instrsAt c = b.instrsAt c := instrsAt_modify_of_ne h

theorem instrsAt_insertFront (h : c < b.next) :
    (b.insertFront c i).instrsAt c = i :: b.instrsAt c :=
  instrsAt_modify h (g := (i :: ·)) fun _ => rfl

/-- What is in a block after an insertion. -/
theorem mem_instrsAt_insert (h : j ∈ (b.insert i).instrsAt c) : j ∈ b.instrsAt c ∨ j = i := by
  by_cases hc : b.cursor = some c
  · by_cases hlt : c < b.next
    · rw [instrsAt_insert hc hlt] at h
      simpa using h
    · rw [instrsAt_eq_nil (by rw [next_insert]; omega)] at h
      cases h
  · rw [instrsAt_insert_of_ne hc] at h
    exact .inl h

theorem mem_instrsAt_insertFront (h : j ∈ (b.insertFront d i).instrsAt c) :
    j ∈ b.instrsAt c ∨ j = i ∧ d = c := by
  by_cases hc : d = c
  · subst hc
    by_cases hlt : d < b.next
    · rw [instrsAt_insertFront hlt] at h
      rcases List.mem_cons.mp h with h | h
      · exact .inr ⟨h, rfl⟩
      · exact .inl h
    · rw [instrsAt_eq_nil (by rw [next_insertFront]; omega)] at h
      cases h
  · rw [instrsAt_insertFront_of_ne hc] at h
    exact .inl h

theorem code_insert (hi : front i = false) (hc : b.cursor = some c) (h : c < b.next) :
    (b.insert i).code front c = b.code front c ++ [i] := by
  rw [code, instrsAt_insert hc h, List.filter_append, code]
  simp [hi]

theorem code_insert_of_ne (h : b.cursor ≠ some c) :
    (b.insert i).code front c = b.code front c := by
  rw [code, instrsAt_insert_of_ne h, code]

theorem code_insertFront (hi : front i = true) :
    (b.insertFront d i).code front c = b.code front c := by
  by_cases hc : d = c
  · subst hc
    by_cases hlt : d < b.next
    · rw [code, instrsAt_insertFront hlt, List.filter_cons_of_neg (by simp [hi]), code]
    · rw [code, code, instrsAt_eq_nil (by rw [next_insertFront]; omega),
        instrsAt_eq_nil (Nat.le_of_not_lt hlt)]
  · rw [code, instrsAt_insertFront_of_ne hc, code]

/-! ## The block a function begins with -/

section Entry

variable [DecidableEq φ]

theorem entry_eq_some : b.entry p = some c ↔
    b.parentAt c = some p ∧ ∀ d < c, b.parentAt d ≠ some p := by
  have hat {d : Nat} :
      b.parentAt d = some p ↔ ∃ h : d < b.blocks.length, b.blocks[d].parent = p := by
    simp [parentAt, List.getElem?_eq_some_iff]
  simp only [entry, List.findIdx?_eq_some_iff_getElem, decide_eq_true_eq, ne_eq, hat]
  constructor
  · rintro ⟨hc, hp, hd⟩
    refine ⟨⟨hc, hp⟩, ?_⟩
    rintro d hdc ⟨_, hx⟩
    exact hd d hdc hx
  · rintro ⟨⟨hc, hp⟩, hd⟩
    exact ⟨hc, hp, fun d hdc hx => hd d hdc ⟨Nat.lt_trans hdc hc, hx⟩⟩

theorem entry_eq_none : b.entry p = none ↔ ∀ c, b.parentAt c ≠ some p := by
  simp only [entry, List.findIdx?_eq_none_iff, decide_eq_false_iff_not, parentAt, ne_eq,
    Option.map_eq_some_iff, not_exists, not_and]
  constructor
  · exact fun h c x hx => h x (List.mem_of_getElem? hx)
  · intro h x hx
    obtain ⟨c, hc⟩ := List.getElem?_of_mem hx
    exact h c x hc

end Entry

/-! ## Growing -/

/-- Blocks are made and filled: their code only grows. -/
structure Grows (front : ι → Bool) (b b' : BlockBuilder φ ι) : Prop where
  next : b.next ≤ b'.next
  parent : ∀ c < b.next, b'.parentAt c = b.parentAt c
  code : ∀ c, b.code front c <+: b'.code front c
  subset : ∀ c, b.instrsAt c ⊆ b'.instrsAt c

namespace Grows

theorem refl (b : BlockBuilder φ ι) : Grows front b b :=
  ⟨Nat.le_refl _, fun _ _ => rfl, fun _ => List.prefix_refl _, fun _ => List.Subset.refl _⟩

theorem trans (h₁ : Grows front b b₁) (h₂ : Grows front b₁ b') : Grows front b b' where
  next := Nat.le_trans h₁.next h₂.next
  parent c hc := (h₂.parent c (Nat.lt_of_lt_of_le hc h₁.next)).trans (h₁.parent c hc)
  code c := (h₁.code c).trans (h₂.code c)
  subset c := List.Subset.trans (h₁.subset c) (h₂.subset c)

theorem moveTo (h : Grows front b b') : Grows front b (b'.moveTo o) :=
  ⟨h.next, h.parent, h.code, h.subset⟩

theorem newBlock : Grows front b (b.newBlock p) where
  next := by
    rw [next_newBlock]
    exact Nat.le_succ _
  parent _ hc := parentAt_newBlock_of_lt hc
  code _ := code_newBlock ▸ List.prefix_refl _
  subset _ := instrsAt_newBlock ▸ List.Subset.refl _

theorem insert (hi : front i = false) : Grows front b (b.insert i) where
  next := Nat.le_of_eq next_insert.symm
  parent _ _ := parentAt_insert
  code c := by
    by_cases hc : b.cursor = some c
    · by_cases hlt : c < b.next
      · rw [code_insert hi hc hlt]
        exact List.prefix_append _ _
      · rw [BlockBuilder.code, instrsAt_eq_nil (Nat.le_of_not_lt hlt)]
        exact List.nil_prefix
    · exact code_insert_of_ne hc ▸ List.prefix_refl _
  subset c := by
    by_cases hc : b.cursor = some c
    · by_cases hlt : c < b.next
      · rw [instrsAt_insert hc hlt]
        exact List.subset_append_left _ _
      · rw [instrsAt_eq_nil (Nat.le_of_not_lt hlt)]
        exact List.nil_subset _
    · exact instrsAt_insert_of_ne hc ▸ List.Subset.refl _

theorem insertFront (hi : front i = true) : Grows front b (b.insertFront d i) where
  next := Nat.le_of_eq next_insertFront.symm
  parent _ _ := parentAt_insertFront
  code _ := code_insertFront hi ▸ List.prefix_refl _
  subset c := by
    by_cases hc : d = c
    · subst hc
      by_cases hlt : d < b.next
      · rw [instrsAt_insertFront hlt]
        exact List.subset_cons_self _ _
      · rw [instrsAt_eq_nil (Nat.le_of_not_lt hlt)]
        exact List.nil_subset _
    · exact instrsAt_insertFront_of_ne hc ▸ List.Subset.refl _

theorem parentAt_eq_some (h : Grows front b b') (hp : b.parentAt c = some p) :
    b'.parentAt c = some p := (h.parent c (lt_next_of_parentAt hp)).trans hp

/-- A function begins where it began. -/
theorem entry [DecidableEq φ] (h : Grows front b b') (he : b.entry p = some c) :
    b'.entry p = some c := by
  rw [entry_eq_some] at he ⊢
  have hc := lt_next_of_parentAt he.1
  refine ⟨h.parentAt_eq_some he.1, ?_⟩
  intro d hd
  rw [h.parent d (Nat.lt_trans hd hc)]
  exact he.2 d hd

end Grows

/-- Blocks are made and filled from where the builder stands: what it has left stays.  It ends in
the block it stood in or in a new one. -/
structure Extends (front : ι → Bool) (b b' : BlockBuilder φ ι) : Prop extends
    Grows front b b' where
  stays : ∀ c < b.next, b.cursor ≠ some c → b'.code front c = b.code front c
  lands : b'.cursor = b.cursor ∨ ∃ c, b'.cursor = some c ∧ b.next ≤ c

namespace Extends

theorem refl (b : BlockBuilder φ ι) : Extends front b b :=
  ⟨.refl b, fun _ _ _ => rfl, .inl rfl⟩

theorem trans (h₁ : Extends front b b₁) (h₂ : Extends front b₁ b') : Extends front b b' where
  toGrows := h₁.toGrows.trans h₂.toGrows
  stays c hc hcur := by
    rw [h₂.stays c (Nat.lt_of_lt_of_le hc h₁.next), h₁.stays c hc hcur]
    rcases h₁.lands with h | ⟨d, h, hd⟩
    · rwa [h]
    · rw [h]
      rintro ⟨⟩
      omega
  lands := by
    rcases h₂.lands with h | ⟨d, h, hd⟩
    · rw [h]
      exact h₁.lands
    · exact .inr ⟨d, h, Nat.le_trans h₁.next hd⟩

/-- The builder goes to a block that was made in between. -/
theorem moveTo (h : Extends front b b') (hc : b.next ≤ c) : Extends front b (b'.moveTo (some c)) :=
  ⟨h.toGrows.moveTo, h.stays, .inr ⟨c, rfl, hc⟩⟩

theorem newBlock : Extends front b (b.newBlock p) :=
  ⟨.newBlock, fun _ _ _ => code_newBlock, .inl rfl⟩

theorem insert (hi : front i = false) : Extends front b (b.insert i) :=
  ⟨.insert hi, fun _ _ hc => code_insert_of_ne hc, .inl cursor_insert⟩

theorem insertFront (hi : front i = true) : Extends front b (b.insertFront d i) :=
  ⟨.insertFront hi, fun _ _ _ => code_insertFront hi, .inl rfl⟩

/-- A block is made and filled, with what comes after it, and the builder goes back. -/
theorem detour (h : Extends front ((b.newBlock p).moveTo (some b.next)) b') :
    Extends front b (b'.moveTo b.cursor) where
  toGrows := Grows.newBlock.trans (Grows.trans (Grows.moveTo (.refl _)) (h.toGrows.moveTo))
  stays c hc _ := by
    have hlt : c < ((b.newBlock p).moveTo (some b.next)).next := by
      rw [next_moveTo, next_newBlock]
      exact Nat.lt_succ_of_lt hc
    have hne : ((b.newBlock p).moveTo (some b.next)).cursor ≠ some c := by
      rw [cursor_moveTo]
      rintro ⟨⟩
      exact Nat.lt_irrefl _ hc
    rw [code_moveTo, h.stays c hlt hne, code_moveTo, code_newBlock]
  lands := .inl rfl

end Extends

/-- Three blocks are made, and then filled one after the other: a block is empty until the builder
goes there. -/
theorem Extends.fork {b₂ b₃ : BlockBuilder φ ι}
    (h₁ : Extends front (((b.newBlock p).newBlock p).newBlock p) b₁) (hc : b.cursor = some c)
    (hlt : c < b.next) (h₂ : Extends front (b₁.moveTo (some b.next)) b₂)
    (h₃ : Extends front (b₂.moveTo (some (b.next + 1))) b₃) :
    b₁.code front b.next = [] ∧ b₂.code front (b.next + 1) = [] ∧
      b₃.code front (b.next + 2) = [] := by
  have hnil (d : Nat) (hd : b.next ≤ d) : b.code front d = [] := by
    rw [code, instrsAt_eq_nil hd]
    rfl
  have hnext : (((b.newBlock p).newBlock p).newBlock p).next = b.next + 3 := by
    rw [next_newBlock, next_newBlock, next_newBlock]
  have hnext₁ : b.next + 3 ≤ b₁.next := hnext ▸ h₁.next
  have hnext₂ : b.next + 3 ≤ b₂.next := Nat.le_trans hnext₁ h₂.next
  have hcode₁ (d : Nat) (hd : b.next ≤ d) (hd' : d < b.next + 3) : b₁.code front d = [] := by
    rw [h₁.stays d (by omega), code_newBlock, code_newBlock, code_newBlock, hnil d hd]
    rw [cursor_newBlock, cursor_newBlock, cursor_newBlock, hc, ne_eq, Option.some.injEq]
    omega
  have hcode₂ (d : Nat) (hd : b.next < d) (hd' : d < b.next + 3) : b₂.code front d = [] := by
    rw [h₂.stays d (Nat.lt_of_lt_of_le hd' hnext₁), code_moveTo, hcode₁ d (Nat.le_of_lt hd) hd']
    rw [cursor_moveTo, ne_eq, Option.some.injEq]
    omega
  refine ⟨hcode₁ _ (by omega) (by omega), hcode₂ _ (by omega) (by omega), ?_⟩
  rw [h₃.stays _ (Nat.lt_of_lt_of_le (by omega) hnext₂), code_moveTo,
    hcode₂ _ (by omega) (by omega)]
  rw [cursor_moveTo, ne_eq, Option.some.injEq]
  omega

/-- The three blocks belong to what they were made for. -/
theorem parentAt_fork {i : Nat} (hi : i < 3) :
    (((b.newBlock p).newBlock p).newBlock p).parentAt (b.next + i) = some p := by
  have hnext₁ : (b.newBlock p).next = b.next + 1 := next_newBlock
  have hnext₂ : ((b.newBlock p).newBlock p).next = b.next + 2 := by
    rw [next_newBlock, hnext₁]
  have h₁ : (b.newBlock p).parentAt b.next = some p := parentAt_newBlock
  have h₂ : ((b.newBlock p).newBlock p).parentAt (b.newBlock p).next = some p := parentAt_newBlock
  have h₃ : (((b.newBlock p).newBlock p).newBlock p).parentAt ((b.newBlock p).newBlock p).next =
    some p := parentAt_newBlock
  obtain rfl | rfl | rfl : i = 0 ∨ i = 1 ∨ i = 2 := by omega
  · rw [parentAt_newBlock_of_lt (by omega), parentAt_newBlock_of_lt (by omega)]
    exact h₁
  · rw [parentAt_newBlock_of_lt (by omega), ← hnext₁]
    exact h₂
  · rw [← hnext₂]
    exact h₃

/-! ## Two invariants -/

section Fronted

variable [DecidableEq φ]

/-- The instructions put at the beginning of a block are all there, and only the blocks that
functions begin with have some. -/
def Fronted (front : ι → Bool) (b : BlockBuilder φ ι) : Prop :=
  ∀ c, ∃ l, b.instrsAt c = l ++ b.code front c ∧ (∀ i ∈ l, front i = true) ∧
    (l ≠ [] → ∃ p, b.entry p = some c)

theorem Fronted.moveTo (h : b.Fronted front) : (b.moveTo o).Fronted front := h

theorem Fronted.newBlock (h : b.Fronted front) : (b.newBlock p).Fronted front := by
  intro c
  obtain ⟨l, hl, hfront, hentry⟩ := h c
  refine ⟨l, ?_, hfront, ?_⟩
  · rw [instrsAt_newBlock, code_newBlock, hl]
  · intro hne
    obtain ⟨q, hq⟩ := hentry hne
    have hext : Grows front b (b.newBlock p) := .newBlock
    exact ⟨q, hext.entry hq⟩

theorem Fronted.insert (h : b.Fronted front) (hi : front i = false) :
    (b.insert i).Fronted front := by
  intro c
  obtain ⟨l, hl, hfront, hentry⟩ := h c
  refine ⟨l, ?_, hfront, ?_⟩
  · by_cases hc : b.cursor = some c
    · by_cases hlt : c < b.next
      · rw [instrsAt_insert hc hlt, code_insert hi hc hlt, hl, List.append_assoc]
      · have hnext : (b.insert i).next ≤ c := by
          rw [next_insert]
          omega
        rw [instrsAt_eq_nil (Nat.le_of_not_lt hlt)] at hl
        rw [code, instrsAt_eq_nil hnext, (List.append_eq_nil_iff.mp hl.symm).1]
        rfl
    · rw [instrsAt_insert_of_ne hc, code_insert_of_ne hc, hl]
  · intro hne
    obtain ⟨p, hp⟩ := hentry hne
    exact ⟨p, (Grows.insert hi).entry hp⟩

theorem Fronted.insertFront (h : b.Fronted front) (hi : front i = true) (hd : b.entry p = some d) :
    (b.insertFront d i).Fronted front := by
  have hext : Grows front b (b.insertFront d i) := .insertFront hi
  intro c
  obtain ⟨l, hl, hfront, hentry⟩ := h c
  by_cases hc : d = c
  · subst hc
    refine ⟨i :: l, ?_, ?_, fun _ => ⟨p, hext.entry hd⟩⟩
    · rw [instrsAt_insertFront (lt_next_of_parentAt (entry_eq_some.mp hd).1), code_insertFront hi,
        hl, List.cons_append]
    · simpa [hi] using hfront
  · refine ⟨l, ?_, hfront, ?_⟩
    · rw [instrsAt_insertFront_of_ne hc, code_insertFront hi, hl]
    · intro hne
      obtain ⟨p, hp⟩ := hentry hne
      exact ⟨p, hext.entry hp⟩

end Fronted

/-- The instructions are numbered, by numbers less than `n`: an instruction is known by its
number. -/
structure Numbered (key : ι → Nat) (n : Nat) (b : BlockBuilder φ ι) : Prop where
  lt : ∀ c, ∀ i ∈ b.instrsAt c, key i < n
  inj : ∀ c d, ∀ i ∈ b.instrsAt c, ∀ j ∈ b.instrsAt d, key i = key j → i = j

variable {key : ι → Nat}

theorem Numbered.moveTo (h : b.Numbered key n) : (b.moveTo o).Numbered key n := ⟨h.lt, h.inj⟩

theorem Numbered.newBlock (h : b.Numbered key n) : (b.newBlock p).Numbered key n where
  lt c i hi := h.lt c i (by rwa [instrsAt_newBlock] at hi)
  inj c d i hi j hj := by
    rw [instrsAt_newBlock] at hi hj
    exact h.inj c d i hi j hj

/-- The instruction of the next number is put somewhere. -/
theorem Numbered.of_mem (h : b.Numbered key n) (hk : key i = n)
    (hmem : ∀ c, ∀ j ∈ b'.instrsAt c, j ∈ b.instrsAt c ∨ j = i) : b'.Numbered key (n + 1) where
  lt c j hj := by
    rcases hmem c j hj with hj | rfl
    · exact Nat.lt_succ_of_lt (h.lt c j hj)
    · exact hk ▸ Nat.lt_succ_self _
  inj c d j hj j' hj' heq := by
    rcases hmem c j hj with hj | rfl <;> rcases hmem d j' hj' with hj' | rfl
    · exact h.inj c d j hj j' hj' heq
    · have := h.lt c j hj
      omega
    · have := h.lt d j' hj'
      omega
    · rfl

theorem Numbered.insert (h : b.Numbered key n) (hk : key i = n) :
    (b.insert i).Numbered key (n + 1) :=
  h.of_mem hk fun _ _ => mem_instrsAt_insert

theorem Numbered.insertFront (h : b.Numbered key n) (hk : key i = n) :
    (b.insertFront d i).Numbered key (n + 1) :=
  h.of_mem hk fun _ _ hj => (mem_instrsAt_insertFront hj).imp_right And.left

end BlockBuilder
