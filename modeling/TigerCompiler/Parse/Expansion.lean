import TigerCompiler.Parse.Flatten
import Mathlib.Algebra.BigOperators.Group.List.Basic
import Mathlib.Data.Nat.Cast.Basic

/-!
# What a Tweast stands for

A tree of Tweasts is written down as the insertions made in each of them, with the numbers that
the counter gave.  Expanding it is reading the insertions in order, those of a Tweast where it was
inserted; flattening keeps this reading.
-/

namespace TigerCompiler

open Template MetavarMap

namespace Tweast

/-- The insertions in a Tweast, from the first to the last one. -/
inductive Script where
  | nil
  | text (s : Str) (rest : Script)
  | metavar (v : Metavar) (rest : Script)
  | tweast (num : Nat) (inner rest : Script)

namespace Script

/-- The insertions are made in a Tweast, `count_` being the number when there is one. -/
def build : Script → Tweast → Tweast
  | nil, t => t
  | text s rest, t => rest.build (t.append s)
  | metavar v rest, t => rest.build (t.appendMetavar v.kind v.data v.num).1
  | tweast num inner rest, t => rest.build (t.appendTweast (inner.build new) num).1

/-- The text and the trees, those of a Tweast where it has been inserted. -/
def expand : Script → Template Char (AstKind × Addr)
  | nil => []
  | text s rest => ofText s ++ expand rest
  | metavar v rest => .hole v.tree :: expand rest
  | tweast _ inner rest => expand inner ++ expand rest

/-- The texts inserted, in all the Tweasts. -/
def texts : Script → List Str
  | nil => []
  | text s rest => s :: texts rest
  | metavar _ rest => texts rest
  | tweast _ inner rest => texts inner ++ texts rest

/-- How many Tweasts there are below this one. -/
def nested : Script → Nat
  | nil => 0
  | text _ rest => nested rest
  | metavar _ rest => nested rest
  | tweast _ inner rest => nested inner + 1 + nested rest

/-- How many metavariables `flatten` moves. -/
def moves : Script → Nat
  | nil => 0
  | text _ rest => moves rest
  | metavar _ rest => moves rest
  | tweast _ inner rest => moves inner + (Template.holes (expand inner)).length + moves rest

/-- The input of the Tweast itself. -/
def slots : Script → Template Char (Slot Script)
  | nil => []
  | text s rest => ofText s ++ slots rest
  | metavar v rest => .hole (.tree v) :: slots rest
  | tweast num inner rest => .hole (.tweast num inner) :: slots rest

/-- The numbers of the metavariables of the Tweast itself. -/
def own : Script → List Nat
  | nil => []
  | text _ rest => own rest
  | metavar v rest => v.num :: own rest
  | tweast num _ rest => num :: own rest

/-- In each Tweast the numbers are different from one another, and below `count`. -/
def Numbered (count : Nat) : Script → Prop
  | nil => True
  | text _ rest => Numbered count rest
  | metavar v rest => v.num < count ∧ v.num ∉ own rest ∧ Numbered count rest
  | tweast num inner rest =>
    num < count ∧ num ∉ own rest ∧ Numbered count inner ∧ Numbered count rest

/-- The Tweasts inserted in this one. -/
def subs : Script → List (Nat × Script)
  | nil => []
  | text _ rest => subs rest
  | metavar _ rest => subs rest
  | tweast num inner rest => (num, inner) :: subs rest

theorem expand_eq_fill (s : Script) : s.expand = fill (Slot.expand expand) s.slots := by
  induction s with
  | nil => rfl
  | text w rest ih => rw [expand, slots, fill_append, fill_ofText, ih]
  | metavar v rest ih => exact congrArg (.hole v.tree :: ·) ih
  | tweast num inner rest _ ih => exact congrArg (inner.expand ++ ·) ih

theorem subs_eq (s : Script) : s.subs = (Template.holes s.slots).filterMap Slot.tweast? := by
  induction s with
  | nil => rfl
  | text w rest ih => rw [subs, slots, holes_append, holes_ofText, List.nil_append, ih]
  | metavar v rest ih => exact ih
  | tweast num inner rest _ ih => exact congrArg ((num, inner) :: ·) ih

theorem subs_sublist (s : Script) : (s.subs.map Prod.fst).Sublist s.own := by
  induction s with
  | nil => exact .slnil
  | text w rest ih => exact ih
  | metavar v rest ih => exact ih.cons _
  | tweast num inner rest _ ih => exact ih.cons_cons _

theorem own_eq (s : Script) : s.own = (Template.holes s.slots).map Slot.num := by
  induction s with
  | nil => rfl
  | text w rest ih => rw [own, slots, holes_append, holes_ofText, List.nil_append, ih]
  | metavar v rest ih => exact congrArg (v.num :: ·) ih
  | tweast num inner rest _ ih => exact congrArg (num :: ·) ih

theorem moves_eq (s : Script) :
    s.moves = (s.subs.map fun p => p.2.moves + (Template.holes p.2.expand).length).sum := by
  induction s with
  | nil => rfl
  | text w rest ih => exact ih
  | metavar v rest ih => exact ih
  | tweast num inner rest _ ih => rw [moves, subs, List.map_cons, List.sum_cons, ih]

theorem nested_eq (s : Script) : s.nested = (s.subs.map fun p => p.2.nested + 1).sum := by
  induction s with
  | nil => rfl
  | text w rest ih => exact ih
  | metavar v rest ih => exact ih
  | tweast num inner rest _ ih => rw [nested, subs, List.map_cons, List.sum_cons, ih]

variable {s : Script} {c c' : Nat}

theorem Numbered.mono (h : Numbered c s) (hc : c ≤ c') : Numbered c' s := by
  induction s with
  | nil => trivial
  | text w rest ih => exact ih h
  | metavar v rest ih => exact ⟨h.1.trans_le hc, h.2.1, ih h.2.2⟩
  | tweast num inner rest ihi ih =>
    exact ⟨h.1.trans_le hc, h.2.1, ihi h.2.2.1, ih h.2.2.2⟩

theorem Numbered.nodup (h : Numbered c s) : s.own.Nodup := by
  induction s with
  | nil => exact List.nodup_nil
  | text w rest ih => exact ih h
  | metavar v rest ih => exact List.nodup_cons.mpr ⟨h.2.1, ih h.2.2⟩
  | tweast num inner rest _ ih => exact List.nodup_cons.mpr ⟨h.2.1, ih h.2.2.2⟩

theorem Numbered.lt (h : Numbered c s) : ∀ n ∈ s.own, n < c := by
  induction s with
  | nil => simp [own]
  | text w rest ih => exact ih h
  | metavar v rest ih => exact List.forall_mem_cons.mpr ⟨h.1, ih h.2.2⟩
  | tweast num inner rest _ ih => exact List.forall_mem_cons.mpr ⟨h.1, ih h.2.2.2⟩

theorem Numbered.inner (h : Numbered c s) : ∀ p ∈ s.subs, Numbered c p.2 := by
  induction s with
  | nil => simp [subs]
  | text w rest ih => exact ih h
  | metavar v rest ih => exact ih h.2.2
  | tweast num inner rest _ ih => exact List.forall_mem_cons.mpr ⟨h.2.2.1, ih h.2.2.2⟩

/-! ## Building -/

/-- What the insertions leave in a Tweast whose numbers are others. -/
theorem build_spec {t : Tweast} (hn : s.own.Nodup)
    (hm : ∀ kind, ∀ p ∈ t.metavars kind, p.1 ∉ s.own) (ht : ∀ p ∈ t.tweasts, p.1 ∉ s.own) :
    (s.build t).input = t.input ++ render Slot.mark s.slots ∧
    (∀ kind, ((s.build t).metavars kind).Perm
      (t.metavars kind ++ keyed kind ((Template.holes s.slots).filterMap Slot.tree?))) ∧
    (s.build t).tweasts.Perm (t.tweasts ++ s.subs.map fun p => (p.1, p.2.build new)) := by
  induction s generalizing t with
  | nil => simp [build, slots, subs, render, Template.holes, keyed]
  | text w rest ih =>
    obtain ⟨hi, hmv, htw⟩ := ih (t := t.append w) hn hm ht
    refine ⟨?_, ?_, htw⟩
    · rw [build, hi, slots, render_append, render_ofText, ← List.append_assoc]
      rfl
    · intro kind
      rw [slots, holes_append, holes_ofText]
      exact hmv kind
  | metavar v rest ih =>
    obtain ⟨hv, hrest⟩ := List.nodup_cons.mp hn
    have hset {kind : AstKind} : (set v.num v.data (t.metavars kind)).Perm
        ((v.num, v.data) :: t.metavars kind) := by
      apply set_perm
      intro hmem
      obtain ⟨p, hp, hpv⟩ := List.mem_map.mp hmem
      exact hm kind p hp (hpv ▸ List.mem_cons_self)
    have hmap (kind : AstKind) : ((t.appendMetavar v.kind v.data v.num).1.metavars kind).Perm
        (t.metavars kind ++ keyed kind [v]) := by
      show (Function.update t.metavars v.kind _ kind).Perm _
      by_cases hk : kind = v.kind
      · subst hk
        rw [Function.update_self]
        exact hset.trans (by simpa [keyed] using (List.perm_append_singleton _ _).symm)
      · rw [Function.update_of_ne hk]
        simp [keyed, Ne.symm hk]
    obtain ⟨hi, hmv, htw⟩ := ih (t := (t.appendMetavar v.kind v.data v.num).1) hrest
      (by
        intro kind p hp
        rcases List.mem_append.mp ((hmap kind).subset hp) with hp | hp
        · exact fun h => hm kind p hp (List.mem_cons_of_mem _ h)
        · have := mem_keyed_iff.mp (show (p.1, p.2) ∈ _ from hp)
          rw [List.mem_singleton] at this
          rw [← this] at hv
          exact hv)
      (fun p hp h => ht p hp (List.mem_cons_of_mem _ h))
    refine ⟨?_, ?_, htw⟩
    · rw [build, hi]
      show (t.input ++ _) ++ _ = t.input ++ (_ ++ _)
      rw [List.append_assoc]
      rfl
    · intro kind
      refine (hmv kind).trans (((hmap kind).append_right _).trans ?_)
      rw [List.append_assoc, ← keyed_append]
      rfl
  | tweast num inner rest _ ih =>
    obtain ⟨hv, hrest⟩ := List.nodup_cons.mp hn
    have hset : (set num (inner.build new) t.tweasts).Perm
        ((num, inner.build new) :: t.tweasts) := by
      apply set_perm
      intro hmem
      obtain ⟨p, hp, hpn⟩ := List.mem_map.mp hmem
      exact ht p hp (hpn ▸ List.mem_cons_self)
    obtain ⟨hi, hmv, htw⟩ := ih (t := (t.appendTweast (inner.build new) num).1) hrest
      (fun kind p hp h => hm kind p hp (List.mem_cons_of_mem _ h))
      (by
        intro p hp
        rcases List.mem_cons.mp (hset.subset hp) with rfl | hp
        · exact hv
        · exact fun h => ht p hp (List.mem_cons_of_mem _ h))
    refine ⟨?_, hmv, ?_⟩
    · rw [build, hi]
      show (t.input ++ _) ++ _ = t.input ++ (_ ++ _)
      rw [List.append_assoc]
      rfl
    · refine htw.trans ((hset.append_right _).trans ?_)
      exact List.perm_middle.symm

/-! ## Flattening -/

/-- Flattening the Tweast built keeps what it stands for. -/
def Flattens (s : Script) : Prop :=
  ∀ c, Numbered c s → Clean IsMetavar s.expand → c + s.moves < 2 ^ 32 →
    ∃ fl, IsFlat (flatten (s.build new) c).1 fl (c + s.moves) ∧
      Template.map Metavar.tree fl = s.expand ∧
      (flatten (s.build new) c).2.1 = c + s.moves ∧
      (∀ d ∈ (flatten (s.build new) c).2.2, Emptied d) ∧
      (flatten (s.build new) c).2.2.length = s.nested

/-- The first loop: `g` tells what the Tweast of each number has become. -/
theorem flattenAll_spec {l : List (Nat × Script)} (hk : (l.map Prod.fst).Nodup)
    (hs : ∀ p ∈ l, Flattens p.2) (hn : ∀ p ∈ l, Numbered c p.2)
    (hc : ∀ p ∈ l, Clean IsMetavar p.2.expand)
    (hm : c + (l.map fun p => p.2.moves).sum < 2 ^ 32) :
    ∃ g : Nat → Tweast × Template Char Metavar,
      (flattenAll (l.map fun p => (p.1, p.2.build new)) c).1 = l.map (fun p => (p.1, (g p.1).1)) ∧
      (∀ p ∈ l, IsFlat (g p.1).1 (g p.1).2 (c + (l.map fun p => p.2.moves).sum) ∧
        flatExpand (g p.1) = p.2.expand) ∧
      (flattenAll (l.map fun p => (p.1, p.2.build new)) c).2.1 =
        c + (l.map fun p => p.2.moves).sum ∧
      (∀ d ∈ (flattenAll (l.map fun p => (p.1, p.2.build new)) c).2.2, Emptied d) ∧
      (flattenAll (l.map fun p => (p.1, p.2.build new)) c).2.2.length =
        (l.map fun p => p.2.nested).sum := by
  induction l generalizing c with
  | nil => exact ⟨fun _ => (new, []), by simp [flattenAll]⟩
  | cons p l ih =>
    simp only [List.map_cons, List.sum_cons] at hm hk ⊢
    obtain ⟨hp, hl⟩ := List.nodup_cons.mp hk
    obtain ⟨fl, hfl, htree, hcount, hdel, hlen⟩ :=
      hs p List.mem_cons_self c (hn p List.mem_cons_self) (hc p List.mem_cons_self) (by omega)
    obtain ⟨g, hg, hflat, hcount', hdel', hlen'⟩ := ih (c := c + p.2.moves) hl
      (fun q hq => hs q (List.mem_cons_of_mem _ hq))
      (fun q hq => (hn q (List.mem_cons_of_mem _ hq)).mono (Nat.le_add_right _ _))
      (fun q hq => hc q (List.mem_cons_of_mem _ hq)) (by omega)
    have hother : ∀ q ∈ l,
        Function.update g p.1 ((flatten (p.2.build new) c).1, fl) q.1 = g q.1 := by
      intro q hq
      apply Function.update_of_ne
      intro heq
      exact hp (heq ▸ List.mem_map_of_mem hq)
    refine ⟨Function.update g p.1 ((flatten (p.2.build new) c).1, fl), ?_, ?_, ?_, ?_, ?_⟩
    · rw [flattenAll, hcount, hg, Function.update_self]
      refine congrArg (_ :: ·) (List.map_congr_left fun q hq => ?_)
      rw [hother q hq]
    · rw [List.forall_mem_cons, Function.update_self, ← Nat.add_assoc]
      refine ⟨⟨hfl.mono (by omega), htree⟩, ?_⟩
      intro q hq
      rw [hother q hq]
      exact hflat q hq
    · rw [flattenAll, hcount, hcount', Nat.add_assoc]
    · rw [flattenAll, hcount]
      intro d hd
      rcases List.mem_append.mp hd with hd | hd
      · exact hdel d hd
      · exact hdel' d hd
    · rw [flattenAll, hcount, List.length_append, hlen, hlen']

/-- A permutation of a list of images is the list of the images of a permutation. -/
theorem exists_perm_map {α β : Type} {f : α → β} {l : List β} {m : List α}
    (h : l.Perm (m.map f)) : ∃ m' : List α, m'.Perm m ∧ l = m'.map f := by
  induction m generalizing l with
  | nil => exact ⟨[], .refl _, h.eq_nil⟩
  | cons a m ih =>
    obtain ⟨l₁, l₂, rfl⟩ := List.append_of_mem (h.symm.subset List.mem_cons_self)
    obtain ⟨m', hm', heq⟩ := ih (List.perm_middle.symm.trans h).cons_inv
    obtain ⟨m₁, m₂, rfl, rfl, rfl⟩ := List.map_eq_append_iff.mp heq.symm
    exact ⟨m₁ ++ a :: m₂, List.perm_middle.trans (hm'.cons a), by simp⟩

/-- A slot, the Tweast which stands there being replaced with what it has become. -/
def slotWith (g : Nat → Tweast × Template Char Metavar) :
    Slot Script → Slot (Tweast × Template Char Metavar)
  | .tree v => .tree v
  | .tweast num _ => .tweast num (g num)

section SlotWith

variable {g : Nat → Tweast × Template Char Metavar}

theorem mark_slotWith (x : Slot Script) : (slotWith g x).mark = x.mark := by
  cases x <;> rfl

theorem num_slotWith (x : Slot Script) : (slotWith g x).num = x.num := by
  cases x <;> rfl

theorem filterMap_slotWith (l : List (Slot Script)) :
    (l.map (slotWith g)).filterMap Slot.tree? = l.filterMap Slot.tree? ∧
    (l.map (slotWith g)).filterMap Slot.tweast? =
      (l.filterMap Slot.tweast?).map fun p => (p.1, g p.1) := by
  induction l with
  | nil => exact ⟨rfl, rfl⟩
  | cons x l ih =>
    cases x with
    | tree v => exact ⟨congrArg (v :: ·) ih.1, ih.2⟩
    | tweast num inner => exact ⟨ih.1, congrArg ((num, g num) :: ·) ih.2⟩

end SlotWith

theorem flatten_eq (t : Tweast) (c : Nat) :
    flatten t c =
      let r := flattenAll t.tweasts c
      let f := r.1.foldl grab ⟨t.input, t.metavars, r.2.1, r.2.2⟩
      (mk f.input f.metavars [], f.count, f.deleted) := by
  cases t
  rfl

/-- The Tweasts below being flattened, those of this one are grabbed. -/
theorem flattens_of_subs (h : ∀ p ∈ s.subs, Flattens p.2) : Flattens s := by
  intro c hn hc hm
  obtain ⟨hinput, hmeta, htweasts⟩ :=
    build_spec (t := new) hn.nodup (fun _ p hp => absurd hp List.not_mem_nil)
      (fun p hp => absurd hp List.not_mem_nil)
  obtain ⟨l, hl, heq⟩ := exists_perm_map htweasts
  have hsubs : ∀ p ∈ s.subs, .tweast p.1 p.2 ∈ Template.holes s.slots := by
    intro p hp
    rw [subs_eq] at hp
    obtain ⟨x, hx, hxp⟩ := List.mem_filterMap.mp hp
    cases x with
    | tree v => cases hxp
    | tweast num inner =>
      cases hxp
      exact hx
  have hclean : ∀ p ∈ s.subs, Clean IsMetavar p.2.expand := by
    intro p hp
    obtain ⟨t₁, t₂, ht⟩ := List.append_of_mem (mem_holes_iff.mp (hsubs p hp))
    rw [expand_eq_fill, ht] at hc
    apply hc.of_infix
    exact ⟨fill (Slot.expand expand) t₁, fill (Slot.expand expand) t₂,
      by simp [fill, Slot.expand]⟩
  have hkeys : (s.subs.map Prod.fst).Nodup := hn.nodup.sublist s.subs_sublist
  have hmoves : s.moves = (l.map fun p => p.2.moves).sum +
      (l.map fun p => (Template.holes p.2.expand).length).sum := by
    rw [moves_eq, ← (hl.map _).sum_nat, List.sum_map_add]
  obtain ⟨g, hg, hflat, hcount, hdel, hlen⟩ := flattenAll_spec (l := l) (c := c)
    ((hl.map _).nodup_iff.mpr hkeys) (fun p hp => h p (hl.subset hp))
    (fun p hp => hn.inner p (hl.subset hp)) (fun p hp => hclean p (hl.subset hp)) (by omega)
  rw [← heq] at hg hcount hdel hlen
  have hexpand : fill (Slot.expand flatExpand) (Template.map (slotWith g) s.slots) = s.expand := by
    rw [expand_eq_fill, fill_map]
    apply fill_congr
    intro x hx
    cases x with
    | tree v => rfl
    | tweast num inner =>
      have hp : (num, inner) ∈ s.subs := by
        rw [subs_eq]
        exact List.mem_filterMap.mpr ⟨_, hx, rfl⟩
      exact (hflat _ (hl.symm.subset hp)).2
  have hstart : Grabbing (Template.map (slotWith g) s.slots) (l.map fun p => (p.1, (g p.1).1))
      ⟨(s.build new).input, (s.build new).metavars, c + (l.map fun p => p.2.moves).sum,
        (flattenAll (s.build new).tweasts c).2.2⟩ := by
    refine ⟨?_, ?_, ?_, ?_, ?_, ?_⟩
    · rw [render_map, funext mark_slotWith]
      exact hinput
    · intro kind
      rw [holes_map, (filterMap_slotWith _).1]
      exact hmeta kind
    · rw [holes_map, List.map_map, Function.comp_def, funext num_slotWith, ← own_eq]
      exact hn.nodup
    · intro x hx
      rw [holes_map] at hx
      obtain ⟨y, hy, rfl⟩ := List.mem_map.mp hx
      rw [num_slotWith]
      have hy : y.num ∈ s.own := by
        rw [own_eq]
        exact List.mem_map_of_mem hy
      exact (hn.lt _ hy).trans_le (Nat.le_add_right _ _)
    · rw [holes_map, (filterMap_slotWith _).2, ← subs_eq, List.map_map]
      exact hl.map _
    · intro n t fl hx
      rw [holes_map] at hx
      obtain ⟨y, hy, hyx⟩ := List.mem_map.mp hx
      cases y with
      | tree v => cases hyx
      | tweast num inner =>
        injection hyx with hnum hgn
        have hp : (num, inner) ∈ s.subs := by
          rw [subs_eq]
          exact List.mem_filterMap.mpr ⟨_, hy, rfl⟩
        have := (hflat _ (hl.symm.subset hp)).1
        rw [hgn] at this
        exact this
  have hsum : ((l.map fun p => (p.1, (g p.1).1)).map fun p => p.2.entries.length).sum =
      (l.map fun p => (Template.holes p.2.expand).length).sum := by
    rw [List.map_map]
    refine congrArg List.sum (List.map_congr_left fun p hp => ?_)
    obtain ⟨hpf, hpe⟩ := hflat p hp
    show (entries (g p.1).1).length = _
    rw [(entries_perm hpf.metavars).length_eq, ← hpe, flatExpand, holes_map, List.length_map]
  obtain ⟨T, ds, hT, hfill, hcountT, hdelT, hds, hlenT⟩ :=
    hstart.run (hexpand ▸ hc) (by rw [hsum]; show c + _ + _ < _; omega)
  obtain ⟨fl, hfl, htree⟩ := hT.isFlat
  have hend : (((l.map fun p => (p.1, (g p.1).1)).foldl grab
      ⟨(s.build new).input, (s.build new).metavars, c + (l.map fun p => p.2.moves).sum,
        (flattenAll (s.build new).tweasts c).2.2⟩).count) = c + s.moves := by
    rw [hcountT, hsum, hmoves, Nat.add_assoc]
  rw [hend] at hfl
  simp only [flatten_eq, hcount, hg]
  refine ⟨fl, hfl, htree.symm.trans (hfill.trans hexpand), hend, ?_, ?_⟩
  · intro d hd
    rw [hdelT] at hd
    rcases List.mem_append.mp hd with hd | hd
    · exact hdel d hd
    · exact hds d hd
  · show (((l.map fun p => (p.1, (g p.1).1)).foldl grab _).deleted).length = _
    rw [hdelT, List.length_append, hlen, hlenT, List.length_map, nested_eq,
      ← (hl.map _).sum_nat, List.sum_map_add]
    simp

theorem flattens (s : Script) : Flattens s := by
  have h : ∀ p ∈ s.subs, Flattens p.2 := by
    induction s with
    | nil => simp [subs]
    | text w rest ih => exact ih
    | metavar v rest ih => exact ih
    | tweast num inner rest ihi ih =>
      exact List.forall_mem_cons.mpr ⟨flattens_of_subs ihi, ih⟩
  exact flattens_of_subs h

end Script

end Tweast

end TigerCompiler
