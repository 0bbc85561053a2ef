import TigerCompiler.Parse.Tweast
import Mathlib.Data.List.Nodup
import Mathlib.Data.List.Perm.Basic

/-!
# Moving metavariables

A Tweast is described by a text with holes, the holes being its metavariables.  The numbers come
from one counter, so a number just handed out is none of those in the text: renaming by
`replace_first` renames the metavariable it is meant for, and grabbing a Tweast puts its text at
the place of its metavariable.
-/

namespace TigerCompiler

open Template MetavarMap

namespace Tweast

/-- A metavariable which stands for a tree. -/
structure Metavar where
  kind : AstKind
  num : Nat
  data : Addr
  deriving DecidableEq

/-- A metavariable, `δ` being what is known of the Tweasts. -/
inductive Slot (δ : Type) where
  | tree (v : Metavar)
  | tweast (num : Nat) (inner : δ)

/-- What stands for a metavariable in the input. -/
def Metavar.mark (v : Metavar) : Str := showKey v.kind.name v.num

/-- The tree of a metavariable. -/
def Metavar.tree (v : Metavar) : AstKind × Addr := (v.kind, v.data)

namespace Slot

variable {δ ε : Type}

def mark : Slot δ → Str
  | tree v => v.mark
  | tweast num _ => showKey tweastName num

def num : Slot δ → Nat
  | tree v => v.num
  | tweast num _ => num

/-- The trees and the text a slot stands for. -/
def expand (f : δ → Template Char (AstKind × Addr)) : Slot δ → Template Char (AstKind × Addr)
  | tree v => [.hole v.tree]
  | tweast _ inner => f inner

def tree? : Slot δ → Option Metavar
  | tree v => some v
  | tweast _ _ => none

def tweast? : Slot δ → Option (Nat × δ)
  | tree _ => none
  | tweast num inner => some (num, inner)

@[simp] theorem tree?_tree (v : Metavar) : (tree v : Slot δ).tree? = some v := rfl

@[simp] theorem tweast?_tree (v : Metavar) : (tree v : Slot δ).tweast? = none := rfl

end Slot

/-! ## Marks -/

/-- A metavariable goes from an underscore to a closing parenthesis. -/
theorem delimited : Delimited '_' ')' IsMetavar := by
  have hof {name s : Str} (hu : '_' ∉ name) (hp : ')' ∉ name) (h : IsMetavarOf name s) :
      ∃ w, s = '_' :: (w ++ [')']) ∧ '_' ∉ w ∧ ')' ∉ w := by
    obtain ⟨ds, -, hds, rfl⟩ := h
    refine ⟨name ++ '(' :: ds, by simp, ?_, ?_⟩
    · have : '_' ∉ ds := fun h => absurd (hds _ h) (by decide)
      simp [hu, this]
    · have : ')' ∉ ds := fun h => absurd (hds _ h) (by decide)
      simp [hp, this]
  refine ⟨by decide, ?_⟩
  rintro s (h | ⟨kind, h⟩)
  · exact hof (by decide) (by decide) h
  · cases kind
    all_goals exact hof (by decide) (by decide) h

theorem isMetavarOf_showKey (name : Str) (key : Nat) : IsMetavarOf name (showKey name key) :=
  ⟨_, Nat.toDigits_ne_nil, fun _ h => Nat.isDigit_of_mem_toDigits (by decide) (by decide) h, rfl⟩

theorem Metavar.isMetavar_mark (v : Metavar) : IsMetavar v.mark :=
  .inr ⟨v.kind, isMetavarOf_showKey _ _⟩

theorem Slot.isMetavar_mark {δ : Type} (x : Slot δ) : IsMetavar x.mark := by
  cases x with
  | tree v => exact v.isMetavar_mark
  | tweast num inner => exact .inl (isMetavarOf_showKey _ _)

/-- The name of a metavariable is told from its text. -/
theorem name_eq_of_isMetavarOf {name name' s : Str} (hn : '(' ∉ name) (hn' : '(' ∉ name')
    (h : IsMetavarOf name s) (h' : IsMetavarOf name' s) : name = name' := by
  obtain ⟨ds, -, -, rfl⟩ := h
  obtain ⟨ds', -, -, heq⟩ := h'
  injection heq with _ heq
  exact (eq_of_append_cons hn hn' heq).1

theorem AstKind.notMem_name (kind : AstKind) : '(' ∉ kind.name := by
  cases kind <;> decide

theorem kind_eq_of_isMetavarOf {kind kind' : AstKind} {s : Str} (h : IsMetavarOf kind.name s)
    (h' : IsMetavarOf kind'.name s) : kind = kind' := by
  have := name_eq_of_isMetavarOf (AstKind.notMem_name _) (AstKind.notMem_name _) h h'
  revert this
  cases kind <;> cases kind' <;> decide

theorem not_isMetavarOf_tweastName {kind : AstKind} {s : Str} (h : IsMetavarOf kind.name s) :
    ¬ IsMetavarOf tweastName s := by
  intro h'
  have := name_eq_of_isMetavarOf (AstKind.notMem_name _) (by decide) h h'
  revert this
  cases kind <;> decide

theorem showKey_inj {name name' : Str} {n n' : Nat} (hn : '(' ∉ name) (hn' : '(' ∉ name')
    (h : showKey name n = showKey name' n') : name = name' ∧ n = n' := by
  injection h with _ h
  obtain ⟨hname, hrest⟩ := eq_of_append_cons hn hn' h
  have hdigits : Nat.toDigits 10 n = Nat.toDigits 10 n' := List.append_cancel_right hrest
  refine ⟨hname, ?_⟩
  rw [← Nat.ofDigitChars_ten_toDigits (n := n), hdigits, Nat.ofDigitChars_ten_toDigits]

theorem Metavar.num_eq_of_mark_eq {v v' : Metavar} (h : v.mark = v'.mark) :
    v.kind = v'.kind ∧ v.num = v'.num := by
  have h' : IsMetavarOf v'.kind.name v.mark := h ▸ isMetavarOf_showKey _ _
  exact ⟨kind_eq_of_isMetavarOf (isMetavarOf_showKey _ _) h',
    (showKey_inj (AstKind.notMem_name _) (AstKind.notMem_name _) h).2⟩

theorem Slot.num_eq_of_mark_eq {δ : Type} {x y : Slot δ} (h : x.mark = y.mark) :
    x.num = y.num := by
  have hname (x : Slot δ) : ∃ name : Str, '(' ∉ name ∧ x.mark = showKey name x.num := by
    cases x with
    | tree v => exact ⟨_, AstKind.notMem_name v.kind, rfl⟩
    | tweast num inner => exact ⟨tweastName, by decide, rfl⟩
  obtain ⟨a, ha, hx⟩ := hname x
  obtain ⟨b, hb, hy⟩ := hname y
  rw [hx, hy] at h
  exact (showKey_inj ha hb h).2

/-- Metavariables of different numbers look different. -/
theorem nodup_marks {β : Type} {mark : β → Str} {num : β → Nat} {l : List β}
    (hinj : ∀ x y, mark x = mark y → num x = num y) (h : (l.map num).Nodup) :
    (l.map mark).Nodup := by
  rw [List.Nodup, List.pairwise_map] at h ⊢
  exact h.imp fun hne heq => hne (hinj _ _ heq)

/-! ## Renaming -/

/-- The entries of a map for the metavariables of its kind. -/
def keyed (kind : AstKind) (l : List Metavar) : List (Nat × Addr) :=
  (l.filter fun v => v.kind = kind).map fun v => (v.num, v.data)

/-- What `flatten` moves out of a Tweast, in the order in which it does. -/
def entries (t : Tweast) : List Metavar :=
  AstKind.all.flatMap fun kind => (t.metavars kind).map fun p => ⟨kind, p.1, p.2⟩

theorem keyed_append (kind : AstKind) (l l' : List Metavar) :
    keyed kind (l ++ l') = keyed kind l ++ keyed kind l' := by
  simp [keyed]

theorem keyed_perm {kind : AstKind} {l l' : List Metavar} (h : l.Perm l') :
    (keyed kind l).Perm (keyed kind l') :=
  (h.filter _).map _

theorem mem_keyed_iff {kind : AstKind} {l : List Metavar} {n : Nat} {a : Addr} :
    (n, a) ∈ keyed kind l ↔ ⟨kind, n, a⟩ ∈ l := by
  simp only [keyed, List.mem_map, List.mem_filter, decide_eq_true_eq, Prod.mk.injEq]
  constructor
  · rintro ⟨⟨k, m, b⟩, ⟨hv, rfl⟩, rfl, rfl⟩
    exact hv
  · intro h
    exact ⟨_, ⟨h, rfl⟩, rfl, rfl⟩

/-- The entries of the four maps are the metavariables. -/
theorem entries_perm {t : Tweast} {l : List Metavar}
    (h : ∀ kind, (t.metavars kind).Perm (keyed kind l)) : t.entries.Perm l := by
  have hmap (kind : AstKind) :
      ((t.metavars kind).map fun p => Metavar.mk kind p.1 p.2).Perm
        (l.filter fun v => v.kind = kind) := by
    refine ((h kind).map _).trans (.of_eq ?_)
    rw [keyed, List.map_map]
    apply List.map_congr_left (g := id) _ |>.trans (List.map_id _)
    rintro ⟨k, n, a⟩ hv
    have : k = kind := by simpa using (List.mem_filter.mp hv).2
    rw [← this]
    rfl
  refine (List.Perm.flatMap_left _ fun kind _ => hmap kind).trans ?_
  rw [List.perm_iff_count]
  intro v
  have hcount (kind : AstKind) :
      (l.filter fun v => v.kind = kind).count v = if v.kind = kind then l.count v else 0 := by
    by_cases hv : v.kind = kind
    · rw [if_pos hv, List.count_filter (by simpa using hv)]
    · rw [if_neg hv, List.count_eq_zero]
      intro hmem
      exact hv (by simpa using (List.mem_filter.mp hmem).2)
  simp only [AstKind.all, List.flatMap_cons, List.flatMap_nil, List.count_append,
    List.append_nil, hcount]
  cases v.kind <;> simp

theorem foldl_moveMetavars (t : Tweast) (m : Moving) :
    AstKind.all.foldl (moveMetavars t) m =
      t.entries.foldl (fun m v => moveMetavar v.kind m (v.num, v.data)) m := by
  simp only [entries, List.foldl_flatMap, List.foldl_map]
  rfl

/-- The state of the renaming: `todo` is what is left in the maps of the Tweast, `done` what has
been moved, with its new number.  The numbers handed out begin at `c`. -/
structure Moved (base : AstKind → List (Nat × Addr)) (c : Nat) (todo : List Metavar)
    (m : Moving) (fl : Template Char Metavar) (done : List Metavar) : Prop where
  input : m.input = render Metavar.mark fl
  perm : (Template.holes fl).Perm (todo ++ done)
  nodup : ((Template.holes fl).map Metavar.num).Nodup
  old : ∀ v ∈ todo, v.num < c
  new : ∀ v ∈ done, c ≤ v.num ∧ v.num < m.count
  metavars : ∀ kind, (m.metavars kind).Perm (base kind ++ keyed kind done)
  count : m.count = c + done.length

theorem next_eq {n : Nat} (h : n + 1 < 2 ^ 32) : next n = n + 1 := Nat.mod_eq_of_lt h

section Moved

variable {base : AstKind → List (Nat × Addr)} {c : Nat} {todo done : List Metavar} {m : Moving}
  {fl : Template Char Metavar} {v : Metavar}

/-- The number handed out is new in every map. -/
theorem Moved.count_notMem (h : Moved base c todo m fl done)
    (hbase : ∀ kind, ∀ p ∈ base kind, p.1 < c) (kind : AstKind) :
    m.count ∉ (m.metavars kind).map Prod.fst := by
  intro hmem
  obtain ⟨⟨n, a⟩, hp, hn⟩ := List.mem_map.mp hmem
  have hcount := h.count
  rcases List.mem_append.mp ((h.metavars kind).subset hp) with hp | hp
  · have := hbase kind _ hp
    simp only at hn this
    omega
  · have := (h.new _ (mem_keyed_iff.mp hp)).2
    simp only at hn this
    omega

/-- One metavariable is renamed and nothing else changes. -/
theorem Moved.step (h : Moved base c (v :: todo) m fl done)
    (hc : Clean IsMetavar (Template.map Metavar.tree fl))
    (hbase : ∀ kind, ∀ p ∈ base kind, p.1 < c) (hm : m.count + 1 < 2 ^ 32) :
    ∃ fl', Moved base c todo (moveMetavar v.kind m (v.num, v.data)) fl'
      (done ++ [{ v with num := m.count }]) ∧
        Template.map Metavar.tree fl' = Template.map Metavar.tree fl := by
  have hcf : Clean IsMetavar fl := Clean.of_fill hc
  have hv : v ∈ Template.holes fl := h.perm.symm.subset (by simp)
  obtain ⟨fl₁, fl₂, rfl⟩ := List.append_of_mem (mem_holes_iff.mp hv)
  have hcount := h.count
  have hperm : (Template.holes fl₁ ++ Template.holes fl₂).Perm (todo ++ done) := by
    have := h.perm
    rw [holes_append, Template.holes] at this
    exact (List.perm_middle.symm.trans this).cons_inv
  have hnew : (Template.holes (fl₁ ++ .hole { v with num := m.count } :: fl₂)).Perm
      (todo ++ (done ++ [{ v with num := m.count }])) := by
    rw [holes_append, Template.holes, ← List.append_assoc]
    exact List.perm_middle.trans ((hperm.cons _).trans (List.perm_append_singleton _ _).symm)
  refine ⟨fl₁ ++ .hole { v with num := m.count } :: fl₂, ?_, by simp [Metavar.tree]⟩
  refine ⟨?_, hnew, ?_, ?_, ?_, ?_, ?_⟩
  · show replaceFirst m.input v.mark (showKey v.kind.name m.count) = _
    rw [h.input, replaceFirst_render delimited Metavar.isMetavar_mark hcf
      (nodup_marks (fun _ _ heq => (Metavar.num_eq_of_mark_eq heq).2) h.nodup)]
    rw [render_append]
    rfl
  · have hold : (((todo ++ done).map Metavar.num)).Nodup := by
      have := (h.perm.map Metavar.num).nodup_iff.mp h.nodup
      exact (List.nodup_cons.mp this).2
    rw [(hnew.map _).nodup_iff, ← List.append_assoc, List.map_append, List.nodup_append]
    refine ⟨hold, List.nodup_singleton _, ?_⟩
    intro a ha b hb hab
    obtain ⟨w, hw, rfl⟩ := List.mem_map.mp ha
    have hb : b = m.count := by simpa using hb
    rcases List.mem_append.mp hw with hw | hw
    · have := h.old w (List.mem_cons_of_mem _ hw)
      omega
    · have := (h.new w hw).2
      omega
  · exact fun w hw => h.old w (List.mem_cons_of_mem _ hw)
  · intro w hw
    show c ≤ w.num ∧ w.num < next m.count
    rw [next_eq hm]
    rcases List.mem_append.mp hw with hw | hw
    · have := h.new w hw
      omega
    · rw [List.mem_singleton.mp hw]
      show c ≤ m.count ∧ m.count < m.count + 1
      omega
  · intro kind
    rw [keyed_append]
    by_cases hk : kind = v.kind
    · subst hk
      have hset : (set m.count v.data (m.metavars v.kind)).Perm
          ((m.count, v.data) :: m.metavars v.kind) := set_perm (h.count_notMem hbase v.kind)
      have hlast : keyed v.kind [{ v with num := m.count }] = [(m.count, v.data)] := by
        simp [keyed]
      rw [hlast, ← List.append_assoc]
      show (Function.update m.metavars v.kind _ v.kind).Perm _
      rw [Function.update_self]
      exact hset.trans (((h.metavars _).cons _).trans (List.perm_append_singleton _ _).symm)
    · have hlast : keyed kind [{ v with num := m.count }] = [] := by
        simp [keyed, Ne.symm hk]
      rw [hlast, List.append_nil]
      show (Function.update m.metavars v.kind _ kind).Perm _
      rw [Function.update_of_ne hk]
      exact h.metavars kind
  · show next m.count = _
    rw [next_eq hm, hcount, List.length_append, List.length_singleton, Nat.add_assoc]

/-- All the metavariables are renamed. -/
theorem Moved.run (h : Moved base c todo m fl done)
    (hc : Clean IsMetavar (Template.map Metavar.tree fl))
    (hbase : ∀ kind, ∀ p ∈ base kind, p.1 < c) (hm : m.count + todo.length < 2 ^ 32) :
    ∃ fl' done', Moved base c []
      (todo.foldl (fun m v => moveMetavar v.kind m (v.num, v.data)) m) fl' done' ∧
        Template.map Metavar.tree fl' = Template.map Metavar.tree fl := by
  induction todo generalizing m fl done with
  | nil => exact ⟨fl, done, h, rfl⟩
  | cons v todo ih =>
    rw [List.length_cons] at hm
    obtain ⟨fl₁, h₁, hfl₁⟩ := h.step hc hbase (by omega)
    have hcount : (moveMetavar v.kind m (v.num, v.data)).count = m.count + 1 :=
      next_eq (by omega)
    obtain ⟨fl₂, done', h₂, hfl₂⟩ := ih h₁ (hfl₁ ▸ hc) (by omega)
    exact ⟨fl₂, done', h₂, hfl₂.trans hfl₁⟩

end Moved

/-! ## Grabbing -/

/-- A Tweast as `flatten` leaves it: its metavariables are those of the text `fl`, and no Tweast
is among them. -/
structure IsFlat (t : Tweast) (fl : Template Char Metavar) (count : Nat) : Prop where
  input : t.input = render Metavar.mark fl
  metavars : ∀ kind, (t.metavars kind).Perm (keyed kind (Template.holes fl))
  tweasts : t.tweasts = []
  nodup : ((Template.holes fl).map Metavar.num).Nodup
  lt : ∀ v ∈ Template.holes fl, v.num < count

theorem IsFlat.mono {t : Tweast} {fl : Template Char Metavar} {c c' : Nat} (h : IsFlat t fl c)
    (hc : c ≤ c') : IsFlat t fl c' :=
  { h with lt := fun v hv => (h.lt v hv).trans_le hc }

/-- All that a flat Tweast contains is moved, with numbers which are new. -/
theorem IsFlat.moved {t : Tweast} {fl : Template Char Metavar}
    {base : AstKind → List (Nat × Addr)} {c : Nat} (h : IsFlat t fl c)
    (hc : Clean IsMetavar (Template.map Metavar.tree fl))
    (hbase : ∀ kind, ∀ p ∈ base kind, p.1 < c) (hm : c + (Template.holes fl).length < 2 ^ 32) :
    ∃ fl' done, Moved base c [] (AstKind.all.foldl (moveMetavars t) ⟨base, t.input, c⟩) fl' done ∧
      Template.map Metavar.tree fl' = Template.map Metavar.tree fl := by
  have hperm := entries_perm h.metavars
  rw [foldl_moveMetavars]
  have hstart : Moved base c t.entries ⟨base, t.input, c⟩ fl [] := by
    refine ⟨h.input, ?_, h.nodup, ?_, ?_, ?_, rfl⟩
    · simpa using hperm.symm
    · exact fun v hv => h.lt v (hperm.subset hv)
    · exact fun v hv => absurd hv List.not_mem_nil
    · intro kind
      simp [keyed]
  exact hstart.run hc hbase (by simpa [hperm.length_eq] using hm)

/-- The Tweasts grabbed so far have given way to their texts; `todo` are the others, flattened. -/
structure Grabbing (T : Template Char (Slot (Tweast × Template Char Metavar)))
    (todo : List (Nat × Tweast)) (f : Flattening) : Prop where
  input : f.input = render Slot.mark T
  metavars : ∀ kind,
    (f.metavars kind).Perm (keyed kind ((Template.holes T).filterMap Slot.tree?))
  nodup : ((Template.holes T).map Slot.num).Nodup
  lt : ∀ x ∈ Template.holes T, x.num < f.count
  perm : todo.Perm (((Template.holes T).filterMap Slot.tweast?).map fun p => (p.1, p.2.1))
  flat : ∀ n t fl, .tweast n (t, fl) ∈ Template.holes T → IsFlat t fl f.count

/-- The trees and the text of a Tweast which is flat. -/
def flatExpand (p : Tweast × Template Char Metavar) : Template Char (AstKind × Addr) :=
  Template.map Metavar.tree p.2

section Grabbing

variable {T : Template Char (Slot (Tweast × Template Char Metavar))} {todo : List (Nat × Tweast)}
  {f : Flattening} {n : Nat} {t : Tweast}

/-- The Tweast whose turn it is has its metavariable in the text. -/
theorem Grabbing.exists_slot (h : Grabbing T ((n, t) :: todo) f) :
    ∃ fl, Slot.tweast n (t, fl) ∈ Template.holes T := by
  obtain ⟨p, hp, heq⟩ := List.mem_map.mp (h.perm.subset List.mem_cons_self)
  obtain ⟨x, hx, hxp⟩ := List.mem_filterMap.mp hp
  cases x with
  | tree v => cases hxp
  | tweast m inner =>
    cases hxp
    cases heq
    exact ⟨inner.2, hx⟩

theorem Grabbing.lt_count (h : Grabbing T todo f) (kind : AstKind) :
    ∀ p ∈ f.metavars kind, p.1 < f.count := by
  rintro ⟨m, a⟩ hp
  obtain ⟨x, hx, hxv⟩ := List.mem_filterMap.mp (mem_keyed_iff.mp ((h.metavars kind).subset hp))
  have := h.lt x hx
  cases x with
  | tree v =>
    cases hxv
    exact this
  | tweast m inner => cases hxv

/-- A Tweast gives way to its text, its metavariables having new numbers. -/
theorem Grabbing.step (h : Grabbing T ((n, t) :: todo) f)
    (hc : Clean IsMetavar (fill (Slot.expand flatExpand) T))
    (hm : f.count + t.entries.length < 2 ^ 32) :
    ∃ T', Grabbing T' todo (grab f (n, t)) ∧
      fill (Slot.expand flatExpand) T' = fill (Slot.expand flatExpand) T ∧
      (grab f (n, t)).count = f.count + t.entries.length := by
  have hcT : Clean IsMetavar T := Clean.of_fill hc
  obtain ⟨fl, hmem⟩ := h.exists_slot
  obtain ⟨T₁, T₂, rfl⟩ := List.append_of_mem (mem_holes_iff.mp hmem)
  have hfl := h.flat n t fl hmem
  have hlen := (entries_perm hfl.metavars).length_eq
  have hcfl : Clean IsMetavar (Template.map Metavar.tree fl) := by
    apply hc.of_infix
    exact ⟨fill (Slot.expand flatExpand) T₁, fill (Slot.expand flatExpand) T₂,
      by simp [fill, Slot.expand, flatExpand]⟩
  obtain ⟨fl', done, hmoved, htree⟩ := hfl.moved hcfl h.lt_count (by omega)
  have hdone : (Template.holes fl').Perm done := by simpa using hmoved.perm
  have hlen' : (Template.holes fl').length = (Template.holes fl).length := by
    have := congrArg (fun u => (Template.holes u).length) htree
    simpa using this
  have hcount := hmoved.count
  rw [← hdone.length_eq, hlen', ← hlen] at hcount
  have hholes :
      (Template.holes (T₁ ++ (Template.map Slot.tree fl' ++ T₂))).Perm
        ((Template.holes T₁ ++ Template.holes T₂) ++ (Template.holes fl').map Slot.tree) := by
    simp only [holes_append, holes_map, List.append_assoc]
    exact List.perm_append_comm.append_left _
  have hold : (Template.holes (T₁ ++ .hole (.tweast n (t, fl)) :: T₂)).Perm
      (.tweast n (t, fl) :: (Template.holes T₁ ++ Template.holes T₂)) := by
    rw [holes_append, Template.holes]
    exact List.perm_middle
  have hnew : ∀ v ∈ Template.holes fl',
      f.count ≤ v.num ∧ v.num < f.count + t.entries.length := by
    intro v hv
    have := hmoved.new v (hdone.subset hv)
    omega
  refine ⟨T₁ ++ (Template.map Slot.tree fl' ++ T₂), ⟨?_, ?_, ?_, ?_, ?_, ?_⟩, ?_, hcount⟩
  · show replaceFirst f.input (Slot.mark (.tweast n (t, fl))) _ = _
    rw [h.input, replaceFirst_render delimited Slot.isMetavar_mark hcT
      (nodup_marks (fun _ _ => Slot.num_eq_of_mark_eq) h.nodup), hmoved.input]
    rw [render_append, render_append, render_map]
    rfl
  · intro kind
    have hb := (h.metavars kind).trans (keyed_perm (hold.filterMap _))
    have hd : (keyed kind done).Perm (keyed kind (Template.holes fl')) := keyed_perm hdone.symm
    refine ((hmoved.metavars kind).trans (hb.append hd)).trans ?_
    rw [← keyed_append]
    refine keyed_perm (.trans ?_ (hholes.filterMap _).symm)
    show (List.filterMap Slot.tree? (Template.holes T₁ ++ Template.holes T₂) ++ _).Perm _
    simp [Function.comp_def]
  · have hn := (hold.map Slot.num).nodup_iff.mp h.nodup
    rw [(hholes.map Slot.num).nodup_iff, List.map_append, List.nodup_append]
    refine ⟨(List.nodup_cons.mp hn).2, ?_, ?_⟩
    · rw [List.map_map]
      exact hmoved.nodup
    · intro a ha b hb hab
      obtain ⟨x, hx, rfl⟩ := List.mem_map.mp ha
      rw [List.map_map] at hb
      obtain ⟨v, hv, rfl⟩ := List.mem_map.mp hb
      have hlt := h.lt x (hold.symm.subset (List.mem_cons_of_mem _ hx))
      have hge := (hnew v hv).1
      rw [hab] at hlt
      exact absurd hge (Nat.not_le.mpr hlt)
  · intro x hx
    show x.num < (AstKind.all.foldl (moveMetavars t) ⟨f.metavars, t.input, f.count⟩).count
    rw [hcount]
    rcases List.mem_append.mp (hholes.subset hx) with hx | hx
    · have := h.lt x (hold.symm.subset (List.mem_cons_of_mem _ hx))
      omega
    · obtain ⟨v, hv, rfl⟩ := List.mem_map.mp hx
      exact (hnew v hv).2
  · have hb := h.perm.trans ((hold.filterMap Slot.tweast?).map fun p => (p.1, p.2.1))
    refine hb.cons_inv.trans (.trans ?_ ((hholes.filterMap Slot.tweast?).map _).symm)
    simp [Function.comp_def]
  · intro k u ul hu
    have hle : f.count ≤ (grab f (n, t)).count := by
      show f.count ≤ (AstKind.all.foldl (moveMetavars t) ⟨f.metavars, t.input, f.count⟩).count
      omega
    rcases List.mem_append.mp (hholes.subset hu) with hu | hu
    · exact (h.flat k u ul (hold.symm.subset (List.mem_cons_of_mem _ hu))).mono hle
    · obtain ⟨v, -, hv⟩ := List.mem_map.mp hu
      cases hv
  · rw [fill_append, fill_append, fill_map, fill_append, fill]
    show fill _ T₁ ++ (Template.map Metavar.tree fl' ++ fill _ T₂) = _
    rw [htree]
    rfl

/-- What is deleted has nothing left. -/
theorem Grabbing.deleted (h : Grabbing T ((n, t) :: todo) f) :
    ∃ d, Emptied d ∧ (grab f (n, t)).deleted = f.deleted ++ [d] := by
  obtain ⟨fl, hmem⟩ := h.exists_slot
  refine ⟨_, ⟨fun _ => rfl, ?_⟩, rfl⟩
  exact (h.flat n t fl hmem).tweasts

/-- Once every Tweast has been grabbed. -/
theorem Grabbing.run (h : Grabbing T todo f)
    (hc : Clean IsMetavar (fill (Slot.expand flatExpand) T))
    (hm : f.count + (todo.map fun p => p.2.entries.length).sum < 2 ^ 32) :
    ∃ T' ds, Grabbing T' [] (todo.foldl grab f) ∧
      fill (Slot.expand flatExpand) T' = fill (Slot.expand flatExpand) T ∧
      (todo.foldl grab f).count = f.count + (todo.map fun p => p.2.entries.length).sum ∧
      (todo.foldl grab f).deleted = f.deleted ++ ds ∧ (∀ d ∈ ds, Emptied d) ∧
      ds.length = todo.length := by
  induction todo generalizing T f with
  | nil => exact ⟨T, [], h, rfl, rfl, (List.append_nil _).symm, by simp, rfl⟩
  | cons p todo ih =>
    obtain ⟨n, t⟩ := p
    simp only [List.map_cons, List.sum_cons] at hm ⊢
    obtain ⟨T₁, h₁, hfill₁, hcount₁⟩ := h.step hc (by omega)
    obtain ⟨d, hd, hdel⟩ := h.deleted
    obtain ⟨T', ds, h', hfill', hcount', hdel', hds, hlen⟩ := ih h₁ (hfill₁ ▸ hc) (by omega)
    refine ⟨T', d :: ds, h', hfill'.trans hfill₁, ?_, ?_, ?_, congrArg (· + 1) hlen⟩
    · rw [List.foldl_cons, hcount', hcount₁, Nat.add_assoc]
    · rw [List.foldl_cons, hdel', hdel, List.append_assoc, List.singleton_append]
    · intro e he
      rcases List.mem_cons.mp he with rfl | he
      · exact hd
      · exact hds e he

end Grabbing

/-- A text without metavariables for Tweasts. -/
theorem exists_map_tree {δ : Type} {T : Template Char (Slot δ)}
    (h : (Template.holes T).filterMap Slot.tweast? = []) : ∃ fl, T = Template.map Slot.tree fl := by
  induction T with
  | nil => exact ⟨[], rfl⟩
  | cons p T ih =>
    cases p with
    | chr c =>
      obtain ⟨fl, rfl⟩ := ih h
      exact ⟨.chr c :: fl, rfl⟩
    | hole x =>
      cases x with
      | tree v =>
        obtain ⟨fl, rfl⟩ := ih h
        exact ⟨.hole v :: fl, rfl⟩
      | tweast num inner => cases h

/-- When no Tweast is left the text is flat. -/
theorem Grabbing.isFlat {T : Template Char (Slot (Tweast × Template Char Metavar))}
    {f : Flattening} (h : Grabbing T [] f) :
    ∃ fl, IsFlat (Tweast.mk f.input f.metavars []) fl f.count ∧
      fill (Slot.expand flatExpand) T = Template.map Metavar.tree fl := by
  have hnil := List.map_eq_nil_iff.mp h.perm.symm.eq_nil
  obtain ⟨fl, rfl⟩ := exists_map_tree hnil
  refine ⟨fl, ⟨?_, ?_, rfl, ?_, ?_⟩, fill_map _ _ _⟩
  · exact h.input.trans (render_map _ _ _)
  · intro kind
    have := h.metavars kind
    rw [holes_map, List.filterMap_map] at this
    show (f.metavars kind).Perm _
    simpa [Function.comp_def] using this
  · have := h.nodup
    rw [holes_map, List.map_map] at this
    exact this
  · intro v hv
    apply h.lt (.tree v)
    rw [holes_map]
    exact List.mem_map_of_mem hv

end Tweast

end TigerCompiler
