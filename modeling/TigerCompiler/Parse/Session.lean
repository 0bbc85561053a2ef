import TigerCompiler.Parse.Expansion

/-!
# Building and flattening Tweasts

The Tweasts of a program are built side by side, one of them being inserted in another one at any
time, and `count_` is shared by all of them.  However they have been built, flattening one keeps
what it stands for.
-/

namespace TigerCompiler

open Template MetavarMap

namespace Tweast

namespace Script

/-- More insertions after those made. -/
def append : Script → Script → Script
  | nil, tail => tail
  | text w rest, tail => text w (rest.append tail)
  | metavar v rest, tail => metavar v (rest.append tail)
  | tweast num inner rest, tail => tweast num inner (rest.append tail)

/-- Something is inserted in a Tweast of the tree. -/
inductive Grows (tail : Script) : Script → Script → Prop
  | here (s : Script) : Grows tail s (s.append tail)
  | text {w : Str} {s s' : Script} : Grows tail s s' → Grows tail (text w s) (text w s')
  | metavar {v : Metavar} {s s' : Script} :
      Grows tail s s' → Grows tail (metavar v s) (metavar v s')
  | rest {n : Nat} {i s s' : Script} : Grows tail s s' → Grows tail (tweast n i s) (tweast n i s')
  | inner {n : Nat} {i i' s : Script} : Grows tail i i' → Grows tail (tweast n i s) (tweast n i' s)

end Script

open Script

/-- The Tweasts which no other one contains, after `n` numbers have been handed out. -/
inductive Session : Nat → List Script → Prop
  | start (n : Nat) : Session n []
  | make {n : Nat} {pool : List Script} : Session n pool → Session n (.nil :: pool)
  | perm {n : Nat} {pool pool' : List Script} :
      Session n pool → pool.Perm pool' → Session n pool'
  /-- A Tweast goes away, flattened and parsed for instance. -/
  | drop {n : Nat} {s : Script} {pool : List Script} : Session n (s :: pool) → Session n pool
  /-- Numbers are handed out elsewhere, or by `flatten`. -/
  | spend {n n' : Nat} {pool : List Script} : Session n pool → n ≤ n' → Session n' pool
  | text {n : Nat} {s s' : Script} {pool : List Script} (w : Str) :
      Session n (s :: pool) → Grows (.text w .nil) s s' → Session n (s' :: pool)
  | metavar {n : Nat} {s s' : Script} {pool : List Script} (kind : AstKind) (data : Addr) :
      Session n (s :: pool) → Grows (.metavar ⟨kind, n % 2 ^ 32, data⟩ .nil) s s' →
      Session (n + 1) (s' :: pool)
  | tweast {n : Nat} {s s' t : Script} {pool : List Script} :
      Session n (s :: t :: pool) → Grows (.tweast (n % 2 ^ 32) t .nil) s s' →
      Session (n + 1) (s' :: pool)

/-! ## Numbers -/

section Numbers

variable {s s' tail : Script} {n c : Nat}

theorem own_append (s tail : Script) : (s.append tail).own = s.own ++ tail.own := by
  induction s with
  | nil => rfl
  | text w rest ih => exact ih
  | metavar v rest ih => exact congrArg (v.num :: ·) ih
  | tweast num inner rest _ ih => exact congrArg (num :: ·) ih

theorem Script.Grows.own_subset (h : Grows tail s s') : ∀ k ∈ s'.own, k ∈ s.own ∨ k ∈ tail.own := by
  induction h with
  | here s =>
    rw [own_append]
    exact fun k hk => List.mem_append.mp hk
  | text _ ih => exact ih
  | metavar _ ih =>
    intro k hk
    rcases List.mem_cons.mp hk with rfl | hk
    · exact .inl List.mem_cons_self
    · exact (ih k hk).imp_left (List.mem_cons_of_mem _)
  | rest _ ih =>
    intro k hk
    rcases List.mem_cons.mp hk with rfl | hk
    · exact .inl List.mem_cons_self
    · exact (ih k hk).imp_left (List.mem_cons_of_mem _)
  | inner _ ih => exact fun k hk => .inl hk

/-- What is inserted with new numbers leaves the numbers different. -/
theorem Script.Grows.numbered (h : Grows tail s s') (hs : Numbered n s) (ht : Numbered c tail)
    (hc : n ≤ c) (hnew : ∀ k ∈ tail.own, n ≤ k) : Numbered c s' := by
  have hfresh {k : Nat} {r r' : Script} (hr : Grows tail r r') (hk : k < n) (hkr : k ∉ r.own) :
      k ∉ r'.own := by
    intro hmem
    rcases hr.own_subset k hmem with hmem | hmem
    · exact hkr hmem
    · exact absurd hk (Nat.not_lt.mpr (hnew k hmem))
  induction h with
  | here s =>
    clear hfresh
    induction s with
    | nil => exact ht
    | text w rest ih => exact ih hs
    | metavar v rest ih =>
      refine ⟨hs.1.trans_le hc, ?_, ih hs.2.2⟩
      rw [own_append, List.mem_append]
      rintro (hmem | hmem)
      · exact hs.2.1 hmem
      · exact absurd hs.1 (Nat.not_lt.mpr (hnew _ hmem))
    | tweast num inner rest _ ih =>
      refine ⟨hs.1.trans_le hc, ?_, hs.2.2.1.mono hc, ih hs.2.2.2⟩
      rw [own_append, List.mem_append]
      rintro (hmem | hmem)
      · exact hs.2.1 hmem
      · exact absurd hs.1 (Nat.not_lt.mpr (hnew _ hmem))
  | text _ ih => exact ih hs
  | metavar hg ih => exact ⟨hs.1.trans_le hc, hfresh hg hs.1 hs.2.1, ih hs.2.2⟩
  | rest hg ih =>
    exact ⟨hs.1.trans_le hc, hfresh hg hs.1 hs.2.1, hs.2.2.1.mono hc, ih hs.2.2.2⟩
  | inner _ ih => exact ⟨hs.1.trans_le hc, hs.2.1, ih hs.2.2.1, hs.2.2.2.mono hc⟩

/-- As long as `count_` has not gone round, the numbers of a Tweast are different. -/
theorem Session.numbered {pool : List Script} (h : Session n pool) (hn : n ≤ 2 ^ 32) :
    ∀ s ∈ pool, Numbered n s := by
  induction h with
  | start n => exact fun s hs => absurd hs List.not_mem_nil
  | make _ ih => exact List.forall_mem_cons.mpr ⟨trivial, ih hn⟩
  | perm _ hp ih => exact fun s hs => ih hn s (hp.symm.subset hs)
  | drop _ ih => exact (List.forall_mem_cons.mp (ih hn)).2
  | spend _ hle ih => exact fun s hs => (ih (hle.trans hn) s hs).mono hle
  | text w _ hg ih =>
    obtain ⟨hs, hpool⟩ := List.forall_mem_cons.mp (ih hn)
    refine List.forall_mem_cons.mpr ⟨hg.numbered hs trivial le_rfl ?_, hpool⟩
    exact fun k hk => absurd hk List.not_mem_nil
  | @metavar n s s' pool kind data _ hg ih =>
    obtain ⟨hs, hpool⟩ := List.forall_mem_cons.mp (ih (by omega))
    have hmod : n % 2 ^ 32 = n := Nat.mod_eq_of_lt hn
    rw [hmod] at hg
    refine List.forall_mem_cons.mpr ⟨hg.numbered hs ?_ (Nat.le_succ n) ?_, ?_⟩
    · exact ⟨Nat.lt_succ_self n, List.not_mem_nil, trivial⟩
    · exact fun k hk => (List.mem_singleton.mp hk).ge
    · exact fun s hs => (hpool s hs).mono (Nat.le_succ n)
  | @tweast n s s' t pool _ hg ih =>
    obtain ⟨hs, hpool⟩ := List.forall_mem_cons.mp (ih (by omega))
    obtain ⟨ht, hpool⟩ := List.forall_mem_cons.mp hpool
    have hmod : n % 2 ^ 32 = n := Nat.mod_eq_of_lt hn
    rw [hmod] at hg
    refine List.forall_mem_cons.mpr ⟨hg.numbered hs ?_ (Nat.le_succ n) ?_, ?_⟩
    · exact ⟨Nat.lt_succ_self n, List.not_mem_nil, ht.mono (Nat.le_succ n), trivial⟩
    · exact fun k hk => (List.mem_singleton.mp hk).ge
    · exact fun s hs => (hpool s hs).mono (Nat.le_succ n)

end Numbers

/-! ## What flattening leaves -/

/-- `t` and the Tweasts deleted are what is left of a Tweast built by the insertions `s`. -/
structure Flattened (s : Script) (t : Tweast) (deleted : List Tweast) : Prop where
  noTweast : ∀ m, IsMetavarOf tweastName m → ¬ m <:+: t.input
  isKey : ∀ kind m, IsMetavarOf (AstKind.name kind) m → m <:+: t.input →
    ∃ p ∈ t.metavars kind, m = showKey kind.name p.1
  once : ∀ kind, ∀ p ∈ t.metavars kind, ∃! a, ∃ b, t.input = a ++ (showKey kind.name p.1 ++ b)
  keys : ∀ kind, ((t.metavars kind).map Prod.fst).Nodup
  substitute : t.substitute = s.expand
  tweasts : t.tweasts = []
  emptied : ∀ d ∈ deleted, Emptied d
  length : deleted.length = s.nested

section Flat

variable {t : Tweast} {fl : Template Char Metavar} {c : Nat}

/-- What looks like a metavariable is one. -/
theorem IsFlat.exists_metavar (h : IsFlat t fl c) (hc : Clean IsMetavar fl) {m : Str}
    (hm : IsMetavar m) (hin : m <:+: t.input) : ∃ v ∈ Template.holes fl, m = v.mark := by
  obtain ⟨a, b, hab⟩ := hin
  rw [h.input, List.append_assoc] at hab
  obtain ⟨fl₁, v, fl₂, rfl, -, hv, -⟩ :=
    exists_hole delimited Metavar.isMetavar_mark hc hm hab.symm
  exact ⟨v, by simp [Template.holes], hv⟩

theorem IsFlat.mem_iff (h : IsFlat t fl c) {kind : AstKind} {p : Nat × Addr} :
    p ∈ t.metavars kind ↔ ⟨kind, p.1, p.2⟩ ∈ Template.holes fl :=
  (h.metavars kind).mem_iff.trans mem_keyed_iff

/-- The metavariable in front of a text is found. -/
theorem IsFlat.look_mark (h : IsFlat t fl c) {v : Metavar} (hv : v ∈ Template.holes fl) (r : Str) :
    look t.metavars (v.mark ++ r) = some (v.mark.length, v.tree) := by
  cases hl : look t.metavars (v.mark ++ r) with
  | none =>
    rw [look, List.findSome?_eq_none_iff] at hl
    have := List.findSome?_eq_none_iff.mp (hl v.kind (AstKind.mem_all _)) (v.num, v.data)
      (h.mem_iff.mpr hv)
    have hpre : (showKey v.kind.name v.num).isPrefixOf (v.mark ++ r) = true :=
      List.isPrefixOf_iff_prefix.mpr (List.prefix_append _ _)
    rw [if_pos hpre] at this
    cases this
  | some q =>
    obtain ⟨kind, -, hkind⟩ := List.exists_of_findSome?_eq_some hl
    obtain ⟨p, hp, hq⟩ := List.exists_of_findSome?_eq_some hkind
    split at hq
    · rename_i hpre
      obtain ⟨b, hb⟩ := List.isPrefixOf_iff_prefix.mp hpre
      let w : Metavar := ⟨kind, p.1, p.2⟩
      have hw : w ∈ Template.holes fl := h.mem_iff.mp hp
      have hmark : w.mark = v.mark :=
        mark_eq_of_prefix delimited w.isMetavar_mark v.isMetavar_mark hb
      have hwv : w = v :=
        List.inj_on_of_nodup_map h.nodup hw hv (Metavar.num_eq_of_mark_eq hmark).2
      rw [← Option.some.inj hq, ← hwv]
      rfl
    · cases hq

theorem look_some {metavars : AstKind → List (Nat × Addr)} {r : Str} {q : Nat × AstKind × Addr}
    (h : look metavars r = some q) : ∃ m b, r = m ++ b ∧ IsMetavar m := by
  obtain ⟨kind, -, hkind⟩ := List.exists_of_findSome?_eq_some h
  obtain ⟨p, -, hq⟩ := List.exists_of_findSome?_eq_some hkind
  split at hq
  · rename_i hpre
    obtain ⟨b, hb⟩ := List.isPrefixOf_iff_prefix.mp hpre
    exact ⟨_, b, hb.symm, (Metavar.mk kind p.1 p.2).isMetavar_mark⟩
  · cases hq

theorem IsFlat.flattened {s : Script} {deleted : List Tweast} (h : IsFlat t fl c)
    (hc : Clean IsMetavar s.expand) (htree : Template.map Metavar.tree fl = s.expand)
    (hd : ∀ d ∈ deleted, Emptied d) (hlen : deleted.length = s.nested) :
    Flattened s t deleted := by
  have hcf : Clean IsMetavar fl := by
    rw [← htree] at hc
    exact Clean.of_fill hc
  have hmarks : ((Template.holes fl).map Metavar.mark).Nodup :=
    nodup_marks (fun _ _ heq => (Metavar.num_eq_of_mark_eq heq).2) h.nodup
  refine ⟨?_, ?_, ?_, ?_, ?_, h.tweasts, hd, hlen⟩
  · intro m hm hin
    obtain ⟨v, -, rfl⟩ := h.exists_metavar hcf (.inl hm) hin
    exact not_isMetavarOf_tweastName (isMetavarOf_showKey _ _) hm
  · intro kind m hm hin
    obtain ⟨v, hv, rfl⟩ := h.exists_metavar hcf (.inr ⟨kind, hm⟩) hin
    have hk : v.kind = kind := kind_eq_of_isMetavarOf (isMetavarOf_showKey _ _) hm
    subst hk
    exact ⟨(v.num, v.data), h.mem_iff.mpr hv, rfl⟩
  · intro kind p hp
    obtain ⟨fl₁, fl₂, heq⟩ := List.append_of_mem (mem_holes_iff.mp (h.mem_iff.mp hp))
    refine ⟨render Metavar.mark fl₁, ⟨render Metavar.mark fl₂, ?_⟩, ?_⟩
    · rw [h.input, heq, render_append]
      rfl
    · rintro a ⟨b, hab⟩
      exact (render_left_unique delimited Metavar.isMetavar_mark hcf hmarks heq
        (h.input.symm.trans hab)).1
  · intro kind
    rw [((h.metavars kind).map _).nodup_iff, keyed, List.map_map]
    exact h.nodup.sublist (List.filter_sublist.map _)
  · rw [substitute, h.input, ← htree]
    exact read_render delimited Metavar.isMetavar_mark hcf (fun v hv r => h.look_mark hv r)
      fun _ _ hl => look_some hl

end Flat

/-- Flattening a Tweast keeps what it stands for, when the text it expands to has no metavariable
of its own and `count_` does not go round. -/
theorem flatten_keeps_expansion {n : Nat} {pool : List Script} {s : Script} (hs : Session n pool)
    (hmem : s ∈ pool) (hc : Clean IsMetavar s.expand) (hn : n + s.moves < 2 ^ 32) :
    Flattened s (flatten (s.build new) (n % 2 ^ 32)).1
      (flatten (s.build new) (n % 2 ^ 32)).2.2 := by
  have hnum : Numbered n s := hs.numbered (by omega) s hmem
  have hmod : n % 2 ^ 32 = n := Nat.mod_eq_of_lt (by omega)
  rw [hmod]
  obtain ⟨fl, hfl, htree, -, hd, hlen⟩ := s.flattens n hnum hc hn
  exact hfl.flattened hc htree hd hlen

/-- `1 + ` and a Tweast which holds a tree. -/
theorem flatten_keeps_nested :
    let s : Script := .text ['1', '+'] (.tweast 1 (.metavar ⟨.exp, 0, 7⟩ .nil) .nil)
    Flattened s (flatten (s.build new) (2 % 2 ^ 32)).1
      (flatten (s.build new) (2 % 2 ^ 32)).2.2 := by
  intro s
  have h₁ : Session 1 [.metavar ⟨.exp, 0, 7⟩ .nil] := .metavar .exp 7 (.make (.start 0)) (.here _)
  have h₂ : Session 1 [.text ['1', '+'] .nil, .metavar ⟨.exp, 0, 7⟩ .nil] :=
    .text ['1', '+'] (.make h₁) (.here _)
  have h₃ : Session 2 [s] := .tweast h₂ (.here _)
  exact flatten_keeps_expansion h₃ List.mem_cons_self (delimited.clean (by decide)) (by decide)

/-- Two texts which are no metavariables make one once they are put together, and `count_` gives
the same numbers again after `2 ^ 32` of them. -/
theorem flatten_loses_expansion :
    (¬ ∀ n pool s, Session n pool → s ∈ pool → n + s.moves < 2 ^ 32 →
      (∀ w ∈ s.texts, ∀ m, IsMetavar m → ¬ m <:+: w) →
      Flattened s (flatten (s.build new) (n % 2 ^ 32)).1
        (flatten (s.build new) (n % 2 ^ 32)).2.2) ∧
    (¬ ∀ n pool s, Session n pool → s ∈ pool → Clean IsMetavar s.expand →
      Flattened s (flatten (s.build new) (n % 2 ^ 32)).1
        (flatten (s.build new) (n % 2 ^ 32)).2.2) := by
  constructor
  · intro h
    have h₁ : Session 0 [.text ['(', '3', ')'] .nil] :=
      .text ['(', '3', ')'] (.make (.start 0)) (.here _)
    have h₂ : Session 0 [.text ['_', 'e', 'x', 'p'] .nil, .text ['(', '3', ')'] .nil] :=
      .text ['_', 'e', 'x', 'p'] (.make h₁) (.here _)
    have h₃ := Session.tweast h₂ (.here _)
    have htexts : ∀ w ∈ [['_', 'e', 'x', 'p'], ['(', '3', ')']], ∀ m, IsMetavar m →
        ¬ m <:+: w := by
      intro w hw m hm hin
      have hmem := delimited.mem hm
      rcases List.mem_pair.mp hw with rfl | rfl
      · exact absurd (hin.subset hmem.2) (by decide)
      · exact absurd (hin.subset hmem.1) (by decide)
    have hmetavar := isMetavarOf_showKey (AstKind.name .exp) 3
    have hkey := (h _ _ _ h₃ List.mem_cons_self (by decide) htexts).isKey .exp _ hmetavar
      ⟨[], [], rfl⟩
    obtain ⟨p, hp, -⟩ := hkey
    cases hp
  · intro h
    have h₁ : Session 1 [.metavar ⟨.exp, 0, 7⟩ .nil] :=
      .metavar .exp 7 (.make (.start 0)) (.here _)
    have hround : Session (2 ^ 32) [.metavar ⟨.exp, 0, 7⟩ .nil] := .spend h₁ (by decide)
    have h₂ := Session.metavar .exp 8 hround (.here _)
    have htree := h _ _ _ h₂ List.mem_cons_self (delimited.clean (by decide))
    obtain ⟨a, -, ha⟩ := htree.once .exp (0, 8) (by decide)
    have ha₁ := ha [] ⟨['_', 'e', 'x', 'p', '(', '0', ')'], rfl⟩
    have ha₂ := ha ['_', 'e', 'x', 'p', '(', '0', ')'] ⟨[], rfl⟩
    cases ha₁.trans ha₂.symm

end Tweast

end TigerCompiler
