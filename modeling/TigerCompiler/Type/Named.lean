import TigerCompiler.Type.Types
import Mathlib.Data.Finset.Card
import Mathlib.Logic.Relation

/-!
# Sound named types

`Named::sound` walks along `type_` until it comes to a type that is not a `Named`, or to a `Named`
it has been at.  In a finite set of `Named`s that leads nowhere else it comes to its end, and its
answer is whether `actual` does: a chain that is in a cycle never leaves it.
-/

namespace TigerCompiler

namespace TypeHeap

variable {h : TypeHeap} {S : Finset Addr} {a b c : Addr} {t : TypePtr} {n : Nat}
  {prev : List Addr}

/-- The `type_` of every `Named` of the set is set, and is one of the set if it is a `Named`. -/
def NamedIn (h : TypeHeap) (S : Finset Addr) : Prop :=
  ∀ a ∈ S, ∃ name t, h.nameds a = some (name, some t) ∧ ∀ b, t = .named b → b ∈ S

/-- The `type_` of the `Named` at `a` is the one at `b`. -/
def Next (h : TypeHeap) (a b : Addr) : Prop :=
  ∃ name, h.nameds a = some (name, some (.named b))

theorem Next.unique (hb : h.Next a b) (hc : h.Next a c) : b = c := by
  obtain ⟨name, hb⟩ := hb
  obtain ⟨name', hc⟩ := hc
  simp_all

theorem Next.resolves_iff (hb : h.Next a b) :
    Resolves h (.named a) t ↔ Resolves h (.named b) t := by
  obtain ⟨name, hb⟩ := hb
  constructor
  · intro hr
    cases hr with
    | actual ha => exact ha.elim
    | named ha ht =>
      rw [hb] at ha
      cases ha
      exact ht
  · exact .named hb

/-- What comes to an end is in no cycle. -/
theorem Resolves.not_cycle {u : TypePtr} (hr : Resolves h u t) (hu : u = .named a) :
    ¬ Relation.TransGen h.Next a a := by
  induction hr generalizing a with
  | actual ha =>
    subst hu
    exact ha.elim
  | @named d name u _ hd _ ih =>
    cases hu
    intro hcycle
    obtain ⟨b, hb, hback⟩ := Relation.TransGen.head'_iff.mp hcycle
    have hu : u = .named b := by
      obtain ⟨name', hb⟩ := hb
      rw [hd] at hb
      cases hb
      rfl
    exact ih hu (Relation.TransGen.tail' hback hb)

/-- The walk of `sound` comes to its end, with the answer. -/
theorem soundLoop_spec (hS : h.NamedIn S) (hc : c ∈ S) (hp : ∀ b ∈ prev, b ∈ S) (hn : prev.Nodup)
    (hback : ∀ b ∈ prev, Relation.ReflTransGen h.Next b c) (hcard : S.card < n + prev.length) :
    ∃ r, h.soundLoop n prev c = .ok r ∧ (r = true ↔ ∃ t, Resolves h (.named c) t) := by
  induction n generalizing prev c with
  | zero =>
    have hle : prev.length ≤ S.card := by
      rw [← List.toFinset_card_of_nodup hn]
      exact Finset.card_le_card fun b hb => hp b (List.mem_toFinset.mp hb)
    omega
  | succ n ih =>
    obtain ⟨name, t, hct, hmem⟩ := hS c hc
    cases t with
    | named b =>
      have hnext : h.Next c b := ⟨name, hct⟩
      simp only [soundLoop, hct]
      by_cases hb : b ∈ prev
      · have hcycle : Relation.TransGen h.Next c c :=
          Relation.TransGen.head' hnext (hback b hb)
        refine ⟨false, by rw [if_pos hb], iff_of_false nofun ?_⟩
        rintro ⟨t, ht⟩
        exact ht.not_cycle rfl hcycle
      · have hback' : ∀ d ∈ b :: prev, Relation.ReflTransGen h.Next d b :=
          List.forall_mem_cons.mpr ⟨.refl, fun d hd => (hback d hd).tail hnext⟩
        obtain ⟨r, hr, hiff⟩ := ih (hmem b rfl) (List.forall_mem_cons.mpr ⟨hmem b rfl, hp⟩)
          (List.nodup_cons.mpr ⟨hb, hn⟩) hback' (by simp only [List.length_cons]; omega)
        refine ⟨r, by rw [if_neg hb, hr], ?_⟩
        rw [hiff]
        exact exists_congr fun t => hnext.resolves_iff.symm
    | int | string | void | nil | record | array | function =>
      exact ⟨true, by simp [soundLoop, hct], iff_of_true rfl ⟨_, .named hct (.actual trivial)⟩⟩

/-- `actual` follows the chain for as long as it has fuel, or comes to the end of it. -/
theorem actual_spec (hS : h.NamedIn S) (ha : a ∈ S) :
    h.actual n (.named a) = .error .outOfFuel ∨
      ∃ t, h.actual n (.named a) = .ok t ∧ Resolves h (.named a) t := by
  induction n generalizing a with
  | zero => exact .inl rfl
  | succ n ih =>
    obtain ⟨name, t, hat, hmem⟩ := hS a ha
    simp only [actual, hat]
    cases t with
    | named b =>
      refine (ih (hmem b rfl)).imp_right ?_
      rintro ⟨t, ht, hr⟩
      exact ⟨t, ht, .named hat hr⟩
    | int | string | void | nil | record | array | function =>
      cases n with
      | zero => exact .inl rfl
      | succ n => exact .inr ⟨_, rfl, .named hat (.actual trivial)⟩

/-- **`sound` comes to its end on every `Named` of a finite set whose types are all set, and is
true exactly when the chain from it leaves the `Named`s, that is, when `actual` comes to its end:
it then returns the type at the end of the chain.** -/
theorem sound_decides (hS : h.NamedIn S) (ha : a ∈ S) :
    (∀ n > S.card, ∃ r, h.sound n a = .ok r ∧ (r = true ↔ ∃ t, Resolves h (.named a) t)) ∧
    ((∃ t, Resolves h (.named a) t) ↔ ∃ n, h.actual n (.named a) ≠ .error .outOfFuel) ∧
    ∀ t, Resolves h (.named a) t → IsActual t ∧ ∃ n₀, ∀ n ≥ n₀, h.actual n (.named a) = .ok t := by
  refine ⟨fun n hn => ?_, ⟨?_, ?_⟩, fun t ht => ⟨ht.isActual, ht.actual_eq⟩⟩
  · refine soundLoop_spec hS ha ?_ (List.nodup_singleton a) ?_ (Nat.lt_succ_of_lt hn)
    · intro b hb
      exact List.mem_singleton.mp hb ▸ ha
    · intro b hb
      exact List.mem_singleton.mp hb ▸ .refl
  · rintro ⟨t, ht⟩
    obtain ⟨n₀, hn⟩ := ht.actual_eq
    refine ⟨n₀, fun hfuel => ?_⟩
    rw [hn n₀ (Nat.le_refl n₀)] at hfuel
    cases hfuel
  · rintro ⟨n, hn⟩
    obtain ⟨t, -, ht⟩ := (actual_spec hS ha).resolve_left hn
    exact ⟨t, ht⟩

/-- `type a = b`, `type b = int`; `type c = d`, `type d = c`; `type e = c`. -/
def fiveNames : TypeHeap where
  nameds a := match a with
    | 1 => some ("a".toList, some (.named 2))
    | 2 => some ("b".toList, some .int)
    | 3 => some ("c".toList, some (.named 4))
    | 4 => some ("d".toList, some (.named 3))
    | 5 => some ("e".toList, some (.named 3))
    | _ => none

/-- `a` is sound, and `e`, that leads into the cycle of `c` and `d`, is not. -/
theorem fiveNames_sound :
    (∃ n₀, ∀ n ≥ n₀, fiveNames.actual n (.named 1) = .ok .int) ∧
      ¬ ∃ n, fiveNames.actual n (.named 5) ≠ .error .outOfFuel := by
  have hS : fiveNames.NamedIn {1, 2, 3, 4, 5} := by
    simp [NamedIn, fiveNames]
  obtain ⟨-, -, hactual⟩ := sound_decides (a := 1) hS (by decide)
  obtain ⟨hsound, hiff, -⟩ := sound_decides (a := 5) hS (by decide)
  refine ⟨(hactual .int (.named rfl (.named rfl (.actual trivial)))).2, ?_⟩
  obtain ⟨r, hr, hres⟩ := hsound 6 (by decide)
  have hfalse : r = false := by
    have h5 : fiveNames.sound 6 5 = .ok false := by decide
    rw [hr] at h5
    exact Except.ok.inj h5
  rw [← hiff, ← hres, hfalse]
  exact Bool.false_ne_true

end TypeHeap

end TigerCompiler
