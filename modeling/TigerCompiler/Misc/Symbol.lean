import TigerCompiler.Ast.Syntax
import Mathlib.Algebra.Ring.Nat
import Mathlib.Data.List.Basic
import Mathlib.Data.List.Induction
import Mathlib.Data.List.Nodup

/-!
# `misc::symbol`

The flyweights behind the identifiers: `misc::unique` keeps every string in one set, and a symbol
is the address of its string there.  `symbol::fresh` forges names out of a static counter and
never looks at that set, so a forged name is new as long as nobody has built it before.
-/

namespace TigerCompiler

/-- `misc::symbol::fresh(s)`, the static `counter_` being the argument. -/
def Symbol.fresh (s : Symbol) (counter : UInt32) : Symbol :=
  s ++ '_' :: Nat.toDigits 10 counter.toNat

namespace Symbol

/-- The last underscore of a fresh name is the one before the number. -/
theorem fresh_inj_both {s s' : Symbol} {n n' : UInt32} (h : s.fresh n = s'.fresh n') :
    s = s' ∧ n = n' := by
  have hd {n : UInt32} : ∀ c ∈ (Nat.toDigits 10 n.toNat).reverse, (c != '_') = true := by
    intro c hc
    rw [bne_iff_ne]
    rintro rfl
    exact Nat.underscore_not_in_toDigits (List.mem_reverse.mp hc)
  have hr := congrArg List.reverse h
  simp only [fresh, List.reverse_append, List.reverse_cons, List.append_assoc,
    List.singleton_append] at hr
  have hw := congrArg (List.dropWhile (· != '_')) hr
  have ht := congrArg (List.takeWhile (· != '_')) hr
  rw [List.dropWhile_append_of_pos hd, List.dropWhile_append_of_pos hd] at hw
  rw [List.takeWhile_append_of_pos hd, List.takeWhile_append_of_pos hd] at ht
  refine ⟨by simpa using hw, UInt32.toNat_inj.mp ?_⟩
  have hdigits : Nat.toDigits 10 n.toNat = Nat.toDigits 10 n'.toNat := by simpa using ht
  rw [← Nat.ofDigitChars_ten_toDigits (n := n.toNat), hdigits, Nat.ofDigitChars_ten_toDigits]

theorem fresh_inj {s s' : Symbol} {n n' : UInt32} (h : s.fresh n = s'.fresh n') : s = s' :=
  (fresh_inj_both h).1

theorem fresh_ne_self (s : Symbol) (n : UInt32) : s.fresh n ≠ s := by
  intro h
  have hl := congrArg List.length h
  simp [fresh] at hl

theorem fresh_not_isBuiltin (s : Symbol) (n : UInt32) : (s.fresh n).isBuiltin = false := by
  have h : ∀ w : Str, '_' ∉ w → s.fresh n ≠ w := by
    rintro w hw rfl
    exact hw (by simp [fresh])
  simp only [isBuiltin, Bool.or_eq_false_iff, decide_eq_false_iff_not]
  exact ⟨h _ (by decide), h _ (by decide)⟩

end Symbol

/-! ## The set of strings -/

/-- The static members behind `misc::symbol`: the strings of `object_set_instance`, in the order
of their insertion, and the `counter_` of `fresh`. -/
structure SymbolTable where
  objects : List Str := []
  counter : UInt32 := 0

/-- A symbol as it is in memory: the address `obj_` of its string, that is, its rank among the
strings inserted. -/
abbrev SymbolPtr := Nat

namespace SymbolTable

/-- `symbol(s)`: `object_set_instance().insert(s).first`. -/
def symbol (t : SymbolTable) (s : Str) : SymbolTable × SymbolPtr :=
  if s ∈ t.objects then (t, t.objects.idxOf s)
  else ({ t with objects := t.objects ++ [s] }, t.objects.length)

/-- `get`. -/
def get (t : SymbolTable) (p : SymbolPtr) : Str := t.objects.getD p []

/-- `symbol::fresh(s)`. -/
def fresh (t : SymbolTable) (p : SymbolPtr) : SymbolTable × SymbolPtr :=
  { t with counter := t.counter + 1 }.symbol (Symbol.fresh (t.get p) t.counter)

variable {t : SymbolTable}

@[simp] theorem counter_symbol (s : Str) : (t.symbol s).1.counter = t.counter := by
  rw [symbol]
  split <;> rfl

theorem objects_symbol (s : Str) : ∃ l, (t.symbol s).1.objects = t.objects ++ l := by
  rw [symbol]
  split
  · exact ⟨[], (List.append_nil _).symm⟩
  · exact ⟨[s], rfl⟩

theorem nodup_symbol (h : t.objects.Nodup) (s : Str) : (t.symbol s).1.objects.Nodup := by
  rw [symbol]
  split
  · exact h
  · rename_i hs
    rw [List.nodup_append]
    refine ⟨h, List.nodup_singleton s, ?_⟩
    rintro a ha b hb rfl
    exact hs (List.mem_singleton.mp hb ▸ ha)

/-- Inserting a string has nothing to do with the counter. -/
theorem symbol_counter (t : SymbolTable) (n : UInt32) (s : Str) :
    { t with counter := n }.symbol s = ({ (t.symbol s).1 with counter := n }, (t.symbol s).2) := by
  rw [symbol, symbol]
  split <;> rfl

/-- The symbol built from `s` is the address of `s`. -/
theorem getElem?_symbol (s : Str) : (t.symbol s).1.objects[(t.symbol s).2]? = some s := by
  rw [symbol]
  split
  · rename_i hs
    rw [List.getElem?_eq_some_iff]
    exact ⟨List.idxOf_lt_length_of_mem hs, List.getElem_idxOf _⟩
  · simp

end SymbolTable

/-! ## Histories -/

/-- One step of a history of symbols. -/
inductive SymbolOp
  /-- A symbol is constructed from a string. -/
  | construct (s : Str)
  /-- `symbol::fresh(s)` is called, on a symbol constructed from `s`. -/
  | fresh (s : Str)
  deriving DecidableEq

/-- The table after a history, and every symbol constructed or returned in it. -/
structure SymbolRun where
  table : SymbolTable := {}
  seen : List SymbolPtr := []

namespace SymbolRun

/-- `symbol(s)`. -/
def construct (r : SymbolRun) (s : Str) : SymbolRun :=
  ⟨(r.table.symbol s).1, (r.table.symbol s).2 :: r.seen⟩

/-- What `symbol::fresh(s)` returns. -/
def freshPtr (r : SymbolRun) (s : Str) : SymbolPtr :=
  ((r.construct s).table.fresh (r.table.symbol s).2).2

/-- One step. -/
def step (r : SymbolRun) : SymbolOp → SymbolRun
  | .construct s => r.construct s
  | .fresh s =>
    ⟨((r.construct s).table.fresh (r.table.symbol s).2).1, r.freshPtr s :: (r.construct s).seen⟩

/-- A whole history. -/
def run (h : List SymbolOp) : SymbolRun := h.foldl step {}

end SymbolRun

/-- Every symbol that `fresh` returns in a history differs from all those seen before. -/
def AllFresh (h : List SymbolOp) : Prop :=
  ∀ h₁ s h₂, h = h₁ ++ .fresh s :: h₂ →
    (SymbolRun.run h₁).freshPtr s ∉ ((SymbolRun.run h₁).construct s).seen

/-- The strings a history constructs symbols from. -/
def constructed : List SymbolOp → List Str
  | [] => []
  | .construct s :: h => s :: constructed h
  | .fresh s :: h => s :: constructed h

theorem constructed_append (h h' : List SymbolOp) :
    constructed (h ++ h') = constructed h ++ constructed h' := by
  induction h with
  | nil => rfl
  | cons op h ih => cases op <;> simp [constructed, ih]

/-- How often a history calls `fresh`. -/
def freshCalls : List SymbolOp → Nat
  | [] => 0
  | .construct _ :: h => freshCalls h
  | .fresh _ :: h => freshCalls h + 1

theorem freshCalls_append (h h' : List SymbolOp) :
    freshCalls (h ++ h') = freshCalls h + freshCalls h' := by
  induction h with
  | nil => simp [freshCalls]
  | cons op h ih =>
    cases op with
    | construct s => exact ih
    | fresh s =>
      simp only [List.cons_append, freshCalls, ih]
      omega

/-- The names `fresh` forges in a history, the counter being `n` before it. -/
def forged (n : Nat) : List SymbolOp → List Str
  | [] => []
  | .construct _ :: h => forged n h
  | .fresh s :: h => Symbol.fresh s (UInt32.ofNat n) :: forged (n + 1) h

theorem forged_append (n : Nat) (h h' : List SymbolOp) :
    forged n (h ++ h') = forged n h ++ forged (n + freshCalls h) h' := by
  induction h generalizing n with
  | nil => simp [forged, freshCalls]
  | cons op h ih =>
    cases op with
    | construct s => simp [forged, freshCalls, ih]
    | fresh s =>
      have hn : n + 1 + freshCalls h = n + (freshCalls h + 1) := by omega
      simp [forged, freshCalls, ih, hn]

/-- The forged names carry the numbers the counter runs through. -/
theorem exists_of_mem_forged {n : Nat} {h : List SymbolOp} {w : Str} (hw : w ∈ forged n h) :
    ∃ s i, n ≤ i ∧ i < n + freshCalls h ∧ w = Symbol.fresh s (UInt32.ofNat i) := by
  induction h generalizing n with
  | nil => cases hw
  | cons op h ih =>
    cases op with
    | construct s => exact ih hw
    | fresh s =>
      rw [freshCalls]
      rcases List.mem_cons.mp hw with rfl | hw
      · exact ⟨s, n, by omega, by omega, rfl⟩
      · obtain ⟨s', i, h₁, h₂, rfl⟩ := ih hw
        exact ⟨s', i, by omega, by omega, rfl⟩

namespace SymbolRun

/-- The symbols seen are those of the strings `seen`. -/
structure Sees (r : SymbolRun) (strings : Str → Prop) : Prop where
  nodup : r.table.objects.Nodup
  bounded : ∀ p ∈ r.seen, p < r.table.objects.length
  strings : ∀ w, (∃ p ∈ r.seen, r.table.objects[p]? = some w) ↔ strings w

variable {r : SymbolRun} {strings : Str → Prop}

/-- A symbol has been seen exactly when one of its string has. -/
theorem Sees.symbol_mem_iff (h : r.Sees strings) (w : Str) :
    (r.table.symbol w).2 ∈ r.seen ↔ strings w := by
  rw [← h.strings, SymbolTable.symbol]
  by_cases hw : w ∈ r.table.objects
  · rw [if_pos hw]
    have hlt := List.idxOf_lt_length_of_mem hw
    have hget : r.table.objects[r.table.objects.idxOf w]? = some w := by
      rw [List.getElem?_eq_getElem hlt, List.getElem_idxOf]
    constructor
    · exact fun hp => ⟨_, hp, hget⟩
    · rintro ⟨p, hp, hpw⟩
      have heq : p = r.table.objects.idxOf w :=
        (List.getElem?_inj (h.bounded p hp) h.nodup).mp (hpw.trans hget.symm)
      rw [← heq]
      exact hp
  · rw [if_neg hw]
    refine iff_of_false (fun hp => Nat.lt_irrefl _ (h.bounded _ hp)) ?_
    rintro ⟨p, _, hp⟩
    exact hw (List.mem_of_getElem? hp)

/-- Seeing one more symbol. -/
theorem Sees.see (h : r.Sees strings) (s : Str) (n : UInt32) :
    Sees ⟨{ (r.table.symbol s).1 with counter := n }, (r.table.symbol s).2 :: r.seen⟩
      (fun w => w = s ∨ strings w) := by
  obtain ⟨l, hl⟩ := SymbolTable.objects_symbol (t := r.table) s
  have hget := SymbolTable.getElem?_symbol (t := r.table) s
  have hold : ∀ p ∈ r.seen, (r.table.symbol s).1.objects[p]? = r.table.objects[p]? := by
    intro p hp
    rw [hl, List.getElem?_append_left (h.bounded p hp)]
  refine ⟨SymbolTable.nodup_symbol h.nodup s, ?_, fun w => ?_⟩
  · refine List.forall_mem_cons.mpr ⟨(List.getElem?_eq_some_iff.mp hget).1, fun p hp => ?_⟩
    have hp := h.bounded p hp
    show p < (r.table.symbol s).1.objects.length
    rw [hl, List.length_append]
    exact Nat.lt_of_lt_of_le hp (Nat.le_add_right ..)
  · show (∃ p ∈ (r.table.symbol s).2 :: r.seen, (r.table.symbol s).1.objects[p]? = some w) ↔ _
    rw [List.exists_mem_cons_iff, hget, Option.some.injEq, ← h.strings w]
    refine or_congr eq_comm (exists_congr fun p => and_congr_right fun hp => ?_)
    rw [hold p hp]

/-- What a call of `fresh` does: the name it forges carries the counter. -/
theorem fresh_step (r : SymbolRun) (s : Str) :
    r.freshPtr s = ((r.construct s).table.symbol (Symbol.fresh s r.table.counter)).2 ∧
    r.step (.fresh s) =
      ⟨{ ((r.construct s).table.symbol (Symbol.fresh s r.table.counter)).1 with
          counter := r.table.counter + 1 },
        ((r.construct s).table.symbol (Symbol.fresh s r.table.counter)).2 ::
          (r.construct s).seen⟩ := by
  have hget : (r.construct s).table.get (r.table.symbol s).2 = s := by
    show (r.table.symbol s).1.objects.getD (r.table.symbol s).2 [] = s
    rw [List.getD_eq_getElem?_getD, SymbolTable.getElem?_symbol]
    rfl
  have hcounter : (r.construct s).table.counter = r.table.counter := SymbolTable.counter_symbol s
  have hfresh : (r.construct s).table.fresh (r.table.symbol s).2 =
      ({ ((r.construct s).table.symbol (Symbol.fresh s r.table.counter)).1 with
          counter := r.table.counter + 1 },
        ((r.construct s).table.symbol (Symbol.fresh s r.table.counter)).2) := by
    rw [SymbolTable.fresh, hget, hcounter, SymbolTable.symbol_counter]
  refine ⟨?_, ?_⟩
  · rw [freshPtr, hfresh]
  · rw [step, freshPtr, hfresh]

/-- What a history leads to. -/
theorem run_sees (h : List SymbolOp) :
    (run h).Sees (fun w => w ∈ constructed h ∨ w ∈ forged 0 h) ∧
      (run h).table.counter = UInt32.ofNat (freshCalls h) := by
  induction h using List.reverseRecOn with
  | nil => exact ⟨⟨List.nodup_nil, nofun, fun w => by simp [run, constructed, forged]⟩, rfl⟩
  | append_singleton h op ih =>
    obtain ⟨hs, hc⟩ := ih
    have hrun : run (h ++ [op]) = (run h).step op := List.foldl_append ..
    rw [hrun]
    cases op with
    | construct s =>
      refine ⟨?_, ?_⟩
      · have hsee := hs.see s ((run h).table.symbol s).1.counter
        refine ⟨hsee.nodup, hsee.bounded, fun w => (hsee.strings w).trans ?_⟩
        simp only [constructed_append, forged_append, constructed, forged, List.mem_append,
          List.mem_singleton, List.not_mem_nil, or_false]
        tauto
      · rw [freshCalls_append]
        exact (SymbolTable.counter_symbol s).trans hc
    | fresh s =>
      obtain ⟨_, hstep⟩ := fresh_step (run h) s
      rw [hstep]
      refine ⟨?_, ?_⟩
      · have hsee := (hs.see s ((run h).table.symbol s).1.counter).see
          (Symbol.fresh s (run h).table.counter) ((run h).table.counter + 1)
        refine ⟨hsee.nodup, hsee.bounded, fun w => (hsee.strings w).trans ?_⟩
        simp only [constructed_append, forged_append, constructed, forged, List.mem_append,
          List.mem_singleton, Nat.zero_add, hc]
        tauto
      · rw [freshCalls_append]
        show (run h).table.counter + 1 = _
        rw [hc]
        exact (UInt32.ofNat_add _ 1).symm

end SymbolRun

/-- **Every forged name is fresh exactly when nobody builds it before it is forged.**  The names
forged before never get in the way. -/
theorem allFresh_iff {h : List SymbolOp} (hlt : freshCalls h < 2 ^ 32) :
    AllFresh h ↔ ∀ h₁ s h₂, h = h₁ ++ .fresh s :: h₂ →
      Symbol.fresh s (UInt32.ofNat (freshCalls h₁)) ∉ constructed h₁ := by
  refine forall₃_congr fun h₁ s h₂ => forall_congr' fun heq => not_congr ?_
  obtain ⟨hs, hc⟩ := SymbolRun.run_sees h₁
  have hsees : ((SymbolRun.run h₁).construct s).Sees _ :=
    hs.see s ((SymbolRun.run h₁).table.symbol s).1.counter
  rw [(SymbolRun.fresh_step _ s).1, hsees.symbol_mem_iff, hc]
  have hcalls : freshCalls h₁ < 2 ^ 32 := by
    rw [heq, freshCalls_append] at hlt
    omega
  have hforged : Symbol.fresh s (UInt32.ofNat (freshCalls h₁)) ∉ forged 0 h₁ := by
    intro hm
    obtain ⟨s', i, _, hi, he⟩ := exists_of_mem_forged hm
    have hi' : i < 2 ^ 32 := by omega
    have hn := congrArg UInt32.toNat (Symbol.fresh_inj_both he).2
    rw [UInt32.toNat_ofNat_of_lt' hcalls, UInt32.toNat_ofNat_of_lt' hi'] at hn
    omega
  have hself := Symbol.fresh_ne_self s (UInt32.ofNat (freshCalls h₁))
  tauto

/-- Symbols `a`, `a_0` out of `fresh`, then `b`. -/
theorem allFresh_construct_fresh_construct :
    AllFresh [.construct "a".toList, .fresh "a".toList, .construct "b".toList] := by
  refine (allFresh_iff (by decide)).mpr ?_
  intro h₁ s h₂ heq
  rcases h₁ with _ | ⟨op, _ | ⟨op', _ | ⟨op'', h₁⟩⟩⟩ <;> simp at heq
  obtain ⟨rfl, rfl, -⟩ := heq
  decide

/-- A program that uses `a_0` gets it again from `fresh`. -/
theorem not_allFresh : ¬ ∀ h : List SymbolOp, freshCalls h < 2 ^ 32 → AllFresh h := by
  intro h
  have hf := h [.construct "a_0".toList, .fresh "a".toList] (by decide)
  exact hf [.construct "a_0".toList] "a".toList [] rfl (by decide)

end TigerCompiler
