import TigerCompiler.Parse.Grammar
import Mathlib.Data.List.SplitBy
import Mathlib.Data.List.Flatten
import Mathlib.Logic.Relation

/-!
# Declarations

The rules of `chunks`, `tychunk` and `functionChunk`, with their actions.  All three are recursive
on the right: the declarations are shifted one after the other, and the chunks are built from the
last declaration to the first.  Whether a declaration goes on with the chunk of the one before is a
conflict, which Bison settles by the precedences.
-/

namespace TigerCompiler

open Terminal

variable {α : Type}

/-- A declaration, as its rule leaves it. -/
inductive Dec (α : Type)
  | type (d : Ast α .typeDec)
  | function (d : Ast α .functionDec)
  | var (d : Ast α .varDec)

/-- A chunk, with its declarations. -/
inductive DecChunk (α : Type)
  | type (ds : List (Ast α .typeDec))
  | function (ds : List (Ast α .functionDec))
  | var (ds : List (Ast α .varDec))

/-- The declarations of a chunk. -/
def DecChunk.decs : DecChunk α → List (Dec α)
  | .type ds => ds.map .type
  | .function ds => ds.map .function
  | .var ds => ds.map .var

/-- The token a declaration starts with. -/
def Dec.first : Dec α → Terminal
  | .type _ => tokType
  | .function (.functionDec _ _ _ _ .none) => tokPrimitive
  | .function (.functionDec _ _ _ _ (.some _)) => tokFunction
  | .var _ => tokVar

namespace Declarations

/-! ## The parser -/

/-- The precedence declarations, from the lowest to the highest (`UMINUS` stands for no token). -/
def levels : List (List Terminal) :=
  [[tokAssign, tokThen, tokDo, tokOf], [tokElse], [tokOr], [tokAnd],
    [tokGe, tokLe, tokEq, tokNe, tokLt, tokGt], [tokPlus, tokMinus], [tokTimes, tokDivide], [],
    [tokChunks], [tokType], [tokFunction, tokPrimitive]]

/-- How Bison settles a conflict between a rule of a precedence and a token: whether it shifts. -/
def shifts (rule token : Terminal) : Bool :=
  levels.findIdx (·.contains rule) < levels.findIdx (·.contains token)

/-- A symbol of the stack with its semantic value. -/
inductive Value (α : Type)
  | tydec (d : Ast α .typeDec)
  | tychunk (ds : List (Ast α .typeDec))
  | funcdec (d : Ast α .functionDec)
  | functionChunk (ds : List (Ast α .functionDec))
  | vardec (ds : List (Ast α .varDec))
  | chunks (cs : List (DecChunk α))

/-- What a declaration is on the stack, once it has been shifted and reduced by its own rule. -/
def pushed : Dec α → Value α
  | .type d => .tydec d
  | .function d => .funcdec d
  | .var d => .vardec ([] ++ [d])

/-- The stack and the declarations that are left. -/
structure Config (α : Type) where
  stack : List (Value α)
  input : List (Dec α)

/-- The token the parser looks at, if it is that of a declaration. -/
def lookahead (input : List (Dec α)) : Option Terminal := input.head?.map Dec.first

/-- A declaration is shifted. -/
def shift (stack : List (Value α)) : List (Dec α) → Option (Config α)
  | d :: input => some ⟨pushed d :: stack, input⟩
  | [] => none

/-- One move.  `tydec` and `funcdec` are reduced, by the rules of precedence `CHUNKS`, unless the
token goes on with the chunk and its precedence says so. -/
def step : Config α → Option (Config α)
  | ⟨.tychunk ds :: .tydec d :: stack, input⟩ => some ⟨.tychunk (d :: ds) :: stack, input⟩
  | ⟨.functionChunk ds :: .funcdec d :: stack, input⟩ =>
    some ⟨.functionChunk (ds ++ [d]) :: stack, input⟩
  | ⟨.chunks cs :: .tychunk ds :: stack, input⟩ => some ⟨.chunks (.type ds :: cs) :: stack, input⟩
  | ⟨.chunks cs :: .functionChunk ds :: stack, input⟩ =>
    some ⟨.chunks (.function ds :: cs) :: stack, input⟩
  | ⟨.chunks cs :: .vardec ds :: stack, input⟩ => some ⟨.chunks (.var ds :: cs) :: stack, input⟩
  | ⟨.chunks _ :: _, _⟩ => none
  | ⟨.tydec d :: stack, input⟩ =>
    if (lookahead input).any fun t => t = tokType && shifts tokChunks t then
      shift (.tydec d :: stack) input
    else some ⟨.tychunk [d] :: stack, input⟩
  | ⟨.funcdec d :: stack, input⟩ =>
    if (lookahead input).any fun t => (t = tokFunction || t = tokPrimitive) && shifts tokChunks t
    then shift (.funcdec d :: stack) input
    else some ⟨.functionChunk ([] ++ [d]) :: stack, input⟩
  | ⟨stack, []⟩ => some ⟨.chunks [] :: stack, []⟩
  | ⟨stack, input⟩ => shift stack input

/-- What the declarations have been parsed as, at their end. -/
def accepted : Config α → Option (List (DecChunk α))
  | ⟨[.chunks cs], []⟩ => some cs
  | _ => none

/-- The moves of the parser up to the end of the declarations, fewer than `n`. -/
def run : Nat → Config α → Option (List (DecChunk α))
  | 0, _ => none
  | n + 1, c =>
    match step c with
    | some c' => run n c'
    | none => accepted c

/-! ## Source order -/

/-- Two declarations of one kind that make chunks of more than one. -/
def joined : Dec α → Dec α → Bool
  | .type _, .type _ => true
  | .function _, .function _ => true
  | _, _ => false

/-- The two chunks could be one. -/
def Mergeable : DecChunk α → DecChunk α → Prop
  | .type _, .type _ => True
  | .function _, .function _ => True
  | _, _ => False

/-- The chunks hold the declarations in their order, each run of types and each run of functions
in one chunk and each variable in its own. -/
structure SourceOrder (ds : List (Dec α)) (cs : List (DecChunk α)) : Prop where
  order : cs.flatMap DecChunk.decs = ds
  nonempty : ∀ c ∈ cs, c.decs ≠ []
  single : ∀ vs, .var vs ∈ cs → vs.length = 1
  maximal : cs.IsChain fun c c' => ¬ Mergeable c c'

/-- The parser comes to its end, with the chunks in source order. -/
def KeepsOrder (ds : List (Dec α)) : Prop :=
  ∃ n₀ cs, (∀ n ≥ n₀, run n ⟨[], ds⟩ = some cs) ∧ SourceOrder ds cs

/-! ## Runs of one kind -/

/-- Moves of the parser. -/
def Steps : Config α → Config α → Prop := Relation.ReflTransGen fun c c' => step c = some c'

theorem Steps.head {c c' c'' : Config α} (h : step c = some c') (h' : Steps c' c'') :
    Steps c c'' := Relation.ReflTransGen.head h h'

theorem Steps.tail {c c' c'' : Config α} (h : Steps c c') (h' : step c' = some c'') :
    Steps c c'' := Relation.ReflTransGen.tail h h'

theorem Steps.trans {c c' c'' : Config α} (h : Steps c c') (h' : Steps c' c'') : Steps c c'' :=
  Relation.ReflTransGen.trans h h'

/-- What is run is what the moves lead to. -/
theorem Steps.run_eq {c c' : Config α} (h : Steps c c') : ∃ k, ∀ n, run (n + k) c = run n c' := by
  induction h using Relation.ReflTransGen.head_induction_on with
  | refl => exact ⟨0, fun n => rfl⟩
  | head hstep _ ih =>
    obtain ⟨k, hk⟩ := ih
    refine ⟨k + 1, fun n => ?_⟩
    simp only [run, hstep]
    exact hk n

variable {stack : List (Value α)} {input : List (Dec α)}

/-- The types that follow a type go in its chunk. -/
theorem steps_types (d : Ast α .typeDec) (ds : List (Ast α .typeDec))
    (h : ∀ e ∈ input.head?, joined (.type d) e = false) :
    Steps ⟨.tydec d :: stack, ds.map .type ++ input⟩ ⟨.tychunk (d :: ds) :: stack, input⟩ := by
  induction ds generalizing d stack with
  | nil =>
    refine .head ?_ .refl
    cases input with
    | nil => rfl
    | cons e input =>
      have hne : e.first ≠ tokType := by
        have hj := h e rfl
        cases e with
        | type => cases hj
        | var => simp [Dec.first]
        | function d => cases d with | functionDec _ _ _ _ b => cases b <;> simp [Dec.first]
      simp [step, lookahead, hne]
  | cons e ds ih =>
    have hshift : step ⟨.tydec d :: stack, (e :: ds).map .type ++ input⟩ =
        some ⟨.tydec e :: .tydec d :: stack, ds.map .type ++ input⟩ := rfl
    have hnext (e' : Dec α) (he' : e' ∈ input.head?) : joined (.type e) e' = false := by
      have hj := h e' he'
      cases e' with
      | type => cases hj
      | var | function => rfl
    exact .head hshift ((ih e hnext).tail rfl)

/-- The functions that follow a function go in its chunk, from the last to the first. -/
theorem steps_functions (d : Ast α .functionDec) (ds : List (Ast α .functionDec))
    (h : ∀ e ∈ input.head?, joined (.function d) e = false) :
    Steps ⟨.funcdec d :: stack, ds.map .function ++ input⟩
      ⟨.functionChunk (d :: ds).reverse :: stack, input⟩ := by
  induction ds generalizing d stack with
  | nil =>
    refine .head ?_ .refl
    cases input with
    | nil => rfl
    | cons e input =>
      have hne : e.first ≠ tokFunction ∧ e.first ≠ tokPrimitive := by
        have hj := h e rfl
        cases e with
        | function => cases hj
        | var | type => simp [Dec.first]
      simp [step, lookahead, hne]
  | cons e ds ih =>
    have hshift : step ⟨.funcdec d :: stack, (e :: ds).map .function ++ input⟩ =
        some ⟨.funcdec e :: .funcdec d :: stack, ds.map .function ++ input⟩ := by
      cases e with
      | functionDec _ _ _ _ b => cases b <;> rfl
    have hnext (e' : Dec α) (he' : e' ∈ input.head?) : joined (.function e) e' = false := by
      have hj := h e' he'
      cases e' with
      | function => cases hj
      | var | type => rfl
    refine .head hshift ((ih e hnext).tail ?_)
    rw [List.reverse_cons (a := d)]
    rfl

/-! ## The chunk of a run -/

/-- What is built for a run of declarations of one kind. -/
def built : List (Dec α) → DecChunk α
  | .type d :: ds => .type (d :: ds.filterMap fun | .type d => some d | _ => none)
  | .function d :: ds =>
    .function (d :: ds.filterMap fun | .function d => some d | _ => none).reverse
  | .var d :: _ => .var [d]
  | [] => .var []

/-- A run of declarations that are joined is a run of types or of functions, or one variable. -/
theorem cases_of_isChain {g : List (Dec α)} (hne : g ≠ [])
    (hg : g.IsChain fun d e => joined d e) :
    (∃ d ds, g = (d :: ds).map .type) ∨ (∃ d ds, g = (d :: ds).map .function) ∨
      ∃ d, g = [.var d] := by
  induction g with
  | nil => exact absurd rfl hne
  | cons d g ih =>
    cases g with
    | nil =>
      cases d with
      | type d => exact .inl ⟨d, [], rfl⟩
      | function d => exact .inr (.inl ⟨d, [], rfl⟩)
      | var d => exact .inr (.inr ⟨d, rfl⟩)
    | cons e g =>
      rw [List.isChain_cons_cons] at hg
      obtain ⟨hj, hg⟩ := hg
      rcases ih (List.cons_ne_nil _ _) hg with ⟨e', es, heq⟩ | ⟨e', es, heq⟩ | ⟨e', heq⟩
      all_goals
        rw [heq]
        simp only [List.map_cons, List.cons.injEq] at heq
        obtain ⟨rfl, rfl⟩ := heq
        cases d <;> simp only [joined, Bool.false_eq_true] at hj
      · exact .inl ⟨_, _ :: _, rfl⟩
      · exact .inr (.inl ⟨_, _ :: _, rfl⟩)

@[simp] theorem built_types (d : Ast α .typeDec) (ds : List (Ast α .typeDec)) :
    built ((d :: ds).map .type) = .type (d :: ds) := by
  simp [built, List.filterMap_map]

@[simp] theorem built_functions (d : Ast α .functionDec) (ds : List (Ast α .functionDec)) :
    built ((d :: ds).map .function) = .function (d :: ds).reverse := by
  simp [built, List.filterMap_map]

/-- A symbol that stands for a chunk. -/
def chunkValue : DecChunk α → Value α
  | .type ds => .tychunk ds
  | .function ds => .functionChunk ds
  | .var ds => .vardec ds

/-- A place where a chunk may start. -/
def Fresh : List (Value α) → Prop
  | .tydec _ :: _ | .funcdec _ :: _ | .chunks _ :: _ => False
  | .tychunk _ :: .tydec _ :: _ | .functionChunk _ :: .funcdec _ :: _ => False
  | _ => True

theorem fresh_chunkValue (h : Fresh stack) (c : DecChunk α) : Fresh (chunkValue c :: stack) := by
  unfold chunkValue Fresh
  split <;> simp_all [Fresh] <;> grind [Fresh]

theorem step_of_fresh (h : Fresh stack) (d : Dec α) :
    step ⟨stack, d :: input⟩ = some ⟨pushed d :: stack, input⟩ := by
  unfold step
  split <;> simp_all [Fresh, shift]
  rename_i heq
  obtain ⟨rfl, rfl⟩ := heq
  rfl

theorem step_of_fresh_end (h : Fresh stack) :
    step ⟨stack, []⟩ = some ⟨.chunks [] :: stack, []⟩ := by
  unfold step
  split <;> simp_all [Fresh]

/-- A run of declarations is reduced to its chunk. -/
theorem steps_run {g : List (Dec α)} (hs : Fresh stack) (hne : g ≠ [])
    (hg : g.IsChain fun d e => joined d e)
    (hnext : ∀ d ∈ g.getLast?, ∀ e ∈ input.head?, joined d e = false) :
    Steps ⟨stack, g ++ input⟩ ⟨chunkValue (built g) :: stack, input⟩ := by
  rcases cases_of_isChain hne hg with ⟨d, ds, rfl⟩ | ⟨d, ds, rfl⟩ | ⟨d, rfl⟩
  · rw [built_types]
    refine .head (step_of_fresh hs _) (steps_types d ds fun e he => ?_)
    have hj := hnext (.type ((d :: ds).getLast (List.cons_ne_nil _ _))) (by
      rw [List.getLast?_map, List.getLast?_eq_getLast_of_ne_nil (List.cons_ne_nil _ _)]; rfl) e he
    cases e with
    | type => cases hj
    | var | function => rfl
  · rw [built_functions]
    refine .head (step_of_fresh hs _) (steps_functions d ds fun e he => ?_)
    have hj := hnext (.function ((d :: ds).getLast (List.cons_ne_nil _ _))) (by
      rw [List.getLast?_map, List.getLast?_eq_getLast_of_ne_nil (List.cons_ne_nil _ _)]; rfl) e he
    cases e with
    | function => cases hj
    | var | type => rfl
  · exact .head (step_of_fresh hs _) .refl

theorem step_chunks (cs : List (DecChunk α)) (c : DecChunk α) :
    step ⟨.chunks cs :: chunkValue c :: stack, input⟩ =
      some ⟨.chunks (c :: cs) :: stack, input⟩ := by
  cases c <;> rfl

/-- The runs of a sequence of declarations are reduced to their chunks. -/
theorem steps_runs {gs : List (List (Dec α))} (hs : Fresh stack) (hne : [] ∉ gs)
    (hg : ∀ g ∈ gs, g.IsChain fun d e => joined d e)
    (hgs : gs.IsChain fun g g' => ∃ h h', joined (g.getLast h) (g'.head h') = false) :
    Steps ⟨stack, gs.flatten⟩ ⟨.chunks (gs.map built) :: stack, []⟩ := by
  induction gs generalizing stack with
  | nil => exact .head (step_of_fresh_end hs) .refl
  | cons g gs ih =>
    have hg₀ : g ≠ [] := fun h => hne (h ▸ .head _)
    have hrest := ih (fresh_chunkValue hs (built g)) (fun h => hne (.tail _ h))
      (fun g' hg' => hg g' (.tail _ hg')) hgs.tail
    refine (steps_run hs hg₀ (hg g (.head _)) ?_).trans (hrest.tail (step_chunks _ _))
    intro d hd e he
    cases gs with
    | nil => cases he
    | cons g' gs =>
      rw [List.isChain_cons_cons] at hgs
      obtain ⟨⟨h, h', hj⟩, -⟩ := hgs
      rw [List.getLast?_eq_getLast_of_ne_nil h] at hd
      obtain rfl := Option.some.inj hd
      rw [List.flatten_cons, List.head?_append_of_ne_nil _ h', List.head?_eq_some_head h'] at he
      obtain rfl := Option.some.inj he
      exact hj

/-- **What the parser builds.** -/
theorem run_eq (ds : List (Dec α)) :
    ∃ n₀, ∀ n ≥ n₀, run n ⟨[], ds⟩ = some ((ds.splitBy joined).map built) := by
  obtain ⟨hflat, hne, hg, hgs⟩ := List.splitBy_eq_iff.mp (Eq.refl (ds.splitBy joined))
  have hfresh : Fresh (α := α) [] := trivial
  have hsteps := steps_runs hfresh hne hg hgs
  rw [← hflat] at hsteps
  obtain ⟨k, hk⟩ := hsteps.run_eq
  refine ⟨k + 1, fun n hn => ?_⟩
  obtain ⟨m, rfl⟩ : ∃ m, n = m + 1 + k := ⟨n - (k + 1), by omega⟩
  rw [hk]
  rfl

/-! ## Order and grouping -/

/-- A declaration of a function or of a primitive. -/
def IsFunction : Dec α → Prop
  | .function _ => True
  | _ => False

variable {g g' : List (Dec α)}

theorem length_decs_built (hne : g ≠ []) (hg : g.IsChain fun d e => joined d e) :
    (built g).decs.length = g.length := by
  rcases cases_of_isChain hne hg with ⟨d, ds, rfl⟩ | ⟨d, ds, rfl⟩ | ⟨d, rfl⟩
  · rw [built_types]
    rfl
  · rw [built_functions, DecChunk.decs, List.length_map, List.length_reverse, List.length_map]
  · rfl

/-- The declarations of a run are in their order, unless they are functions. -/
theorem decs_built_eq_iff (hne : g ≠ []) (hg : g.IsChain fun d e => joined d e) :
    (built g).decs = g ↔ ((∀ d ∈ g, IsFunction d) → g.reverse = g) := by
  rcases cases_of_isChain hne hg with ⟨d, ds, rfl⟩ | ⟨d, ds, rfl⟩ | ⟨d, rfl⟩
  · refine iff_of_true (by rw [built_types]; rfl) fun h => (h (.type d) (.head _)).elim
  · have hall : ∀ e ∈ (d :: ds).map Dec.function, IsFunction e :=
      List.forall_mem_map.mpr fun _ _ => trivial
    rw [built_functions, DecChunk.decs, List.map_reverse]
    exact ⟨fun h _ => h, fun h => h hall⟩
  · exact iff_of_true rfl fun h => (h (.var d) (.head _)).elim

/-- Chunks that could be one come of runs that would be joined. -/
theorem joined_of_mergeable (hne : g ≠ []) (hg : g.IsChain fun d e => joined d e) (hne' : g' ≠ [])
    (hg' : g'.IsChain fun d e => joined d e) (h : Mergeable (built g) (built g')) :
    joined (g.getLast hne) (g'.head hne') = true := by
  rcases cases_of_isChain hne hg with ⟨d, ds, rfl⟩ | ⟨d, ds, rfl⟩ | ⟨d, rfl⟩ <;>
    rcases cases_of_isChain hne' hg' with ⟨e, es, rfl⟩ | ⟨e, es, rfl⟩ | ⟨e, rfl⟩ <;>
    first
    | exact h.elim
    | (simp only [List.getLast_map, List.head_map]; rfl)

/-- The runs are joined and not empty, and no two of them follow each other that could be one. -/
theorem splitBy_joined (ds : List (Dec α)) :
    (∀ g ∈ ds.splitBy joined, g ≠ [] ∧ g.IsChain fun d e => joined d e) ∧
      (ds.splitBy joined).IsChain
        fun g g' => ∃ h h', joined (g.getLast h) (g'.head h') = false := by
  obtain ⟨-, hne, hg, hgs⟩ := List.splitBy_eq_iff.mp (Eq.refl (ds.splitBy joined))
  exact ⟨fun g h => ⟨fun he => hne (he ▸ h), hg g h⟩, hgs⟩

/-- The chunks are in source order as soon as each of them is. -/
theorem flatMap_decs_built_iff (ds : List (Dec α)) :
    ((ds.splitBy joined).map built).flatMap DecChunk.decs = ds ↔
      ∀ g ∈ ds.splitBy joined, (built g).decs = g := by
  obtain ⟨hruns, -⟩ := splitBy_joined ds
  have hlen : (ds.splitBy joined).map (List.length ∘ fun g => (built g).decs) =
      (ds.splitBy joined).map List.length :=
    List.map_congr_left fun g h => length_decs_built (hruns g h).1 (hruns g h).2
  have heq : (ds.splitBy joined).map (fun g => (built g).decs) = ds.splitBy joined ↔
      ((ds.splitBy joined).map fun g => (built g).decs).flatten = (ds.splitBy joined).flatten ∧
        ((ds.splitBy joined).map fun g => (built g).decs).map List.length =
          (ds.splitBy joined).map List.length := List.eq_iff_flatten_eq
  rw [List.map_map, List.flatten_splitBy, and_iff_left hlen] at heq
  rw [List.flatMap_map, List.flatMap_def, ← heq]
  constructor
  · intro h
    have hid : (ds.splitBy joined).map (fun g => (built g).decs) = (ds.splitBy joined).map id := by
      rw [List.map_id, h]
    exact List.map_inj_left.mp hid
  · intro h
    rw [List.map_congr_left (g := id) h, List.map_id]

/-- The chunks of the parser group the declarations as they should. -/
theorem sourceOrder_iff (ds : List (Dec α)) :
    SourceOrder ds ((ds.splitBy joined).map built) ↔
      ∀ g ∈ ds.splitBy joined, (built g).decs = g := by
  obtain ⟨hruns, hgs⟩ := splitBy_joined ds
  rw [← flatMap_decs_built_iff]
  refine ⟨fun h => h.order, fun h => ⟨h, ?_, ?_, ?_⟩⟩
  · rw [List.forall_mem_map]
    intro g hg he
    have hlen := length_decs_built (hruns g hg).1 (hruns g hg).2
    rw [he] at hlen
    exact (hruns g hg).1 (List.eq_nil_of_length_eq_zero hlen.symm)
  · intro vs hvs
    obtain ⟨g, hg, hb⟩ := List.mem_map.mp hvs
    rcases cases_of_isChain (hruns g hg).1 (hruns g hg).2 with
      ⟨d, es, rfl⟩ | ⟨d, es, rfl⟩ | ⟨d, rfl⟩
    · rw [built_types] at hb
      cases hb
    · rw [built_functions] at hb
      cases hb
    · cases hb
      rfl
  · rw [List.isChain_map]
    refine hgs.imp_of_mem_imp fun g g' hg hg' hj hm => ?_
    obtain ⟨hne, hne', hj⟩ := hj
    rw [joined_of_mergeable hne (hruns g hg).2 hne' (hruns g' hg').2 hm] at hj
    cases hj

/-- **The declarations keep their order exactly when each run of functions is its own reverse**,
which for different functions means that no two of them follow each other. -/
theorem keepsOrder_iff (ds : List (Dec α)) :
    KeepsOrder ds ↔ ∀ g ∈ ds.splitBy joined, (∀ d ∈ g, IsFunction d) → g.reverse = g := by
  obtain ⟨hruns, -⟩ := splitBy_joined ds
  obtain ⟨n₀, hrun⟩ := run_eq ds
  have hiff : SourceOrder ds ((ds.splitBy joined).map built) ↔
      ∀ g ∈ ds.splitBy joined, (∀ d ∈ g, IsFunction d) → g.reverse = g :=
    (sourceOrder_iff ds).trans
      (forall₂_congr fun g h => decs_built_eq_iff (hruns g h).1 (hruns g h).2)
  rw [← hiff]
  constructor
  · rintro ⟨n₁, cs, hcs, hs⟩
    have h₁ := hcs (n₀ + n₁) (by omega)
    rw [hrun (n₀ + n₁) (by omega)] at h₁
    exact Option.some.inj h₁ ▸ hs
  · exact fun h => ⟨n₀, _, hrun, h⟩

/-- `function f() = g()  function g() = f()`, with nodes that differ by their addresses. -/
def twoFunctions : List (Dec Addr) :=
  [.function (.functionDec 1 "f".toList (.varChunk 2 .nil) .none
      (.some (.callExp 3 "g".toList .nil))),
    .function (.functionDec 4 "g".toList (.varChunk 5 .nil) .none
      (.some (.callExp 6 "f".toList .nil)))]

/-- Two functions that follow each other change places. -/
theorem not_keepsOrder : ¬ ∀ ds : List (Dec Addr), KeepsOrder ds := by
  intro hall
  obtain ⟨n, cs, hcs, hs⟩ := hall twoFunctions
  obtain ⟨n₀, hrun⟩ := run_eq twoFunctions
  have h₁ := hcs (n₀ + n) (by omega)
  rw [hrun (n₀ + n) (by omega)] at h₁
  obtain rfl := Option.some.inj h₁
  have hdecs := (sourceOrder_iff _).mp hs twoFunctions (.head _)
  simp [twoFunctions, built, DecChunk.decs] at hdecs

end Declarations

end TigerCompiler
