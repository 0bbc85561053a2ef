import Mathlib.Data.List.Forall2
import TigerCompiler.Desugar.ForLoops
import TigerCompiler.Desugar.StringComparisons

/-!
# Constructs

A construct the pass copies is followed by its copy when its parts are, one lemma for each.  The
loops and the comparisons it rewrites are in modules of their own.
-/

namespace TigerCompiler.DesugarVisitor

open Reference (Val Lvalue Obj Cell Store Binding Env Interrupt Run Platform State exec)

variable {α W : Type}

variable {v : DesugarVisitor α} {P : Platform W} {call call' : Call α W} {n : Nat}
  {w w₁ : World} {s s' : State α W} {σ σ' : Store W} {ρ ρ' : Env α} {c : Kind} {a : α}

/-- What is equal on both sides. -/
theorem forall₂_eq {β : Type} {rs rs' : List β} (h : List.Forall₂ (fun r r' => r' = r) rs rs') :
    rs' = rs := by
  have hflip := List.Forall₂.flip h
  rwa [List.forall₂_eq_eq_eq] at hflip

/-! ## Collections -/

theorem follows_nil : Follows v P call call' n (.nil : Ast α (.list c)) := by
  intro w s s' hs
  exact side_ok .nil hs fun _ => ⟨rfl, rfl⟩

theorem follows_cons {x : Ast α c} {xs : Ast α (.list c)} (hx : Follows v P call call' n x)
    (hxs : Follows v P call call' n xs) : Follows v P call call' n (.cons x xs) := by
  intro w s s' hs
  apply Follows.bind hx hs
  intro w₁ hw₁ r r' s₁ s₁' hr hs₁ henv₁
  apply Follows.bind hxs hs₁
  intro w₂ hw₂ rs rs' s₂ s₂' hrs hs₂ henv₂
  exact side_ok (.cons (hr.later hw₂) hrs) hs₂ fun hk => env_trans (henv₁ hk) (henv₂ hk)

theorem follows_none : Follows v P call call' n (.none : Ast α (.opt c)) := by
  intro w s s' hs
  exact side_ok .none hs fun _ => ⟨rfl, rfl⟩

theorem follows_some {x : Ast α c} (h : Follows v P call call' n x) :
    Follows v P call call' n (.some x) := by
  apply Follows.map (u := .some x) h some id
  · intro s
    rw [exec]
  · intro s
    rw [visit, exec]
  · intro w r r' hr
    exact .some hr

/-! ## Variables -/

theorem follows_simpleVar {x : Symbol} (hclean : v.Clean (.simpleVar a x)) :
    Follows v P call call' n (.simpleVar a x) := by
  intro w s s' hs
  have hx : x ∉ [loName, hiName] := by simpa [cleanAt] using hclean.here
  rw [visit, exec, exec]
  cases hi : s.env.var x with
  | none => exact side_wrong
  | some i =>
    obtain ⟨l, hl, hinj⟩ := hs.env.var_eq_some hx hi
    rw [hl]
    exact side_ok hinj hs fun _ => ⟨rfl, rfl⟩

theorem follows_fieldVar {u : Ast α .var} {x : Symbol} (h : Follows v P call call' n u) :
    Follows v P call call' n (.fieldVar a u x) := by
  intro w s s' hs
  apply Follows.bind h hs
  intro w₁ hw₁ p p' s₁ s₁' hp hs₁ henv₁
  apply Together.bind (hs₁.read hp)
  rintro w₂ - r _ ⟨rfl, rfl, -⟩
  apply Together.bind side_toRef
  rintro w₃ - b _ ⟨rfl, rfl⟩
  exact side_ok rfl hs₁ henv₁

theorem follows_subscriptVar {u : Ast α .var} {i : Ast α .exp} (hu : Follows v P call call' n u)
    (hi : Follows v P call call' n i) : Follows v P call call' n (.subscriptVar a u i) := by
  intro w s s' hs
  rw [visit, exec, exec]
  apply Follows.bind hu hs
  intro w₁ hw₁ p p' s₁ s₁' hp hs₁ henv₁
  apply Together.bind (hs₁.read hp)
  rintro w₂ - r _ ⟨rfl, rfl, -⟩
  apply Together.bind side_toRef
  rintro w₃ - b _ ⟨rfl, rfl⟩
  apply Follows.bind hi hs₁
  intro w₄ hw₄ q _ s₂ s₂' hq hs₂ henv₂
  cases hq
  apply Together.bind side_toInt
  rintro w₅ - z _ ⟨rfl, rfl, -⟩
  exact side_ok rfl hs₂ fun _ => env_trans (henv₁ rfl) (henv₂ rfl)

theorem follows_ofVar {u : Ast α .var} (h : Follows v P call call' n u) :
    Follows v P call call' n (.ofVar u) := by
  intro w s s' hs
  apply Follows.bind h hs
  intro w₁ hw₁ p p' s₁ s₁' hp hs₁ henv₁
  apply Together.bind (hs₁.read hp)
  rintro w₂ - r _ ⟨rfl, rfl, -⟩
  exact side_ok rfl hs₁ henv₁

/-! ## Expressions -/

theorem follows_nilExp : Follows v P call call' n (.nilExp a) := by
  intro w s s' hs
  exact side_ok rfl hs fun _ => ⟨rfl, rfl⟩

theorem follows_intExp {i : Int} : Follows v P call call' n (.intExp a i) := by
  intro w s s' hs
  exact side_ok rfl hs fun _ => ⟨rfl, rfl⟩

theorem follows_stringExp {x : Str} : Follows v P call call' n (.stringExp a x) := by
  intro w s s' hs
  exact side_ok rfl hs fun _ => ⟨rfl, rfl⟩

theorem follows_callExp (hc : CallsRel v P call call') {x : Symbol} {args : Ast α (.list .exp)}
    (h : Follows v P call call' n args) : Follows v P call call' n (.callExp a x args) := by
  intro w s s' hs
  apply Follows.bind h hs
  intro w₁ hw₁ _ vs s₁ s₁' hvs hs₁ henv₁
  obtain rfl := forall₂_eq hvs
  apply (callName_side hc vs hs₁).imp
  intro w₂ _ p p' hp
  exact ⟨hp.meaning, hp.state, fun _ => env_trans (henv₁ rfl) (hp.env rfl)⟩

theorem follows_recordExp {t : Ast α .nameTy} {fs : Ast α (.list .fieldInit)}
    (h : Follows v P call call' n fs) : Follows v P call call' n (.recordExp a t fs) := by
  intro w s s' hs
  apply Follows.bind h hs
  intro w₁ hw₁ _ rs s₁ s₁' hrs hs₁ henv₁
  obtain rfl := forall₂_eq hrs
  obtain ⟨hb, hσ⟩ := hs₁.store.alloc (.record rs)
  exact side_ok hb ⟨hσ, hs₁.env⟩ henv₁

theorem follows_seqExp {es : Ast α (.list .exp)} (h : Follows v P call call' n es) :
    Follows v P call call' n (.seqExp a es) := by
  apply Follows.map (u := .seqExp a es) h (fun rs => rs.getLastD .unit) id
  · intro s
    rw [exec]
  · intro s
    rw [visit, exec]
  · intro w rs rs' hrs
    rw [forall₂_eq hrs]
    rfl

theorem follows_assignExp {u : Ast α .var} {e : Ast α .exp} (hu : Follows v P call call' n u)
    (he : Follows v P call call' n e) : Follows v P call call' n (.assignExp a u e) := by
  intro w s s' hs
  apply Follows.bind he hs
  intro w₁ hw₁ r _ s₁ s₁' hr hs₁ henv₁
  cases hr
  apply Follows.bind hu hs₁
  intro w₂ hw₂ p p' s₂ s₂' hp hs₂ henv₂
  apply Together.bind (hs₂.store.write hp)
  rintro w₃ - σ σ' ⟨hinj, hσ⟩
  refine side_ok rfl ⟨hσ, ?_⟩ fun _ => env_trans (henv₁ rfl) (henv₂ rfl)
  rw [hinj]
  exact hs₂.env

theorem follows_ifExp {test t e : Ast α .exp} (htest : Follows v P call call' n test)
    (ht : Follows v P call call' n t) (he : Follows v P call call' n e) :
    Follows v P call call' n (.ifExp a test t e) := by
  intro w s s' hs
  rw [visit, exec, exec]
  apply Follows.bind htest hs
  intro w₁ hw₁ r _ s₁ s₁' hr hs₁ henv₁
  cases hr
  apply Together.bind side_toInt
  rintro w₂ - _ z ⟨rfl, rfl, -⟩
  obtain ⟨h₁, h₁'⟩ := henv₁ rfl
  rw [← h₁, ← h₁']
  by_cases hz : z = 0
  · rw [if_neg (not_not_intro hz), if_neg (not_not_intro hz)]
    exact he hs₁
  · rw [if_pos hz, if_pos hz]
    exact ht hs₁

theorem follows_whileExp {test body : Ast α .exp} (htest : Follows v P call call' n test)
    (hbody : Follows v P call call' n body) :
    Follows v P call call' n (.whileExp a test body) := by
  intro w s s' hs
  rw [visit, exec, exec]
  exact whileLoop_side htest hbody n hs

/-- The variable of a loop has an initial value. -/
theorem follows_unset {b : α} {x : Symbol} {t : Ast α (.opt .nameTy)} {hi body : Ast α .exp} :
    Follows v P call call' n (.forExp a (.varDec b x t .none) hi body) := by
  intro w s s' hs
  exact side_wrong

theorem follows_breakExp : Follows v P call call' n (.breakExp a) := by
  intro w s s' hs
  exact .error (le_refl w) hs.store

theorem follows_letExp {cs : Ast α .chunkList} {b : Ast α .exp}
    (hcs : Follows v P call call' n cs) (hb : Follows v P call call' n b) :
    Follows v P call call' n (.letExp a cs b) := by
  intro w s s' hs
  apply Follows.bind hcs hs
  intro w₁ hw₁ _ _ s₁ s₁' _ hs₁ _
  apply Follows.bind hb hs₁
  intro w₂ hw₂ r r' s₂ s₂' hr hs₂ _
  exact side_ok hr (hs.restore (le_trans hw₁ hw₂) hs₂.store) fun _ => ⟨rfl, rfl⟩

theorem follows_arrayExp {t : Ast α .nameTy} {size init : Ast α .exp}
    (hsize : Follows v P call call' n size) (hinit : Follows v P call call' n init) :
    Follows v P call call' n (.arrayExp a t size init) := by
  intro w s s' hs
  rw [visit, exec, exec]
  apply Follows.bind hsize hs
  intro w₁ hw₁ z _ s₁ s₁' hz hs₁ henv₁
  cases hz
  apply Follows.bind hinit hs₁
  intro w₂ hw₂ r _ s₂ s₂' hr hs₂ henv₂
  cases hr
  apply Together.bind side_toInt
  rintro w₃ - _ z ⟨rfl, rfl, -⟩
  by_cases hz : 0 ≤ z.toInt
  · rw [if_pos hz, if_pos hz]
    obtain ⟨hb, hσ⟩ := hs₂.store.alloc (.array (List.replicate z.toNat r))
    exact side_ok hb ⟨hσ, hs₂.env⟩ fun _ => env_trans (henv₁ rfl) (henv₂ rfl)
  · rw [if_neg hz, if_neg hz]
    exact side_fail _

theorem follows_castExp {e : Ast α .exp} {t : Ast α .ty} (h : Follows v P call call' n e) :
    Follows v P call call' n (.castExp a e t) := by
  apply Follows.map (u := .castExp a e t) h id id
  · intro s
    rw [exec]
    rfl
  · intro s
    rw [visit, exec]
    rfl
  · intro w r r' hr
    exact hr

/-! ## Declarations -/

theorem follows_fieldInit {x : Symbol} {i : Ast α .exp} (h : Follows v P call call' n i) :
    Follows v P call call' n (.fieldInit a x i) := by
  apply Follows.map (u := .fieldInit a x i) h (fun r => (x, r)) id
  · intro s
    rw [exec]
  · intro s
    rw [visit, exec]
  · intro w r r' hr
    cases hr
    rfl

theorem follows_varDec {x : Symbol} {t : Ast α (.opt .nameTy)} {i : Ast α (.opt .exp)}
    (h : Follows v P call call' n i) : Follows v P call call' n (.varDec a x t i) := by
  intro w s s' hs
  apply Follows.bind h hs
  intro w₁ hw₁ r r' s₁ s₁' hr hs₁ _
  cases hr with
  | none => exact side_wrong
  | @some r r' hr =>
    cases hr
    exact .ok World.le_push ⟨trivial, hs₁.declare x _ _ rfl id, fun hk => Bool.noConfusion hk⟩

theorem follows_varChunk {ds : Ast α (.list .varDec)} (h : Follows v P call call' n ds) :
    Follows v P call call' n (.varChunk a ds) := by
  apply Follows.map (u := .varChunk a ds) h (fun _ => ()) id
  · intro s
    rw [exec]
  · intro s
    rw [visit, exec]
  · intro w _ _ _
    trivial

theorem follows_ofVarChunk {ch : Ast α .varChunk} (h : Follows v P call call' n ch) :
    Follows v P call call' n (.ofVarChunk ch) := by
  apply Follows.map (u := .ofVarChunk ch) h (fun _ => ()) id
  · intro s
    rw [exec]
  · intro s
    rw [visit, exec]
  · intro w _ _ _
    trivial

theorem follows_functionChunk {ds : Ast α (.list .functionDec)}
    (hclean : v.Clean (.functionChunk a ds)) : Follows v P call call' n (.functionChunk a ds) := by
  intro w s s' hs
  have hfuns : ∀ d ∈ ds.toList, v.Clean d := by
    intro d hd
    apply hclean.part
    simp [Ast.subterms, Ast.mem_subterms_of_mem hd]
  refine side_ok trivial ⟨hs.store, ?_⟩ fun hk => ?_
  · rw [toList_visit]
    exact .funs hfuns hs.env
  · cases hk

theorem follows_chunkList {cs : Ast α (.list .chunk)} (h : Follows v P call call' n cs) :
    Follows v P call call' n (.chunkList a cs) := by
  apply Follows.map (u := .chunkList a cs) h (fun _ => ()) id
  · intro s
    rw [exec]
  · intro s
    rw [visit, exec]
  · intro w _ _ _
    trivial

end TigerCompiler.DesugarVisitor
