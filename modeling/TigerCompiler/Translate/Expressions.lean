import TigerCompiler.Translate.Calls

/-!
# Following expressions

How the machine follows the evaluation of each construct that leaves the current block only for
calls, where it follows the evaluation of its parts.
-/

namespace TigerCompiler

open Llvm (Value Op Instr Param Activation Config Reaches execute instrsOf)
open Semantics (Scalar Pointer Store Runtime Interrupt State Mode ownVars fail orFail ofTypes use
  useAll eval)

namespace Translator

variable {W : Type} {rt : Runtime W} {m : Annotated} {n : Nat}
  {escaped : Addr → Option (List Addr)} {program : Ast Addr .chunkList}
  {F s s' s₀ s₁ s₂ : Translator} {d : Ast Addr .functionDec}
  {a a' a₁ a₂ : Activation} {cs : List Activation} {env env' env₁ : Addr → Option Nat}
  {σ σ' σ₁ σ₂ : Store W} {f g k N N' b i : Nat} {v : Value} {w : Scalar} {op : Op} {x y : Addr}
  {c : Kind}

/-! ## Collections and members -/

theorem cons_followed {t : Ast Addr c} {ts : Ast Addr (.list c)}
    (ih : Followed rt m n program F k) : FollowedAt rt m n program F (k + 1) (.cons t ts) := by
  intro how mode s s' v d a act env σ cs hpart hv hF hm hp hact
  simp only [visit, bind_eq_ok, Prod.exists] at hv
  obtain ⟨v₁, s₁, h₁, v₂, s₂, h₂, hv⟩ := hv
  cases hv
  have hg₁ := visit_grows h₁
  have hg₂ := visit_grows h₂
  refine (ih t cs (hpart.part (Ast.mem_first rfl)) h₁ (hg₂.trans hF) hm hp hact).bind
    hg₁.count id ?_
  intro r₁ env₁ σ₁ a₁ hk₁ hr₁ hv₁
  refine (ih ts cs (hpart.part (Ast.mem_second rfl)) h₂ hF (hm.later hr₁.later hg₁.count)
    hr₁.poised (hr₁.later.act.trans hact)).bind hg₂.count id ?_
  intro r₂ env₂ σ₂ a₂ hk₂ hr₂ hv₂
  exact .ok (.refl hr₂.poised) (.cons (hv₁.later hr₂.later hg₂.count) hv₂) fun _ => rfl

theorem some_followed {t : Ast Addr c} (ih : Followed rt m n program F k) :
    FollowedAt rt m n program F (k + 1) (.some t) := by
  intro how mode s s' v d a act env σ cs hpart hv hF hm hp hact
  simp only [visit, bind_eq_ok, Prod.exists] at hv
  obtain ⟨v₁, s₁, h₁, hv⟩ := hv
  cases hv
  refine (ih t cs (hpart.part (Ast.mem_first rfl)) h₁ hF follows_accept hp hact).bind
    (visit_grows h₁).count id ?_
  intro r₁ env₁ σ₁ a₁ hk₁ hr₁ hv₁
  exact .ok (.refl hr₁.poised) (.some hv₁) fun _ => rfl

/-! ## Places -/

/-- The end of the visit of a place. -/
def place (how : How) (p : Value) (s : Translator) : Value × Translator :=
  match how with
  | .access => (p, s)
  | _ => ((s.create (.load p)).last, s.create (.load p))

theorem place_grows {how : How} {v' : Value} (h : place how v s = (v', s')) : Grows s s' := by
  cases how with
  | access =>
    cases h
    exact .refl s
  | accept | init =>
    cases h
    exact .create rfl

/-- A place is read, unless its pointer is what is wanted. -/
theorem finish_simulates (rt : Runtime W) (cs : List Activation) (σ : Store W) {how : How}
    {mode : Mode} {v' : Value} (hs : F.Sound) (hm : Follows F N a how mode)
    (hp : Poised F d s a env) (hplace : place how v s = (v', s')) (hF : Grows s' F)
    (hv : a.value v = some w ∧ Stable F a.fn s.count v) :
    Simulates rt F d cs s s' a env σ (c := .var) v' (Semantics.finish mode ⟨env, σ⟩ w) := by
  have hload (hF : Grows (s.create (.load v)) F) :
      Simulates rt F d cs s (s.create (.load v)) a env σ (c := .var) (s.create (.load v)).last
        (Semantics.load σ w >>= fun y => .ok (some y, ⟨env, σ⟩)) := by
    apply Simulates.of_ends ends_load
    rintro y ⟨q, rfl, hread⟩
    obtain ⟨a', hr, hg⟩ := hp.emit rt cs hF hs rfl (execute_load hv.1 hread)
    exact .ok hr hg fun _ => rfl
  cases how with
  | access =>
    cases hplace
    cases mode with
    | access =>
      refine .ok (.refl hp) ?_ fun _ => rfl
      rintro w' hw'
      cases hw'
      exact hv
    | accept | init | iterate => exact hm.elim
  | accept =>
    cases hplace
    cases mode with
    | accept => exact hload hF
    | access | init | iterate => exact hm.elim
  | init =>
    cases hplace
    cases mode with
    | init => exact hload hF
    | access | accept | iterate => exact hm.elim

theorem localAt_eq_ok {o : Option Addr} : s.localAt o = .ok v ↔
    ∃ f x, s.currentFunction = some f ∧ o = some x ∧ s.locals f x = some v := by
  unfold localAt
  constructor
  · intro h
    split at h
    · split at h
      · cases h
        exact ⟨_, _, ‹_›, rfl, ‹_›⟩
      · cases h
    · cases h
  · rintro ⟨f, x, hf, rfl, hl⟩
    simp [hf, hl]

theorem simpleVar_followed {name : Symbol} (T : Translated m n escaped program F) :
    FollowedAt rt m n program F (k + 1) (.simpleVar y name) := by
  intro how mode s s' v d a act env σ cs hpart hv hF hm hp hact
  have hplace : ∃ p, s.localAt (m.defs y) = .ok p ∧ place how p s = (v, s') := by
    cases how with
    | access | accept | init =>
      simp only [visit, bind_eq_ok] at hv
      obtain ⟨p, hp, hv⟩ := hv
      exact ⟨p, hp, Except.ok.inj hv⟩
  obtain ⟨p, hlocal, hplace⟩ := hplace
  obtain ⟨f, x, hf, hdef, hl⟩ := localAt_eq_ok.mp hlocal
  obtain rfl : a.fn = f := Option.some.inj (hp.current.symm.trans hf)
  apply Simulates.of_ends ends_orFail
  intro x' hx'
  obtain rfl : x = x' := Option.some.inj (hdef.symm.trans hx')
  apply Simulates.of_ends ends_orFail
  intro q hq
  obtain ⟨hs, w, hw, hcell⟩ := hp.value_of_local T hpart.function hl
  rw [hcell q hq] at hw
  exact finish_simulates rt cs σ T.sound hm hp hplace hF ⟨hw, hs⟩

/-- The index of a field, where there is one of that name. -/
theorem fieldIndex_eq_ok {fields : List (Symbol × TypePtr)} {name : Symbol} :
    fieldIndex fields name = .ok i ↔
      i = (fields.map Prod.fst).idxOf name ∧ i < fields.length := by
  unfold fieldIndex
  split
  · rename_i hlt
    constructor
    · intro h
      cases h
      exact ⟨rfl, hlt⟩
    · rintro ⟨rfl, -⟩
      rfl
  · rename_i hlt
    constructor
    · intro h
      cases h
    · rintro ⟨rfl, h⟩
      exact absurd h hlt

theorem fieldVar_followed {u : Ast Addr .var} {name : Symbol}
    (T : Translated m n escaped program F) (ih : Followed rt m n program F k) :
    FollowedAt rt m n program F (k + 1) (.fieldVar y u name) := by
  intro how mode s s' v d a act env σ cs hpart hv hF hm hp hact
  have hplace : ∃ p s₁ fields, visit m n u .accept s = .ok (p, s₁) ∧
      recordFields m n u.addr = .ok fields ∧
      place how (s₁.create (.structGep p (min ((fields.map Prod.fst).idxOf name)
        (fields.length - 1)))).last (s₁.create (.structGep p (min ((fields.map Prod.fst).idxOf name)
        (fields.length - 1)))) = (v, s') := by
    cases how with
    | access | accept | init =>
      simp only [visit, bind_eq_ok, Prod.exists] at hv
      obtain ⟨p, s₁, h₁, fields, hfields, hv⟩ := hv
      exact ⟨p, s₁, fields, h₁, hfields, Except.ok.inj hv⟩
  obtain ⟨p, s₁, fields, h₁, hfields, hplace⟩ := hplace
  have hF₂ := (place_grows hplace).trans hF
  have hg₁ := visit_grows h₁
  refine (ih u cs (hpart.part (Ast.mem_first rfl)) h₁ ((Grows.create rfl).trans hF₂)
    follows_accept hp hact).bind hg₁.count id ?_
  intro r₁ env₁ σ₁ a₁ hk₁ hr₁ hv₁
  refine .of_ends ends_ofTypes ?_
  intro index hindex
  rw [hfields, ok_bind, fieldIndex_eq_ok] at hindex
  obtain ⟨hindex, hlt⟩ := hindex
  rw [← hindex, Nat.min_eq_left (by omega)] at hplace hF₂
  refine .of_ends ends_use ?_
  rintro w rfl
  refine .of_ends ends_member ?_
  intro q hq
  obtain ⟨a₂, hr₂, hv₂⟩ := hr₁.poised.emit rt cs hF₂ T.sound rfl
    (execute_structGep (hv₁ w rfl).1 hq)
  apply Simulates.after hr₂ (Nat.le_succ _) (fun _ => rfl)
  have hm₂ := (hm.later hr₁.later hg₁.count).later hr₂.later (Nat.le_succ _)
  exact finish_simulates rt cs σ₁ T.sound hm₂ hr₂.poised hplace hF (hv₂ q rfl)

theorem subscriptVar_followed {u : Ast Addr .var} {e : Ast Addr .exp}
    (T : Translated m n escaped program F) (ih : Followed rt m n program F k) :
    FollowedAt rt m n program F (k + 1) (.subscriptVar y u e) := by
  intro how mode s s' v d a act env σ cs hpart hv hF hm hp hact
  have hplace : ∃ p s₁ i s₂, visit m n u .accept s = .ok (p, s₁) ∧
      visit m n e .accept s₁ = .ok (i, s₂) ∧
      place how (s₂.create (.gep p i)).last (s₂.create (.gep p i)) = (v, s') := by
    cases how with
    | access | accept | init =>
      simp only [visit, bind_eq_ok, Prod.exists] at hv
      obtain ⟨p, s₁, h₁, i, s₂, h₂, hv⟩ := hv
      exact ⟨p, s₁, i, s₂, h₁, h₂, Except.ok.inj hv⟩
  obtain ⟨p, s₁, i, s₂, h₁, h₂, hplace⟩ := hplace
  have hF₂ := (place_grows hplace).trans hF
  have hg₁ := visit_grows h₁
  have hg₂ := visit_grows h₂
  have hF₁ : Grows s₂ F := (Grows.create rfl).trans hF₂
  refine (ih u cs (hpart.part (Ast.mem_first rfl)) h₁ (hg₂.trans hF₁) follows_accept hp
    hact).bind hg₁.count id ?_
  intro r₁ env₁ σ₁ a₁ hk₁ hr₁ hv₁
  refine (ih e cs (hpart.part (Ast.mem_second rfl)) h₂ hF₁ follows_accept hr₁.poised
    (hr₁.later.act.trans hact)).bind hg₂.count id ?_
  intro r₂ env₂ σ₂ a₂ hk₂ hr₂ hv₂
  have hv₁ := hv₁.later hr₂.later hg₂.count
  refine .of_ends ends_use ?_
  rintro w rfl
  refine .of_ends ends_use ?_
  rintro w' rfl
  refine .of_ends ends_toInt ?_
  rintro j rfl
  refine .of_ends ends_member ?_
  intro q hq
  obtain ⟨a₃, hr₃, hv₃⟩ := hr₂.poised.emit rt cs hF₂ T.sound rfl
    (execute_gep (hv₁ w rfl).1 (hv₂ _ rfl).1 hq)
  apply Simulates.after hr₃ (Nat.le_succ _) (fun _ => rfl)
  have hm₃ := ((hm.later hr₁.later hg₁.count).later hr₂.later hg₂.count).later hr₃.later
    (Nat.le_succ _)
  exact finish_simulates rt cs σ₂ T.sound hm₃ hr₃.poised hplace hF (hv₃ q rfl)

theorem ofVar_followed {u : Ast Addr .var} (ih : Followed rt m n program F k) :
    FollowedAt rt m n program F (k + 1) (.ofVar u) := by
  intro how mode s s' v d a act env σ cs hpart hv hF hm hp hact
  simp only [visit, bind_eq_ok, Prod.exists] at hv
  obtain ⟨v₁, s₁, h₁, hv⟩ := hv
  cases hv
  refine (ih u cs (hpart.part (Ast.mem_first rfl)) h₁ hF follows_accept hp hact).bind
    (visit_grows h₁).count id ?_
  intro r₁ env₁ σ₁ a₁ hk₁ hr₁ hv₁
  exact .ok (.refl hr₁.poised) hv₁ fun _ => rfl

/-! ## Expressions -/

theorem opExp_followed {l r : Ast Addr .exp} {o : Oper} (T : Translated m n escaped program F)
    (ih : Followed rt m n program F k) :
    FollowedAt rt m n program F (k + 1) (.opExp y l o r) := by
  intro how mode s s' v d a act env σ cs hpart hv hF hm hp hact
  simp only [visit, bind_eq_ok, Prod.exists] at hv
  obtain ⟨v₁, s₁, h₁, v₂, s₂, h₂, hv⟩ := hv
  cases hv
  have hg₁ := visit_grows h₁
  have hg₂ := visit_grows h₂
  have hF₃ : Grows (s₂.create (.binary o v₁ v₂)) F := (Grows.create rfl).trans hF
  have hF₂ : Grows s₂ F := (Grows.create rfl).trans hF₃
  refine (ih l cs (hpart.part (Ast.mem_first rfl)) h₁ (hg₂.trans hF₂) follows_accept hp
    hact).bind hg₁.count id ?_
  intro r₁ env₁ σ₁ a₁ hk₁ hr₁ hv₁
  refine (ih r cs (hpart.part (Ast.mem_second rfl)) h₂ hF₂ follows_accept hr₁.poised
    (hr₁.later.act.trans hact)).bind hg₂.count id ?_
  intro r₂ env₂ σ₂ a₂ hk₂ hr₂ hv₂
  have hv₁ := hv₁.later hr₂.later hg₂.count
  refine .of_ends ends_use ?_
  rintro w₁ rfl
  refine .of_ends ends_use ?_
  rintro w₂ rfl
  refine .of_ends ends_evalOp ?_
  rintro w ⟨z, hz, hw⟩
  obtain ⟨a₃, hr₃, hv₃⟩ := hr₂.poised.emit rt cs hF₃ T.sound rfl
    (execute_binary (hv₁ w₁ rfl).1 (hv₂ w₂ rfl).1 hz)
  obtain ⟨a₄, hr₄, hv₄⟩ := hr₃.poised.emit rt cs hF T.sound rfl
    (execute_zextOrTrunc (hv₃ z rfl).1 hw)
  exact .ok (hr₃.trans hr₄ (Nat.le_succ _)) hv₄ fun _ => rfl

theorem forall₂_getLastD {α β : Type} {R : α → β → Prop} {vs : List α} {rs : List β} {v : α} {r : β}
    (h : List.Forall₂ R vs rs) (hd : R v r) : R (vs.getLastD v) (rs.getLastD r) := by
  induction h generalizing v r with
  | nil => exact hd
  | cons h _ ih =>
    rw [List.getLastD_cons, List.getLastD_cons]
    exact ih h

/-- The value of what has none to give. -/
theorem gives_zero : Gives F N a .exp (.int 0) (some (.int 0)) := by
  rintro w hw
  cases hw
  refine ⟨rfl, ?_⟩
  intro i hi
  cases hi

theorem seqExp_followed {es : Ast Addr (.list .exp)} (ih : Followed rt m n program F k) :
    FollowedAt rt m n program F (k + 1) (.seqExp y es) := by
  intro how mode s s' v d a act env σ cs hpart hv hF hm hp hact
  simp only [visit, bind_eq_ok, Prod.exists] at hv
  obtain ⟨vs, s₁, h₁, hv⟩ := hv
  cases hv
  refine (ih es cs (hpart.part (Ast.mem_first rfl)) h₁ hF follows_accept hp hact).bind
    (visit_grows h₁).count id ?_
  intro rs env₁ σ₁ a₁ hk₁ hr₁ hvs
  exact .ok (.refl hr₁.poised) (forall₂_getLastD hvs gives_zero) fun _ => rfl

theorem assignExp_followed {u : Ast Addr .var} {e : Ast Addr .exp}
    (T : Translated m n escaped program F) (ih : Followed rt m n program F k) :
    FollowedAt rt m n program F (k + 1) (.assignExp y u e) := by
  intro how mode s s' v d a act env σ cs hpart hv hF hm hp hact
  simp only [visit, bind_eq_ok, Prod.exists] at hv
  obtain ⟨v₁, s₁, h₁, v₂, s₂, h₂, hv⟩ := hv
  cases hv
  have hg₁ := visit_grows h₁
  have hg₂ := visit_grows h₂
  have hF₂ : Grows s₂ F := (Grows.create rfl).trans hF
  refine (ih e cs (hpart.part (Ast.mem_second rfl)) h₁ (hg₂.trans hF₂) follows_accept hp
    hact).bind hg₁.count id ?_
  intro r₁ env₁ σ₁ a₁ hk₁ hr₁ hv₁
  refine .of_ends ends_use ?_
  rintro w₁ rfl
  have hm₁ : Follows F s₁.count a₁ .access .access := trivial
  refine (ih u cs (hpart.part (Ast.mem_first rfl)) h₂ hF₂ hm₁ hr₁.poised
    (hr₁.later.act.trans hact)).bind hg₂.count id ?_
  intro r₂ env₂ σ₂ a₂ hk₂ hr₂ hv₂
  have hv₁ := hv₁.later hr₂.later hg₂.count
  refine .of_ends ends_use ?_
  rintro w₂ rfl
  refine .of_ends ends_store ?_
  rintro σ₃ ⟨p, rfl, hwrite⟩
  have hr₃ := hr₂.poised.execute rt cs hF T.sound rfl
    (execute_store (hv₁ w₁ rfl).1 (hv₂ _ rfl).1 hwrite)
  exact .ok hr₃ gives_zero fun _ => rfl

theorem letExp_followed {ds : Ast Addr .chunkList} {e : Ast Addr .exp}
    (T : Translated m n escaped program F) (ih : Followed rt m n program F k) :
    FollowedAt rt m n program F (k + 1) (.letExp y ds e) := by
  intro how mode s s' v d a act env σ cs hpart hv hF hm hp hact
  have hadds := visit_adds hv
  simp only [visit, bind_eq_ok, Prod.exists] at hv
  obtain ⟨v₁, s₁, h₁, h₂⟩ := hv
  have hg₁ := visit_grows h₁
  have hg₂ := visit_grows h₂
  refine Ends.bind (ih ds cs (hpart.part (Ast.mem_first rfl)) h₁ (hg₂.trans hF) follows_accept
    hp hact) ?_
  rintro ⟨r₁, env₁, σ₁⟩ ⟨-, a₁, hr₁, -⟩
  refine Ends.bind (ih e cs (hpart.part (Ast.mem_second rfl)) h₂ hF follows_accept hr₁.poised
    (hr₁.later.act.trans hact)) ?_
  rintro ⟨r₂, env₂, σ₂⟩ ⟨-, a₂, hr₂, hv₂⟩
  -- The variables of the `let` are forgotten.
  have hr := hr₁.trans hr₂ hg₁.count
  have hagree := (hp.toAgree.extends T.sound hadds.toExtends hF hpart.strict).later hr.later
  have hpoised : Poised F d s' a₂ env :=
    ⟨hagree, hr.poised.cursor, hr.poised.parent, hr.poised.rest⟩
  exact ⟨fun _ => rfl, a₂, ⟨hr.reaches, hr.later, hpoised⟩, hv₂⟩

theorem castExp_followed {e : Ast Addr .exp} {t : Ast Addr .ty}
    (T : Translated m n escaped program F) (ih : Followed rt m n program F k) :
    FollowedAt rt m n program F (k + 1) (.castExp y e t) := by
  intro how mode s s' v d a act env σ cs hpart hv hF hm hp hact
  simp only [visit, bind_eq_ok, Prod.exists] at hv
  obtain ⟨v₁, s₁, h₁, hv⟩ := hv
  cases hv
  have hF₁ : Grows s₁ F := (Grows.create rfl).trans hF
  refine (ih e cs (hpart.part (Ast.mem_first rfl)) h₁ hF₁ follows_accept hp hact).bind
    (visit_grows h₁).count id ?_
  intro r₁ env₁ σ₁ a₁ hk₁ hr₁ hv₁
  refine .of_ends ends_use ?_
  rintro w rfl
  obtain ⟨a₂, hr₂, hv₂⟩ := hr₁.poised.emit rt cs hF T.sound rfl (execute_cast (hv₁ w rfl).1).2
  exact .ok hr₂ hv₂ fun _ => rfl

/-! ## Calls, records and arrays -/

theorem ends_useAll {rs : List (Option Scalar)} : Ends Interrupt.IsFault
    (fun ws => rs = ws.map some) (useAll rs : Except (Interrupt W) (List Scalar)) := by
  induction rs with
  | nil => rfl
  | cons r rs ih =>
    apply ends_use.bind
    rintro w rfl
    apply ih.bind
    rintro ws rfl
    rfl

theorem mapM_of_gives {vs : List Value} {ws : List Scalar}
    (h : Gives F N a (.list .exp) vs (ws.map some)) : vs.mapM a.value = some ws := by
  induction ws generalizing vs with
  | nil =>
    cases h
    rfl
  | cons w ws ih =>
    cases h with
    | cons hv hvs =>
      rw [List.mapM_cons, (hv w rfl).1, ih hvs]
      rfl

/-- The pointers to the variables that a callee needs. -/
theorem mapM_localAt {vs : List Addr} {lifted : List Value} (T : Translated m n escaped program F)
    (hd : d ∈ program.functionDecs) (h : Agree F d s a env)
    (hl : vs.mapM (fun v => s.localAt (some v)) = .ok lifted) :
    ∃ ls, lifted.mapM a.value = some ls ∧
      List.Forall₂ (fun x w => ∀ q, env x = some q → w = .ptr (.cell q x)) vs ls := by
  induction vs generalizing lifted with
  | nil =>
    cases hl
    exact ⟨[], rfl, .nil⟩
  | cons x vs ih =>
    simp only [List.mapM_cons, bind_eq_ok] at hl
    obtain ⟨v, hv, vs', hvs', hl⟩ := hl
    cases hl
    obtain ⟨f, x', hf, hx', hlocal⟩ := localAt_eq_ok.mp hv
    cases hx'
    obtain rfl : a.fn = f := Option.some.inj (h.current.symm.trans hf)
    obtain ⟨ls, hls, hws⟩ := ih hvs'
    obtain ⟨-, w, hw, hcell⟩ := h.value_of_local (N := 0) T hd hlocal
    refine ⟨w :: ls, ?_, .cons hcell hws⟩
    rw [List.mapM_cons, hw, hls]
    rfl

theorem liftedArgs_eq_ok {d' : Ast Addr .functionDec} {lifted : List Value}
    (h : s.liftedArgs m n d' = .ok lifted) : ∃ f vs, functionType m n d'.functionAddr = .ok f ∧
      s.escaped f = some vs ∧ vs.mapM (fun v => s.localAt (some v)) = .ok lifted := by
  simp only [liftedArgs, bind_eq_ok] at h
  obtain ⟨f, hf, h⟩ := h
  split at h
  · cases h
  · rename_i vs hvs
    exact ⟨f, vs, hf, hvs, h⟩

theorem getFunction_eq_ok {name : Symbol} (h : s.getFunction name = .ok g) :
    s.symbols name = some g := by
  unfold getFunction at h
  split at h
  · cases h
  · rename_i hs
    cases h
    exact hs

theorem callee_mem {d' : Ast Addr .functionDec} (T : Translated m n escaped program F)
    (h : callee m y = .ok d') : d' ∈ program.functionDecs := by
  rw [← T.functionDecs]
  exact mem_of_callee h

theorem callExp_followed {name : Symbol} {es : Ast Addr (.list .exp)}
    (T : Translated m n escaped program F) (ih : Followed rt m n program F k) :
    FollowedAt rt m n program F (k + 1) (.callExp y name es) := by
  intro how mode s s' v d a act env σ cs hpart hv hF hm hp hact
  simp only [visit, bind_eq_ok, Prod.exists] at hv
  obtain ⟨d', hd', lifted, hlifted, vs, s₁, h₁, g, hg, hv⟩ := hv
  cases hv
  have hg₁ := visit_grows h₁
  have hF₁ : Grows s₁ F := (Grows.create rfl).trans hF
  refine .of_ends ends_ofTypes ?_
  intro d'' hd''
  obtain rfl : d' = d'' := Except.ok.inj (hd'.symm.trans hd'')
  refine (ih es cs (hpart.part (Ast.mem_first rfl)) h₁ hF₁ follows_accept hp hact).bind
    hg₁.count id ?_
  intro rs env₁ σ₁ a₁ hk₁ hr₁ hvs
  obtain rfl := hk₁ rfl
  refine .of_ends ends_useAll ?_
  rintro ws rfl
  obtain ⟨f, vs', hf, hescaped, hlocals⟩ := liftedArgs_eq_ok hlifted
  obtain ⟨ls, hls, hcells⟩ := mapM_localAt T hpart.function (hp.toAgree.later hr₁.later) hlocals
  have hvals : (lifted ++ vs).mapM a₁.value = some (ls ++ ws) := by
    rw [List.mapM_append, hls, mapM_of_gives hvs]
    rfl
  have hl : Lifts F m n d' env₁ ls := ⟨f, vs', hf, (hg₁.trans hF₁).escaped f vs' hescaped, hcells⟩
  exact call_simulates T ih (callee_mem T hd') (hF₁.symbols _ _ (getFunction_eq_ok hg)) hr₁.poised
    hF hvals hl

/-- A call of a function that the `Translator` declares. -/
theorem Poised.callRuntime {z : Symbol} {vals : List Value} {ws : List Scalar} {r : Option Scalar}
    (rt : Runtime W) (cs : List Activation) (h : Poised F d s a env)
    (T : Translated m n escaped program F) (hz : z ∈ runtimeNames) (hg : F.symbols z = some g)
    (hF : Grows (s.create (.call g vals)) F) (hvals : vals.mapM a.value = some ws)
    (hext : Llvm.callExternal rt σ z ws = some (r, σ')) :
    ∃ a', Runs rt F d cs s (s.create (.call g vals)) a a' env σ σ' ∧
      Gives F (s.create (.call g vals)).count a' .exp (s.create (.call g vals)).last r := by
  obtain ⟨hlater, hnext⟩ := h.next rfl hF T.sound r
  obtain ⟨hentry, hname⟩ := T.entry_of_runtime hz hg
  obtain ⟨e, he, rfl⟩ := Option.map_eq_some_iff.mp hname
  refine ⟨_, ⟨.single ?_, hlater, hnext⟩, gives_last ?_⟩
  · show Llvm.step F rt ⟨a, cs, σ⟩ = some ⟨a.next s.count r, cs, σ'⟩
    simp [Llvm.step, h.head rfl hF, hvals, hentry, he, hext]
  · intro w hw
    rw [← hw]
    exact Function.update_self _ _ _

/-- `malloc_` is the first function of the module. -/
theorem symbol_malloc (T : Translated m n escaped program F) :
    F.symbols "tc_malloc".toList = some 0 := T.adds.grows.symbols _ _ rfl

/-- The bytes that are asked for are those of the words. -/
theorem callExternal_malloc {z : Nat} {p : Scalar} (h : σ.alloc z (.int 0) = some (p, σ')) :
    Llvm.callExternal rt σ "tc_malloc".toList [.int (.ofInt 64 (8 * z))] = some (some p, σ') := by
  have hz : 8 * z < 2 ^ 64 := by
    unfold Store.alloc at h
    split at h
    · assumption
    · cases h
  have hsize : (BitVec.ofInt 64 (8 * z)).toNat / 8 = z := by
    have hcast : (8 * z : Int) = ((8 * z : Nat) : Int) := by
      push_cast
      rfl
    rw [hcast, BitVec.ofInt_natCast, BitVec.toNat_ofNat, Nat.mod_eq_of_lt hz]
    omega
  unfold Llvm.callExternal
  rw [if_pos rfl]
  dsimp only
  rw [hsize, h]
  rfl

theorem recordExp_followed {t : Ast Addr .nameTy} {fs : Ast Addr (.list .fieldInit)}
    (T : Translated m n escaped program F) (ih : Followed rt m n program F k) :
    FollowedAt rt m n program F (k + 1) (.recordExp y t fs) := by
  intro how mode s s' v d a act env σ cs hpart hv hF hm hp hact
  simp only [visit, bind_eq_ok, Prod.exists] at hv
  obtain ⟨fields, hfields, v₁, s₁, h₁, hv⟩ := hv
  cases hv
  have hg₁ := visit_grows h₁
  refine .of_ends ends_ofTypes ?_
  intro fields' hfields'
  obtain rfl : fields = fields' := Except.ok.inj (hfields.symm.trans hfields')
  refine .of_ends ends_orFail ?_
  rintro ⟨ptr, σ₁⟩ halloc
  have hvals : [Value.int (8 * fields.length)].mapM a.value =
      some [.int (.ofInt 64 (8 * fields.length))] := rfl
  obtain ⟨a₁, hr₁, hptr⟩ := hp.callRuntime rt cs T (by simp [runtimeNames]) (symbol_malloc T)
    (hg₁.trans hF) hvals (callExternal_malloc halloc)
  apply Simulates.after hr₁ (Nat.le_succ _) (fun _ => rfl)
  have hm₁ : Follows F (s.create (.call 0 [.int (8 * fields.length)])).count a₁
      (.init fields (s.create (.call 0 [.int (8 * fields.length)])).last) (.init fields ptr) :=
    ⟨rfl, hptr ptr rfl⟩
  refine (ih fs cs (hpart.part (Ast.mem_second rfl)) h₁ hF hm₁ hr₁.poised
    (hr₁.later.act.trans hact)).bind hg₁.count id ?_
  intro r₂ env₂ σ₂ a₂ hk₂ hr₂ hv₂
  exact .ok (.refl hr₂.poised) (hptr.later hr₂.later hg₁.count) fun _ => rfl

theorem fieldInit_followed {name : Symbol} {e : Ast Addr .exp}
    (T : Translated m n escaped program F) (ih : Followed rt m n program F k) :
    FollowedAt rt m n program F (k + 1) (.fieldInit y name e) := by
  intro how mode s s' v d a act env σ cs hpart hv hF hm hp hact
  simp only [visit, bind_eq_ok, Prod.exists] at hv
  obtain ⟨v₁, s₁, h₁, hv⟩ := hv
  have hg₁ := visit_grows h₁
  cases how with
  | init fields p =>
    cases mode with
    | init fields' ptr =>
      obtain ⟨rfl, hptr, hs⟩ := hm
      simp only [bind_eq_ok] at hv
      obtain ⟨index, hindex, hv⟩ := hv
      cases hv
      have hF₂ : Grows (s₁.create (.structGep p index)) F := (Grows.create rfl).trans hF
      refine (ih e cs (hpart.part (Ast.mem_first rfl)) h₁ ((Grows.create rfl).trans hF₂)
        follows_accept hp hact).bind hg₁.count id ?_
      intro r₁ env₁ σ₁ a₁ hk₁ hr₁ hv₁
      refine .of_ends ends_ofTypes ?_
      intro index' hindex'
      obtain rfl : index = index' := Except.ok.inj (hindex.symm.trans hindex')
      refine .of_ends ends_use ?_
      rintro w rfl
      refine .of_ends ends_member ?_
      intro q hq
      have hptr₁ : a₁.value p = some ptr := (hr₁.later.value hs).trans hptr
      obtain ⟨a₂, hr₂, hv₂⟩ := hr₁.poised.emit rt cs hF₂ T.sound rfl (execute_structGep hptr₁ hq)
      refine .of_ends ends_store ?_
      rintro σ₂ ⟨p', rfl, hwrite⟩
      have hw := (hv₁.later hr₂.later (Nat.le_succ _)) w rfl
      have hr₃ := hr₂.poised.execute rt cs hF T.sound rfl
        (execute_store hw.1 (hv₂ _ rfl).1 hwrite)
      exact .ok (hr₂.trans hr₃ (Nat.le_succ _)) trivial fun _ => rfl
    | accept | access | iterate => exact hm.elim
  | accept | access =>
    cases hv
    refine (ih e cs (hpart.part (Ast.mem_first rfl)) h₁ hF follows_accept hp hact).bind
      hg₁.count id ?_
    intro r₁ env₁ σ₁ a₁ hk₁ hr₁ hv₁
    cases mode with
    | accept | access => exact .ok (.refl hr₁.poised) trivial fun _ => rfl
    | init | iterate => exact hm.elim

theorem Poised.getOrInsertFunction {name : Symbol} {params : List Param}
    (h : Poised F d s a env) : Poised F d (s.getOrInsertFunction name params) a env := by
  unfold Translator.getOrInsertFunction
  split
  · exact h
  · exact h.of_eq rfl rfl rfl

/-- The two functions that initialise arrays do so in the same way. -/
theorem callExternal_initArray (rt : Runtime W) {t : TypePtr} {i : BitVec 64} {w p : Scalar}
    (h : σ.initArray i w = some (p, σ')) :
    Llvm.callExternal rt σ (if isPointer t then "tc_init_ptr_array".toList
      else "tc_init_array".toList) [.int i, w] = some (some p, σ') := by
  unfold Llvm.callExternal
  cases isPointer t <;> simp [h]

theorem arrayExp_followed {t : Ast Addr .nameTy} {e₁ e₂ : Ast Addr .exp}
    (T : Translated m n escaped program F) (ih : Followed rt m n program F k) :
    FollowedAt rt m n program F (k + 1) (.arrayExp y t e₁ e₂) := by
  intro how mode s s' v d a act env σ cs hpart hv hF hm hp hact
  simp only [visit, bind_eq_ok, Prod.exists] at hv
  obtain ⟨v₁, s₁, h₁, v₂, s₂, h₂, ty, -, s₃, h₃, hv⟩ := hv
  cases hv
  simp only [Translator.initArray, bind_eq_ok] at h₃
  obtain ⟨g, hg, h₃⟩ := h₃
  cases h₃
  -- The initial value is cast, the function called, and the pointer cast.
  generalize hop : (if isPointer ty then Op.ptrToInt v₂ else .bitCast v₂) = op at hg hF
  generalize hname : (if isPointer ty then "tc_init_ptr_array".toList else "tc_init_array".toList)
    = name at hg hF
  have halloca : (Instr.mk s₂.count op).isAlloca = false := by
    rw [← hop]
    split <;> rfl
  have hname' : name ∈ runtimeNames := by
    rw [← hname]
    split <;> simp [runtimeNames]
  have hg₁ := visit_grows h₁
  have hg₂ := visit_grows h₂
  have hF₅ := (Grows.create rfl).trans hF
  have hF₄ := (Grows.create rfl).trans hF₅
  have hF₃ := (Grows.getOrInsertFunction _ _).trans hF₄
  have hF₂ := (Grows.create halloca).trans hF₃
  refine (ih e₁ cs (hpart.part (Ast.mem_second rfl)) h₁ (hg₂.trans hF₂) follows_accept hp
    hact).bind hg₁.count id ?_
  intro r₁ env₁ σ₁ a₁ hk₁ hr₁ hv₁
  refine (ih e₂ cs (hpart.part (Ast.mem_third rfl)) h₂ hF₂ follows_accept hr₁.poised
    (hr₁.later.act.trans hact)).bind hg₂.count id ?_
  intro r₂ env₂ σ₂ a₂ hk₂ hr₂ hv₂
  have hv₁ := hv₁.later hr₂.later hg₂.count
  refine .of_ends ends_use ?_
  rintro w₁ rfl
  refine .of_ends ends_toInt ?_
  rintro i rfl
  refine .of_ends ends_use ?_
  rintro w₂ rfl
  refine .of_ends ends_orFail ?_
  rintro ⟨p, σ₃⟩ halloc
  have hcast : execute a₂ σ₂ op = some (some w₂, σ₂) := by
    rw [← hop]
    split
    · exact (execute_cast (hv₂ w₂ rfl).1).1
    · exact (execute_cast (hv₂ w₂ rfl).1).2
  obtain ⟨a₃, hr₃, hv₃⟩ := hr₂.poised.emit rt cs hF₃ T.sound halloca hcast
  have hv₁ := hv₁.later hr₃.later (Nat.le_succ _)
  have hvals : [v₁, (s₂.create op).last].mapM a₃.value = some [.int i, w₂] := by
    rw [List.mapM_cons, (hv₁ _ rfl).1, List.mapM_cons, (hv₃ _ rfl).1]
    rfl
  have hp₄ : Poised F d ((s₂.create op).getOrInsertFunction name [.i64, .i64]) a₃ env₂ :=
    hr₃.poised.getOrInsertFunction
  have hext := callExternal_initArray rt (t := ty) halloc
  rw [hname] at hext
  obtain ⟨a₄, hr₄, hv₄⟩ := hp₄.callRuntime rt cs T hname'
    (hF₄.symbols _ _ (getFunction_eq_ok hg)) hF₅ hvals hext
  obtain ⟨a₅, hr₅, hv₅⟩ := hr₄.poised.emit rt cs hF T.sound rfl (execute_cast (hv₄ p rfl).1).2
  have hcount : (s₂.create op).count ≤
      ((s₂.create op).getOrInsertFunction name [.i64, .i64]).count :=
    (Grows.getOrInsertFunction name [.i64, .i64]).count
  have hr : Runs rt F d cs s₂ ((s₂.create op).getOrInsertFunction name [.i64, .i64]) a₂ a₃ env₂
      σ₂ σ₂ := ⟨hr₃.reaches, hr₃.later, hp₄⟩
  have hcount : s₂.count ≤ _ := Nat.le_trans (Nat.le_succ _) hcount
  exact .ok ((hr.trans hr₄ hcount).trans hr₅ (Nat.le_succ_of_le hcount)) hv₅ fun _ => rfl

/-! ## Declarations -/

theorem varDec_followed {name : Symbol} {t : Ast Addr (.opt .nameTy)} {e : Ast Addr (.opt .exp)}
    (T : Translated m n escaped program F) (ih : Followed rt m n program F k) :
    FollowedAt rt m n program F (k + 1) (.varDec x name t e) := by
  intro how mode s s' v d a act env σ cs hpart hv hF hm hp hact
  simp only [visit, bind_eq_ok, Prod.exists] at hv
  obtain ⟨s₁, h₁, v₂, s₂, h₂, hv⟩ := hv
  cases v₂ with
  | none => cases hv
  | some v₂ =>
    cases hv
    have hg₂ := visit_grows h₂
    have hF₂ : Grows s₂ F := (Grows.create rfl).trans hF
    obtain ⟨hp₁, howns, hlocal⟩ := hp.createAlloca h₁ (hg₂.trans hF₂)
    have hx := ownVars_of_owns T.toLinkable T.translate hpart.function hp.symbol howns
    have hr₁ : Runs rt F d cs s s₁ a a env σ σ := .refl hp₁
    have hcount := (Grows.createAlloca h₁).count
    have hpart₂ : Part program d ⟨.opt .exp, e⟩ := hpart.part (Ast.mem_second rfl)
    apply Simulates.after hr₁ hcount (fun _ => rfl)
    apply (ih e cs hpart₂ h₂ hF₂ follows_accept hp₁ hact).bind hg₂.count (fun _ => rfl)
    intro r₂ env₂ σ₂ a₂ hk₂ hr₂ hv₂
    obtain rfl := hk₂ rfl
    cases hv₂ with
    | @some _ r hv₂ =>
    refine .of_ends ends_use ?_
    rintro w rfl
    -- The variable is visible from now on.
    have hdeclared : Poised F d s₂ a₂ (Function.update env₂ x (some a₂.act)) := by
      apply hr₂.poised.declare hx
      intro v hv
      rw [hr₂.later.fn] at hv ⊢
      rcases (visit_adds h₂).locals a.fn x v hv with hv | ⟨-, i, hi, howns⟩ | hn
      · exact ⟨_, hlocal v hv, howns⟩
      · exact ⟨i, hi, hF₂.owns howns⟩
      · exact absurd hn (hp.not_isNested T.sound hF₂ hpart₂.strict)
    have hstored : a₂.value (.result s.count) = some (.ptr (.cell a₂.act x)) :=
      hr₂.poised.storage _ _ (by rwa [hr₂.later.fn])
    have hr₃ := hdeclared.execute (σ := σ₂) rt cs hF T.sound rfl
      (execute_store (hv₂ w rfl).1 hstored rfl)
    have hact₂ : a₂.act = act := hr₂.later.act.trans hact
    rw [← hact₂]
    exact .ok hr₃ trivial (by rintro ⟨⟩)

theorem functions_followed {t : Ast Addr c} (hc : c.isFunction = true)
    (T : Translated m n escaped program F) {how : How} {v : c.Result}
    (hpart : Part program d ⟨c, t⟩) (hv : visit m n t how s = .ok (v, s')) (hF : Grows s' F)
    (hp : Poised F d s a env) : Poised F d s' a env := by
  have hadds := visit_adds hv
  obtain ⟨hcursor, hcode⟩ := visit_functions hc hv
  have hlt := BlockBuilder.lt_next_of_parentAt hp.parent
  refine ⟨hp.toAgree.extends T.sound hadds.toExtends hF hpart.strict, hcursor.trans hp.cursor,
    hadds.grows.builder.parentAt_eq_some hp.parent, ?_⟩
  rw [hp.rest, hcode _ hlt]

theorem functionHeaders_followed {ds : List (Ast Addr .functionDec)}
    (h : s.functionHeaders m n ds = .ok s') (hp : Poised F d s a env) : Poised F d s' a env := by
  induction ds generalizing s with
  | nil =>
    cases h
    exact hp
  | cons d' ds ih =>
    simp only [functionHeaders, functionHeader, bind_eq_ok] at h
    obtain ⟨s₁, ⟨f, -, params, -, decs, -, h₁⟩, h⟩ := h
    cases h₁
    exact ih h (hp.escapedRef.of_eq rfl rfl rfl)

end Translator

end TigerCompiler
