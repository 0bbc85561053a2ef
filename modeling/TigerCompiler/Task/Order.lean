import TigerCompiler.Task.TaskRegister
import Mathlib.Data.Finset.Card
import Mathlib.Data.Finset.Dedup
import Mathlib.Data.Finset.Filter
import Mathlib.Logic.Relation
import Mathlib.Order.WellFounded

/-!
# The order of execution

A request only ever appends to the order, and what it appends comes after what it needs.  When no
task needs itself, however indirectly, every request comes to an end.
-/

namespace TigerCompiler

namespace TaskRegister

/-- `s` is one of the names the task registered as `name` depends on. -/
def DependsOn (r : TaskRegister) (s name : Str) : Prop :=
  ∃ task, r.taskList name = some task ∧ s ∈ task.dependencies

/-- Every name a task depends on is registered. -/
def Closed (r : TaskRegister) : Prop := ∀ s name, r.DependsOn s name → (r.taskList s).isSome

/-- No task depends on itself, however indirectly. -/
def Acyclic (r : TaskRegister) : Prop := ∀ s, ¬ Relation.TransGen r.DependsOn s s

/-- The task registered as `s` is among `order`. -/
def Occurs (r : TaskRegister) (order : List Task) (s : Str) : Prop :=
  ∃ task ∈ order, r.taskList s = some task

/-- What `task` needs is among `order`: all it depends on, or one of these if it is
disjunctive. -/
def Supplied (r : TaskRegister) (order : List Task) (task : Task) : Prop :=
  if task.disjunctive then
    task.dependencies ≠ [] → ∃ s ∈ task.dependencies, r.Occurs order s
  else ∀ s ∈ task.dependencies, r.Occurs order s

/-- Every occurrence of a task comes after what the task needs. -/
def Ordered (r : TaskRegister) (order : List Task) : Prop :=
  ∀ before task after, order = before ++ task :: after → r.Supplied before task

variable {r r' r'' : TaskRegister} {order order' : List Task} {s : Str} {task : Task}

theorem Occurs.mono (h : r.Occurs order s) (ho : order ⊆ order') : r.Occurs order' s := by
  obtain ⟨task, ht, hs⟩ := h
  exact ⟨task, ho ht, hs⟩

theorem Supplied.mono (h : r.Supplied order task) (ho : order ⊆ order') :
    r.Supplied order' task := by
  unfold Supplied at *
  split at h
  · rename_i hd
    rw [if_pos hd]
    intro hne
    obtain ⟨s, hs, hocc⟩ := h hne
    exact ⟨s, hs, hocc.mono ho⟩
  · rename_i hd
    rw [if_neg hd]
    exact fun s hs => (h s hs).mono ho

theorem Ordered.concat (h : r.Ordered order) (ht : r.Supplied order task) :
    r.Ordered (order ++ [task]) := by
  intro before task' after heq
  rcases List.eq_nil_or_concat after with rfl | ⟨after, last, rfl⟩
  · obtain ⟨rfl, hlast⟩ := List.append_inj' heq rfl
    obtain rfl := (List.cons.inj hlast).1
    exact ht
  · have heq' : order ++ [task] = (before ++ task' :: after) ++ [last] := by simpa using heq
    exact h before task' after (List.append_inj' heq' rfl).1

/-! ## What a request changes -/

/-- The tasks stay registered, the order is only extended, and stays in order if it was. -/
structure Grows (r r' : TaskRegister) : Prop where
  taskList : r'.taskList = r.taskList
  order : r.taskOrder ⊆ r'.taskOrder
  ordered : r.Ordered r.taskOrder → r.Ordered r'.taskOrder

theorem Grows.refl (r : TaskRegister) : Grows r r := ⟨rfl, List.Subset.refl _, id⟩

theorem ordered_congr (h : r'.taskList = r.taskList) : r'.Ordered order ↔ r.Ordered order := by
  unfold Ordered Supplied Occurs
  rw [h]

theorem Grows.trans (h : Grows r r') (h' : Grows r' r'') : Grows r r'' where
  taskList := h'.taskList.trans h.taskList
  order := fun _ ht => h'.order (h.order ht)
  ordered ho := (ordered_congr h.taskList).mp
    (h'.ordered ((ordered_congr h.taskList).mpr (h.ordered ho)))

/-- What a request for `s` does when it comes to an end. -/
def Enables (enable : TaskRegister → Str → Option TaskRegister) : Prop :=
  ∀ {r r' : TaskRegister} {s : Str}, r.Closed → enable r s = some r' →
    Grows r r' ∧ ((r.taskList s).isSome → r.Occurs r'.taskOrder s)

theorem closed_congr (h : r'.taskList = r.taskList) : r'.Closed ↔ r.Closed := by
  unfold Closed DependsOn
  rw [h]

theorem occurs_congr (h : r'.taskList = r.taskList) : r'.Occurs order s ↔ r.Occurs order s := by
  unfold Occurs
  rw [h]

theorem activate_grows {enable : TaskRegister → Str → Option TaskRegister} (he : Enables enable)
    (hc : r.Closed) {ss : List Str} (h : activate enable r ss = some r') :
    Grows r r' ∧ ∀ s ∈ ss, (r.taskList s).isSome → r.Occurs r'.taskOrder s := by
  induction ss generalizing r with
  | nil =>
    obtain rfl := Option.some.inj h
    exact ⟨Grows.refl r, nofun⟩
  | cons s ss ih =>
    rw [activate] at h
    cases hs : r.taskList s with
    | none =>
      rw [hs] at h
      obtain ⟨hg, hall⟩ := ih hc h
      exact ⟨hg, List.forall_mem_cons.mpr ⟨by simp [hs], hall⟩⟩
    | some dep =>
      rw [hs] at h
      dsimp only at h
      by_cases hin : dep ∈ r.taskOrder
      · rw [if_pos hin] at h
        obtain ⟨hg, hall⟩ := ih hc h
        exact ⟨hg, List.forall_mem_cons.mpr ⟨fun _ => ⟨dep, hg.order hin, hs⟩, hall⟩⟩
      · rw [if_neg hin] at h
        obtain ⟨r₁, h₁, h₂⟩ := Option.bind_eq_some_iff.mp h
        obtain ⟨hg₁, hocc⟩ := he hc h₁
        obtain ⟨hg₂, hall⟩ := ih ((closed_congr hg₁.taskList).mpr hc) h₂
        refine ⟨hg₁.trans hg₂, List.forall_mem_cons.mpr ⟨?_, ?_⟩⟩
        · exact fun hsome => (hocc hsome).mono hg₂.order
        · intro s' hs' hsome
          rw [← hg₁.taskList] at hsome
          exact (occurs_congr hg₁.taskList).mp (hall s' hs' hsome)

theorem enabledTasks_eq (task : Task) {ss : List Str} (h : ∀ s ∈ ss, (r.taskList s).isSome) :
    (r.enabledTasks task ss).1 = r ∧
      ∀ dep, dep ∈ (r.enabledTasks task ss).2 ↔
        dep ∈ r.taskOrder ∧ ∃ s ∈ ss, r.taskList s = some dep := by
  induction ss with
  | nil => simp [enabledTasks]
  | cons s ss ih =>
    obtain ⟨hs, hss⟩ := List.forall_mem_cons.mp h
    obtain ⟨dep, hdep⟩ := Option.isSome_iff_exists.mp hs
    obtain ⟨h₁, h₂⟩ := ih hss
    rw [enabledTasks, hdep]
    refine ⟨h₁, fun dep' => ?_⟩
    dsimp only
    split
    · rename_i hin
      rw [List.mem_cons, h₂ dep', List.exists_mem_cons_iff, hdep, Option.some.injEq]
      constructor
      · rintro (rfl | ⟨ho, hex⟩)
        · exact ⟨hin, .inl rfl⟩
        · exact ⟨ho, .inr hex⟩
      · rintro ⟨ho, rfl | hex⟩
        · exact .inl rfl
        · exact .inr ⟨ho, hex⟩
    · rename_i hin
      rw [h₂ dep', List.exists_mem_cons_iff, hdep, Option.some.injEq]
      refine and_congr_right fun ho => ⟨.inr, ?_⟩
      rintro (rfl | hex)
      · exact absurd ho hin
      · exact hex

/-- What the dependencies of a task are resolved to. -/
theorem resolveDependencies_grows {enable : TaskRegister → Str → Option TaskRegister}
    (he : Enables enable) (hc : r.Closed) (ht : r.taskList s = some task)
    (h : resolveDependencies enable r task = some r') :
    Grows r r' ∧ r.Supplied r'.taskOrder task := by
  have hreg : ∀ s ∈ task.dependencies, (r.taskList s).isSome := fun s' hs' =>
    hc s' s ⟨task, ht, hs'⟩
  obtain ⟨h₁, h₂⟩ := enabledTasks_eq task hreg
  have h' : activate enable r
      (task.resolveDependencies (r.enabledTasks task task.dependencies).2) = some r' := by
    rw [← h]
    unfold resolveDependencies
    dsimp only
    rw [h₁]
  obtain ⟨hg, hall⟩ := activate_grows he hc h'
  refine ⟨hg, ?_⟩
  unfold Supplied
  by_cases hd : task.disjunctive = true
  · rw [if_pos hd]
    intro hne
    rw [Task.resolveDependencies, if_pos hd] at hall
    cases hen : (r.enabledTasks task task.dependencies).2 with
    | cons dep deps =>
      -- One of the tasks it names is in the order already.
      obtain ⟨ho, s', hs', hdep⟩ := (h₂ dep).mp (by simp [hen])
      exact ⟨s', hs', dep, hg.order ho, hdep⟩
    | nil =>
      -- None is: the first one is activated.
      obtain ⟨s', ss, hss⟩ := List.exists_cons_of_ne_nil hne
      have hmem : s' ∈ task.dependencies := by simp [hss]
      have hnone : (!(r.enabledTasks task task.dependencies).2.isEmpty ||
          task.dependencies.isEmpty) = false := by simp [hen, hne]
      refine ⟨s', hmem, hall s' ?_ (hreg s' hmem)⟩
      rw [hnone, hss]
      simp
  · rw [if_neg hd]
    rw [Task.resolveDependencies, if_neg hd] at hall
    exact fun s' hs' => hall s' hs' (hreg s' hs')

theorem enableTask_grows (fuel : Nat) : Enables (enableTask fuel) := by
  induction fuel with
  | zero => exact fun _ h => nomatch h
  | succ fuel ih =>
    intro r r' s hc h
    rw [enableTask] at h
    cases hs : r.taskList s with
    | none =>
      rw [hs] at h
      obtain rfl := Option.some.inj h
      exact ⟨⟨rfl, List.Subset.refl _, id⟩, nofun⟩
    | some task =>
      rw [hs] at h
      obtain ⟨r₁, h₁, h₂⟩ := Option.bind_eq_some_iff.mp h
      obtain rfl := Option.some.inj h₂
      obtain ⟨hg, hsup⟩ := resolveDependencies_grows ih hc hs h₁
      refine ⟨⟨hg.taskList, ?_, fun ho => (hg.ordered ho).concat hsup⟩, ?_⟩
      · exact fun t ht => List.mem_append_left _ (hg.order ht)
      · exact fun _ => ⟨task, by simp, hs⟩

/-! ## Termination -/

/-- With the fuel `n` or more a request for `s` comes to an end, whatever the order is. -/
def EndsWith (n : Nat) (tasks : Str → Option Task) (s : Str) : Prop :=
  ∀ r : TaskRegister, r.taskList = tasks →
    ∃ r', r'.taskList = tasks ∧ ∀ m, n ≤ m → enableTask m r s = some r'

variable {tasks : Str → Option Task}

theorem EndsWith.mono {n m : Nat} (h : EndsWith n tasks s) (hm : n ≤ m) : EndsWith m tasks s := by
  intro r hr
  obtain ⟨r', hr', h'⟩ := h r hr
  exact ⟨r', hr', fun k hk => h' k (by omega)⟩

/-- Finitely many requests that end do so with the same fuel. -/
theorem exists_endsWith (ss : List Str) (h : ∀ s ∈ ss, ∃ n, EndsWith n tasks s) :
    ∃ n, ∀ s ∈ ss, EndsWith n tasks s := by
  induction ss with
  | nil => exact ⟨0, nofun⟩
  | cons s ss ih =>
    obtain ⟨hs, hss⟩ := List.forall_mem_cons.mp h
    obtain ⟨n₁, h₁⟩ := hs
    obtain ⟨n₂, h₂⟩ := ih hss
    exact ⟨max n₁ n₂, List.forall_mem_cons.mpr
      ⟨h₁.mono (by omega), fun s' hs' => (h₂ s' hs').mono (by omega)⟩⟩

theorem activate_ends {n : Nat} {ss : List Str} (h : ∀ s ∈ ss, EndsWith n tasks s)
    (hr : r.taskList = tasks) :
    ∃ r', r'.taskList = tasks ∧ ∀ m, n ≤ m → activate (enableTask m) r ss = some r' := by
  induction ss generalizing r with
  | nil => exact ⟨r, hr, fun _ _ => rfl⟩
  | cons s ss ih =>
    obtain ⟨hs, hss⟩ := List.forall_mem_cons.mp h
    cases hsr : r.taskList s with
    | none =>
      simp only [activate, hsr]
      exact ih hss hr
    | some dep =>
      by_cases hin : dep ∈ r.taskOrder
      · simp only [activate, hsr, if_pos hin]
        exact ih hss hr
      · obtain ⟨r₁, hr₁, hm₁⟩ := hs r hr
        obtain ⟨r₂, hr₂, hm₂⟩ := ih hss hr₁
        refine ⟨r₂, hr₂, fun m hm => ?_⟩
        simp only [activate, hsr, if_neg hin]
        rw [hm₁ m hm]
        exact hm₂ m hm

/-- What a task asks to activate is among what it depends on. -/
theorem resolveDependencies_subset (task : Task) (active : List Task) :
    task.resolveDependencies active ⊆ task.dependencies := by
  unfold Task.resolveDependencies
  split
  · split
    · exact List.nil_subset _
    · exact List.take_subset _ _
  · exact List.Subset.refl _

/-- A request ends when those for the names its task depends on do. -/
theorem endsWith_of_dependencies (hc : r.Closed)
    (h : ∀ s', r.DependsOn s' s → ∃ n, EndsWith n r.taskList s') :
    ∃ n, EndsWith n r.taskList s := by
  cases hs : r.taskList s with
  | none =>
    refine ⟨1, fun r₀ hr₀ => ?_⟩
    rw [← hr₀] at hs
    refine ⟨r₀.report (": TaskRegister::enable_task(".toList ++ s ++
      "): this task has not been registered.\n".toList), hr₀, fun m hm => ?_⟩
    obtain ⟨m, rfl⟩ := Nat.exists_eq_add_of_le' hm
    simp only [enableTask, hs]
  | some task =>
    obtain ⟨n, hn⟩ := exists_endsWith task.dependencies fun s' hs' =>
      h s' ⟨task, hs, hs'⟩
    refine ⟨n + 1, fun r₀ hr₀ => ?_⟩
    have hreg : ∀ s' ∈ task.dependencies, (r₀.taskList s').isSome := fun s' hs' =>
      hr₀ ▸ hc s' s ⟨task, hs, hs'⟩
    have hen := (enabledTasks_eq task hreg).1
    obtain ⟨r₁, hr₁, hm₁⟩ := activate_ends (r := r₀)
      (fun s' hs' => hn s' (resolveDependencies_subset task
        (r₀.enabledTasks task task.dependencies).2 hs')) hr₀
    refine ⟨{ r₁ with taskOrder := r₁.taskOrder ++ [task] }, hr₁, fun m hm => ?_⟩
    obtain ⟨m, rfl⟩ := Nat.exists_eq_add_of_le' (show 1 ≤ m by omega)
    rw [← hr₀] at hs
    simp only [enableTask, hs, resolveDependencies, hen]
    rw [hm₁ m (by omega)]
    rfl

/-! ## Finitely many tasks -/

/-- To register a task changes what its own name stands for, and nothing else. -/
theorem registerTask_taskList (r : TaskRegister) (task : Task) (name : Str) :
    (r.registerTask task).taskList name = r.taskList name ∨ name = task.name := by
  unfold registerTask
  split
  · exact .inl rfl
  · by_cases hn : name = task.name
    · exact .inr hn
    · exact .inl (if_neg hn)

theorem mem_names_of_registered {tasks : List Task} {name : Str}
    (h : ((registered tasks).taskList name).isSome) : name ∈ tasks.map Task.name := by
  suffices hs : ∀ r : TaskRegister, ((tasks.foldl registerTask r).taskList name).isSome →
      (r.taskList name).isSome ∨ name ∈ tasks.map Task.name from
    (hs {} h).resolve_left (by simp)
  clear h
  intro r hr
  induction tasks generalizing r with
  | nil => exact .inl hr
  | cons task tasks ih =>
    rcases ih (r.registerTask task) hr with h' | h'
    · rcases registerTask_taskList r task name with he | rfl
      · exact .inl (he ▸ h')
      · exact .inr (List.mem_cons_self ..)
    · exact .inr (List.mem_cons_of_mem _ h')

/-- Going from a task to what it needs comes to an end when there are finitely many and no
cycle. -/
theorem dependsOn_wellFounded {tasks : List Task} (hc : (registered tasks).Closed)
    (ha : (registered tasks).Acyclic) : WellFounded (registered tasks).DependsOn := by
  classical
  -- The measure of a name: how many tasks it depends on, however indirectly.
  let f : Str → Nat := fun s => ((tasks.map Task.name).toFinset.filter fun s' =>
    Relation.TransGen (registered tasks).DependsOn s' s).card
  refine Subrelation.wf (r := InvImage (· < ·) f) ?_ (InvImage.wf f Nat.lt_wfRel.wf)
  intro s' s hs
  refine Finset.card_lt_card (Finset.ssubset_iff_subset_ne.mpr ⟨?_, fun heq => ?_⟩)
  · intro s'' hs''
    rw [Finset.mem_filter] at hs'' ⊢
    exact ⟨hs''.1, hs''.2.tail hs⟩
  · have hmem : s' ∈ (tasks.map Task.name).toFinset.filter fun s'' =>
        Relation.TransGen (registered tasks).DependsOn s'' s := by
      rw [Finset.mem_filter, List.mem_toFinset]
      exact ⟨mem_names_of_registered (hc s' s hs), .single hs⟩
    rw [← heq, Finset.mem_filter] at hmem
    exact ha s' hmem.2

theorem request_ends {tasks : List Task} (hc : (registered tasks).Closed)
    (ha : (registered tasks).Acyclic) (s : Str) :
    ∃ n, EndsWith n (registered tasks).taskList s := by
  induction s using (dependsOn_wellFounded hc ha).induction with
  | h s ih => exact endsWith_of_dependencies hc ih

/-- Successive requests end, leave the tasks in order and what is asked for among them. -/
theorem enableTasks_ordered {tasks : List Task} (hc : (registered tasks).Closed)
    (ha : (registered tasks).Acyclic) (requests : List Str) (r : TaskRegister)
    (hr : r.taskList = (registered tasks).taskList) (ho : r.Ordered r.taskOrder) :
    ∃ n r', (∀ m, n ≤ m → enableTasks m r requests = some r') ∧
      (registered tasks).Ordered r'.taskOrder ∧ r.taskOrder ⊆ r'.taskOrder ∧
      ∀ s ∈ requests, ((registered tasks).taskList s).isSome →
        (registered tasks).Occurs r'.taskOrder s := by
  induction requests generalizing r with
  | nil =>
    exact ⟨0, r, fun _ _ => rfl, (ordered_congr hr).mp ho, List.Subset.refl _,
      List.forall_mem_nil _⟩
  | cons s requests ih =>
    obtain ⟨n₁, h₁⟩ := request_ends hc ha s
    obtain ⟨r₁, hr₁, hm₁⟩ := h₁ r hr
    obtain ⟨hg, hocc⟩ := enableTask_grows n₁ ((closed_congr hr).mpr hc) (hm₁ n₁ (Nat.le_refl _))
    have ho₁ : r₁.Ordered r₁.taskOrder := (ordered_congr hg.taskList).mpr (hg.ordered ho)
    obtain ⟨n₂, r₂, hm₂, ho₂, hsub, hall⟩ := ih r₁ hr₁ ho₁
    refine ⟨max n₁ n₂, r₂, fun m hm => ?_, ho₂, fun _ ht => hsub (hg.order ht),
      List.forall_mem_cons.mpr ⟨fun hs => ?_, hall⟩⟩
    · rw [enableTasks, hm₁ m (by omega)]
      exact hm₂ m (by omega)
    · exact ((occurs_congr hr).mp (hocc (hr ▸ hs))).mono hsub

theorem registered_taskOrder (tasks : List Task) : (registered tasks).taskOrder = [] := by
  suffices hs : ∀ r : TaskRegister, (tasks.foldl registerTask r).taskOrder = r.taskOrder from hs {}
  intro r
  induction tasks generalizing r with
  | nil => rfl
  | cons task tasks ih =>
    rw [List.foldl_cons, ih, registerTask]
    split <;> rfl

/-- **Every sequence of requests ends, with every task preceded by what it needs, and every task
asked for among them.** -/
theorem enableTasks_terminates_in_order {tasks : List Task} (hc : (registered tasks).Closed)
    (ha : (registered tasks).Acyclic) (requests : List Str) :
    ∃ n r', (∀ m, n ≤ m → enableTasks m (registered tasks) requests = some r') ∧
      (registered tasks).Ordered r'.taskOrder ∧
      ∀ s ∈ requests, ((registered tasks).taskList s).isSome →
        (registered tasks).Occurs r'.taskOrder s := by
  have ho : (registered tasks).Ordered (registered tasks).taskOrder := by
    rw [registered_taskOrder]
    intro before task after heq
    simp at heq
  obtain ⟨n, r', hm, ho', -, hall⟩ := enableTasks_ordered hc ha requests _ rfl ho
  exact ⟨n, r', hm, ho', hall⟩

/-- Names ranked so that what a task needs has a lower rank are in no cycle. -/
theorem acyclic_of_rank (rank : Str → Nat) (h : ∀ s name, r.DependsOn s name →
    rank s < rank name) : r.Acyclic := by
  have hlt : ∀ {s name}, Relation.TransGen r.DependsOn s name → rank s < rank name := by
    intro s name ht
    induction ht with
    | single hs => exact h _ _ hs
    | tail _ hs ih => exact ih.trans (h _ _ hs)
  exact fun s hs => Nat.lt_irrefl _ (hlt hs)

/-- `parse`, `bind` that needs it, and `any` that needs one of the two. -/
def parseBindAny : List Task :=
  [.construct "parse".toList [] false, .construct "bind".toList "parse".toList false,
    .construct "any".toList "bind parse".toList true]

/-- `any` has `bind` activated, which has `parse` activated, and `bind` is appended once more when
it is asked for. -/
theorem parse_bind_any_in_order :
    ∃ n r', (∀ m, n ≤ m → enableTasks m (registered parseBindAny)
        ["any".toList, "bind".toList] = some r') ∧
      (registered parseBindAny).Ordered r'.taskOrder ∧
      (∀ s ∈ ["any".toList, "bind".toList], ((registered parseBindAny).taskList s).isSome →
        (registered parseBindAny).Occurs r'.taskOrder s) ∧
      r'.taskOrder.map Task.name = ["parse", "bind", "any", "bind"].map String.toList := by
  have hdep : ∀ s name, (registered parseBindAny).DependsOn s name →
      (name = "bind".toList ∧ s = "parse".toList) ∨
      (name = "any".toList ∧ (s = "bind".toList ∨ s = "parse".toList)) := by
    rintro s name ⟨task, ht, hs⟩
    have hmem := mem_names_of_registered (Option.isSome_iff_exists.mpr ⟨task, ht⟩)
    simp only [parseBindAny, List.map_cons, List.map_nil, List.mem_cons, List.not_mem_nil,
      or_false] at hmem
    rcases hmem with rfl | rfl | rfl
    · obtain rfl := Option.some.inj ht
      exact absurd hs (by simp [Task.construct])
    · obtain rfl := Option.some.inj ht
      exact .inl ⟨rfl, List.mem_singleton.mp hs⟩
    · obtain rfl := Option.some.inj ht
      exact .inr ⟨rfl, by simpa [Task.construct, Task.splitDeps, Task.normalize] using hs⟩
  have hclosed : (registered parseBindAny).Closed := fun s name hs => by
    rcases hdep s name hs with ⟨-, rfl⟩ | ⟨-, rfl | rfl⟩ <;> rfl
  have hacyclic : (registered parseBindAny).Acyclic :=
    acyclic_of_rank (fun s => 5 - s.length) fun s name hs => by
      rcases hdep s name hs with ⟨rfl, rfl⟩ | ⟨rfl, rfl | rfl⟩ <;> decide
  obtain ⟨n, r', hm, ho, hall⟩ :=
    enableTasks_terminates_in_order hclosed hacyclic ["any".toList, "bind".toList]
  refine ⟨n, r', hm, ho, hall, ?_⟩
  have horder : (enableTasks (n + 4) (registered parseBindAny)
      ["any".toList, "bind".toList]).map (fun r => r.taskOrder.map Task.name) =
      some (["parse", "bind", "any", "bind"].map String.toList) := by rfl
  rw [hm (n + 4) (by omega)] at horder
  exact Option.some.inj horder

end TaskRegister

end TigerCompiler
