import Mathlib.Data.List.Infix
import Mathlib.Logic.Function.Basic
import TigerCompiler.Misc.Error

/-!
# The error handler as a log

Several `misc::error` objects and the operations that fill them.  What an object should say is read
off the history alone: the codes that reached it (`pushed`) and the text (`logged`).

* **Status.**  It always is the smallest code that is not `success` (`smallest_status`).
* **Text.**  The `std::ostringstream` keeps a position: `str (s)` leaves it at the start of the
  text, so that what is put next overwrites a copy, and `clear ()` is about state bits, so that the
  text survives it.  The log is right in every state of a run exactly when the run does neither to
  an object that has a text (`faithful_iff_harmless`).
-/

namespace TigerCompiler

/-! ## The stream -/

/-- A `std::ostringstream`: its text and the position of the next character. -/
structure OStringStream where
  str : Str
  pos : Nat
  deriving DecidableEq, Repr

namespace OStringStream

/-- `str (s)`. -/
def setStr (_ : OStringStream) (s : Str) : OStringStream := ⟨s, 0⟩

/-- `<<`: what stands at the position is overwritten. -/
def put (o : OStringStream) (t : Str) : OStringStream :=
  ⟨o.str.take o.pos ++ t ++ o.str.drop (o.pos + t.length), o.pos + t.length⟩

/-- `clear ()`: only the state bits, which are not part of the model, are reset. -/
def clear (o : OStringStream) : OStringStream := o

variable {o : OStringStream} {t : Str}

@[simp] theorem setStr_str : (o.setStr t).str = t := rfl

@[simp] theorem setStr_pos : (o.setStr t).pos = 0 := rfl

@[simp] theorem clear_eq : o.clear = o := rfl

@[simp] theorem put_nil : o.put [] = o := by
  unfold put
  simp

theorem put_of_pos_eq_length (h : o.pos = o.str.length) :
    o.put t = ⟨o.str ++ t, (o.str ++ t).length⟩ := by
  unfold put
  rw [h, List.take_length, List.drop_eq_nil_of_le (by omega), List.append_nil, List.length_append]

/-- A text put at the start of another is not appended to it: it covers some of it. -/
theorem put_str_ne_append (hp : o.pos = 0) (ho : o.str ≠ []) (ht : t ≠ []) :
    (o.put t).str ≠ o.str ++ t := by
  intro h
  have hlen := congrArg List.length h
  have ho' : 0 < o.str.length := List.length_pos_iff.mpr ho
  have ht' : 0 < t.length := List.length_pos_iff.mpr ht
  simp only [put, hp, List.take_zero, List.nil_append, Nat.zero_add, List.length_append,
    List.length_drop] at hlen
  omega

end OStringStream

/-! ## The handler -/

/-- The value of an exit status. -/
def ErrorType.code : ErrorType → Nat
  | .success => 0
  | .failure => 1
  | .scan => 2
  | .parse => 3
  | .bind => 4
  | .type => 5

/-- `misc::error`. -/
structure ErrorHandler where
  status : ErrorType
  stream : OStringStream
  deriving DecidableEq, Repr

namespace ErrorHandler

/-- `error ()`. -/
def new : ErrorHandler := ⟨.success, ⟨[], 0⟩⟩

/-- `operator= (rhs)`; the copy constructor is this operator on an object that was not there. -/
def assign (e rhs : ErrorHandler) : ErrorHandler :=
  ⟨rhs.status, e.stream.setStr rhs.stream.str⟩

/-- `operator<< (t)`, for anything that is written to the stream, `std::endl` included. -/
def put (e : ErrorHandler) (t : Str) : ErrorHandler := { e with stream := e.stream.put t }

/-- `operator<< (error_type)`. -/
def push (e : ErrorHandler) (c : ErrorType) : ErrorHandler :=
  if (c.code ≠ 0 ∧ c.code < e.status.code) ∨ e.status.code = 0 then { e with status := c } else e

/-- `operator<< (const error&)`. -/
def importError (e rhs : ErrorHandler) : ErrorHandler := (e.push rhs.status).put rhs.stream.str

/-- `clear ()`. -/
def clear (e : ErrorHandler) : ErrorHandler := ⟨.success, e.stream.clear⟩

variable {e rhs : ErrorHandler} {c : ErrorType} {t : Str}

@[simp] theorem push_stream : (e.push c).stream = e.stream := by
  unfold push
  split <;> rfl

@[simp] theorem importError_stream : (e.importError rhs).stream = e.stream.put rhs.stream.str := by
  simp [importError, put]

@[simp] theorem importError_status : (e.importError rhs).status = (e.push rhs.status).status := rfl

end ErrorHandler

/-! ## Histories -/

namespace ErrorLog

/-- What is done to one of the objects; a copied object starts with an `assign`. -/
inductive Op (ι : Type)
  | put (i : ι) (t : Str)
  | push (i : ι) (c : ErrorType)
  | importError (i j : ι)
  | assign (i j : ι)
  | clear (i : ι)
  deriving DecidableEq, Repr

variable {ι : Type} [DecidableEq ι]

/-- One operation. -/
def step (s : ι → ErrorHandler) : Op ι → ι → ErrorHandler
  | .put i t => Function.update s i ((s i).put t)
  | .push i c => Function.update s i ((s i).push c)
  | .importError i j => Function.update s i ((s i).importError (s j))
  | .assign i j => Function.update s i ((s i).assign (s j))
  | .clear i => Function.update s i (s i).clear

/-- The objects after a history, its latest operation first. -/
def run : List (Op ι) → ι → ErrorHandler
  | [] => fun _ => .new
  | o :: h => step (run h) o

/-- The codes that reached each object since its last `clear`. -/
def pushed : List (Op ι) → ι → List ErrorType
  | [] => fun _ => []
  | .put _ _ :: h => pushed h
  | .push i c :: h => Function.update (pushed h) i (c :: pushed h i)
  | .importError i j :: h => Function.update (pushed h) i (pushed h j ++ pushed h i)
  | .assign i j :: h => Function.update (pushed h) i (pushed h j)
  | .clear i :: h => Function.update (pushed h) i []

/-- The text that reached each object since its last `clear`. -/
def logged : List (Op ι) → ι → Str
  | [] => fun _ => []
  | .put i t :: h => Function.update (logged h) i (logged h i ++ t)
  | .push _ _ :: h => logged h
  | .importError i j :: h => Function.update (logged h) i (logged h i ++ logged h j)
  | .assign i j :: h => Function.update (logged h) i (logged h j)
  | .clear i :: h => Function.update (logged h) i []

/-- The smallest code of a list that is not `success`, or `success` where there is none. -/
def Smallest (l : List ErrorType) (s : ErrorType) : Prop :=
  if s = .success then ∀ c ∈ l, c = .success
  else s ∈ l ∧ ∀ c ∈ l, c ≠ .success → s.code ≤ c.code

/-- Every object says what reached it, and the order of the pushes does not matter. -/
structure Faithful (h : List (Op ι)) : Prop where
  status : ∀ i l, l.Perm (pushed h i) → Smallest l (run h i).status
  text : ∀ i, (run h i).stream.str = logged h i

/-! ## The status -/

variable {h : List (Op ι)} {l l' : List ErrorType} {c s s' : ErrorType}

theorem code_eq_zero : c.code = 0 ↔ c = .success := by
  cases c <;> decide

theorem smallest_success : Smallest l .success ↔ ∀ c ∈ l, c = .success := by
  unfold Smallest
  rw [if_pos rfl]

theorem smallest_of_ne (hs : s ≠ .success) :
    Smallest l s ↔ s ∈ l ∧ ∀ c ∈ l, c ≠ .success → s.code ≤ c.code := by
  unfold Smallest
  rw [if_neg hs]

theorem Smallest.perm (hs : Smallest l s) (hl : l'.Perm l) : Smallest l' s := by
  by_cases h : s = .success
  · subst h
    rw [smallest_success] at hs ⊢
    intro c hc
    exact hs c (hl.mem_iff.mp hc)
  · rw [smallest_of_ne h] at hs ⊢
    exact ⟨hl.mem_iff.mpr hs.1, fun c hc => hs.2 c (hl.mem_iff.mp hc)⟩

/-- Codes put in front of a list in which nothing is recorded. -/
theorem Smallest.append_success (hs : Smallest l' s) (hl : ∀ c ∈ l, c = .success) :
    Smallest (l' ++ l) s := by
  by_cases h : s = .success
  · subst h
    rw [smallest_success] at hs ⊢
    intro c hc
    exact (List.mem_append.mp hc).elim (hs c) (hl c)
  · rw [smallest_of_ne h] at hs ⊢
    refine ⟨List.mem_append_left _ hs.1, ?_⟩
    intro c hc hne
    exact (List.mem_append.mp hc).elim (fun hc => hs.2 c hc hne) fun hc => absurd (hl c hc) hne

/-- Codes put in front of a list whose smallest code is not below theirs. -/
theorem Smallest.append_of_lt (hs : Smallest l' s) (hl : Smallest l c) (h0 : s ≠ .success)
    (hlt : s.code < c.code) : Smallest (l' ++ l) s := by
  have hc0 : c ≠ .success := by
    intro h
    subst h
    exact Nat.not_lt_zero _ hlt
  rw [smallest_of_ne h0] at hs ⊢
  rw [smallest_of_ne hc0] at hl
  refine ⟨List.mem_append_left _ hs.1, ?_⟩
  intro d hd hne
  rcases List.mem_append.mp hd with hd | hd
  · exact hs.2 d hd hne
  · exact hlt.le.trans (hl.2 d hd hne)

/-- Codes put in front of a list that has a code no greater than theirs. -/
theorem Smallest.append_of_le (hs : Smallest l' s) (hl : Smallest l c) (h0 : c ≠ .success)
    (hle : s = .success ∨ c.code ≤ s.code) : Smallest (l' ++ l) c := by
  rw [smallest_of_ne h0] at hl ⊢
  refine ⟨List.mem_append_right _ hl.1, ?_⟩
  intro d hd hne
  rcases List.mem_append.mp hd with hd | hd
  · rcases hle with rfl | hle
    · exact absurd (smallest_success.mp hs d hd) hne
    · have hs0 : s ≠ .success := by
        intro h
        subst h
        exact h0 (code_eq_zero.mp (Nat.le_zero.mp hle))
      exact hle.trans (((smallest_of_ne hs0).mp hs).2 d hd hne)
  · exact hl.2 d hd hne

/-- The status after the push of the smallest code of some more. -/
theorem Smallest.push {e : ErrorHandler} (hs : Smallest l' s) (he : Smallest l e.status) :
    Smallest (l' ++ l) (e.push s).status := by
  unfold ErrorHandler.push
  split
  · rename_i hnew
    show Smallest (l' ++ l) s
    rcases hnew with ⟨h0, hlt⟩ | h0
    · exact hs.append_of_lt he (fun h => h0 (code_eq_zero.mpr h)) hlt
    · rw [code_eq_zero.mp h0, smallest_success] at he
      exact hs.append_success he
  · rename_i hold
    apply hs.append_of_le he
    · exact fun h => hold (.inr (code_eq_zero.mpr h))
    · by_cases h : s = .success
      · exact .inl h
      · have h0 : s.code ≠ 0 := fun h' => h (code_eq_zero.mp h')
        exact .inr (Nat.le_of_not_lt fun hlt => hold (.inl ⟨h0, hlt⟩))

theorem smallest_singleton : Smallest [c] c := by
  by_cases h : c = .success
  · subst h
    simp [smallest_success]
  · simp [smallest_of_ne h]

/-- The status of every object, in every run: no operation can spoil it. -/
theorem smallest_status (h : List (Op ι)) (i : ι) : Smallest (pushed h i) (run h i).status := by
  induction h generalizing i with
  | nil => simp [pushed, run, ErrorHandler.new, smallest_success]
  | cons o h ih =>
    cases o with
    | put k t =>
      by_cases hi : i = k
      · subst hi
        simpa [pushed, run, step, ErrorHandler.put] using ih i
      · simpa [pushed, run, step, hi] using ih i
    | push k c =>
      by_cases hi : i = k
      · subst hi
        simpa [pushed, run, step] using smallest_singleton.push (ih i)
      · simpa [pushed, run, step, hi] using ih i
    | importError k j =>
      by_cases hi : i = k
      · subst hi
        simpa [pushed, run, step] using (ih j).push (ih i)
      · simpa [pushed, run, step, hi] using ih i
    | assign k j =>
      by_cases hi : i = k
      · subst hi
        simpa [pushed, run, step, ErrorHandler.assign] using ih j
      · simpa [pushed, run, step, hi] using ih i
    | clear k =>
      by_cases hi : i = k
      · subst hi
        simp [pushed, run, step, ErrorHandler.clear, smallest_success]
      · simpa [pushed, run, step, hi] using ih i

/-! ## The text -/

/-- The objects whose text is a copy, with the position at its start. -/
def copied : List (Op ι) → ι → Bool
  | [] => fun _ => false
  | .assign i j :: h => Function.update (copied h) i (decide (logged h j ≠ []))
  | .put _ _ :: h | .push _ _ :: h | .importError _ _ :: h | .clear _ :: h => copied h

/-- Nothing is written to a copy of a text, and no text is cleared. -/
def Harmless (h : List (Op ι)) : Op ι → Prop
  | .put i t => t = [] ∨ copied h i = false
  | .importError i j => logged h j = [] ∨ copied h i = false
  | .clear i => logged h i = []
  | .push _ _ | .assign _ _ => True

/-- The stream of an object that is as it should be. -/
structure Written (o : OStringStream) (t : Str) (copy : Bool) : Prop where
  str : o.str = t
  pos : o.pos = if copy then 0 else t.length
  text : copy = true → t ≠ []

variable {o : OStringStream} {t u : Str} {copy : Bool}

theorem written_setStr : Written (o.setStr t) t (decide (t ≠ [])) := by
  refine ⟨rfl, ?_, of_decide_eq_true⟩
  by_cases ht : t = []
  · simp [ht]
  · simp [ht]

theorem Written.put (hw : Written o t copy) (hu : u = [] ∨ copy = false) :
    Written (o.put u) (t ++ u) copy := by
  rcases hu with rfl | rfl
  · simpa using hw
  · have hpos : o.pos = o.str.length := by simpa [hw.str] using hw.pos
    rw [OStringStream.put_of_pos_eq_length hpos, hw.str]
    exact ⟨rfl, rfl, fun h => absurd h Bool.false_ne_true⟩

/-- What is written to a copy spoils it. -/
theorem Written.of_put (hw : Written o t copy) (h : (o.put u).str = t ++ u) :
    u = [] ∨ copy = false := by
  by_contra hn
  obtain ⟨hu, hc⟩ : u ≠ [] ∧ copy = true := by simpa using hn
  have hpos : o.pos = 0 := by simpa [hc] using hw.pos
  have hne : o.str ≠ [] := by
    rw [hw.str]
    exact hw.text hc
  apply OStringStream.put_str_ne_append hpos hne hu
  rw [h, hw.str]

theorem Written.clear (hw : Written o t copy) (ht : t = []) : Written o.clear [] copy := by
  subst ht
  exact hw

/-- An operation that is harmless leaves every stream as it should be. -/
theorem written_step {op : Op ι}
    (hw : ∀ i, Written (run h i).stream (logged h i) (copied h i)) (hop : Harmless h op) (i : ι) :
    Written (run (op :: h) i).stream (logged (op :: h) i) (copied (op :: h) i) := by
  cases op with
  | put k t =>
    by_cases hi : i = k
    · subst hi
      simpa [run, step, logged, copied, ErrorHandler.put] using (hw i).put hop
    · simpa [run, step, logged, copied, hi] using hw i
  | push k c =>
    by_cases hi : i = k
    · subst hi
      simpa [run, step, logged, copied] using hw i
    · simpa [run, step, logged, copied, hi] using hw i
  | importError k j =>
    by_cases hi : i = k
    · subst hi
      simpa [run, step, logged, copied, (hw j).str] using (hw i).put hop
    · simpa [run, step, logged, copied, hi] using hw i
  | assign k j =>
    by_cases hi : i = k
    · subst hi
      have hs := written_setStr (o := (run h i).stream) (t := logged h j)
      simpa [run, step, logged, copied, ErrorHandler.assign, (hw j).str] using hs
    · simpa [run, step, logged, copied, hi] using hw i
  | clear k =>
    by_cases hi : i = k
    · subst hi
      simpa [run, step, logged, copied, ErrorHandler.clear] using (hw i).clear hop
    · simpa [run, step, logged, copied, hi] using hw i

/-- An operation that leaves every text right is harmless. -/
theorem harmless_of_text {op : Op ι}
    (hw : ∀ i, Written (run h i).stream (logged h i) (copied h i))
    (ht : ∀ i, (run (op :: h) i).stream.str = logged (op :: h) i) : Harmless h op := by
  cases op with
  | put k t =>
    apply (hw k).of_put
    simpa [run, step, logged, ErrorHandler.put] using ht k
  | push k c => trivial
  | importError k j =>
    apply (hw k).of_put
    simpa [run, step, logged, (hw j).str] using ht k
  | assign k j => trivial
  | clear k =>
    have hk : (run h k).stream.str = [] := by
      simpa [run, step, logged, ErrorHandler.clear] using ht k
    show logged h k = []
    rw [← (hw k).str, hk]

/-- The streams after a run of harmless operations. -/
theorem written_run (hh : ∀ o h', o :: h' <:+ h → Harmless h' o) (i : ι) :
    Written (run h i).stream (logged h i) (copied h i) := by
  induction h generalizing i with
  | nil => exact ⟨rfl, rfl, fun h => absurd h Bool.false_ne_true⟩
  | cons o h ih =>
    apply written_step
    · exact ih fun o' h' hs => hh o' h' (hs.trans (List.suffix_cons _ _))
    · exact hh o h List.suffix_rfl

theorem faithful_iff_text :
    Faithful h ↔ ∀ i, (run h i).stream.str = logged h i := by
  constructor
  · exact fun hf => hf.text
  · intro ht
    exact ⟨fun i l hl => (smallest_status h i).perm hl, ht⟩

/-- **The log is right in every state of a run** exactly when the run writes nothing to a copy of
a text and clears no text. -/
theorem faithful_iff_harmless (h : List (Op ι)) :
    (∀ h', h' <:+ h → Faithful h') ↔ ∀ o h', o :: h' <:+ h → Harmless h' o := by
  constructor
  · intro hf
    induction h with
    | nil =>
      intro o h' hs
      exact absurd (List.eq_nil_of_suffix_nil hs) (List.cons_ne_nil _ _)
    | cons op h ih =>
      have hh := ih fun h' hs => hf h' (hs.trans (List.suffix_cons _ _))
      intro o h' hs
      rcases List.suffix_cons_iff.mp hs with heq | hs
      · obtain ⟨rfl, rfl⟩ := List.cons.inj heq
        apply harmless_of_text (written_run hh)
        exact (hf _ List.suffix_rfl).text
      · exact hh o h' hs
  · intro hh h' hs
    rw [faithful_iff_text]
    intro i
    exact (written_run (fun o h'' hs' => hh o h'' (hs'.trans hs)) i).str

/-- A text put on a copy of `"ab"` covers the first of its characters. -/
theorem not_faithful_copy :
    ¬ Faithful [Op.put true ['c'], .assign true false, .put false ['a', 'b']] := by
  intro hf
  exact absurd (hf.text true) (by decide)

/-- A text that is cleared is still there. -/
example : ¬ Faithful [Op.clear (), .put () ['a']] := by
  intro hf
  exact absurd (hf.text ()) (by decide)

end ErrorLog
end TigerCompiler
