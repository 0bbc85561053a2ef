import Mathlib.Data.List.Basic
import Mathlib.Data.List.Infix

/-!
# Texts with holes

A text some places of which are holes, written out as a plain text by giving every hole a mark.
When the marks are delimited and the text between the holes contains none, what looks like a mark
in the written text is the mark of a hole: searching for a mark, replacing the first one found and
reading the text back all see the holes and nothing else.
-/

/-- A character or a hole. -/
inductive Piece (σ β : Type) where
  | chr (c : σ)
  | hole (b : β)
  deriving DecidableEq

abbrev Template (σ β : Type) := List (Piece σ β)

namespace Template

variable {σ β γ : Type}

/-- A text without holes. -/
def ofText (s : List σ) : Template σ β := s.map .chr

/-- The text written out. -/
def render (mark : β → List σ) : Template σ β → List σ
  | [] => []
  | .chr c :: t => c :: render mark t
  | .hole b :: t => mark b ++ render mark t

/-- The holes, in their order. -/
def holes : Template σ β → List β
  | [] => []
  | .chr _ :: t => holes t
  | .hole b :: t => b :: holes t

/-- Every hole replaced with a text of its own. -/
def fill (f : β → Template σ γ) : Template σ β → Template σ γ
  | [] => []
  | .chr c :: t => .chr c :: fill f t
  | .hole b :: t => f b ++ fill f t

/-- The same text with other holes. -/
def map (g : β → γ) : Template σ β → Template σ γ := fill fun b => [.hole (g b)]

/-- The text between the holes contains no mark. -/
def Clean (IsMark : List σ → Prop) (t : Template σ β) : Prop :=
  ∀ s, IsMark s → ¬ ofText s <:+: t

section Shape

variable (mark : β → List σ) (f : β → Template σ γ) (g : β → γ) (s : List σ)
  (t u : Template σ β)

@[simp] theorem render_append : render mark (t ++ u) = render mark t ++ render mark u := by
  induction t with
  | nil => rfl
  | cons p t ih => cases p <;> simp [render, ih]

@[simp] theorem render_ofText : render mark (ofText s) = s := by
  induction s with
  | nil => rfl
  | cons c s ih => exact congrArg (c :: ·) ih

@[simp] theorem holes_append : holes (t ++ u) = holes t ++ holes u := by
  induction t with
  | nil => rfl
  | cons p t ih => cases p <;> simp [holes, ih]

@[simp] theorem holes_ofText : holes (ofText s : Template σ β) = [] := by
  induction s with
  | nil => rfl
  | cons c s ih => exact ih

@[simp] theorem fill_append : fill f (t ++ u) = fill f t ++ fill f u := by
  induction t with
  | nil => rfl
  | cons p t ih => cases p <;> simp [fill, ih]

@[simp] theorem fill_ofText : fill f (ofText s) = ofText s := by
  induction s with
  | nil => rfl
  | cons c s ih => exact congrArg (.chr c :: ·) ih

@[simp] theorem map_append : map g (t ++ u) = map g t ++ map g u := fill_append _ _ _

@[simp] theorem map_ofText : map g (ofText s) = ofText s := fill_ofText _ _

@[simp] theorem map_nil : map g ([] : Template σ β) = [] := rfl

@[simp] theorem map_chr (c : σ) : map g (.chr c :: t) = .chr c :: map g t := rfl

@[simp] theorem map_hole (b : β) : map g (.hole b :: t) = .hole (g b) :: map g t := rfl

@[simp] theorem holes_map : holes (map g t) = (holes t).map g := by
  induction t with
  | nil => rfl
  | cons p t ih =>
    cases p with
    | chr c => exact ih
    | hole b => exact congrArg (g b :: ·) ih

theorem render_map (mark : γ → List σ) :
    render mark (map g t) = render (fun b => mark (g b)) t := by
  induction t with
  | nil => rfl
  | cons p t ih =>
    cases p with
    | chr c => exact congrArg (c :: ·) ih
    | hole b => exact congrArg (mark (g b) ++ ·) ih

theorem fill_map {δ : Type} (f : γ → Template σ δ) :
    fill f (map g t) = fill (fun b => f (g b)) t := by
  induction t with
  | nil => rfl
  | cons p t ih =>
    cases p with
    | chr c => exact congrArg (.chr c :: ·) ih
    | hole b => exact congrArg (f (g b) ++ ·) ih

end Shape

variable {mark : β → List σ} {t t₁ t₂ : Template σ β}

theorem fill_congr {f f' : β → Template σ γ} (h : ∀ b ∈ holes t, f b = f' b) :
    fill f t = fill f' t := by
  induction t with
  | nil => rfl
  | cons p t ih =>
    cases p with
    | chr c => exact congrArg (.chr c :: ·) (ih h)
    | hole b =>
      rw [fill, fill, h b List.mem_cons_self, ih fun b hb => h b (List.mem_cons_of_mem _ hb)]

theorem mem_holes_iff {b : β} : b ∈ holes t ↔ .hole b ∈ t := by
  induction t with
  | nil => simp [holes]
  | cons p t ih => cases p <;> simp [holes, ih]

/-- A text that is clean once its holes are filled was clean before. -/
theorem Clean.of_fill {IsMark : List σ → Prop} {f : β → Template σ γ}
    (h : Clean IsMark (fill f t)) : Clean IsMark t := by
  rintro s hs ⟨u, v, rfl⟩
  apply h s hs
  exact ⟨fill f u, fill f v, by simp⟩

theorem Clean.of_infix {IsMark : List σ → Prop} (h : Clean IsMark t) (hu : t₁ <:+: t) :
    Clean IsMark t₁ :=
  fun s hs hst => h s hs (hst.trans hu)

/-! ## Delimited marks -/

/-- A mark opens with a character, closes with another one, and has them nowhere else. -/
def Delimited (o c : σ) (IsMark : List σ → Prop) : Prop :=
  o ≠ c ∧ ∀ s, IsMark s → ∃ w, s = o :: (w ++ [c]) ∧ o ∉ w ∧ c ∉ w

theorem Delimited.mem {o c : σ} {IsMark : List σ → Prop} (hd : Delimited o c IsMark) {m : List σ}
    (hm : IsMark m) : o ∈ m ∧ c ∈ m := by
  obtain ⟨w, rfl, -⟩ := hd.2 m hm
  simp

/-- A text without the opening character is clean. -/
theorem Delimited.clean {o c : σ} {IsMark : List σ → Prop} (hd : Delimited o c IsMark)
    (h : .chr o ∉ t) : Clean IsMark t := by
  intro m hm hin
  exact h (hin.subset (List.mem_map_of_mem (hd.mem hm).1))

section Marks

variable {o c : σ} {IsMark : List σ → Prop} (hd : Delimited o c IsMark)
  (hm : ∀ b, IsMark (mark b))

/-- What is before a character is known when the character is not in it. -/
theorem eq_of_append_cons {w w' r r' : List σ} (hw : c ∉ w) (hw' : c ∉ w')
    (h : w ++ c :: r = w' ++ c :: r') : w = w' ∧ r = r' := by
  induction w generalizing w' with
  | nil =>
    cases w' with
    | nil => exact ⟨rfl, by simpa using h⟩
    | cons d w' =>
      injection h with hcd _
      exact absurd (hcd ▸ List.mem_cons_self) hw'
  | cons d w ih =>
    cases w' with
    | nil =>
      injection h with hcd _
      exact absurd (hcd ▸ List.mem_cons_self) hw
    | cons d' w' =>
      injection h with hdd h
      obtain ⟨rfl, rfl⟩ := ih (List.not_mem_of_not_mem_cons hw) (List.not_mem_of_not_mem_cons hw') h
      exact ⟨by rw [hdd], rfl⟩

include hd in
/-- A mark is not the beginning of another one. -/
theorem mark_eq_of_prefix {m m' r r' : List σ} (hm : IsMark m) (hm' : IsMark m')
    (h : m ++ r = m' ++ r') : m = m' := by
  obtain ⟨w, rfl, -, hw⟩ := hd.2 m hm
  obtain ⟨w', rfl, -, hw'⟩ := hd.2 m' hm'
  have h : w ++ c :: r = w' ++ c :: r' := by simpa using h
  rw [(eq_of_append_cons hw hw' h).1]

include hd hm in
/-- A piece of text without the opening character has no hole in it. -/
private theorem ofText_prefix {v b : List σ} (hv : o ∉ v) (h : render mark t = v ++ b) :
    (ofText v : Template σ β) <+: t := by
  induction v generalizing t with
  | nil => exact List.nil_prefix
  | cons e v ih =>
    cases t with
    | nil => cases h
    | cons p t =>
      cases p with
      | chr d =>
        injection h with hde h
        subst hde
        obtain ⟨u, hu⟩ := ih (List.not_mem_of_not_mem_cons hv) h
        exact ⟨u, congrArg (Piece.chr d :: ·) hu⟩
      | hole x =>
        obtain ⟨w, hw, -, -⟩ := hd.2 _ (hm x)
        rw [render, hw] at h
        injection h with hoe _
        exact absurd (hoe ▸ List.mem_cons_self) hv

include hd hm in
/-- What looks like a mark in a clean text is the mark of a hole. -/
theorem exists_hole (hc : Clean IsMark t) {a m b : List σ} (hmark : IsMark m)
    (h : render mark t = a ++ (m ++ b)) :
    ∃ t₁ x t₂, t = t₁ ++ .hole x :: t₂ ∧ a = render mark t₁ ∧ m = mark x ∧
      b = render mark t₂ := by
  obtain ⟨w, rfl, how, hcw⟩ := hd.2 m hmark
  induction t generalizing a with
  | nil =>
    have := congrArg List.length h
    simp [render] at this
  | cons p t ih =>
    have hct : Clean IsMark t := hc.of_infix ⟨[p], [], by simp⟩
    cases p with
    | chr d =>
      cases a with
      | nil =>
        injection h with hdo h
        subst hdo
        have hv : d ∉ w ++ [c] := by simp [how, hd.1]
        obtain ⟨u, hu⟩ := ofText_prefix hd hm hv h
        exact absurd ⟨[], u, congrArg (Piece.chr d :: ·) hu⟩ (hc _ hmark)
      | cons e a =>
        injection h with hde h
        subst hde
        obtain ⟨t₁, x, t₂, rfl, rfl, hx, rfl⟩ := ih hct h
        exact ⟨.chr d :: t₁, x, t₂, rfl, rfl, hx, rfl⟩
    | hole y =>
      obtain ⟨v, hy, hov, hcv⟩ := hd.2 _ (hm y)
      rw [render] at h
      obtain ⟨a', rfl, ht⟩ | ⟨r, hr, hrest⟩ := List.append_eq_append_iff.mp h
      · obtain ⟨t₁, x, t₂, rfl, rfl, hx, rfl⟩ := ih hct ht
        exact ⟨.hole y :: t₁, x, t₂, rfl, rfl, hx, rfl⟩
      · cases r with
        | nil =>
          obtain ⟨t₁, x, t₂, rfl, ha', hx, rfl⟩ := ih (a := []) hct hrest.symm
          refine ⟨.hole y :: t₁, x, t₂, rfl, ?_, hx, rfl⟩
          rw [render, ← ha', hr, List.append_nil, List.append_nil]
        | cons e r =>
          injection hrest with hoe hrest
          subst hoe
          cases a with
          | nil =>
            have hvr : v ++ [c] = r := by
              rw [hy] at hr
              simpa using hr
            obtain ⟨rfl, rfl⟩ : w = v ∧ b = render mark t := by
              apply eq_of_append_cons hcw hcv
              rw [← hvr] at hrest
              simpa using hrest
            exact ⟨[], y, t, rfl, rfl, hy.symm, rfl⟩
          | cons e a =>
            -- the mark of `y` would have the opening character in it once more
            have hmem : o ∈ v ++ [c] := by
              rw [hy] at hr
              injection hr with _ hr
              rw [hr]
              simp
            have : o ∉ v ++ [c] := by simp [hov, hd.1]
            exact absurd hmem this

include hd hm in
/-- Different holes have their marks at different places. -/
theorem render_left_unique (hc : Clean IsMark t) (hn : ((holes t).map mark).Nodup) {x : β}
    {b : List σ} (ht : t = t₁ ++ .hole x :: t₂) {a : List σ}
    (h : render mark t = a ++ (mark x ++ b)) : a = render mark t₁ ∧ b = render mark t₂ := by
  obtain ⟨u₁, y, u₂, hu, rfl, hxy, rfl⟩ := exists_hole hd hm hc (hm x) h
  have heq : t₁ ++ .hole x :: t₂ = u₁ ++ .hole y :: u₂ := ht.symm.trans hu
  obtain ⟨s, rfl, hs⟩ | ⟨s, rfl, hs⟩ := List.append_eq_append_iff.mp heq
  · cases s with
    | nil =>
      injection hs with _ hs
      simp [hs]
    | cons p s =>
      injection hs with hp hs
      subst hp hu
      rw [hs] at ht
      simp [holes, List.nodup_append, hxy] at hn
  · cases s with
    | nil =>
      injection hs with _ hs
      simp [hs]
    | cons p s =>
      injection hs with hp hs
      subst hp ht
      rw [hs] at hu
      simp [holes, List.nodup_append, hxy] at hn

end Marks

/-! ## Replacing a mark -/

section Replace

variable [DecidableEq σ]

/-- `boost::algorithm::replace_first`: the first `search` of the input becomes `format`. -/
def replaceFirst : List σ → List σ → List σ → List σ
  | [], _, _ => []
  | c :: cs, search, format =>
    if search.isPrefixOf (c :: cs) then format ++ (c :: cs).drop search.length
    else c :: replaceFirst cs search format

/-- What is searched for is at one place. -/
theorem replaceFirst_append {a s b : List σ} (f : List σ) (hs : s ≠ [])
    (h : ∀ a' b', a ++ (s ++ b) = a' ++ (s ++ b') → a' = a) :
    replaceFirst (a ++ (s ++ b)) s f = a ++ (f ++ b) := by
  induction a with
  | nil =>
    obtain ⟨c, s, rfl⟩ := List.exists_cons_of_ne_nil hs
    rw [List.nil_append, List.cons_append, replaceFirst, if_pos (by simp)]
    simp
  | cons c a ih =>
    rw [List.cons_append, replaceFirst, if_neg]
    · rw [ih, List.cons_append]
      intro a' b' heq
      have := h (c :: a') b' (congrArg (c :: ·) heq)
      exact (List.cons.inj this).2
    · intro hp
      obtain ⟨b', hb'⟩ := List.isPrefixOf_iff_prefix.mp hp
      have := h [] b' hb'.symm
      cases this

variable {o c : σ} {IsMark : List σ → Prop}

/-- Replacing a mark replaces its hole. -/
theorem replaceFirst_render (hd : Delimited o c IsMark) (hm : ∀ b, IsMark (mark b)) {x : β}
    (hc : Clean IsMark (t₁ ++ .hole x :: t₂))
    (hn : ((holes (t₁ ++ .hole x :: t₂)).map mark).Nodup) (f : List σ) :
    replaceFirst (render mark (t₁ ++ .hole x :: t₂)) (mark x) f =
      render mark t₁ ++ (f ++ render mark t₂) := by
  have hne : mark x ≠ [] := by
    obtain ⟨w, hw, -⟩ := hd.2 _ (hm x)
    simp [hw]
  have hr : render mark (t₁ ++ .hole x :: t₂) =
      render mark t₁ ++ (mark x ++ render mark t₂) := by simp [render]
  rw [hr]
  apply replaceFirst_append f hne
  intro a' b' h
  exact (render_left_unique hd hm hc hn rfl (hr.trans h)).1

end Replace

/-! ## Reading a text back -/

/-- The text is read from left to right, `look` saying how long a mark is and what its hole is;
what is left of a mark is skipped. -/
def read (look : List σ → Option (Nat × γ)) : Nat → List σ → Template σ γ
  | _, [] => []
  | skip + 1, _ :: cs => read look skip cs
  | 0, c :: cs =>
    match look (c :: cs) with
    | some (n, b) => .hole b :: read look (n - 1) cs
    | none => .chr c :: read look 0 cs

theorem read_skip (look : List σ → Option (Nat × γ)) (s r : List σ) :
    read look s.length (s ++ r) = read look 0 r := by
  induction s with
  | nil => rfl
  | cons c s ih => exact ih

/-- A clean text written out is read back. -/
theorem read_render {o c : σ} {IsMark : List σ → Prop} (hd : Delimited o c IsMark)
    (hm : ∀ b, IsMark (mark b)) {look : List σ → Option (Nat × γ)} {g : β → γ}
    (hc : Clean IsMark t)
    (hsome : ∀ b ∈ holes t, ∀ r, look (mark b ++ r) = some ((mark b).length, g b))
    (hlook : ∀ s p, look s = some p → ∃ m r, s = m ++ r ∧ IsMark m) :
    read look 0 (render mark t) = map g t := by
  induction t with
  | nil => rfl
  | cons p t ih =>
    have hct : Clean IsMark t := hc.of_infix ⟨[p], [], by simp⟩
    cases p with
    | chr d =>
      have hnone : look (d :: render mark t) = none := by
        rw [Option.eq_none_iff_forall_ne_some]
        intro p hp
        obtain ⟨m, r, hmr, hmark⟩ := hlook _ _ hp
        obtain ⟨t₁, x, t₂, ht, ha, -, -⟩ :=
          exists_hole (t := .chr d :: t) (a := []) hd hm hc hmark hmr
        cases t₁ with
        | nil => cases ht
        | cons p t₁ =>
          injection ht with hp _
          subst hp
          cases ha
      rw [render, read, hnone, map_chr, ih hct hsome]
    | hole b =>
      obtain ⟨w, hw, -, -⟩ := hd.2 _ (hm b)
      have hb := hsome b List.mem_cons_self (render mark t)
      rw [hw, List.cons_append] at hb
      rw [render, hw, List.cons_append, read, hb, map_hole]
      have hlen : (o :: (w ++ [c])).length - 1 = (w ++ [c]).length := by simp
      show Piece.hole (g b) ::
        read look ((o :: (w ++ [c])).length - 1) (w ++ [c] ++ render mark t) = _
      rw [hlen, read_skip, ih hct fun b' hb' => hsome b' (List.mem_cons_of_mem _ hb')]

end Template
