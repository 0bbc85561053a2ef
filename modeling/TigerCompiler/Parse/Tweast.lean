import Mathlib.Algebra.Ring.Nat
import TigerCompiler.Ast.Syntax
import TigerCompiler.Misc.Template

/-!
# `parse::Tweast`

Texts with embedded abstract syntax trees: a text to be parsed in which metavariables stand for
trees already built, and the maps from the numbers of these metavariables to the trees.
-/

namespace TigerCompiler

open Template (replaceFirst)

/-- The kinds of trees which a Tweast can hold: `ast::Exp`, `ast::Var`, `ast::NameTy` and
`ast::ChunkList`. -/
inductive AstKind where
  | exp | lvalue | namety | chunks
  deriving DecidableEq

namespace AstKind

/-- `name_`. -/
def name : AstKind → Str
  | exp => ['e', 'x', 'p']
  | lvalue => ['l', 'v', 'a', 'l', 'u', 'e']
  | namety => ['n', 'a', 'm', 'e', 't', 'y']
  | chunks => ['c', 'h', 'u', 'n', 'k', 's']

/-- In the order in which `flatten` moves them. -/
def all : List AstKind := [exp, lvalue, namety, chunks]

theorem mem_all (k : AstKind) : k ∈ all := by
  cases k <;> simp [all]

end AstKind

/-- The `name_` of `MetavarMap<Tweast>`. -/
def tweastName : Str := ['t', 'w', 'e', 'a', 's', 't']

namespace MetavarMap

/-- `show`. -/
def showKey (name : Str) (key : Nat) : Str :=
  '_' :: (name ++ '(' :: (Nat.toDigits 10 key ++ [')']))

/-- `map_[key] = data`, the map being listed in the order of its keys. -/
def set {α : Type} (key : Nat) (data : α) : List (Nat × α) → List (Nat × α)
  | [] => [(key, data)]
  | p :: map =>
    if key < p.1 then (key, data) :: p :: map
    else if key = p.1 then (key, data) :: map
    else p :: set key data map

theorem set_perm {α : Type} {key : Nat} {data : α} {map : List (Nat × α)}
    (h : key ∉ map.map Prod.fst) : (set key data map).Perm ((key, data) :: map) := by
  induction map with
  | nil => exact .refl _
  | cons p map ih =>
    have hp : key ≠ p.1 := fun hp => h (by simp [hp])
    have hmap : key ∉ map.map Prod.fst := fun hm => h (by simp [hm])
    unfold set
    by_cases hlt : key < p.1
    · rw [if_pos hlt]
    · rw [if_neg hlt, if_neg hp]
      exact ((ih hmap).cons p).trans (.swap _ _ _)

end MetavarMap

open MetavarMap

/-- `Tweast`: `input_`, the maps of the four kinds of trees, and the map of the Tweasts. -/
inductive Tweast where
  | mk (input : Str) (metavars : AstKind → List (Nat × Addr)) (tweasts : List (Nat × Tweast))

namespace Tweast

def input : Tweast → Str
  | mk input _ _ => input

def metavars : Tweast → AstKind → List (Nat × Addr)
  | mk _ metavars _ => metavars

def tweasts : Tweast → List (Nat × Tweast)
  | mk _ _ tweasts => tweasts

/-- `++count_`, an `unsigned`. -/
def next (count : Nat) : Nat := (count + 1) % 2 ^ 32

/-- `Tweast()`. -/
def new : Tweast := mk [] (fun _ => []) []

/-! ## `operator<<` -/

/-- What is not a metavariable is written as it is. -/
def append (t : Tweast) (s : Str) : Tweast := mk (t.input ++ s) t.metavars t.tweasts

/-- A pointer to a tree. -/
def appendMetavar (t : Tweast) (kind : AstKind) (data : Addr) (count : Nat) : Tweast × Nat :=
  (mk (t.input ++ showKey kind.name count)
    (Function.update t.metavars kind (set count data (t.metavars kind))) t.tweasts, next count)

/-- A pointer to a Tweast. -/
def appendTweast (t : Tweast) (data : Tweast) (count : Nat) : Tweast × Nat :=
  (mk (t.input ++ showKey tweastName count) t.metavars (set count data t.tweasts), next count)

/-! ## `flatten` -/

/-- The maps that metavariables move to, the input they are renamed in, and `count_`. -/
structure Moving where
  metavars : AstKind → List (Nat × Addr)
  input : Str
  count : Nat

/-- One turn of the loop of `move_metavars_`. -/
def moveMetavar (kind : AstKind) (m : Moving) (var : Nat × Addr) : Moving where
  metavars := Function.update m.metavars kind (set m.count var.2 (m.metavars kind))
  input := replaceFirst m.input (showKey kind.name var.1) (showKey kind.name m.count)
  count := next m.count

/-- `move_metavars_`. -/
def moveMetavars (tweast : Tweast) (m : Moving) (kind : AstKind) : Moving :=
  (tweast.metavars kind).foldl (moveMetavar kind) m

/-- What `flatten` works on: `input_` and the maps, `count_`, and the Tweasts which are deleted,
as they are at that moment. -/
structure Flattening where
  input : Str
  metavars : AstKind → List (Nat × Addr)
  count : Nat
  deleted : List Tweast

/-- One turn of the second loop of `flatten`, with the deletion of the Tweast. -/
def grab (f : Flattening) (t : Nat × Tweast) : Flattening :=
  let m := AstKind.all.foldl (moveMetavars t.2) ⟨f.metavars, t.2.input, f.count⟩
  { input := replaceFirst f.input (showKey tweastName t.1) m.input
    metavars := m.metavars
    count := m.count
    deleted := f.deleted ++ [mk t.2.input (fun _ => []) t.2.tweasts] }

mutual

/-- `flatten`. -/
def flatten : Tweast → Nat → Tweast × Nat × List Tweast
  | mk input metavars tweasts, count =>
    let r := flattenAll tweasts count
    let f := r.1.foldl grab ⟨input, metavars, r.2.1, r.2.2⟩
    (mk f.input f.metavars [], f.count, f.deleted)

/-- The first loop of `flatten`. -/
def flattenAll : List (Nat × Tweast) → Nat → List (Nat × Tweast) × Nat × List Tweast
  | [], count => ([], count, [])
  | (n, t) :: ts, count =>
    let r := flatten t count
    let rs := flattenAll ts r.2.1
    ((n, r.1) :: rs.1, rs.2.1, r.2.2 ++ rs.2.2)

end

/-- Nothing is left to take, as the destructors assert. -/
def Emptied (t : Tweast) : Prop := (∀ kind, t.metavars kind = []) ∧ t.tweasts = []

/-! ## Metavariables in a text -/

/-- What is written as a metavariable of a kind, whatever its number. -/
def IsMetavarOf (name s : Str) : Prop :=
  ∃ ds : Str, ds ≠ [] ∧ (∀ d ∈ ds, d.isDigit) ∧ s = '_' :: (name ++ '(' :: (ds ++ [')']))

/-- What is written as a metavariable. -/
def IsMetavar (s : Str) : Prop :=
  IsMetavarOf tweastName s ∨ ∃ kind : AstKind, IsMetavarOf kind.name s

/-- The metavariable of the maps that a text starts with, and its length. -/
def look (metavars : AstKind → List (Nat × Addr)) (s : Str) : Option (Nat × AstKind × Addr) :=
  AstKind.all.findSome? fun kind =>
    (metavars kind).findSome? fun p =>
      if (showKey kind.name p.1).isPrefixOf s then
        some ((showKey kind.name p.1).length, kind, p.2)
      else none

/-- The text with every metavariable replaced with its tree. -/
def substitute (t : Tweast) : Template Char (AstKind × Addr) :=
  Template.read (look t.metavars) 0 t.input

end Tweast

end TigerCompiler
