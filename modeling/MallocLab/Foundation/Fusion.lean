import Mathlib.Data.List.Chain

/-! # Fusing runs in a list

Some elements of a list can be joined with neighbours of their kind. Fusing
replaces every maximal run of such elements by one.
-/

namespace MallocLab

/-- Elements that can be joined, and how. -/
structure Fusion (Element : Type) where
  joins : Element → Bool
  join : Element → Element → Element
  joins_join : ∀ first second, joins (join first second) = true
  join_assoc : ∀ first second third,
    join (join first second) third = join first (join second third)

namespace Fusion

variable {Element : Type} (fusion : Fusion Element)

/-- Put an element before a fused list. -/
def push (element : Element) : List Element → List Element
  | [] => [element]
  | next :: rest =>
      if fusion.joins element = true ∧ fusion.joins next = true then
        fusion.join element next :: rest
      else element :: next :: rest

def fuse (list : List Element) : List Element := list.foldr fusion.push []

/-- One element for a whole run, given by its first element and the rest. -/
def joinAll : Element → List Element → Element
  | first, [] => first
  | first, second :: rest => fusion.join first (joinAll second rest)

/-- No two neighbours can be joined. -/
def Fused (list : List Element) : Prop :=
  list.IsChain fun left right => fusion.joins left = false ∨ fusion.joins right = false

variable {fusion} {element first second : Element} {list front rest back : List Element}

@[simp] theorem fuse_nil : fusion.fuse [] = [] := rfl

@[simp] theorem fuse_cons (element : Element) (list : List Element) :
    fusion.fuse (element :: list) = fusion.push element (fusion.fuse list) := rfl

theorem push_of_apart (apart : ∀ next ∈ list.head?,
    fusion.joins element = false ∨ fusion.joins next = false) :
    fusion.push element list = element :: list := by
  cases list with
  | nil => rfl
  | cons next rest =>
      have one := apart next rfl
      apply if_neg
      intro both
      rw [both.1, both.2] at one
      simp at one

/-- Joining two elements first makes no difference. -/
theorem push_join (firstJoins : fusion.joins first = true) (secondJoins : fusion.joins second = true)
    (list : List Element) :
    fusion.push first (fusion.push second list) = fusion.push (fusion.join first second) list := by
  cases list with
  | nil => simp [push, firstJoins, secondJoins]
  | cons next rest =>
      by_cases joins : fusion.joins next = true
      · simp [push, firstJoins, secondJoins, joins, fusion.joins_join, fusion.join_assoc]
      · simp [push, firstJoins, secondJoins, joins]

/-- Two neighbours may be joined before fusing. -/
theorem fuse_join (firstJoins : fusion.joins first = true) (secondJoins : fusion.joins second = true)
    (front back : List Element) :
    fusion.fuse (front ++ first :: second :: back) =
      fusion.fuse (front ++ fusion.join first second :: back) := by
  simp only [fuse, List.foldr_append, List.foldr_cons, push_join firstJoins secondJoins]

/-- A fused list stays as it is. -/
theorem fuse_of_fused (fused : fusion.Fused list) : fusion.fuse list = list := by
  induction list with
  | nil => rfl
  | cons element list ih =>
      have parts := List.isChain_cons.mp fused
      rw [fuse_cons, ih parts.2]
      exact push_of_apart parts.1

theorem push_append (nonempty : list ≠ []) :
    fusion.push element (list ++ back) = fusion.push element list ++ back := by
  cases list with
  | nil => exact (nonempty rfl).elim
  | cons next rest =>
      by_cases both : fusion.joins element = true ∧ fusion.joins next = true
      · rw [push, if_pos both, List.cons_append, push, if_pos both, List.cons_append]
      · rw [push, if_neg both, List.cons_append, push, if_neg both, List.cons_append,
          List.cons_append]

theorem fuse_ne_nil (element : Element) (list : List Element) :
    fusion.fuse (element :: list) ≠ [] := by
  rw [fuse_cons]
  cases fusion.fuse list with
  | nil => simp [push]
  | cons next rest =>
      rw [push]
      split <;> simp

/-- Two lists are fused apart when nothing joins the last element of the first
one. -/
theorem fuse_append (apart : ∀ last ∈ front.getLast?, fusion.joins last = false) :
    fusion.fuse (front ++ back) = fusion.fuse front ++ fusion.fuse back := by
  induction front with
  | nil => rfl
  | cons element front ih =>
      cases front with
      | nil =>
          have alone := apart element rfl
          exact push_of_apart fun _ _ => .inl alone
      | cons next front =>
          rw [List.cons_append, fuse_cons, ih apart, fuse_cons element]
          exact push_append (fuse_ne_nil next front)

theorem head_fuse (apart : ∀ next ∈ back.head?, fusion.joins next = false) :
    ∀ next ∈ (fusion.fuse back).head?, fusion.joins next = false := by
  cases back with
  | nil => exact apart
  | cons element back =>
      have alone := apart element rfl
      rw [fuse_cons, push_of_apart fun _ _ => .inl alone]
      exact apart

theorem push_run (joins : ∀ element ∈ first :: rest, fusion.joins element = true)
    (list : List Element) :
    (first :: rest).foldr fusion.push list = fusion.push (fusion.joinAll first rest) list := by
  induction rest generalizing first with
  | nil => rfl
  | cons second rest ih =>
      have later := ih (fun element member => joins element (List.mem_cons_of_mem _ member))
      have whole : fusion.joins (fusion.joinAll second rest) = true := by
        cases rest with
        | nil => exact joins second (by simp)
        | cons _ _ => exact fusion.joins_join _ _
      rw [List.foldr_cons, later, push_join (joins first List.mem_cons_self) whole]
      rfl

/-- A maximal run becomes one element between what the two sides become. -/
theorem fuse_run (joins : ∀ element ∈ first :: rest, fusion.joins element = true)
    (before : ∀ last ∈ front.getLast?, fusion.joins last = false)
    (after : ∀ next ∈ back.head?, fusion.joins next = false) :
    fusion.fuse (front ++ (first :: rest ++ back)) =
      fusion.fuse front ++ fusion.joinAll first rest :: fusion.fuse back := by
  have run : fusion.fuse (first :: rest ++ back) =
      fusion.joinAll first rest :: fusion.fuse back := by
    rw [fuse, List.foldr_append, push_run joins]
    exact push_of_apart fun next head => .inr (head_fuse after next head)
  rw [fuse_append before, run]

/-- A change that leaves joining elements alone may come before or after
fusing. -/
theorem fuse_map_fuse {change : Element → Element}
    (fixed : ∀ element, fusion.joins element = true → change element = element)
    (list : List Element) :
    fusion.fuse ((fusion.fuse list).map change) = fusion.fuse (list.map change) := by
  induction list with
  | nil => rfl
  | cons element list ih =>
      rw [fuse_cons, List.map_cons, fuse_cons, ← ih]
      rcases shape : fusion.fuse list with _ | ⟨next, rest⟩
      · rfl
      · by_cases both : fusion.joins element = true ∧ fusion.joins next = true
        · rw [push, if_pos both, List.map_cons, fuse_cons, List.map_cons, fuse_cons,
            fixed _ (fusion.joins_join _ _), fixed element both.1, fixed next both.2,
            push_join both.1 both.2]
        · rw [push, if_neg both, List.map_cons, fuse_cons]

end Fusion

end MallocLab
