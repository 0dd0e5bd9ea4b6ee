import Mathlib.Algebra.Order.BigOperators.Group.List
import Mathlib.Algebra.Order.Group.Nat
import Mathlib.Algebra.Order.Ring.Nat
import Mathlib.Logic.Relation
import Flowscript.Type.Catalogue

/-! # Searching along successors

A search walks from some things to their successors until it meets one with a given key. It expands
each key once, so it ends, and it succeeds exactly when a chain of successors leads to the key. The
walk from types to their bases is such a search.
-/
namespace Flowscript

variable {α κ : Type} [DecidableEq κ] (key : α → κ) (next : α → List α) (goal : κ)

/-- A search with what is to be looked at next on top of a stack. -/
def search : Nat → List κ → List α → Bool
  | 0, _, _ => false
  | _ + 1, _, [] => false
  | fuel + 1, seen, x :: rest =>
    if key x = goal then true
    else if seen.contains (key x) then search fuel seen rest
    else search fuel (key x :: seen) (next x ++ rest)

def unseen (keys : List κ) (width : κ → Nat) (seen : List κ) : Nat :=
  (keys.map fun k => if k ∈ seen then 0 else width k).sum

/-- What a search may be used on: keys tell things apart, and only so many have successors. -/
structure Searchable (proper : α → Prop) (keys : List κ) (width : κ → Nat) : Prop where
  closed : ∀ x, proper x → ∀ y ∈ next x, proper y
  inj : ∀ x y, proper x → proper y → key x = key y → x = y
  narrow : ∀ x, proper x → (next x).length ≤ if key x ∈ keys then width (key x) else 0

section Unseen

variable {keys : List κ} {seen : List κ}

theorem unseen_cons_le (keys : List κ) (width : κ → Nat) (seen : List κ) (k : κ) :
    unseen keys width (k :: seen) ≤ unseen keys width seen := by
  refine List.sum_le_sum fun j _ => ?_
  by_cases hj : j ∈ seen
  · rw [if_pos (List.mem_cons_of_mem k hj), if_pos hj]
  · rw [if_neg hj]
    split
    · exact Nat.zero_le _
    · exact le_rfl

theorem unseen_expand (width : κ → Nat) {k : κ} (hk : k ∈ keys) (hnew : k ∉ seen) :
    unseen keys width (k :: seen) + width k ≤ unseen keys width seen := by
  obtain ⟨before, after, rfl⟩ := List.append_of_mem hk
  have hbefore := unseen_cons_le before width seen k
  have hafter := unseen_cons_le after width seen k
  unfold unseen at *
  simp only [List.map_append, List.sum_append, List.map_cons, List.sum_cons, List.mem_cons, true_or,
    if_true, if_neg hnew] at *
  omega

end Unseen

variable {key next goal} {proper : α → Prop} {keys : List κ} {width : κ → Nat}

theorem Searchable.length_expand_le (hs : Searchable key next proper keys width) {seen : List κ} {x : α}
    (hx : proper x) (hnew : key x ∉ seen) (rest : List α) :
    (next x ++ rest).length + unseen keys width (key x :: seen) ≤ rest.length + unseen keys width seen := by
  have hnarrow := hs.narrow x hx
  rw [List.length_append]
  split at hnarrow
  · next hk =>
    have hexpand := unseen_expand width hk hnew
    omega
  · have hle := unseen_cons_le keys width seen (key x)
    omega

def LeadsTo (next : α → List α) : α → α → Prop := Relation.ReflTransGen fun x y => y ∈ next x

theorem exists_of_search {fuel : Nat} {seen : List κ} {stack : List α}
    (h : search key next goal fuel seen stack = true) :
    ∃ x ∈ stack, ∃ y, LeadsTo next x y ∧ key y = goal := by
  induction fuel generalizing seen stack with
  | zero => cases h
  | succ fuel ih =>
    cases stack with
    | nil => cases h
    | cons x rest =>
      rw [search] at h
      split at h
      · next hgoal => exact ⟨x, List.mem_cons_self, x, .refl, hgoal⟩
      · split at h
        · obtain ⟨z, hz, hrest⟩ := ih h
          exact ⟨z, List.mem_cons_of_mem x hz, hrest⟩
        · obtain ⟨z, hz, y, hy, hgoal⟩ := ih h
          rcases List.mem_append.mp hz with hz | hz
          · exact ⟨x, List.mem_cons_self, y, .head hz hy, hgoal⟩
          · exact ⟨z, List.mem_cons_of_mem x hz, y, hy, hgoal⟩

def Swept (key : α → κ) (next : α → List α) (goal : κ) (proper : α → Prop) (seen : List κ)
    (stack : List α) : Prop :=
  ∀ x, proper x → key x ∈ seen → key x ≠ goal ∧ ∀ y ∈ next x, key y ∈ seen ∨ y ∈ stack

/-- Once nothing is to come, nothing leads out of what was seen. -/
theorem Swept.ne_goal (hs : Searchable key next proper keys width) {seen : List κ}
    (h : Swept key next goal proper seen []) {x : α} (hx : proper x) (hseen : key x ∈ seen) {y : α}
    (hy : LeadsTo next x y) : key y ≠ goal := by
  have hall : proper y ∧ key y ∈ seen := by
    induction hy with
    | refl => exact ⟨hx, hseen⟩
    | tail _ hstep ih =>
      refine ⟨hs.closed _ ih.1 _ hstep, ?_⟩
      exact ((h _ ih.1 ih.2).2 _ hstep).resolve_right List.not_mem_nil
  exact (h y hall.1 hall.2).1

theorem ne_of_search_eq_false (hs : Searchable key next proper keys width) {fuel : Nat}
    {seen : List κ} {stack : List α} (hstack : ∀ x ∈ stack, proper x)
    (hfuel : stack.length + unseen keys width seen ≤ fuel)
    (hswept : Swept key next goal proper seen stack)
    (h : search key next goal fuel seen stack = false) {x : α} (hx : proper x)
    (hmem : x ∈ stack ∨ key x ∈ seen) {y : α} (hy : LeadsTo next x y) : key y ≠ goal := by
  induction fuel generalizing seen stack x with
  | zero =>
    obtain rfl : stack = [] := List.length_eq_zero_iff.mp (by omega)
    exact hswept.ne_goal hs hx (hmem.resolve_left List.not_mem_nil) hy
  | succ fuel ih =>
    cases stack with
    | nil =>
      exact hswept.ne_goal hs hx (hmem.resolve_left List.not_mem_nil) hy
    | cons top rest =>
      obtain ⟨htop, hrest⟩ := List.forall_mem_cons.mp hstack
      rw [List.length_cons] at hfuel
      rw [search] at h
      split at h
      · cases h
      · next hgoal =>
        split at h
        · next hseen =>
          rw [List.contains_iff_mem] at hseen
          refine ih hrest (by omega) (fun z hz hzs => ?_) h hx ?_ hy
          · refine ⟨(hswept z hz hzs).1, fun u hu => ?_⟩
            rcases (hswept z hz hzs).2 u hu with hu | hu
            · exact .inl hu
            · rcases List.mem_cons.mp hu with rfl | hu
              · exact .inl hseen
              · exact .inr hu
          · rcases hmem with hmem | hmem
            · rcases List.mem_cons.mp hmem with rfl | hmem
              · exact .inr hseen
              · exact .inl hmem
            · exact .inr hmem
        · next hnew =>
          rw [List.contains_iff_mem] at hnew
          have hall : ∀ z ∈ next top ++ rest, proper z := fun z hz =>
            (List.mem_append.mp hz).elim (hs.closed top htop z) (hrest z)
          have hroom := hs.length_expand_le htop hnew rest
          refine ih hall (by omega) (fun z hz hzs => ?_) h hx ?_ hy
          · rcases List.mem_cons.mp hzs with heq | hzs
            · obtain rfl := hs.inj z top hz htop heq
              exact ⟨hgoal, fun u hu => .inr (List.mem_append_left rest hu)⟩
            · refine ⟨(hswept z hz hzs).1, fun u hu => ?_⟩
              rcases (hswept z hz hzs).2 u hu with hu | hu
              · exact .inl (List.mem_cons_of_mem _ hu)
              · rcases List.mem_cons.mp hu with rfl | hu
                · exact .inl List.mem_cons_self
                · exact .inr (List.mem_append_right _ hu)
          · rcases hmem with hmem | hmem
            · rcases List.mem_cons.mp hmem with rfl | hmem
              · exact .inr List.mem_cons_self
              · exact .inl (List.mem_append_right _ hmem)
            · exact .inr (List.mem_cons_of_mem _ hmem)

/-- A search with enough fuel succeeds exactly when a chain of successors leads to the goal. -/
theorem search_iff (hs : Searchable key next proper keys width) {fuel : Nat} {stack : List α}
    (hstack : ∀ x ∈ stack, proper x) (hfuel : stack.length + unseen keys width [] ≤ fuel) :
    search key next goal fuel [] stack = true ↔
      ∃ x ∈ stack, ∃ y, LeadsTo next x y ∧ key y = goal := by
  refine ⟨exists_of_search, fun ⟨x, hx, y, hy, hgoal⟩ => ?_⟩
  by_contra h
  rw [Bool.not_eq_true] at h
  exact ne_of_search_eq_false hs hstack hfuel (fun _ _ hz => nomatch hz) h (hstack x hx) (.inl hx) hy
    hgoal

end Flowscript
