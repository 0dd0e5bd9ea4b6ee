import Flowscript.Graph.Basic

/-! # Arrays of slots

How the element that a number names changes when slots are set and added.
-/
namespace Flowscript

variable {α : Type} {slots : Array (Option α)} {number other : Nat}

theorem slot?_eq_some_iff {a : α} :
    slot? slots number = some a ↔ number ≠ 0 ∧ slots[number - 1]? = some (some a) := by
  unfold slot?
  split
  · simp [*]
  · simp [*, Option.join_eq_some_iff]

theorem slot?_succ {i : Nat} {a : α} : slot? slots (i + 1) = some a ↔ slots[i]? = some (some a) := by
  rw [slot?_eq_some_iff]
  simp

theorem slot?_bound {a : α} (h : slot? slots number = some a) :
    0 < number ∧ number ≤ slots.size := by
  obtain ⟨hne, hget⟩ := slot?_eq_some_iff.mp h
  obtain ⟨hlt, -⟩ := Array.getElem?_eq_some_iff.mp hget
  omega

theorem mem_live_iff {a : α} : a ∈ live slots ↔ ∃ number, slot? slots number = some a := by
  simp only [live, List.mem_filterMap, id_eq, exists_eq_right, slot?_eq_some_iff]
  rw [Array.mem_toList_iff, Array.mem_iff_getElem?]
  constructor
  · rintro ⟨i, hi⟩
    exact ⟨i + 1, by omega, by simpa using hi⟩
  · rintro ⟨number, -, hget⟩
    exact ⟨number - 1, hget⟩

@[simp] theorem size_setSlot (slots : Array (Option α)) (number : Nat) (value : Option α) :
    (setSlot slots number value).size = slots.size := by
  unfold setSlot
  split
  · rfl
  · exact Array.size_setIfInBounds

theorem slot?_setSlot_of_ne (value : Option α) (h : other ≠ number) :
    slot? (setSlot slots number value) other = slot? slots other := by
  unfold slot? setSlot
  split
  · rfl
  · split
    · rfl
    · rw [Array.getElem?_setIfInBounds_ne (by omega)]

theorem slot?_setSlot_self (value : Option α) (h : 0 < number) (hn : number ≤ slots.size) :
    slot? (setSlot slots number value) number = value := by
  unfold slot? setSlot
  rw [if_neg (by omega), if_neg (by omega), Array.getElem?_setIfInBounds_self_of_lt (by omega)]
  rfl

theorem slot?_setSlot {value : Option α} {a : α}
    (h : slot? (setSlot slots number value) other = some a) :
    other = number ∧ value = some a ∨ other ≠ number ∧ slot? slots other = some a := by
  by_cases he : other = number
  · subst he
    have hb := slot?_bound h
    rw [size_setSlot] at hb
    rw [slot?_setSlot_self value hb.1 hb.2] at h
    exact .inl ⟨rfl, h⟩
  · rw [slot?_setSlot_of_ne value he] at h
    exact .inr ⟨he, h⟩

theorem isSome_slot?_setSlot (a : α)
    (h : (slot? slots other).isSome ∨ other = number ∧ 0 < number ∧ number ≤ slots.size) :
    (slot? (setSlot slots number (some a)) other).isSome := by
  by_cases he : other = number
  · have hb : 0 < number ∧ number ≤ slots.size := by
      rcases h with h | h
      · obtain ⟨b, hb⟩ := Option.isSome_iff_exists.mp h
        exact he ▸ slot?_bound hb
      · exact h.2
    rw [he, slot?_setSlot_self _ hb.1 hb.2]
    rfl
  · rw [slot?_setSlot_of_ne _ he]
    exact h.resolve_right fun h => he h.1

theorem slot?_push_of_ne (value : Option α) (h : other ≠ slots.size + 1) :
    slot? (slots.push value) other = slot? slots other := by
  unfold slot?
  split
  · rfl
  · rw [Array.getElem?_push, if_neg (by omega)]

theorem slot?_push_self (value : Option α) :
    slot? (slots.push value) (slots.size + 1) = value := by
  simp [slot?]

theorem slot?_append_of_le (more : Array (Option α)) (h : other ≤ slots.size) :
    slot? (slots ++ more) other = slot? slots other := by
  unfold slot?
  split
  · rfl
  · rw [Array.getElem?_append_left (by omega)]

theorem slot?_append_of_lt (more : Array (Option α)) (h : slots.size < other) :
    slot? (slots ++ more) other = more[other - slots.size - 1]?.join := by
  unfold slot?
  rw [if_neg (by omega), Array.getElem?_append_right (by omega)]
  congr 2
  omega

@[simp] theorem slot?_empty (number : Nat) : slot? (#[] : Array (Option α)) number = none := by
  simp [slot?]

theorem slot?_map {β : Type} {f : Option α → Option β} (hf : f none = none) :
    slot? (slots.map f) number = f (slot? slots number) := by
  unfold slot?
  split
  · exact hf.symm
  · rw [Array.getElem?_map]
    cases slots[number - 1]? with
    | none => exact hf.symm
    | some slot => rfl

@[simp] theorem slot?_replicate (size : Nat) :
    slot? (Array.replicate size (none : Option α)) number = none := by
  unfold slot?
  split
  · rfl
  · rw [Array.getElem?_replicate]
    split <;> rfl

end Flowscript
