import Mathlib.Data.Finset.Card
import Mathlib.Data.Finset.Range
import Mathlib.Data.List.Forall2
import Mathlib.Data.List.Induction
import Mathlib.Data.List.Nodup
import Mathlib.Logic.Relation

/-! # Lists, arrays, relations and steps that may fail

Facts that mention nothing of the project.
-/
namespace Flowscript

variable {α β γ κ : Type}

section Lists

theorem getElem?_concat_eq_some_iff {xs : List α} {x y : α} {j : Nat} :
    (xs ++ [x])[j]? = some y ↔ xs[j]? = some y ∨ j = xs.length ∧ x = y := by
  rcases Nat.lt_trichotomy j xs.length with hj | rfl | hj
  · rw [List.getElem?_append_left hj]
    exact (or_iff_left fun hlast => hj.ne hlast.1).symm
  · simp
  · have hxs : xs[j]? = none := List.getElem?_eq_none hj.le
    have hlast : (xs ++ [x])[j]? = none := List.getElem?_eq_none (List.length_append.trans_le hj)
    rw [hxs, hlast]
    simp [hj.ne']

theorem idxOf_of_getElem? [BEq κ] [LawfulBEq κ] {keys : List κ} {key : κ} {i : Nat} (hnodup : keys.Nodup)
    (hkey : keys[i]? = some key) : keys.idxOf key = i := by
  obtain ⟨hi, rfl⟩ := List.getElem?_eq_some_iff.mp hkey
  exact hnodup.idxOf_getElem i hi

theorem zipIdx_eq_map [BEq κ] [LawfulBEq κ] {l : List α} {f : α → κ} (hnodup : (l.map f).Nodup) (n : Nat) :
    l.zipIdx n = l.map fun a => (a, n + (l.map f).idxOf (f a)) := by
  refine List.ext_getElem? fun i => ?_
  rw [List.getElem?_zipIdx, List.getElem?_map]
  cases hi : l[i]? with
  | none => rfl
  | some a =>
    have hkey : (l.map f)[i]? = some (f a) := by rw [List.getElem?_map, hi, Option.map_some]
    rw [Option.map_some, Option.map_some, idxOf_of_getElem? hnodup hkey]

theorem filterMap_range' {f : Nat → Option α} {first count : Nat} {found : List α}
    (hcount : count = found.length) (h : ∀ i, f (first + i) = found[i]?) :
    (List.range' first count).filterMap f = found := by
  have hget : ∀ found : List α,
      ((List.range found.length).filterMap fun i => found[i]?) = found := by
    intro found
    induction found with
    | nil => rfl
    | cons a found ih =>
      rw [List.length_cons, List.range_succ_eq_map, List.filterMap_cons, List.filterMap_map]
      exact congrArg (a :: ·) ih
  rw [List.range'_eq_map_range, List.filterMap_map, hcount]
  simp only [Function.comp_def, h]
  exact hget found

theorem length_filterMap_id (l : List (Option α)) :
    (l.filterMap id).length = ((Finset.range l.length).filter fun i => l[i]?.join.isSome).card := by
  induction l using List.reverseRecOn with
  | nil => rfl
  | append_singleton l a ih =>
    have hbefore : (Finset.range l.length).filter (fun i => (l ++ [a])[i]?.join.isSome) =
        (Finset.range l.length).filter fun i => l[i]?.join.isSome := by
      refine Finset.filter_congr fun i hi => ?_
      rw [List.getElem?_append_left (Finset.mem_range.mp hi)]
    rw [List.filterMap_append, List.length_append, List.length_append, List.length_singleton,
      Finset.range_add_one, Finset.filter_insert, hbefore, List.getElem?_concat_length, ih]
    cases a with
    | none => simp
    | some a => simp [Finset.card_insert_of_notMem]

theorem forall₂_and_right_iff {R : α → β → Prop} {P : β → Prop} {xs : List α} {ys : List β} :
    List.Forall₂ (fun x y => P y ∧ R x y) xs ys ↔ (∀ y ∈ ys, P y) ∧ List.Forall₂ R xs ys :=
  ⟨fun h => ((List.forall₂_and_left ys xs).mp h.flip).imp_right List.Forall₂.flip,
    fun ⟨hall, h⟩ => ((List.forall₂_and_left ys xs).mpr ⟨hall, h.flip⟩).flip⟩

/-- Nothing is left out exactly when everything is found, and then what is found stands in order. -/
theorem forall₂_filterMap_iff {R : α → γ → Prop} {f : β → Option γ} {xs : List α} {ys : List β} :
    (ys.filterMap f).length = ys.length ∧ List.Forall₂ R xs (ys.filterMap f) ↔
      List.Forall₂ (fun x y => ∃ z, f y = some z ∧ R x z) xs ys := by
  induction ys generalizing xs with
  | nil => simp
  | cons y ys ih =>
    cases hy : f y with
    | none =>
      have hle := List.length_filterMap_le f ys
      rw [List.filterMap_cons_none hy, List.length_cons]
      refine ⟨fun h => absurd h.1 (by omega), fun h => ?_⟩
      cases h with
      | cons hz _ =>
        obtain ⟨z, hz, -⟩ := hz
        rw [hy] at hz
        cases hz
    | some z =>
      rw [List.filterMap_cons_some hy, List.length_cons, List.length_cons, Nat.succ_inj]
      cases xs with
      | nil => simp
      | cons x xs =>
        rw [List.forall₂_cons, List.forall₂_cons, ← ih, hy]
        simp only [Option.some.injEq, exists_eq_left']
        tauto

end Lists

section Entries

variable {entries : List (κ × α)}

theorem lookup_map [BEq κ] (f : α → β) (key : κ) (entries : List (κ × α)) :
    (entries.map fun entry => (entry.1, f entry.2)).lookup key = (entries.lookup key).map f := by
  induction entries with
  | nil => rfl
  | cons entry rest ih =>
    rw [List.map_cons, List.lookup_cons, List.lookup_cons]
    cases key == entry.1 with
    | true => rfl
    | false => exact ih

variable [DecidableEq κ]

theorem lookup_cons_eq_ite (key : κ) (e : κ × α) (entries : List (κ × α)) :
    (e :: entries).lookup key = if key = e.1 then some e.2 else entries.lookup key := by
  rw [List.lookup_cons]
  by_cases hkey : key = e.1
  · rw [if_pos hkey, beq_iff_eq.mpr hkey]
  · rw [if_neg hkey, beq_false_of_ne hkey]

theorem lookup_filter (kept : κ → Bool) {key : κ} (h : kept key = true) :
    (entries.filter fun e => kept e.1).lookup key = entries.lookup key := by
  induction entries with
  | nil => rfl
  | cons e entries ih =>
    rw [List.filter_cons, lookup_cons_eq_ite key e]
    split
    · rw [lookup_cons_eq_ite, ih]
    · next hdropped =>
      have hne : key ≠ e.1 := fun heq => hdropped (heq ▸ h)
      rw [ih, if_neg hne]

theorem lookup_of_mem (h : (entries.map (·.1)).Nodup) {e : κ × α} (he : e ∈ entries) :
    entries.lookup e.1 = some e.2 := by
  induction entries with
  | nil => cases he
  | cons first entries ih =>
    obtain ⟨hfirst, hrest⟩ := List.nodup_cons.mp h
    rw [lookup_cons_eq_ite]
    rcases List.mem_cons.mp he with rfl | he
    · rw [if_pos rfl]
    · rw [if_neg fun heq => hfirst (List.mem_map.mpr ⟨e, he, heq⟩), ih hrest he]

theorem mem_keys_iff (key : κ) : key ∈ entries.map (·.1) ↔ (entries.lookup key).isSome := by
  induction entries with
  | nil => exact iff_of_false (List.not_mem_nil) Bool.false_ne_true
  | cons e entries ih =>
    rw [List.map_cons, List.mem_cons, ih, lookup_cons_eq_ite]
    by_cases hkey : key = e.1
    · rw [if_pos hkey]
      exact iff_of_true (.inl hkey) rfl
    · rw [if_neg hkey, or_iff_right hkey]

end Entries

section Bytes

variable {bytes : Array UInt8} {i o : Nat}

theorem getD_set_self (h : i < bytes.size) (x : UInt8) : (bytes.setIfInBounds i x).getD i 0 = x := by
  simp [Array.getD_eq_getD_getElem?, h]

theorem getD_set_of_ne (h : i ≠ o) (x : UInt8) : (bytes.setIfInBounds o x).getD i 0 = bytes.getD i 0 := by
  simp only [Array.getD_eq_getD_getElem?, Array.getElem?_setIfInBounds_ne h.symm]

end Bytes

section Steps

theorem bind_eq_ok_iff {ε : Type} {x : Except ε β} {f : β → Except ε α} {a : α} :
    x >>= f = .ok a ↔ ∃ b, x = .ok b ∧ f b = .ok a := by
  cases x with
  | error e =>
    refine ⟨fun h => ?_, fun ⟨_, h, _⟩ => ?_⟩ <;> cases h
  | ok b =>
    refine ⟨fun h => ⟨b, rfl, h⟩, fun ⟨_, h, hf⟩ => ?_⟩
    cases h
    exact hf

end Steps

section Relations

variable {r : α → α → Prop} {a : α}

theorem not_transGen_self_of_acc (h : Acc r a) : ¬ Relation.TransGen r a a := by
  have hacc := h.transGen
  clear h
  induction hacc with
  | intro a _ ih => exact fun hself => ih a hself hself

/-- Where only steps into some nodes can close a circle, every circle goes through one of them. -/
theorem exists_mem_of_transGen {found : List α}
    (hacyclic : ¬ Relation.TransGen (fun x y => r x y ∧ y ∉ found) a a) (hcycle : Relation.TransGen r a a) :
    ∃ b ∈ found, Relation.ReflTransGen r a b ∧ Relation.ReflTransGen r b a := by
  by_contra hnone
  have hnot : ∀ b, Relation.ReflTransGen r a b → Relation.ReflTransGen r b a → b ∉ found :=
    fun b hab hba hb => hnone ⟨b, hb, hab, hba⟩
  -- What lies between `a` and `a` is on a circle with `a`.
  have hlift : ∀ b, Relation.TransGen r a b → Relation.ReflTransGen r b a →
      Relation.TransGen (fun x y => r x y ∧ y ∉ found) a b := by
    intro b hab hba
    induction hab with
    | single hstep => exact .single ⟨hstep, hnot _ (.single hstep) hba⟩
    | tail hab hstep ih =>
      exact (ih (.head hstep hba)).tail ⟨hstep, hnot _ (hab.to_reflTransGen.tail hstep) hba⟩
  exact hacyclic (hlift a hcycle .refl)

end Relations

end Flowscript
