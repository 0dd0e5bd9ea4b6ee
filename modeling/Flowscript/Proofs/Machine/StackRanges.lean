import Mathlib.Order.Bounds.Defs
import Mathlib.Order.CompletePartialOrder
import Mathlib.Order.Interval.Set.Disjoint
import Flowscript.Proofs.Machine.StorageRanges
import Flowscript.Proofs.Run.OutlivingReferences

/-! # Ranges of a stack

A stack hands out ranges from its top and goes back to marks. A mark may be stale: the top may have been below it
since, so going back to it may cut a range in two. A range that the top has stayed above since it was handed out is
whole, and all such ranges lie apart.
-/
namespace Flowscript.BumpStack

/-- What is asked of a stack: a range with an alignment of at most that of the block it is taken from, where its top
is, or to go back to one of the marks that were taken. -/
inductive Demand where
  | alloc (l : Layout) (hl : l.align ∣ 16)
  | mark
  | rewind (i : Nat)

/-- A stack and the marks that were taken, the first one first. -/
structure Ledger where
  stack : BumpStack
  marks : List Nat := []

def Ledger.answer (s : Ledger) : Demand → Ledger
  | .alloc l _ => match s.stack.alloc? l with
    | some taken => { s with stack := taken.2 }
    | none => s
  | .mark => { s with marks := s.marks ++ [s.stack.used] }
  | .rewind i => match s.marks[i]? with
    | some mark => { s with stack := s.stack.rewind mark }
    | none => s

def after (capacity : Nat) (ds : List Demand) : Ledger := ds.foldl Ledger.answer { stack := .ofCapacity capacity }

/-- A demand for a range was met with one that starts somewhere. -/
structure Granted (capacity : Nat) (ds : List Demand) (i : Nat) (l : Layout) (start : Nat) : Prop where
  asked : ∃ hl, ds[i]? = some (.alloc l hl)
  given : ∃ s, (after capacity (ds.take i)).stack.alloc? l = some (start, s)

/-- The top has stayed above the end of the range since. -/
structure Whole (capacity : Nat) (ds : List Demand) (i : Nat) (l : Layout) (start : Nat) : Prop
    extends Granted capacity ds i l start where
  kept : ∀ j, i < j → j ≤ ds.length → start + l.size ≤ (after capacity (ds.take j)).stack.used

variable {capacity i i' start start' : Nat} {ds : List Demand} {l l' : Layout} {s s' : BumpStack}

theorem after_concat (capacity : Nat) (ds : List Demand) (d : Demand) :
    after capacity (ds ++ [d]) = (after capacity ds).answer d := List.foldl_concat _ _ _ _

/-- The top and the highest it ever was are within the capacity. -/
structure Sound (s : BumpStack) : Prop where
  used : s.used ≤ s.highWater
  highWater : s.highWater ≤ s.capacity

theorem highWater_of_alloc? (h : s.alloc? l = some (start, s')) : s'.highWater = max s.highWater s'.used := by
  simp only [alloc?] at h
  split at h
  · cases h
    rfl
  · cases h

/-- What a demand does to a stack: nothing, or a range is taken, or the top goes back. -/
theorem answer_cases (s : Ledger) (d : Demand) : (s.answer d).stack = s.stack ∨
    (∃ l start, s.stack.alloc? l = some (start, (s.answer d).stack)) ∨
    ∃ mark, (s.answer d).stack = s.stack.rewind mark := by
  cases d with
  | alloc l hl =>
    rw [Ledger.answer]
    cases h : s.stack.alloc? l with
    | none => exact .inl rfl
    | some taken => exact .inr (.inl ⟨l, taken.1, h⟩)
  | mark => exact .inl rfl
  | rewind i =>
    rw [Ledger.answer]
    cases s.marks[i]? with
    | none => exact .inl rfl
    | some mark => exact .inr (.inr ⟨mark, rfl⟩)

theorem capacity_answer (s : Ledger) (d : Demand) : (s.answer d).stack.capacity = s.stack.capacity := by
  rcases answer_cases s d with h | ⟨l, start, h⟩ | ⟨mark, h⟩
  · rw [h]
  · exact (alloc?_le h).2.2
  · rw [h]
    rfl

theorem sound_answer {s : Ledger} (hs : s.stack.Sound) (d : Demand) : (s.answer d).stack.Sound := by
  rcases answer_cases s d with h | ⟨l, start, h⟩ | ⟨mark, h⟩
  · rwa [h]
  · obtain ⟨-, hle, hcapacity⟩ := alloc?_le h
    have hwater := highWater_of_alloc? h
    refine ⟨hwater ▸ le_max_right _ _, ?_⟩
    rw [hwater, hcapacity]
    exact max_le hs.highWater hle
  · rw [h]
    exact ⟨(Nat.min_le_right _ _).trans hs.used, hs.highWater⟩

/-- The highest that the top ever was is where it was before, or where the top is now. -/
theorem highWater_answer (s : Ledger) (d : Demand) : s.stack.highWater ≤ (s.answer d).stack.highWater ∧
    ((s.answer d).stack.highWater = s.stack.highWater ∨ (s.answer d).stack.highWater = (s.answer d).stack.used) := by
  rcases answer_cases s d with h | ⟨l, start, h⟩ | ⟨mark, h⟩
  · rw [h]
    exact ⟨le_rfl, .inl rfl⟩
  · rw [highWater_of_alloc? h]
    exact ⟨le_max_left _ _, max_choice _ _⟩
  · rw [h]
    exact ⟨le_rfl, .inl rfl⟩

theorem sound_after (capacity : Nat) (ds : List Demand) :
    (after capacity ds).stack.Sound ∧ (after capacity ds).stack.capacity = max capacity 1 := by
  induction ds using List.reverseRecOn with
  | nil => exact ⟨⟨le_rfl, Nat.zero_le _⟩, rfl⟩
  | append_singleton ds d ih =>
    rw [after_concat]
    exact ⟨sound_answer ih.1 d, (capacity_answer _ d).trans ih.2⟩

/-- The highest that the top ever was is the highest of where it was after each of the demands. -/
theorem isGreatest_highWater (capacity : Nat) (ds : List Demand) :
    IsGreatest {u | ∃ before, before <+: ds ∧ (after capacity before).stack.used = u}
      (after capacity ds).stack.highWater := by
  induction ds using List.reverseRecOn with
  | nil =>
    refine ⟨⟨[], List.prefix_rfl, rfl⟩, ?_⟩
    rintro u ⟨before, hbefore, rfl⟩
    rw [List.prefix_nil.mp hbefore]
    exact le_rfl
  | append_singleton ds d ih =>
    obtain ⟨⟨before, hbefore, hused⟩, hupper⟩ := ih
    obtain ⟨hle, hhigh⟩ := highWater_answer (after capacity ds) d
    rw [← after_concat] at hle hhigh
    constructor
    · rcases hhigh with hsame | hnow
      · exact ⟨before, hbefore.trans (List.prefix_append ds [d]), hused.trans hsame.symm⟩
      · exact ⟨ds ++ [d], List.prefix_rfl, hnow.symm⟩
    · rintro u ⟨before', hbefore', rfl⟩
      rcases List.prefix_concat_iff.mp hbefore' with rfl | hbefore'
      · exact (sound_after capacity (ds ++ [d])).1.used
      · exact (hupper ⟨before', hbefore', rfl⟩).trans hle

theorem alloc?_eq_none_iff (hl : l.align ≠ 0) : s.alloc? l = none ↔
    ¬ ∃ start, s.used ≤ start ∧ l.align ∣ start ∧ start + l.size ≤ s.capacity := by
  simp only [alloc?]
  split
  · next hfits =>
    refine iff_of_false (Option.some_ne_none _) (not_not_intro ?_)
    exact ⟨_, le_roundUp _ _, dvd_roundUp _ hl, hfits⟩
  · next hfull =>
    refine iff_of_true rfl ?_
    rintro ⟨start, hle, hdvd, hfits⟩
    exact hfull ((Nat.add_le_add_right (roundUp_le hle hdvd) _).trans hfits)

theorem align_ne_zero (hl : l.align ∣ 16) : l.align ≠ 0 := fun h => by
  rw [h, Nat.zero_dvd] at hl
  cases hl

theorem Granted.lt_length (h : Granted capacity ds i l start) : i < ds.length := by
  obtain ⟨hl, hasked⟩ := h.asked
  exact (List.getElem?_eq_some_iff.mp hasked).1

theorem Granted.used_le (h : Granted capacity ds i l start) : (after capacity (ds.take i)).stack.used ≤ start := by
  obtain ⟨s, hs⟩ := h.given
  exact (used_of_alloc? hs).1

theorem Granted.end_le (h : Granted capacity ds i l start) : start + l.size ≤ max capacity 1 := by
  obtain ⟨s, hs⟩ := h.given
  have hle := (alloc?_le hs).2.1
  rwa [(used_of_alloc? hs).2, (sound_after capacity (ds.take i)).2] at hle

theorem Granted.dvd_start (h : Granted capacity ds i l start) : l.align ∣ start := by
  obtain ⟨hl, -⟩ := h.asked
  obtain ⟨s, hs⟩ := h.given
  simp only [alloc?] at hs
  split at hs
  · cases hs
    exact dvd_roundUp _ (align_ne_zero hl)
  · cases hs

theorem Granted.dvd_address (h : Granted capacity ds i l start) {base : Nat} (hbase : 16 ∣ base) :
    l.align ∣ base + start := by
  obtain ⟨hl, -⟩ := h.asked
  exact Nat.dvd_add (hl.trans hbase) h.dvd_start

theorem Whole.end_le_start (h : Whole capacity ds i l start) (h' : Granted capacity ds i' l' start') (hlt : i < i') :
    start + l.size ≤ start' := (h.kept i' hlt h'.lt_length.le).trans h'.used_le

theorem Whole.disjoint (h : Whole capacity ds i l start) (h' : Whole capacity ds i' l' start') (hne : i ≠ i') :
    Disjoint (Set.Ico start (start + l.size)) (Set.Ico start' (start' + l'.size)) := by
  rw [Set.Ico_disjoint_Ico]
  rcases Nat.lt_or_gt_of_ne hne with hlt | hlt
  · exact min_le_of_left_le ((h.end_le_start h'.toGranted hlt).trans (le_max_right _ _))
  · exact min_le_of_right_le ((h'.end_le_start h.toGranted hlt).trans (le_max_left _ _))

theorem Whole.end_le_used (h : Whole capacity ds i l start) : start + l.size ≤ (after capacity ds).stack.used := by
  have hkept := h.kept ds.length h.lt_length le_rfl
  rwa [List.take_length] at hkept

/-- Whatever is asked of a stack, its top stays within the highest that it ever was, and this within the capacity.
A range is refused just if it does not fit, and then nothing changes. The ranges that are handed out are aligned and
within the capacity, and those that the top has not gone back into lie apart and below the top. -/
theorem ranges_apart (capacity : Nat) (ds : List Demand) :
    ((after capacity ds).stack.used ≤ (after capacity ds).stack.highWater ∧
      (after capacity ds).stack.highWater ≤ (after capacity ds).stack.capacity ∧
      (after capacity ds).stack.capacity = max capacity 1) ∧
    IsGreatest {u | ∃ before, before <+: ds ∧ (after capacity before).stack.used = u}
      (after capacity ds).stack.highWater ∧
    (∀ l hl, (after capacity ds).stack.alloc? l = none →
      after capacity (ds ++ [.alloc l hl]) = after capacity ds ∧
        ¬ ∃ start, (after capacity ds).stack.used ≤ start ∧
        l.align ∣ start ∧ start + l.size ≤ (after capacity ds).stack.capacity) ∧
    (∀ i l start, Granted capacity ds i l start → l.align ∣ start ∧
    (∀ base, 16 ∣ base → l.align ∣ base + start) ∧
      start + l.size ≤ (after capacity ds).stack.capacity) ∧
    (∀ i l start, Whole capacity ds i l start → start + l.size ≤ (after capacity ds).stack.used) ∧
    ∀ i l start i' l' start', Whole capacity ds i l start → Whole capacity ds i' l' start' → i ≠ i' →
      Disjoint (Set.Ico start (start + l.size)) (Set.Ico start' (start' + l'.size)) := by
  obtain ⟨⟨hused, hwater⟩, hcapacity⟩ := sound_after capacity ds
  refine ⟨⟨hused, hwater, hcapacity⟩, isGreatest_highWater capacity ds, fun l hl hnone => ⟨?_, ?_⟩,
    fun i l start h => ⟨h.dvd_start, fun base => h.dvd_address, hcapacity ▸ h.end_le⟩,
    fun i l start h => h.end_le_used, fun i l start i' l' start' h h' => h.disjoint h'⟩
  · rw [after_concat, Ledger.answer, hnone]
  · exact (alloc?_eq_none_iff (align_ne_zero hl)).mp hnone

/-- The second mark is stale when the second range is taken, and going back to it cuts that range. -/
example :
    (after 64 [.mark, .alloc ⟨8, 8⟩ (by decide), .mark, .rewind 0, .alloc ⟨32, 16⟩ (by decide),
      .rewind 1]).stack =
      ⟨64, 8, 32⟩ := rfl

end Flowscript.BumpStack
