import Mathlib.Data.List.Perm.Basic
import Flowscript.Machine.Lifecycle

/-! # The account of the values in care

A computation settles the values in its care when afterwards exactly those are in care that were
before, and the one that its result holds: nothing it constructed is forgotten, and nothing is lost
twice. `Machine.Holds` is the account of somebody with values in hand, and `Machine.Carries` how it
changes. A value that goes astray spoils the account: another value is then in care that nobody answers
for, and stays there unless a second value goes astray.
-/
namespace Flowscript

def resultCharges : Option Value → List Charge
  | some ⟨type, _, .owned place _ _⟩ => [⟨place, type⟩]
  | _ => []

/-- The values that come with the outcome of a computation: none if it failed. -/
def outcomeCharges {ε α : Type} (charges : α → List Charge) : Except ε α → List Charge
  | .ok r => charges r
  | .error _ => []

theorem resultCharges_borrowed (type : TypeId) (form : Form) (place : Place) :
    resultCharges (some (.borrowed type form place)) = [] := by
  unfold Value.borrowed
  split <;> rfl

theorem resultCharges_view (v : Value) (form : Form) : resultCharges (some (v.view form)) = [] := by
  unfold Value.view
  cases v.place? with
  | some place => exact resultCharges_borrowed v.type form place
  | none => rfl

namespace Care

variable {care : Care} {c : Charge}

theorem take_of_not_mem (h : c ∉ care.alive) :
    care.take c = { care with alive := c :: care.alive } := if_neg h

theorem lose_of_mem (h : c ∈ care.alive) :
    care.lose c = { care with alive := care.alive.erase c } := if_pos h

@[simp] theorem strays_take (care : Care) (c : Charge) : (care.take c).strays = care.strays := by
  unfold take
  split <;> rfl

@[simp] theorem strays_lose (care : Care) (c : Charge) : (care.lose c).strays = care.strays := by
  unfold lose
  split <;> rfl

theorem mem_alive_lose {other : Charge} (hne : other ≠ c) (h : other ∈ care.alive) :
    other ∈ (care.lose c).alive := by
  unfold lose
  split
  · exact (List.mem_erase_of_ne hne).mpr h
  · exact h

theorem mem_of_mem_alive_lose {other : Charge} (h : other ∈ (care.lose c).alive) :
    other ∈ care.alive := by
  unfold lose at h
  split at h
  · exact List.mem_of_mem_erase h
  · exact h

theorem mem_alive_take {other : Charge} (h : other ∈ care.alive) :
    other ∈ (care.take c).alive := by
  unfold take
  split
  · exact h
  · exact List.mem_cons_of_mem c h

theorem mem_of_mem_alive_take {other : Charge} (h : other ∈ (care.take c).alive) :
    other = c ∨ other ∈ care.alive := by
  unfold take at h
  split at h
  · exact .inr h
  · exact List.mem_cons.mp h

theorem handOver_self (care : Care) (c : Charge) : care.handOver c (some c) = care.lose c :=
  if_pos rfl

theorem strays_handOver {other : Charge} (care : Care) (hne : other ≠ c) :
    (care.handOver c (some other)).strays = c :: care.strays := by
  unfold handOver
  rw [if_neg (fun he => hne (Option.some.inj he)), strays_lose]

theorem mem_alive_handOver {other : Charge} (hne : other ≠ c) (h : other ∈ care.alive) :
    other ∈ (care.handOver c (some other)).alive := by
  unfold handOver
  rw [if_neg (fun he => hne (Option.some.inj he))]
  exact mem_alive_lose hne h

theorem mem_of_mem_alive_handOver {other : Charge} {released : Option Charge}
    (h : other ∈ (care.handOver c released).alive) : other ∈ care.alive := by
  unfold handOver at h
  dsimp only at h
  split at h <;> exact mem_of_mem_alive_lose h

end Care

namespace Machine

/-- Every value in care lies in a block that has been handed out. -/
def Ordered (m : Machine) : Prop := ∀ c ∈ m.care.alive, c.place.block < m.memory.next

/-- In care are the values that were, and new ones in new blocks. Nothing was taken twice, nor lost
while not in care. -/
structure Settles (m m' : Machine) (extra : List Charge) : Prop where
  alive : m'.care.alive.Perm (extra ++ m.care.alive)
  faults : m'.care.faults = m.care.faults
  fresh : ∀ c ∈ extra, m.memory.next ≤ c.place.block
  next : m.memory.next ≤ m'.memory.next
  ordered : m'.Ordered

/-- A value in care that nobody answers for: it lies in one of the blocks from a number on, but in none
that is in use, and it is not in hand. -/
structure Leaks (low : Nat) (used : Nat → Prop) (hand : List Charge) (m : Machine) : Prop where
  ordered : m.Ordered
  bound : ∀ k, used k → k < m.memory.next
  known : ∀ c ∈ hand, c.place.block < m.memory.next
  leak : ∃ c ∈ m.care.alive, low ≤ c.place.block ∧ ¬used c.place.block ∧
    ∀ d ∈ hand, d.place.block ≠ c.place.block

/-- Since there were so many strays, one value has gone astray and another is not answered for, or
more than one has gone astray. -/
def Spoilt (strays low : Nat) (used : Nat → Prop) (hand : List Charge) (m : Machine) : Prop :=
  strays + 1 < m.care.strays.length ∨
    m.care.strays.length = strays + 1 ∧ m.Leaks low used hand

/-- How a computation leaves the machine that had no values in hand and then has some: the values in
care are settled, unless one went astray. An account that was spoilt stays so. -/
structure Leaves (m m' : Machine) (extra : List Charge) : Prop where
  next : m.memory.next ≤ m'.memory.next
  strays : m.care.strays.length ≤ m'.care.strays.length
  spoilt : ∀ strays low used, m.Spoilt strays low used [] → m'.Spoilt strays low used extra
  settles : m.Ordered →
    m'.Spoilt m.care.strays.length m.memory.next (· < m.memory.next) extra ∨
      m'.care.strays = m.care.strays ∧ m.Settles m' extra

/-- What is in care, as somebody sees it who has some values in hand and leaves the others alone: those
in hand lie in blocks there is room in, as there is in all blocks not handed out yet. -/
structure Holds (faults : List Charge) (room : Nat → Prop) (others hand : List Charge)
    (m : Machine) : Prop where
  faults_eq : m.care.faults = faults
  alive : m.care.alive.Perm (hand ++ others)
  inside : ∀ c ∈ hand, room c.place.block
  known : ∀ c ∈ hand ++ others, c.place.block < m.memory.next
  beyond : ∀ k, m.memory.next ≤ k → room k

/-- From having some values in hand to having others. -/
structure Carries (before after : List Charge) (m m' : Machine) : Prop where
  next : m.memory.next ≤ m'.memory.next
  strays : m.care.strays.length ≤ m'.care.strays.length
  spoilt : ∀ strays low used, m.Spoilt strays low used before → m'.Spoilt strays low used after
  holds : ∀ faults room others, m.Holds faults room others before →
    m'.Spoilt m.care.strays.length m.memory.next (· < m.memory.next) after ∨
      m'.care.strays = m.care.strays ∧ m'.Holds faults room others after

variable {m m' m'' : Machine} {before after after' : List Charge}

namespace Holds

variable {faults others hand : List Charge} {room : Nat → Prop}

theorem perm {others' : List Charge} (h : m.Holds faults room others hand)
    (hperm : others.Perm others') : m.Holds faults room others' hand :=
  { h with
    alive := h.alive.trans (hperm.append_left hand)
    known := fun c hc => h.known c ((hperm.append_left hand).mem_iff.mpr hc) }

theorem take (h : m.Holds faults room others hand) {c : Charge} (hnew : c ∉ hand ++ others)
    (hknown : c.place.block < m.memory.next) (hcare : m'.care = m.care.take c)
    (hnext : m.memory.next ≤ m'.memory.next) : m'.Holds faults room (c :: others) hand := by
  have hmem : c ∉ m.care.alive := fun hc => hnew (h.alive.mem_iff.mp hc)
  have hperm : (c :: (hand ++ others)).Perm (hand ++ c :: others) := List.perm_middle.symm
  rw [Care.take_of_not_mem hmem] at hcare
  refine ⟨by rw [hcare]; exact h.faults_eq, ?_, h.inside, fun d hd => ?_, fun k hk => ?_⟩
  · rw [hcare]
    exact (h.alive.cons c).trans hperm
  · rcases List.mem_cons.mp (hperm.mem_iff.mpr hd) with rfl | hd
    · omega
    · exact Nat.lt_of_lt_of_le (h.known d hd) hnext
  · exact h.beyond k (by omega)

theorem lose {c : Charge} (h : m.Holds faults room (c :: others) hand)
    (hcare : m'.care = m.care.lose c) (hnext : m.memory.next ≤ m'.memory.next) :
    m'.Holds faults room others hand := by
  have hperm : (hand ++ c :: others).Perm (c :: (hand ++ others)) := List.perm_middle
  have halive := h.alive.trans hperm
  rw [Care.lose_of_mem (halive.mem_iff.mpr List.mem_cons_self)] at hcare
  refine ⟨by rw [hcare]; exact h.faults_eq, ?_, h.inside, fun d hd => ?_, fun k hk => ?_⟩
  · rw [hcare]
    simpa only [List.erase_cons_head] using halive.erase c
  · exact Nat.lt_of_lt_of_le (h.known d (hperm.mem_iff.mpr (List.mem_cons_of_mem c hd))) hnext
  · exact h.beyond k (by omega)

theorem pick {c : Charge} (h : m.Holds faults room (c :: others) hand)
    (hroom : room c.place.block) : m.Holds faults room others (c :: hand) :=
  { h with
    alive := h.alive.trans List.perm_middle
    inside := List.forall_mem_cons.mpr ⟨hroom, h.inside⟩
    known := fun d hd => h.known d (List.perm_middle.mem_iff.mpr hd) }

theorem put {c : Charge} (h : m.Holds faults room others (c :: hand)) :
    m.Holds faults room (c :: others) hand :=
  { h with
    alive := h.alive.trans List.perm_middle.symm
    inside := fun d hd => h.inside d (List.mem_cons_of_mem c hd)
    known := fun d hd => h.known d (List.perm_middle.mem_iff.mp hd) }

theorem still (h : m.Holds faults room others hand) (hcare : m'.care = m.care)
    (hnext : m.memory.next ≤ m'.memory.next) : m'.Holds faults room others hand :=
  ⟨by rw [hcare]; exact h.faults_eq, by rw [hcare]; exact h.alive, h.inside,
    fun d hd => Nat.lt_of_lt_of_le (h.known d hd) hnext, fun k hk => h.beyond k (by omega)⟩

end Holds

namespace Leaks

variable {low low' : Nat} {used used' : Nat → Prop} {hand : List Charge} {c : Charge}

theorem mono (h : m.Leaks low used hand) (hlow : low' ≤ low) (hused : ∀ k, used' k → used k) :
    m.Leaks low' used' hand := by
  obtain ⟨d, hd, hle, hfree, hhand⟩ := h.leak
  exact { h with
    bound := fun k hk => h.bound k (hused k hk)
    leak := ⟨d, hd, Nat.le_trans hlow hle, fun hk => hfree (hused _ hk), hhand⟩ }

theorem still (h : m.Leaks low used hand) (hcare : m'.care = m.care)
    (hnext : m.memory.next ≤ m'.memory.next) : m'.Leaks low used hand := by
  refine ⟨fun d hd => ?_, fun k hk => ?_, fun d hd => ?_, by rw [hcare]; exact h.leak⟩
  · rw [hcare] at hd
    exact Nat.lt_of_lt_of_le (h.ordered d hd) hnext
  · exact Nat.lt_of_lt_of_le (h.bound k hk) hnext
  · exact Nat.lt_of_lt_of_le (h.known d hd) hnext

theorem lose (h : m.Leaks low used hand) (hcare : m'.care = m.care.lose c)
    (hnext : m.memory.next ≤ m'.memory.next)
    (hc : used c.place.block ∨ ∃ d ∈ hand, d.place.block = c.place.block) :
    m'.Leaks low used hand := by
  obtain ⟨d, hd, hle, hfree, hhand⟩ := h.leak
  have hne : d ≠ c := by
    rintro rfl
    rcases hc with hc | ⟨e, he, hb⟩
    · exact hfree hc
    · exact hhand e he hb
  refine ⟨fun e he => ?_, fun k hk => Nat.lt_of_lt_of_le (h.bound k hk) hnext,
    fun e he => Nat.lt_of_lt_of_le (h.known e he) hnext, d, ?_, hle, hfree, hhand⟩
  · rw [hcare] at he
    exact Nat.lt_of_lt_of_le (h.ordered e (Care.mem_of_mem_alive_lose he)) hnext
  · rw [hcare]
    exact Care.mem_alive_lose hne hd

theorem take (h : m.Leaks low used hand) (hcare : m'.care = m.care.take c)
    (hnext : m.memory.next ≤ m'.memory.next) (hc : used c.place.block) :
    m'.Leaks low used hand := by
  obtain ⟨d, hd, hle, hfree, hhand⟩ := h.leak
  refine ⟨fun e he => ?_, fun k hk => Nat.lt_of_lt_of_le (h.bound k hk) hnext,
    fun e he => Nat.lt_of_lt_of_le (h.known e he) hnext, d, ?_, hle, hfree, hhand⟩
  · rw [hcare] at he
    rcases Care.mem_of_mem_alive_take he with rfl | he
    · exact Nat.lt_of_lt_of_le (h.bound _ hc) hnext
    · exact Nat.lt_of_lt_of_le (h.ordered e he) hnext
  · rw [hcare]
    exact Care.mem_alive_take hd

theorem pick (h : m.Leaks low used hand) (hc : used c.place.block) : m.Leaks low used (c :: hand) := by
  obtain ⟨d, hd, hle, hfree, hhand⟩ := h.leak
  refine { h with
    known := List.forall_mem_cons.mpr ⟨h.bound _ hc, h.known⟩
    leak := ⟨d, hd, hle, hfree, List.forall_mem_cons.mpr ⟨fun hb => hfree (hb ▸ hc), hhand⟩⟩ }

theorem put (h : m.Leaks low used (c :: hand)) :
    m.Leaks low (fun k => used k ∨ k = c.place.block) hand := by
  obtain ⟨d, hd, hle, hfree, hhand⟩ := h.leak
  have hhand := List.forall_mem_cons.mp hhand
  refine ⟨h.ordered, fun k hk => ?_, fun e he => h.known e (List.mem_cons_of_mem c he), d, hd, hle,
    ?_, hhand.2⟩
  · rcases hk with hk | rfl
    · exact h.bound k hk
    · exact h.known c List.mem_cons_self
  · rintro (hk | hk)
    · exact hfree hk
    · exact hhand.1 hk.symm

end Leaks

namespace Spoilt

variable {strays low low' : Nat} {used used' : Nat → Prop} {hand hand' : List Charge}

theorem step (h : m.Spoilt strays low used hand) (hstrays : m'.care.strays = m.care.strays)
    (hleaks : m.Leaks low used hand → m'.Leaks low' used' hand') :
    m'.Spoilt strays low' used' hand' := by
  unfold Spoilt
  rw [hstrays]
  exact h.imp id fun ⟨heq, hm⟩ => ⟨heq, hleaks hm⟩

theorem grew (h : m.Spoilt strays low used hand) : strays < m.care.strays.length := by
  rcases h with h | ⟨h, -⟩ <;> omega

theorem mono (h : m.Spoilt strays low used hand) (hlow : low' ≤ low)
    (hused : ∀ k, used' k → used k) : m.Spoilt strays low' used' hand :=
  h.step rfl fun hm => hm.mono hlow hused

theorem reserve (h : m.Spoilt strays low used []) (hcare : m'.care = m.care)
    (hnext : m'.memory.next = m.memory.next + 1) :
    m'.Spoilt strays low (fun k => used k ∨ k = m.memory.next) [] := by
  refine h.step (by rw [hcare]) fun hl => ?_
  obtain ⟨d, hd, hlow, hfree, hhand⟩ := hl.leak
  have hl' := hl.still hcare (by omega)
  refine { hl' with
    bound := fun k hk => hk.elim (hl'.bound k) (by omega)
    leak := ⟨d, hcare ▸ hd, hlow, fun hk => hk.elim hfree fun hb => ?_, hhand⟩ }
  have := hl.ordered d hd
  omega

theorem adopt {c : Charge} (h : m.Spoilt strays low used []) (hcare : m'.care = m.care.take c)
    (hnext : m.memory.next ≤ m'.memory.next) (hc : used c.place.block) :
    m'.Spoilt strays low used [c] :=
  h.step (by rw [hcare, Care.strays_take]) fun hl => (hl.take hcare hnext hc).pick hc

/-- In a spoilt account the values are not settled, unless a second one went astray. -/
theorem not_settles (h : m'.Spoilt m.care.strays.length m.memory.next (· < m.memory.next) after)
    (hm : m.Ordered) (hone : m'.care.strays.length ≤ m.care.strays.length + 1) :
    m'.care.strays ≠ m.care.strays ∧ ¬m.Settles m' after := by
  obtain ⟨hstrays, hleaks⟩ := h.resolve_left (by omega)
  refine ⟨fun heq => ?_, fun hs => ?_⟩
  · rw [heq] at hstrays
    omega
  · obtain ⟨c, hc, hle, -, hhand⟩ := hleaks.leak
    rcases List.mem_append.mp (hs.alive.mem_iff.mp hc) with hc | hc
    · exact hhand c hc rfl
    · have := hm c hc
      omega

end Spoilt

namespace Carries

theorem trans (h : Carries before after m m') (h' : Carries after after' m' m'') :
    Carries before after' m m'' where
  next := Nat.le_trans h.next h'.next
  strays := Nat.le_trans h.strays h'.strays
  spoilt strays low used hm := h'.spoilt strays low used (h.spoilt strays low used hm)
  holds faults room others hm := by
    rcases h.holds faults room others hm with hs | ⟨heq, hm'⟩
    · exact .inl (h'.spoilt _ _ _ hs)
    · rw [← heq]
      refine (h'.holds faults room others hm').imp (fun hs => ?_) id
      exact hs.mono h.next fun k hk => Nat.lt_of_lt_of_le hk h.next

theorem of_holds (hnext : m.memory.next ≤ m'.memory.next)
    (hstrays : m'.care.strays = m.care.strays)
    (hleaks : ∀ low used, m.Leaks low used before → m'.Leaks low used after)
    (hholds : ∀ faults room others, m.Holds faults room others before →
      m'.Holds faults room others after) : Carries before after m m' where
  next := hnext
  strays := Nat.le_of_eq (by rw [hstrays])
  spoilt _ low used h := h.step hstrays (hleaks low used)
  holds faults room others h := .inr ⟨hstrays, hholds faults room others h⟩

theorem still (hcare : m'.care = m.care) (hnext : m.memory.next ≤ m'.memory.next) :
    Carries before before m m' :=
  .of_holds hnext (by rw [hcare]) (fun _ _ h => h.still hcare hnext) fun _ _ _ h =>
    h.still hcare hnext

theorem refl : Carries before before m m := still rfl (Nat.le_refl _)

theorem lose {c : Charge} (hcare : m'.care = m.care.lose c)
    (hnext : m.memory.next ≤ m'.memory.next) : Carries (c :: before) before m m' := by
  refine .of_holds hnext (by rw [hcare, Care.strays_lose]) (fun low used h => ?_) fun _ _ _ h =>
    h.put.lose hcare hnext
  have hlost := h.put.lose hcare hnext (.inl (.inr rfl))
  exact hlost.mono (Nat.le_refl low) fun _ => .inl

/-- A value is taken in a block that was handed out for it, whatever has been settled meanwhile. -/
theorem take_fresh {m₁ m₂ : Machine} {c : Charge} (h : Carries [] [] m₁ m₂)
    (hcare : m₁.care = m.care) (hnext : m₁.memory.next = m.memory.next + 1)
    (hblock : c.place.block = m.memory.next) (hcare' : m'.care = m₂.care.take c)
    (hnext' : m₂.memory.next ≤ m'.memory.next) : Carries [] [c] m m' := by
  have hle := h.next
  have hstrays : m'.care.strays = m₂.care.strays := by rw [hcare', Care.strays_take]
  refine ⟨by omega, ?_, fun strays low used hm => ?_, fun faults room others hm => ?_⟩
  · rw [hstrays, ← hcare]
    exact h.strays
  · have hs := (h.spoilt _ _ _ (hm.reserve hcare hnext)).adopt hcare' hnext' (.inr hblock)
    exact hs.mono (Nat.le_refl low) fun _ => .inl
  · rcases h.holds faults room others (hm.still hcare (by omega)) with hs | ⟨heq, hm₂⟩
    · rw [hcare] at hs
      refine .inl ((hs.adopt hcare' hnext' ?_).mono (by omega) fun k hk => ?_)
      · show c.place.block < m₁.memory.next
        omega
      · show k < m₁.memory.next
        omega
    · have hnew := hm₂.take (c := c) (fun hc => by have := hm.known c hc; omega) (by omega) hcare'
        hnext'
      refine .inr ⟨hstrays.trans (heq.trans (by rw [hcare])), hnew.pick ?_⟩
      exact hblock ▸ hm.beyond _ (Nat.le_refl _)

theorem iff_leaves : Carries [] after m m' ↔ m.Leaves m' after := by
  constructor
  · intro h
    refine ⟨h.next, h.strays, h.spoilt, fun hm => ?_⟩
    have hstart : m.Holds m.care.faults (m.memory.next ≤ ·) m.care.alive [] :=
      ⟨rfl, .refl _, List.forall_mem_nil _, hm, fun _ hk => hk⟩
    refine (h.holds _ _ _ hstart).imp id fun ⟨heq, hend⟩ => ⟨heq, hend.alive, hend.faults_eq,
      hend.inside, hend.beyond _ (Nat.le_refl _), fun c hc => ?_⟩
    exact hend.known c (hend.alive.mem_iff.mp hc)
  · intro h
    refine ⟨h.next, h.strays, h.spoilt, fun faults room others hm => ?_⟩
    have hordered : m.Ordered := fun c hc => hm.known c (hm.alive.mem_iff.mp hc)
    refine (h.settles hordered).imp id fun ⟨heq, hs⟩ => ⟨heq, hs.faults.trans hm.faults_eq,
      hs.alive.trans (hm.alive.append_left after), fun c hc => ?_, fun c hc => ?_, fun k hk => ?_⟩
    · exact hm.beyond _ (hs.fresh c hc)
    · exact hs.ordered c ((hs.alive.trans (hm.alive.append_left after)).mem_iff.mpr hc)
    · exact hm.beyond k (Nat.le_trans hs.next hk)

end Carries

end Machine

end Flowscript
