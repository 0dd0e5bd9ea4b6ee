import Flowscript.Proofs.Machine.SealedBlocks
import Flowscript.Proofs.Run.PinTyping

/-! # What is done for an expression

Functions are called for expressions, and values are constructed and read from documents. Each of these
is determined when it writes nothing but its result and its copies, and when what comes of it depends
only on the data of its arguments and on what lies outside of the storage that expressions fill. Then it
has a meaning: what comes of it wherever it succeeds.

What the data of a value is, is left open. A `Notion` says what is seen of a value of a type in a block;
a part lies in a value where it looks the same whenever the value does.
-/
namespace Flowscript

/-- What is seen of a value of a type at an offset of a block. -/
structure Notion where
  Data : Type
  look : TypeId → Block → Nat → Data

namespace Notion

variable (N : Notion)

def lies : Layouts := fun type offset part => ∀ b o b' o', N.look type b o = N.look type b' o' →
  N.look part b (o + offset) = N.look part b' (o' + offset)

def data (m : Memory) (type : TypeId) (place : Place) : N.Data :=
  N.look type (m.block place.block) place.offset

variable {N} {type part final : TypeId} {offset more : Nat}

theorem lies_self (type : TypeId) : N.lies type 0 type := fun _ _ _ _ h => h

theorem lies.trans (h : N.lies type offset part) (h' : N.lies part more final) :
    N.lies type (offset + more) final := fun b o b' o' hsame => by
  have hpart := h' b (o + offset) b' (o' + offset) (h b o b' o' hsame)
  rwa [Nat.add_assoc, Nat.add_assoc] at hpart

end Notion

/-- What a function can make out of an argument: its place only if the data are shared, not if they are
a copy. -/
structure Sight (D : Type) where
  type : TypeId
  form : Form
  place : Option Place
  data : Option D

/-- What comes of a call: a value constructed in storage of the caller, a value of its own that is moved
there, a reference, a null pointer, or nothing. -/
inductive Yield (D : Type) where
  | built (data : D)
  | moved (data : D)
  | reference (place : Place)
  | null
  | nothing

namespace Notion

variable (N : Notion)

def sight (m : Memory) (v : Value) : Sight N.Data where
  type := v.type
  form := v.form
  place := if v.form.isOwning then none else v.place?
  data := v.place?.map (N.data m v.type)

def yield (m : Memory) (type : TypeId) (ret : Option Place) (result : Option Value) : Yield N.Data :=
  match result, ret with
  | none, none => .nothing
  | none, some target => .built (N.data m type target)
  | some v, _ =>
    match v.held with
    | .owned place _ _ => .moved (N.data m type place)
    | .borrowed place => .reference place
    | .pointer (some place) => .reference place
    | .pointer none => .null

end Notion

namespace Machine

variable {own own' : Nat → Prop} {m m' m'' : Machine}

/-- A machine in which only some blocks were written, besides new ones. -/
structure Beside (own : Nat → Prop) (m m' : Machine) : Prop where
  next : m.memory.next ≤ m'.memory.next
  block : ∀ b, b < m.memory.next → ¬ own b → m'.memory.block b = m.memory.block b
  world : ∀ seat, (m'.interpreter seat).world = (m.interpreter seat).world
  current : m'.current = m.current
  counts : m'.counts = m.counts

theorem Beside.refl (own : Nat → Prop) (m : Machine) : m.Beside own m :=
  ⟨Nat.le_refl _, fun _ _ _ => rfl, fun _ => rfl, rfl, rfl⟩

theorem Beside.trans (h : m.Beside own m') (h' : m'.Beside own' m'')
    (hown : ∀ b, b < m.memory.next → own' b → own b) : m.Beside own m'' where
  next := h.next.trans h'.next
  block b hb hnot :=
    (h'.block b (hb.trans_le h.next) fun ho => hnot (hown b hb ho)).trans (h.block b hb hnot)
  world seat := (h'.world seat).trans (h.world seat)
  current := h'.current.trans h.current
  counts := h'.counts.trans h.counts

/-- A nested call failed because a budget was used up. -/
def Starved (m : Machine) : Prop :=
  ∃ seat e, (m.interpreter seat).nestedFailure = some e ∧ e.kind.isBudget = true

/-- Arguments and storage that may be handed over: shared data are older than the call and apart from
the storage for the result, and copies are newer and apart from each other. The storage is new, or may be
written. -/
structure Handed (vol : Nat → Prop) (base m : Machine) (args : List Value) (ret : Option Place) :
    Prop where
  beside : base.Beside vol m
  plain : ∀ v ∈ args, v = .null v.type v.form ∨ ∃ place, v = .borrowed v.type v.form place
  shared : ∀ v ∈ args, v.form.isOwning = false → ∀ place, v.place? = some place →
    place.block < base.memory.next
  copies : ∀ v ∈ args, v.form.isOwning = true → ∀ place, v.place? = some place →
    base.memory.next ≤ place.block ∧ place.block < m.memory.next
  apart : args.Pairwise fun u v => u.form.isOwning = true → v.form.isOwning = true →
    ∀ p q, u.place? = some p → v.place? = some q → p.block ≠ q.block
  ret : ∀ target, ret = some target → target.block < m.memory.next ∧
    (vol target.block ∨ base.memory.next ≤ target.block) ∧
    ∀ v ∈ args, ∀ place, v.place? = some place → place.block ≠ target.block

end Machine

/-- The blocks that a call may write: that of the storage for its result and those of its copies. -/
def Writes (args : List Value) (ret : Option Place) (b : Nat) : Prop :=
  (∃ target, ret = some target ∧ target.block = b) ∨
    ∃ v ∈ args, v.form.isOwning = true ∧ ∃ place, v.place? = some place ∧ place.block = b

/-- A value that a call gives back as its own is new and of the size of its type. A reference leads to
data outside of what may be written, or into a shared argument. -/
structure Notion.Proper (N : Notion) (vol : Nat → Prop) (base m : Machine) (type : TypeId)
    (args : List Value) (result : Option Value) : Prop where
  owned : ∀ v place size destructor, result = some v → v.held = .owned place size destructor →
    m.memory.next ≤ place.block ∧ ∀ (memory : Memory) (target : Place),
      N.data (memory.transfer place target size) type target = N.data memory type place
  reference : ∀ v place, result = some v → v.isOwning = false → v.place? = some place →
    place.block < base.memory.next ∧ ¬ vol place.block ∨
      ∃ u ∈ args, u.form.isOwning = false ∧ ∃ source k, u.place? = some source ∧
        place.block = source.block ∧ place.offset = source.offset + k ∧ N.lies u.type k type

/-- What is done for an expression: calling a function with a result of a type, constructing a value or
reading one from a document. -/
inductive Chore where
  | call (f : Function) (type : TypeId)
  | construct (h : Handle)
  | decode (h : Handle) (j : Json)

def Place.Rounded (align : Nat) (place : Place) : Prop :=
  ∃ n, place.address = .stack (roundUp n align)

namespace Chore

def type (c : Catalogue) : Chore → TypeId
  | call _ type => type
  | construct h => (c.info h).id
  | decode h _ => (c.info h).id

def perform (c : Catalogue) (invoke : Invoke) (d : Chore) (args : List Value) (ret : Option Place) :
    Exec CallError (Option Value) :=
  match d, ret with
  | call f _, ret => invoke f args ret
  | construct h, some target => do
    invoke.constructAt (c.info h) target args
    return none
  | decode h j, some target => do
    invoke.decodeAt (c.info h) j target
    return none
  | _, none => return none

/-- Storage that makes no difference: the same, or any that the stack gives. -/
def Rooms (c : Catalogue) (d : Chore) (ret ret' : Option Place) : Prop :=
  ret = ret' ∨ ∃ h target target', d = construct h ∧ ret = some target ∧ ret' = some target' ∧
    target.Rounded (c.info h).layout.align ∧ target'.Rounded (c.info h).layout.align

variable (N : Notion) (w : Context) (invoke : Invoke)

/-- Nothing is written but the result and copies, and what comes of it depends on nothing but what is
seen of the arguments and what lies outside of what may be written. A budget may be used up in one case
and not in the other. -/
structure Determined (d : Chore) : Prop where
  discreet : ∀ (vol : Nat → Prop) (base m : Machine) args ret, base.Handed vol m args ret →
    Ensures (d.perform w.catalogue invoke args ret) w m
      (fun result m' => m.Beside (Writes args ret) m' ∧
        N.Proper vol base m (d.type w.catalogue) args result) fun _ _ => True
  same : ∀ (vol : Nat → Prop) (base m : Machine) args ret m' args' ret',
    base.Handed vol m args ret → base.Handed vol m' args' ret' →
    args.map (N.sight m.memory) = args'.map (N.sight m'.memory) →
    d.Rooms w.catalogue ret ret' → ∀ result t,
      d.perform w.catalogue invoke args ret w m = .ok result t →
      Ensures (d.perform w.catalogue invoke args' ret') w m'
        (fun result' t' => N.yield t'.memory (d.type w.catalogue) ret' result' =
          N.yield t.memory (d.type w.catalogue) ret result) fun _ t' => t'.Starved

variable (vol : Nat → Prop) (base : Machine)

def Brings (d : Chore) (fits : Option Place → Prop) (sights : List (Sight N.Data))
    (y : Yield N.Data) : Prop :=
  ∃ m args ret result t, base.Handed vol m args ret ∧ fits ret ∧
    args.map (N.sight m.memory) = sights ∧
    d.perform w.catalogue invoke args ret w m = .ok result t ∧
    N.yield t.memory (d.type w.catalogue) ret result = y

open Classical in
noncomputable def meaning (d : Chore) (fits : Option Place → Prop) (sights : List (Sight N.Data)) :
    Option (Yield N.Data) :=
  if h : ∃ y, d.Brings N w invoke vol base fits sights y then some h.choose else none

variable {N w invoke vol base} {d : Chore} {fits : Option Place → Prop} {sights : List (Sight N.Data)}
  {y : Yield N.Data}

theorem brings_of_meaning (h : d.meaning N w invoke vol base fits sights = some y) :
    d.Brings N w invoke vol base fits sights y := by
  unfold meaning at h
  split at h
  · rename_i hy
    cases h
    exact hy.choose_spec
  · cases h

variable (hd : d.Determined N w invoke)
  (hfits : ∀ ret ret', fits ret → fits ret' → d.Rooms w.catalogue ret ret')
include hd hfits

/-- What is done succeeds as it is meant to, or fails where there is no meaning or for want of a budget. -/
theorem Determined.means {m : Machine} {args : List Value} {ret : Option Place}
    (hm : base.Handed vol m args ret) (hret : fits ret) :
    Ensures (d.perform w.catalogue invoke args ret) w m
      (fun result t => d.meaning N w invoke vol base fits (args.map (N.sight m.memory)) =
        some (N.yield t.memory (d.type w.catalogue) ret result))
      fun _ t => d.meaning N w invoke vol base fits (args.map (N.sight m.memory)) = none ∨
        t.Starved := by
  unfold Ensures
  cases hrun : d.perform w.catalogue invoke args ret w m with
  | ok result t =>
    have hy : ∃ y, d.Brings N w invoke vol base fits (args.map (N.sight m.memory)) y :=
      ⟨_, m, args, ret, result, t, hm, hret, rfl, hrun, rfl⟩
    obtain ⟨m', args', ret', result', t', hm', hret', hsights, hrun', hyield⟩ := hy.choose_spec
    have hsame := (hd.same vol base m' args' ret' m args ret hm' hm hsights
      (hfits ret' ret hret' hret) result' t' hrun').ok hrun
    rw [meaning, dif_pos hy, ← hyield]
    exact congrArg some hsame.symm
  | error e t =>
    by_cases hy : ∃ y, d.Brings N w invoke vol base fits (args.map (N.sight m.memory)) y
    · obtain ⟨y, m', args', ret', result', t', hm', hret', hsights, hrun', -⟩ := hy
      exact .inr ((hd.same vol base m' args' ret' m args ret hm' hm hsights
        (hfits ret' ret hret' hret) result' t' hrun').error hrun)
    · left
      rw [meaning, dif_neg hy]

omit hfits in
theorem Determined.reference {place : Place}
    (h : d.meaning N w invoke vol base fits sights = some (.reference place)) :
    place.block < base.memory.next ∧ ¬ vol place.block ∨
      ∃ s ∈ sights, ∃ source, s.place = some source ∧ place.block = source.block := by
  obtain ⟨m, args, ret, result, t, hm, -, rfl, hrun, hyield⟩ := brings_of_meaning h
  have hproper := ((hd.discreet vol base m args ret hm).ok hrun).2
  have hresult : ∃ v, result = some v ∧ v.isOwning = false ∧ v.place? = some place := by
    cases result with
    | none => cases ret <;> cases hyield
    | some v =>
      refine ⟨v, rfl, ?_⟩
      obtain ⟨type, form, held⟩ := v
      cases held with
      | owned => cases hyield
      | borrowed => cases hyield; exact ⟨rfl, rfl⟩
      | pointer p =>
        cases p with
        | none => cases hyield
        | some p => cases hyield; exact ⟨rfl, rfl⟩
  obtain ⟨v, hv, howning, hplace⟩ := hresult
  rcases hproper.reference v place hv howning hplace with hout | ⟨u, hu, hform, source, _, hsource, hblock, -⟩
  · exact .inl hout
  · refine .inr ⟨N.sight m.memory u, List.mem_map_of_mem hu, source, ?_, hblock⟩
    simp only [Notion.sight, hform, Bool.false_eq_true, if_false, hsource]

end Chore

end Flowscript
