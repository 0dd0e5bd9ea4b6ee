import Flowscript.Proofs.Machine.StorageRanges
import Flowscript.Proofs.Types.DeclaredComposition
import Flowscript.Proofs.Types.FailedConstruction

/-! # The laws of values

Values of a type are copied, moved, made from nothing and compared by functions of the type. The laws say what
these come to, for whatever notion of two values being equal. An aggregate of types that obey them obeys them as
well, in all that it is marked as capable of, as long as the functions composed of those of its parts are in place.
-/
namespace Flowscript

open Exec

section Parts

variable {w : Context}

/-- Parts that follow each other are initialised one after another: each finds its ranges untouched, and keeps
what it is given. -/
theorem exists_forM_parts {parts : List Part} {size : Part → Nat} {lo hi : Nat} {target : Place} {places : List Place}
    {init : Part → Exec CallError Unit} {Q : Part → Memory → Prop} {m n : Machine}
    (hfollow : Layout.Follow lo (parts.map fun p => (p.offset, size p)) hi) (hlive : target.block < m.memory.next)
    (hapart : ∀ p ∈ places, p = target ∨ target.Apart hi p hi)
    (hinit : ∀ part ∈ parts, ∀ n : Machine,
      m.memory.Touches (places.map fun p => (p.shift 0, part.offset)) n.memory → ∃ k, init part w n = .ok () k ∧
        Q part k.memory ∧ n.memory.Touches (places.map fun p => (p.shift part.offset, size part)) k.memory)
    (hkept : ∀ part ∈ parts, ∀ k k', Memory.Agrees k k' (target.shift part.offset) (size part) →
      Q part k → Q part k')
    (hn : m.memory.Touches (places.map fun p => (p.shift 0, lo)) n.memory) :
    ∃ k, (forM parts init : Exec CallError Unit) w n = .ok () k ∧ (∀ part ∈ parts, Q part k.memory) ∧
      n.memory.Touches (places.map fun p => (p.shift lo, hi - lo)) k.memory := by
  induction parts generalizing lo n with
  | nil =>
    exact ⟨n, rfl, List.forall_mem_nil _, .refl _ _⟩
  | cons part parts ih =>
    obtain ⟨hlo, hrest⟩ := hfollow
    obtain ⟨hfirst, hothers⟩ := List.forall_mem_cons.mp hinit
    obtain ⟨hkeep, hkeeps⟩ := List.forall_mem_cons.mp hkept
    have hend := hrest.le
    obtain ⟨k, hk, hQ, htouched⟩ := hfirst n (hn.widen_map (Nat.le_refl 0) (by omega))
    have hmk : m.memory.Touches (places.map fun p => (p.shift 0, part.offset + size part)) k.memory :=
      (hn.widen_map (Nat.le_refl 0) (by omega)).trans (htouched.widen_map (Nat.zero_le _) (by omega))
    obtain ⟨l, hl, hall, hafter⟩ := ih hrest hothers hkeeps hmk
    refine ⟨l, ?_, List.forall_mem_cons.mpr ⟨hkeep _ _ ?_ hQ, hall⟩, ?_⟩
    · rw [List.forM_cons]
      exact (bind_of_ok hk).trans hl
    · -- What follows lies behind the part, in the target as in places apart from it.
      refine hafter.kept _ _ (hlive.trans_le hmk.next) (List.forall_mem_map.mpr fun p hp => ?_)
      rcases hapart p hp with rfl | hp
      · exact p.apart_of_le (Nat.le_refl _)
      · exact hp.shift hend (by omega)
    · exact (htouched.widen_map hlo (by omega)).trans (hafter.widen_map (by omega) (by omega))

theorem exists_forM_whole {parts : List Part} {size : Part → Nat} {hi : Nat} {target : Place} {places : List Place}
    {init : Part → Exec CallError Unit} {Q : Part → Memory → Prop} {m : Machine}
    (hfollow : Layout.Follow 0 (parts.map fun p => (p.offset, size p)) hi) (hlive : target.block < m.memory.next)
    (hapart : ∀ p ∈ places, p = target ∨ target.Apart hi p hi)
    (hinit : ∀ part ∈ parts, ∀ n : Machine, m.memory.Touches (places.map fun p => (p, part.offset)) n.memory →
      ∃ k, init part w n = .ok () k ∧ Q part k.memory ∧
        n.memory.Touches (places.map fun p => (p.shift part.offset, size part)) k.memory)
    (hkept : ∀ part ∈ parts, ∀ k k', Memory.Agrees k k' (target.shift part.offset) (size part) →
      Q part k → Q part k') :
    ∃ k, (forM parts init : Exec CallError Unit) w m = .ok () k ∧ (∀ part ∈ parts, Q part k.memory) ∧
      m.memory.Touches (places.map fun p => (p, hi)) k.memory := by
  have hforM : ∃ k, (forM parts init : Exec CallError Unit) w m = .ok () k ∧
    (∀ part ∈ parts, Q part k.memory) ∧
      m.memory.Touches (places.map fun p => (p.shift 0, hi - 0)) k.memory :=
    exists_forM_parts hfollow hlive hapart (by simpa only [Place.shift_zero] using hinit) hkept (.refl _ _)
  simpa only [Place.shift_zero, Nat.sub_zero] using hforM

end Parts

variable {V W : Type}

/-- A place where a value of a type can be put: in a block that is there, and aligned. -/
structure TypeInfo.Seats (t : TypeInfo) (m : Memory) (p : Place) : Prop where
  live : p.block < m.next
  aligned : p.isAligned t.layout.align = true

/-- A document can be read as a value of a type wherever there is room for one. -/
def TypeInfo.Decodes (t : TypeInfo) (invoke : Invoke) (w : Context) (j : Json) : Prop :=
  ∀ m target, t.Seats m.memory target → ∃ n, invoke.decodeAt t j target w m = .ok () n ∧
    m.memory.Touches [(target, t.layout.size)] n.memory

/-- The laws of values, where `value` tells which value storage holds: it may be any function under which values
are equal or not, as long as it looks at nothing but the range of the value. -/
structure TypeInfo.Lawful (t : TypeInfo) (invoke : Invoke) (w : Context) (value : Memory → Place → V) : Prop where
  align : ∃ k, t.layout.align = 2 ^ k
  within : ∀ {m m' : Memory} {p : Place}, m.Agrees m' p t.layout.size → value m p = value m' p
  /-- A value can be made from nothing, if the type says so. -/
  construct : t.traits.default → ∀ m target, t.Seats m.memory target → ∃ n,
    invoke.defaultAt t target w m = .ok () n ∧ m.memory.Touches [(target, t.layout.size)] n.memory
  /-- A copy is equal to its source, which stays as it is. -/
  copy : t.traits.copy → ∀ m target source, t.Seats m.memory target → source.block < m.memory.next →
    target.Apart t.layout.size source t.layout.size → ∃ n, invoke.copyAt t target source w m = .ok () n ∧
      value n.memory target = value m.memory source ∧ m.memory.Touches [(target, t.layout.size)] n.memory
  /-- A value that is moved is what its source was; what that becomes is not said. -/
  move : t.traits.move → ∀ m target source, t.Seats m.memory target → source.block < m.memory.next →
    target.Apart t.layout.size source t.layout.size → ∃ n, invoke.moveAt t target source w m = .ok () n ∧
      value n.memory target = value m.memory source ∧
      m.memory.Touches [(target, t.layout.size), (source, t.layout.size)] n.memory
  /-- Comparing always tells whether two values are equal. -/
  equal : t.overloads (.operator .equal) ≠ [] → ∀ m a b, a.block < m.memory.next → b.block < m.memory.next →
    ∃ told n, (invoke.equals t a b : Exec CallError (Option Bool)) w m = .ok (some told) n ∧
      (told = true ↔ value m.memory a = value m.memory b) ∧ m.memory.Touches [] n.memory
  /-- The other comparison always tells whether they are not. -/
  notEqual : t.overloads (.operator .notEqual) ≠ [] → ∀ m a b out, a.block < m.memory.next →
    b.block < m.memory.next → out.block < m.memory.next → ∃ told n,
      invoke.callKey t (.operator .notEqual) [.borrowed t.id .constRef a, .borrowed t.id .constRef b] (some out) w m =
        .ok none n ∧ n.memory.read out .bool = .bool told ∧
          (told = true ↔ value m.memory a ≠ value m.memory b) ∧
      m.memory.Touches [(out, 1)] n.memory

theorem Function.exactForms_le_length (f : Function) (args : List Function.Argument) :
    f.exactForms args ≤ args.length := by
  rw [exactForms_eq]
  exact List.countP_le_length.trans (by rw [List.length_zip]; exact Nat.min_le_right _ _)

/-- A function is called with its own arguments if those before it do not take them or take them less exactly. -/
theorem TypeInfo.resolve_own {t : TypeInfo} {key : FunctionKey} {f : Function} (before : List Function)
    (h : before ++ [f] <+: t.overloads key) (hbefore : ∀ g ∈ before, g.check f.ownArguments = .ok () →
      g.exactForms f.ownArguments < f.params.length) : t.resolve key f.ownArguments = .ok f := by
  obtain ⟨after, hafter⟩ := h
  refine resolve_eq_ok_iff.mpr ⟨before, after, ?_, f.check_ownArguments, ?_, fun g _ _ => ?_⟩
  · rw [← hafter, List.append_assoc]
    rfl
  · rwa [f.exactForms_ownArguments]
  · have hlength : f.ownArguments.length = f.exactForms f.ownArguments := by
      rw [f.exactForms_ownArguments, Function.ownArguments, List.length_map]
    exact (g.exactForms_le_length _).trans_eq hlength

theorem Memory.read_writeLeaves_bool (m : Memory) (out : Place) (b : Bool) :
    (m.writeLeaves out NativeOp.boolShape.leaves [.bool b]).read out .bool = .bool b := by
  have hwrite : m.writeLeaves out NativeOp.boolShape.leaves [.bool b] = m.write (out.shift 0) .bool (.bool b) := rfl
  rw [hwrite, Place.shift_zero, Memory.read_write (by decide) fun s h => by cases h]
  cases b <;> rfl

namespace Invoke

variable {invoke : Invoke} {w : Context} {t : TypeInfo} {f : Function} {target a b : Place} {args : List Value}
  {m n : Machine}

theorem constructAt_of_run (haligned : target.isAligned t.layout.align = true)
    (hresolve : t.resolve (.operator .construct) (args.map Value.argument) = .ok f)
    (hrun : invoke f args (some target) w m = .ok none n) : invoke.constructAt t target args w m = .ok () n := by
  have hcall : invoke.callKey t (.operator .construct) args (some target) w m = .ok none n := by
    rw [callKey, hresolve]
    exact hrun
  rw [constructAt, if_pos haligned]
  exact bind_of_ok hcall

theorem equals_of_run (hequality : equality? t = some f)
    (hrun : invoke f [.borrowed t.id .constRef a, .borrowed t.id .constRef b] (some ⟨m.memory.next, 0, .apart 0⟩) w
      { m with memory := (m.memory.reserve 1).2 } = .ok none n) :
    (invoke.equals t a b : Exec CallError (Option Bool)) w m =
      .ok (some (n.memory.read ⟨m.memory.next, 0, .apart 0⟩ .bool == .bool true))
        { n with memory := n.memory.free m.memory.next } := by
  have hplace : (allocate ⟨1, 1⟩ : Exec CallError Place) w m =
      .ok ⟨m.memory.next, 0, .apart 0⟩ { m with memory := (m.memory.reserve 1).2 } := rfl
  have hcall : (attempt (invoke f [.borrowed t.id .constRef a, .borrowed t.id .constRef b]
      (some ⟨m.memory.next, 0, .apart 0⟩)) : Exec CallError _) w { m with memory := (m.memory.reserve 1).2 } =
      .ok (.ok none) n := by
    rw [attempt, hrun]
  rw [equals, hequality]
  exact (bind_of_ok hplace).trans (bind_of_ok hcall)

theorem exists_equals {V : Type} {value : Memory → Place → V} {size : Nat} (hequality : equality? t = some f)
    (hwithin : ∀ {m m' : Memory} {p : Place}, m.Agrees m' p size → value m p = value m' p)
    (ha : a.block < m.memory.next) (hb : b.block < m.memory.next)
    (hrun : ∀ (m : Machine) (out : Place), a.block < m.memory.next → b.block < m.memory.next → ∃ told n,
      invoke f [.borrowed t.id .constRef a, .borrowed t.id .constRef b] (some out) w m = .ok none n ∧
      n.memory.read out .bool = .bool told ∧ (told = true ↔ value m.memory a = value m.memory b) ∧
      m.memory.Touches [(out, 1)] n.memory) :
    ∃ told n, (invoke.equals t a b : Exec CallError (Option Bool)) w m = .ok (some told) n ∧
      (told = true ↔ value m.memory a = value m.memory b) ∧ m.memory.Touches [] n.memory := by
  -- The answer is told in a block that is set aside for it and given up again.
  obtain ⟨told, n, hn, hread, htold, htouches⟩ := hrun { m with memory := (m.memory.reserve 1).2 }
    ⟨m.memory.next, 0, .apart 0⟩ (Nat.lt_succ_of_lt ha) (Nat.lt_succ_of_lt hb)
  have hequals := equals_of_run hequality hn
  have hanswer : (n.memory.read ⟨m.memory.next, 0, .apart 0⟩ .bool == .bool true) = told := by
    rw [hread]
    cases told <;> rfl
  rw [hanswer] at hequals
  have hsame (p : Place) : value { m.memory with next := m.memory.next + 1 } p = value m.memory p :=
    hwithin (Block.Agrees.refl _ p.offset _)
  refine ⟨told, _, hequals, htold.trans (by rw [← hsame a, ← hsame b]; rfl), ?_, ?_⟩
  · exact (Nat.le_succ _).trans htouches.next
  · intro p k hp _
    have hne : m.memory.next ≠ p.block := (Nat.ne_of_lt hp).symm
    have hkept := htouches.kept p k (Nat.lt_succ_of_lt hp) (List.forall_mem_singleton.mpr (.inl hne.symm))
    rw [Memory.Agrees, Memory.block_free_of_ne _ hne]
    exact hkept

theorem invokeWithin_of_own {d : Nat} (h : args.map Value.argument = f.ownArguments) (ret : Option Place) :
    invokeWithin (d + 1) f args ret = f.run (invokeWithin d) args ret := by
  rw [invokeWithin]
  dsimp only
  rw [h, f.check_ownArguments]

theorem constructAt_of_own {d : Nat} (haligned : target.isAligned t.layout.align = true)
    (hargs : args.map Value.argument = f.ownArguments)
    (hresolve : t.resolve (.operator .construct) f.ownArguments = .ok f)
    (hrun : f.run (invokeWithin d) args (some target) w m = .ok none n) :
    (invokeWithin (d + 1)).constructAt t target args w m = .ok () n := by
  refine constructAt_of_run haligned (hargs ▸ hresolve) ?_
  rw [invokeWithin_of_own hargs]
  exact hrun

end Invoke

theorem Aggregate.Constructs.run_into {invoke : Invoke} {c : Catalogue} {script : String} {layout : Layout}
    {parts : List Part} {run : Option Place → Exec CallError (Option Value)}
    {init : Part → Place → Exec CallError Unit}
    (h : Constructs invoke c script layout parts run init) {w : Context} {m n : Machine} {target : Place}
    (hparts : (forM parts fun part => init part (target.shift part.offset) : Exec CallError Unit) w m = .ok () n) :
    run (some target) w m = .ok none n := by
  rw [h.run_eq]
  exact produce_of_ok (m := m) (Invoke.buildParts_of_ok hparts)

namespace Aggregate

/-! The functions that are composed of those of the parts. -/

def ownDefault (whole : Aggregate) : Function := whole.function .construct [] whole.type .default

def ownCopy (whole : Aggregate) : Function :=
  whole.function .construct [⟨"other", whole.type, .constRef⟩] whole.type .copy

def ownMove (whole : Aggregate) : Function :=
  whole.function .construct [⟨"other", whole.type, .rvalue⟩] whole.type .move

def ownComparison (whole : Aggregate) (op : Operator) (body : AggregateOp) : Function :=
  whole.function op [⟨"a", whole.type, .constRef⟩, ⟨"b", whole.type, .constRef⟩] (.ofName "bool") body

def constructors (c : Catalogue) (whole : Aggregate) : List Function :=
  (if hasDefault c whole.parts then [whole.ownDefault] else []) ++
    (if canCopy c whole.parts then [whole.ownCopy] else []) ++ if canMove c whole.parts then [whole.ownMove] else []

/-- The functions that were composed for an aggregate are still those by which values of the type are made and
compared: none was replaced, and no comparison was added where parts cannot be compared. -/
structure Governs (c : Catalogue) (whole : Aggregate) (t : TypeInfo) : Prop where
  constructors : whole.constructors c <+: t.overloads (.operator .construct)
  equal : canCompare c whole.parts → [whole.ownComparison .equal .equal] <+: t.overloads (.operator .equal)
  notEqual : canCompare c whole.parts →
    [whole.ownComparison .notEqual .notEqual] <+: t.overloads (.operator .notEqual)
  incomparable : canCompare c whole.parts = false →
    t.overloads (.operator .equal) = [] ∧ t.overloads (.operator .notEqual) = []

namespace Governs

variable {c : Catalogue} {whole : Aggregate} {t : TypeInfo}

theorem resolve_default (h : Governs c whole t) (hdefault : hasDefault c whole.parts) :
    t.resolve (.operator .construct) whole.ownDefault.ownArguments = .ok whole.ownDefault := by
  have hprefix := h.constructors
  rw [Aggregate.constructors, if_pos hdefault, List.append_assoc] at hprefix
  exact TypeInfo.resolve_own [] ((List.prefix_append _ _).trans hprefix) (List.forall_mem_nil _)

theorem resolve_copy (h : Governs c whole t) (hcopy : canCopy c whole.parts) :
    t.resolve (.operator .construct) whole.ownCopy.ownArguments = .ok whole.ownCopy := by
  have hprefix := h.constructors
  rw [Aggregate.constructors, if_pos hcopy] at hprefix
  refine TypeInfo.resolve_own _ ((List.prefix_append _ _).trans hprefix) fun g hg hcheck => ?_
  split at hg
  · cases List.mem_singleton.mp hg
    cases Function.check_eq_ok_iff.mp hcheck
  · cases hg

theorem resolve_move (h : Governs c whole t) (hmove : canMove c whole.parts) :
    t.resolve (.operator .construct) whole.ownMove.ownArguments = .ok whole.ownMove := by
  have hprefix := h.constructors
  rw [Aggregate.constructors, if_pos hmove] at hprefix
  refine TypeInfo.resolve_own _ hprefix fun g hg hcheck => ?_
  rcases List.mem_append.mp hg with hg | hg
  · split at hg
    · cases List.mem_singleton.mp hg
      cases Function.check_eq_ok_iff.mp hcheck
    · cases hg
  · split at hg
    · cases List.mem_singleton.mp hg
      exact Nat.one_pos
    · cases hg

theorem equality?_eq (h : Governs c whole t) (hcompare : canCompare c whole.parts) :
    Invoke.equality? t = some (whole.ownComparison .equal .equal) := by
  obtain ⟨more, hmore⟩ := h.equal hcompare
  rw [Invoke.equality?, ← hmore]
  exact List.find?_cons_of_pos (by simp [ownComparison, function, Function.resultParam])

theorem resolve_notEqual (h : Governs c whole t) (hcompare : canCompare c whole.parts) :
    t.resolve (.operator .notEqual) (whole.ownComparison .notEqual .notEqual).ownArguments =
      .ok (whole.ownComparison .notEqual .notEqual) :=
  TypeInfo.resolve_own [] (h.notEqual hcompare) (List.forall_mem_nil _)

end Governs

theorem overloads_of_canCompare {c : Catalogue} {parts : List Part} {part : Part} (h : canCompare c parts)
    (hpart : part ∈ parts) : (c.info part.type).overloads (.operator .equal) ≠ [] := by
  have hflag := List.all_eq_true.mp h part hpart
  rwa [Bool.not_eq_true', List.isEmpty_eq_false_iff] at hflag

/-- Members are placed one behind the other, and the parts that they become obey the laws. -/
structure Composite (d : Nat) (w : Context) (value : Handle → Memory → Place → V) (members : List Member)
    (layout : Layout)
    (parts : List Part) (whole : Memory → Place → W) : Prop where
  placed : place? w.catalogue members = some (layout, parts)
  /-- Two values are equal just if all of their parts are. -/
  values : ∀ m p m' p', whole m p = whole m' p' ↔
    ∀ part ∈ parts, value part.type m (p.shift part.offset) = value part.type m' (p'.shift part.offset)
  lawful : ∀ part ∈ parts, (w.catalogue.info part.type).Lawful (invokeWithin d) w (value part.type)
  defaults : ∀ part ∈ parts, ∀ j, part.default = some j →
    (w.catalogue.info part.type).Decodes (invokeWithin d) w j

/-- A type is an aggregate of parts that obey the laws, and works as it was composed. -/
structure Upright (d : Nat) (w : Context) (value : Handle → Memory → Place → V) (script : String)
    (members : List Member)
    (layout : Layout) (parts : List Part) (t : TypeInfo) (whole : Memory → Place → W) : Prop
    extends Composite d w value members layout parts whole where
  makeup : t.makeup = (info w.catalogue script layout parts).makeup
  governs : Governs w.catalogue (declared w.catalogue script layout parts) t

namespace Upright

variable {d : Nat} {w : Context} {value : Handle → Memory → Place → V} {script : String} {members : List Member}
  {layout : Layout} {parts : List Part} {t : TypeInfo} {whole : Memory → Place → W}

section

variable (h : Upright d w value script members layout parts t whole)
include h

theorem info_eq : t.id = .ofName script ∧ t.layout = layout ∧
    t.traits.default = hasDefault w.catalogue parts ∧ t.traits.copy = canCopy w.catalogue parts ∧
      t.traits.move = canMove w.catalogue parts := by
  have hmakeup := h.makeup
  rw [makeup_info] at hmakeup
  exact ⟨congrArg TypeInfo.id hmakeup, congrArg TypeInfo.layout hmakeup,
    congrArg (fun t : TypeInfo => t.traits.default) hmakeup, congrArg (fun t : TypeInfo => t.traits.copy) hmakeup,
    congrArg (fun t : TypeInfo => t.traits.move) hmakeup⟩

theorem follow : Layout.Follow 0 (parts.map fun p => (p.offset, (w.catalogue.info p.type).layout.size)) layout.size :=
  follow_place h.placed

theorem end_le {part : Part} (hpart : part ∈ parts) :
    part.offset + (w.catalogue.info part.type).layout.size ≤ layout.size :=
  h.follow.end_le (List.mem_map_of_mem (f := fun p : Part => (p.offset, (w.catalogue.info p.type).layout.size)) hpart)

theorem align_dvd : (∃ k, layout.align = 2 ^ k) ∧ ∀ p ∈ parts,
    (w.catalogue.info p.type).layout.align ∣ p.offset ∧
    (w.catalogue.info p.type).layout.align ∣ layout.align := by
  refine aligned_place h.placed fun m hm => ?_
  rw [← map_members h.placed] at hm
  obtain ⟨p, hp, rfl⟩ := List.mem_map.mp hm
  exact (h.lawful p hp).align

theorem seats {part : Part} (hpart : part ∈ parts) {m m' : Memory} {target : Place} (hseats : t.Seats m target)
    (hnext : m.next ≤ m'.next) : (w.catalogue.info part.type).Seats m' (target.shift part.offset) := by
  obtain ⟨hoffset, hwhole⟩ := h.align_dvd.2 part hpart
  refine ⟨hseats.live.trans_le hnext, Place.isAligned_shift hseats.aligned ?_ hoffset⟩
  rwa [h.info_eq.2.1]

theorem within {m m' : Memory} {p : Place} (hagrees : m.Agrees m' p layout.size) : whole m p = whole m' p :=
  (h.values m p m' p).mpr fun part hpart => (h.lawful part hpart).within (hagrees.shift (h.end_le hpart))

theorem exists_construct {f : Function} {args : List Value} {init : Part → Place → Exec CallError Unit}
    {places : List Place} {Q : Part → Memory → Prop} {m : Machine} {target : Place}
    (hseats : t.Seats m.memory target)
    (hapart : ∀ p ∈ places, p = target ∨ target.Apart layout.size p layout.size)
    (hargs : args.map Value.argument = f.ownArguments)
    (hresolve : t.resolve (.operator .construct) f.ownArguments = .ok f)
    (hconstructs : Constructs (invokeWithin d) w.catalogue script layout parts (f.run (invokeWithin d) args) init)
    (hinit : ∀ part ∈ parts, ∀ n : Machine, m.memory.Touches (places.map fun p => (p, part.offset)) n.memory →
      ∃ k, init part (target.shift part.offset) w n = .ok () k ∧ Q part k.memory ∧ n.memory.Touches
        (places.map fun p => (p.shift part.offset, (w.catalogue.info part.type).layout.size)) k.memory)
    (hkept : ∀ part ∈ parts, ∀ k k', Memory.Agrees k k' (target.shift part.offset)
      (w.catalogue.info part.type).layout.size → Q part k → Q part k') :
    ∃ n, (invokeWithin (d + 1)).constructAt t target args w m = .ok () n ∧ (∀ part ∈ parts, Q part n.memory) ∧
      m.memory.Touches (places.map fun p => (p, layout.size)) n.memory := by
  obtain ⟨n, hn, hQ, htouches⟩ := exists_forM_whole h.follow hseats.live hapart hinit hkept
  exact ⟨n, Invoke.constructAt_of_own hseats.aligned hargs hresolve (hconstructs.run_into hn), hQ, htouches⟩

theorem construct (hdefault : t.traits.default) (m : Machine) (target : Place) (hseats : t.Seats m.memory target) :
    ∃ n, (invokeWithin (d + 1)).defaultAt t target w m = .ok () n ∧
      m.memory.Touches [(target, t.layout.size)] n.memory := by
  obtain ⟨-, hlayout, hdefaults, -⟩ := h.info_eq
  rw [hdefaults] at hdefault
  have hresolve := h.governs.resolve_default hdefault
  have hinit : ∀ part ∈ parts, ∀ n : Machine,
    m.memory.Touches ([target].map fun p => (p, part.offset)) n.memory →
      ∃ k, (invokeWithin d).defaultPart part (target.shift part.offset) w n = .ok () k ∧ True ∧ n.memory.Touches
        ([target].map fun p => (p.shift part.offset, (w.catalogue.info part.type).layout.size)) k.memory := by
    intro part hpart n hn
    have hroom := h.seats hpart hseats hn.next
    rw [Invoke.defaultPart]
    cases hdecodes : part.default with
    | none =>
      have hflag := List.all_eq_true.mp hdefault part hpart
      rw [hdecodes, Option.isSome_none, Bool.false_or] at hflag
      obtain ⟨k, hk, htouches⟩ := (h.lawful part hpart).construct hflag n _ hroom
      exact ⟨k, hk, trivial, htouches⟩
    | some j =>
      obtain ⟨k, hk, htouches⟩ := h.defaults part hpart j hdecodes n _ hroom
      refine ⟨k, ?_, trivial, htouches⟩
      refine (bind_of_ok (x := typeInfo part.type) rfl).trans ?_
      dsimp only
      rw [mapError, hk]
  obtain ⟨n, hn, -, htouches⟩ := h.exists_construct hseats (List.forall_mem_singleton.mpr (.inl rfl))
    (show [].map Value.argument = _ from rfl) hresolve (.default rfl []) hinit fun _ _ _ _ _ _ => trivial
  exact ⟨n, hn, hlayout ▸ htouches⟩

/-- The places of two values that have nothing in common, as far as their parts are concerned. -/
theorem apart_parts {part : Part} (hpart : part ∈ parts) {target source : Place}
    (hapart : target.Apart layout.size source layout.size) :
    (target.shift part.offset).Apart (w.catalogue.info part.type).layout.size (source.shift part.offset)
      (w.catalogue.info part.type).layout.size :=
  hapart.shift (h.end_le hpart) (h.end_le hpart)

theorem value_source {part : Part} (hpart : part ∈ parts) {target source : Place} {m m' : Memory}
    (hlive : source.block < m.next) (hapart : target.Apart layout.size source layout.size)
    (htouches : m.Touches [(target, part.offset), (source, part.offset)] m') :
    value part.type m' (source.shift part.offset) = value part.type m (source.shift part.offset) := by
  have hend := h.end_le hpart
  refine ((h.lawful part hpart).within (htouches.kept (source.shift part.offset) _ hlive
    (List.forall_mem_cons.mpr ⟨?_, List.forall_mem_singleton.mpr ?_⟩))).symm
  · have hbefore : (source.shift part.offset).Apart (w.catalogue.info part.type).layout.size (target.shift 0)
        part.offset := hapart.symm.shift hend (by omega)
    rwa [Place.shift_zero] at hbefore
  · exact .inr (.inr (Nat.le_refl _))

theorem exists_transfer {f : Function} {form : Form} {init : Part → Place → Exec CallError Unit}
    (places : List Place)
    {m : Machine} {target source : Place} (hseats : t.Seats m.memory target) (hlive : source.block < m.memory.next)
    (hapart : target.Apart t.layout.size source t.layout.size) (hplaces : ∀ p ∈ places, p = target ∨ p = source)
    (hargs : [Value.borrowed t.id form source].map Value.argument = f.ownArguments)
    (hresolve : t.resolve (.operator .construct) f.ownArguments = .ok f)
    (hconstructs : Constructs (invokeWithin d) w.catalogue script layout parts
      (f.run (invokeWithin d) [.borrowed t.id form source]) init)
    (hpart : ∀ part ∈ parts, ∀ n : Machine, let u := w.catalogue.info part.type
      u.Seats n.memory (target.shift part.offset) → (source.shift part.offset).block < n.memory.next →
      (target.shift part.offset).Apart u.layout.size (source.shift part.offset) u.layout.size →
      ∃ k, init part (target.shift part.offset) w n = .ok () k ∧
        value part.type k.memory (target.shift part.offset) = value part.type n.memory (source.shift part.offset) ∧
        n.memory.Touches (places.map fun p => (p.shift part.offset, u.layout.size)) k.memory) :
    ∃ n, (invokeWithin (d + 1)).constructAt t target [.borrowed t.id form source] w m = .ok () n ∧
      whole n.memory target = whole m.memory source ∧
      m.memory.Touches (places.map fun p => (p, t.layout.size)) n.memory := by
  rw [h.info_eq.2.1] at hapart ⊢
  have hother : ∀ p ∈ places, p = target ∨ target.Apart layout.size p layout.size := fun p hp => by
    rcases hplaces p hp with heq | rfl
    · exact .inl heq
    · exact .inr hapart
  obtain ⟨n, hn, hvalues, htouches⟩ := h.exists_construct
    (Q := fun part k => value part.type k (target.shift part.offset) =
      value part.type m.memory (source.shift part.offset)) hseats hother hargs hresolve hconstructs
    (fun part hmem n hn => by
      have hboth : m.memory.Touches [(target, part.offset), (source, part.offset)] n.memory := by
        refine hn.widen (List.forall_mem_map.mpr fun p hp => ?_)
        rcases hplaces p hp with rfl | rfl
        · exact ⟨_, List.mem_cons_self, rfl, Nat.le_refl _, Nat.le_refl _⟩
        · exact ⟨_, List.mem_cons_of_mem _ List.mem_cons_self, rfl, Nat.le_refl _, Nat.le_refl _⟩
      obtain ⟨k, hk, hvalue, htouches⟩ := hpart part hmem n (h.seats hmem hseats hn.next) (hlive.trans_le hn.next)
        (h.apart_parts hmem hapart)
      exact ⟨k, hk, hvalue.trans (h.value_source hmem hlive hapart hboth), htouches⟩)
    (fun part hmem k k' hagrees hvalue => ((h.lawful part hmem).within hagrees).symm.trans hvalue)
  exact ⟨n, hn, (h.values _ _ _ _).mpr hvalues, htouches⟩

theorem copy (hcopy : t.traits.copy) (m : Machine) (target source : Place) (hseats : t.Seats m.memory target)
    (hlive : source.block < m.memory.next) (hapart : target.Apart t.layout.size source t.layout.size) :
    ∃ n, (invokeWithin (d + 1)).copyAt t target source w m = .ok () n ∧
      whole n.memory target = whole m.memory source ∧ m.memory.Touches [(target, t.layout.size)] n.memory := by
  obtain ⟨hid, -, -, hcopies, -⟩ := h.info_eq
  rw [hcopies] at hcopy
  have hargs : [Value.borrowed t.id .constRef source].map Value.argument =
      (declared w.catalogue script layout parts).ownCopy.ownArguments := by
    rw [hid]
    rfl
  refine h.exists_transfer [target] hseats hlive hapart (List.forall_mem_singleton.mpr (.inl rfl)) hargs
    (h.governs.resolve_copy hcopy) (.copy rfl rfl) fun part hpart n hroom hthere hparts => ?_
  have hflag := List.all_eq_true.mp hcopy part hpart
  exact (h.lawful part hpart).copy hflag n _ _ hroom hthere hparts

theorem move (hmove : t.traits.move) (m : Machine) (target source : Place) (hseats : t.Seats m.memory target)
    (hlive : source.block < m.memory.next) (hapart : target.Apart t.layout.size source t.layout.size) :
    ∃ n, (invokeWithin (d + 1)).moveAt t target source w m = .ok () n ∧
      whole n.memory target = whole m.memory source ∧
      m.memory.Touches [(target, t.layout.size), (source, t.layout.size)] n.memory := by
  obtain ⟨hid, -, -, -, hmoves⟩ := h.info_eq
  rw [hmoves] at hmove
  have hargs : [Value.borrowed t.id .rvalue source].map Value.argument =
      (declared w.catalogue script layout parts).ownMove.ownArguments := by
    rw [hid]
    rfl
  refine h.exists_transfer [target, source] hseats hlive hapart
    (List.forall_mem_cons.mpr ⟨.inl rfl, List.forall_mem_singleton.mpr (.inr rfl)⟩) hargs
    (h.governs.resolve_move hmove) (.move rfl rfl) fun part hpart n hroom hthere hparts => ?_
  have hflag := List.all_eq_true.mp hmove part hpart
  cases hmoves : (w.catalogue.info part.type).traits.move with
  | true =>
    obtain ⟨k, hk, hvalue, htouches⟩ := (h.lawful part hpart).move hmoves n _ _ hroom hthere hparts
    refine ⟨k, (bind_of_ok (x := typeInfo part.type) rfl).trans ?_, hvalue, htouches⟩
    rw [if_pos hmoves]
    exact hk
  | false =>
    rw [hmoves, Bool.false_or] at hflag
    obtain ⟨k, hk, hvalue, htouches⟩ := (h.lawful part hpart).copy hflag n _ _ hroom hthere hparts
    refine ⟨k, (bind_of_ok (x := typeInfo part.type) rfl).trans ?_, hvalue, htouches.widen ?_⟩
    · rw [if_neg (Bool.eq_false_iff.mp hmoves)]
      exact hk
    · exact List.forall_mem_singleton.mpr ⟨_, List.mem_cons_self, rfl, Nat.le_refl _, Nat.le_refl _⟩

theorem exists_equalParts (hcompare : canCompare w.catalogue parts) {qs : List Part} (hqs : qs ⊆ parts) {m : Machine}
    {a b : Place} (ha : a.block < m.memory.next) (hb : b.block < m.memory.next) :
    ∃ told n, AggregateOp.equalParts (invokeWithin d) a b qs w m = .ok told n ∧ (told = true ↔ ∀ part ∈ qs,
      value part.type m.memory (a.shift part.offset) = value part.type m.memory (b.shift part.offset)) ∧
      m.memory.Touches [] n.memory := by
  induction qs generalizing m with
  | nil => exact ⟨true, m, rfl, iff_of_true rfl (List.forall_mem_nil _), .refl _ _⟩
  | cons part qs ih =>
    obtain ⟨hpart, hrest⟩ := List.cons_subset.mp hqs
    have hlawful := h.lawful part hpart
    obtain ⟨told, n, hn, htold, htouches⟩ := hlawful.equal (overloads_of_canCompare hcompare hpart) m
      (a.shift part.offset)
      (b.shift part.offset) ha hb
    have hstep (k : Option Bool → Exec CallError Bool) : (do
        let u ← typeInfo part.type
        k (← (invokeWithin d).equals u (a.shift part.offset) (b.shift part.offset))) w m = k (some told) w n :=
      (bind_of_ok (x := typeInfo part.type) rfl).trans (bind_of_ok hn)
    rw [AggregateOp.equalParts, hstep, List.forall_mem_cons, ← htold]
    cases told with
    | false => exact ⟨false, n, rfl, iff_of_false Bool.false_ne_true fun hall => Bool.false_ne_true hall.1,
        htouches⟩
    | true =>
      obtain ⟨all, k, hk, hall, htouches'⟩ := ih hrest (ha.trans_le htouches.next) (hb.trans_le htouches.next)
      refine ⟨all, k, hk, ?_, htouches.trans htouches'⟩
      rw [hall, and_iff_right rfl]
      refine forall₂_congr fun q hq => ?_
      have hsame (p : Place) (hp : p.block < m.memory.next) :
          value q.type n.memory (p.shift q.offset) = value q.type m.memory (p.shift q.offset) :=
        ((h.lawful q (hrest hq)).within (htouches.kept (p.shift q.offset) _ hp (List.forall_mem_nil _))).symm
      rw [hsame a ha, hsame b hb]

theorem exists_compare (hcompare : canCompare w.catalogue parts) (expected : Bool) (out : Place) {m : Machine}
    {a b : Place}
    (ha : a.block < m.memory.next) (hb : b.block < m.memory.next) :
    ∃ told n, AggregateOp.compare (invokeWithin d) (declared w.catalogue script layout parts) expected
        [.borrowed t.id .constRef a, .borrowed t.id .constRef b] (some out) w m = .ok none n ∧
      n.memory.read out .bool = .bool (told == expected) ∧ (told = true ↔ whole m.memory a = whole m.memory b) ∧
      m.memory.Touches [(out, 1)] n.memory := by
  obtain ⟨told, n, hn, htold, htouches⟩ := h.exists_equalParts hcompare (List.Subset.refl parts) ha hb
  have hplaces : [Value.borrowed t.id .constRef a, .borrowed t.id .constRef b].map Value.place? = [some a, some b] :=
    rfl
  refine ⟨told,
    { n with memory := n.memory.writeLeaves out NativeOp.boolShape.leaves [.bool (told == expected)] }, ?_,
    ?_, htold.trans (h.values _ _ _ _).symm, ?_⟩
  · rw [AggregateOp.compare, hplaces]
    exact (bind_of_ok hn).trans rfl
  · exact n.memory.read_writeLeaves_bool out _
  · have hleaves : ∀ l ∈ NativeOp.boolShape.leaves, l.1 + l.2.layout.size ≤ 1 := by decide
    refine (htouches.widen (List.forall_mem_nil _)).trans
      ((Memory.changesOnly_writeLeaves _ out _ hleaves).touches ?_)
    rw [Memory.next_writeLeaves]

theorem equal (hequal : t.overloads (.operator .equal) ≠ []) (m : Machine) (a b : Place)
    (ha : a.block < m.memory.next) (hb : b.block < m.memory.next) :
    ∃ told n, ((invokeWithin (d + 1)).equals t a b : Exec CallError (Option Bool)) w m = .ok (some told) n ∧
      (told = true ↔ whole m.memory a = whole m.memory b) ∧ m.memory.Touches [] n.memory := by
  have hcompare : canCompare w.catalogue parts = true := by
    by_contra hcompare
    exact hequal (h.governs.incomparable (Bool.eq_false_iff.mpr hcompare)).1
  have hargs : [Value.borrowed t.id .constRef a, .borrowed t.id .constRef b].map Value.argument =
      ((declared w.catalogue script layout parts).ownComparison .equal .equal).ownArguments := by
    rw [h.info_eq.1]
    rfl
  refine Invoke.exists_equals (h.governs.equality?_eq hcompare) (fun hagrees => h.within hagrees) ha hb
    fun m out ha hb => ?_
  obtain ⟨told, n, hn, hread, htold, htouches⟩ := h.exists_compare hcompare true out ha hb
  refine ⟨told, n, (congrFun₂ (Invoke.invokeWithin_of_own hargs _) w m).trans hn, ?_, htold, htouches⟩
  rw [hread]
  cases told <;> rfl

theorem notEqual (hnotEqual : t.overloads (.operator .notEqual) ≠ []) (m : Machine) (a b out : Place)
    (ha : a.block < m.memory.next) (hb : b.block < m.memory.next) :
    ∃ told n, (invokeWithin (d + 1)).callKey t (.operator .notEqual)
        [.borrowed t.id .constRef a, .borrowed t.id .constRef b] (some out) w m = .ok none n ∧
      n.memory.read out .bool = .bool told ∧ (told = true ↔ whole m.memory a ≠ whole m.memory b) ∧
      m.memory.Touches [(out, 1)] n.memory := by
  have hcompare : canCompare w.catalogue parts = true := by
    by_contra hcompare
    exact hnotEqual (h.governs.incomparable (Bool.eq_false_iff.mpr hcompare)).2
  have hargs : [Value.borrowed t.id .constRef a, .borrowed t.id .constRef b].map Value.argument =
      ((declared w.catalogue script layout parts).ownComparison .notEqual .notEqual).ownArguments := by
    rw [h.info_eq.1]
    rfl
  obtain ⟨told, n, hn, hread, htold, htouches⟩ := h.exists_compare hcompare false out ha hb
  refine ⟨told == false, n, ?_, hread, ?_, htouches⟩
  · rw [Invoke.callKey, hargs, h.governs.resolve_notEqual hcompare]
    dsimp only
    rw [Invoke.invokeWithin_of_own hargs]
    exact hn
  · rw [ne_eq, ← htold, beq_iff_eq, Bool.not_eq_true]

theorem lawful_whole : t.Lawful (invokeWithin (d + 1)) w whole where
  align := by
    rw [h.info_eq.2.1]
    exact h.align_dvd.1
  within hagrees := by
    rw [h.info_eq.2.1] at hagrees
    exact h.within hagrees
  construct := h.construct
  copy := h.copy
  move := h.move
  equal := h.equal
  notEqual hnotEqual m a b out ha hb _ := h.notEqual hnotEqual m a b out ha hb

end

end Upright

end Aggregate

end Flowscript
