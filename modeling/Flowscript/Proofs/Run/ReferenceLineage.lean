import Flowscript.Proofs.CollectionLemmas
import Flowscript.Proofs.Run.FrameCare
import Flowscript.Proofs.Run.PinTyping

/-! # Where references lead

A slot that holds no value of its own refers to data elsewhere: in a value that was lent to the call,
or in the own storage of a pin further up. A reference is sound when it leads there and finds data of
the type of its pin. When a slot is filled anew, nothing that is read for it lies in the slot itself:
what was filled once does not depend on itself, since what it is computed from had to be there before.
-/
namespace Flowscript

def Charge.Has (lies : Layouts) (v : Charge) (place : Place) (type : TypeId) : Prop :=
  ∃ offset, place = v.place.shift offset ∧ lies v.type offset type

def Lent (lies : Layouts) (lent : List Charge) (place : Place) (type : TypeId) : Prop :=
  ∃ v ∈ lent, v.Has lies place type

variable {lies : Layouts} {lent : List Charge} {place : Place} {type : TypeId}

theorem Charge.Has.block_eq {v : Charge} (h : v.Has lies place type) :
    place.block = v.place.block := by
  obtain ⟨offset, rfl, -⟩ := h
  rfl

theorem Charge.Has.self (hwhole : ∀ type, lies type 0 type) :
    (Charge.mk place type).Has lies place type := by
  obtain ⟨block, offset, address⟩ := place
  refine ⟨0, ?_, hwhole type⟩
  cases address <;> rfl

theorem Charge.Has.cast {v : Charge} {target : TypeId} (h : v.Has lies place type)
    (hcast : Program.Casts lies type target) : v.Has lies place target := by
  obtain ⟨offset, hplace, hlies⟩ := h
  exact ⟨offset, hplace, hcast _ _ hlies⟩

theorem Charge.Has.field {v : Charge} {offset : Nat} {field : TypeId} (h : v.Has lies place type)
    (hfield : Program.HasField lies type offset field) :
    v.Has lies (place.shift offset) field := by
  obtain ⟨start, rfl, hlies⟩ := h
  have hshift : ∀ address : Address,
      (address.shift start).shift offset = address.shift (start + offset) := by
    intro address
    cases address <;> simp only [Address.shift, Nat.add_assoc]
  refine ⟨start + offset, ?_, hfield _ _ hlies⟩
  simp only [Place.shift, Nat.add_assoc, hshift]

theorem Lent.mono {lent' : List Charge} (h : Lent lies lent place type)
    (hsub : ∀ v ∈ lent, v ∈ lent') : Lent lies lent' place type := by
  obtain ⟨v, hv, hhas⟩ := h
  exact ⟨v, hsub v hv, hhas⟩

def ProgramNode.reads (n : ProgramNode) : List PinId :=
  match n.op with
  | .call f => (f.params.zip n.dataIn).map (·.2)
  | .fieldGet .. => n.dataIn.take 1
  | _ => []

theorem ProgramNode.mem_dataIn_of_mem_reads {n : ProgramNode} {i : PinId} (h : i ∈ n.reads) :
    i ∈ n.dataIn := by
  unfold reads at h
  split at h
  · obtain ⟨x, hx, rfl⟩ := List.mem_map.mp h
    exact (List.of_mem_zip hx).2
  · exact List.mem_of_mem_take h
  · cases h

namespace Program

/-- Where the data of an input is looked for: in its own slot if it is not linked, else in that of the
output it is linked with, past all reroutes. -/
inductive Source (p : Program) : PinId → PinId → Prop where
  | unlinked {i : PinId} {q : ProgramPin} (hq : p.pin? i = some q) (hsource : q.source = none) :
    Source p i i
  | output {i o : PinId} {q r : ProgramPin} {n : ProgramNode} (hq : p.pin? i = some q)
    (hsource : q.source = some o) (hr : p.pin? o = some r) (hn : p.node? r.node = some n)
    (hop : n.op ≠ .reroute) : Source p i o
  | reroute {i o j k : PinId} {q r : ProgramPin} {n : ProgramNode} (hq : p.pin? i = some q)
    (hsource : q.source = some o) (hr : p.pin? o = some r) (hn : p.node? r.node = some n)
    (hop : n.op = .reroute) (hj : n.dataIn[0]? = some j) (hk : Source p j k) : Source p i k

def Feeds (p : Program) (k o : PinId) : Prop :=
  ∃ r n i, p.pin? o = some r ∧ p.node? r.node = some n ∧ o ∈ n.dataOut ∧ i ∈ n.reads ∧ p.Source i k

/-- A pin whose slot may hold a value of its own. -/
def Owns (c : Catalogue) (p : Program) (id : PinId) : Prop :=
  ∃ q n, p.pin? id = some q ∧ p.node? q.node = some n ∧
    (id ∈ n.dataIn ∧ (q.default.isSome ∨ ∃ h, q.type = some h ∧ (c.info h).traits.default = true) ∨
      id ∈ n.dataOut ∧
        match n.op with
        | .call f => ∃ r, f.result = some r ∧ r.form.isOwning = true
        | .fieldGet .. | .forLoop => True
        | _ => False)

variable {c : Catalogue} {p : Program}

theorem Source.cases_on_source {i k : PinId} {q : ProgramPin} (h : p.Source i k)
    (hq : p.pin? i = some q) :
    q.source = none ∧ k = i ∨ ∃ o r n, q.source = some o ∧ p.pin? o = some r ∧
      p.node? r.node = some n ∧ (n.op ≠ .reroute ∧ k = o ∨
        n.op = .reroute ∧ ∃ j, n.dataIn[0]? = some j ∧ p.Source j k) := by
  cases h with
  | unlinked hq' hsource =>
    rw [hq] at hq'
    cases hq'
    exact .inl ⟨hsource, rfl⟩
  | output hq' hsource hr hn hop =>
    rw [hq] at hq'
    cases hq'
    exact .inr ⟨_, _, _, hsource, hr, hn, .inl ⟨hop, rfl⟩⟩
  | reroute hq' hsource hr hn hop hj hk =>
    rw [hq] at hq'
    cases hq'
    exact .inr ⟨_, _, _, hsource, hr, hn, .inr ⟨hop, _, hj, hk⟩⟩

theorem Source.unique {i k k' : PinId} (h : p.Source i k) (h' : p.Source i k') : k' = k := by
  induction h with
  | unlinked hq hsource =>
    rcases h'.cases_on_source hq with ⟨-, hk⟩ | ⟨_, _, _, ho, -⟩
    · exact hk
    · rw [hsource] at ho
      cases ho
  | output hq hsource hr hn hop =>
    rcases h'.cases_on_source hq with ⟨ho, -⟩ | ⟨_, _, _, ho, hr', hn', h'⟩
    · rw [hsource] at ho
      cases ho
    · rw [hsource] at ho
      cases ho
      rw [hr] at hr'
      cases hr'
      rw [hn] at hn'
      cases hn'
      rcases h' with ⟨-, hk⟩ | ⟨hop', -⟩
      · exact hk
      · exact absurd hop' hop
  | reroute hq hsource hr hn hop hj hk ih =>
    rcases h'.cases_on_source hq with ⟨ho, -⟩ | ⟨_, _, _, ho, hr', hn', h'⟩
    · rw [hsource] at ho
      cases ho
    · rw [hsource] at ho
      cases ho
      rw [hr] at hr'
      cases hr'
      rw [hn] at hn'
      cases hn'
      rcases h' with ⟨hop', -⟩ | ⟨-, j, hj', hk'⟩
      · exact absurd hop hop'
      · rw [hj] at hj'
        cases hj'
        exact ih hk'

theorem Typed.not_feeds (h : p.Typed lies c) {id : NodeId} {n : ProgramNode}
    (hn : p.node? id = some n) {i k : PinId} (hi : i ∈ n.dataIn) : ¬ p.Feeds k i := by
  rintro ⟨r, n', _, hr, hn', hout, -⟩
  obtain ⟨hnot, q, hq, rfl⟩ := h.input id n hn i hi
  rw [hr] at hq
  cases hq
  rw [hn] at hn'
  cases hn'
  exact hnot hout

theorem Typed.owns_output_iff (h : p.Typed lies c) {id : NodeId} {n : ProgramNode}
    (hn : p.node? id = some n) {o : PinId} (ho : o ∈ n.dataOut) :
    p.Owns c o ↔
      match n.op with
      | .call f => ∃ r, f.result = some r ∧ r.form.isOwning = true
      | .fieldGet .. | .forLoop => True
      | _ => False := by
  obtain ⟨q, hq, rfl⟩ := h.output id n hn o ho
  constructor
  · rintro ⟨q', n', hq', hn', howns⟩
    rw [hq] at hq'
    cases hq'
    rw [hn] at hn'
    cases hn'
    rcases howns with ⟨hin, -⟩ | ⟨-, howns⟩
    · exact absurd ho (h.input q.node n hn o hin).1
    · exact howns
  · exact fun howns => ⟨q, n, hq, hn, .inr ⟨ho, howns⟩⟩

theorem Typed.feeds_iff (h : p.Typed lies c) {id : NodeId} {n : ProgramNode}
    (hn : p.node? id = some n) {o k : PinId} (ho : o ∈ n.dataOut) :
    p.Feeds k o ↔ ∃ i ∈ n.reads, p.Source i k := by
  obtain ⟨q, hq, rfl⟩ := h.output id n hn o ho
  constructor
  · rintro ⟨r, n', i, hr, hn', -, hi, hk⟩
    rw [hr] at hq
    cases hq
    rw [hn] at hn'
    cases hn'
    exact ⟨i, hi, hk⟩
  · rintro ⟨i, hi, hk⟩
    exact ⟨q, n, i, hq, hn, ho, hi, hk⟩

end Program

namespace Frame

open Relation

/-- The slots of a frame are sound: references lead to data of the right type, in values that were
lent or in slots further up; what is filled does not depend on itself; and only pins that may hold
values of their own do. -/
structure Sound (lies : Layouts) (c : Catalogue) (p : Program) (lent : List Charge) (f : Frame) :
    Prop where
  refers : ∀ o place type, f.state o = .borrowed place → p.typeOf c o = some type →
    Lent lies lent place type ∨
      ∃ k v, TransGen p.Feeds k o ∧ f.held c p k = some v ∧ v.Has lies place type
  grounded : ∀ o, f.state o ≠ .empty → Acc p.Feeds o
  owns : ∀ o, f.state o = .owned → p.Owns c o

/-- Data that a pin leads to: in a value that was lent, in the pin's own slot or in one further up. -/
def Leads (lies : Layouts) (c : Catalogue) (p : Program) (lent : List Charge) (f : Frame) (s : PinId)
    (place : Place) (type : TypeId) : Prop :=
  Lent lies lent place type ∨
    ∃ k v, ReflTransGen p.Feeds k s ∧ f.held c p k = some v ∧ v.Has lies place type

variable {c : Catalogue} {p : Program} {f f' : Frame} {s : PinId}

theorem Leads.cast {target : TypeId} (h : f.Leads lies c p lent s place type)
    (hcast : Program.Casts lies type target) : f.Leads lies c p lent s place target := by
  rcases h with ⟨v, hv, hhas⟩ | ⟨k, v, hk, hheld, hhas⟩
  · exact .inl ⟨v, hv, hhas.cast hcast⟩
  · exact .inr ⟨k, v, hk, hheld, hhas.cast hcast⟩

theorem held_eq_of_state (hcharge : ∀ id, f'.charge? c p id = f.charge? c p id) {k : PinId}
    {v : Charge} (h : f.held c p k = some v) (hstate : f'.state k = .owned) :
    f'.held c p k = some v := by
  obtain ⟨-, hv⟩ := held_eq_some.mp h
  exact held_eq_some.mpr ⟨hstate, (hcharge k).trans hv⟩

namespace Sound

theorem leads (h : f.Sound lies c p lent) (hwhole : ∀ type, lies type 0 type)
    (htype : p.typeOf c s = some type) (hvalue : f.value? p s = some place) :
    f.Leads lies c p lent s place type := by
  unfold value? at hvalue
  cases hstate : f.state s with
  | empty => rw [hstate] at hvalue; cases hvalue
  | null => rw [hstate] at hvalue; cases hvalue
  | borrowed source =>
    rw [hstate] at hvalue
    cases hvalue
    refine (h.refers s _ type hstate htype).imp id ?_
    rintro ⟨k, v, hk, hheld, hhas⟩
    exact ⟨k, v, hk.to_reflTransGen, hheld, hhas⟩
  | owned =>
    rw [hstate] at hvalue
    dsimp only at hvalue
    have hcharge : f.charge? c p s = some ⟨place, type⟩ := by
      unfold Program.typeOf at htype
      obtain ⟨handle, hhandle, rfl⟩ := Option.map_eq_some_iff.mp htype
      simp only [charge?, hvalue, hhandle]
    exact .inr ⟨s, _, .refl, held_eq_some.mpr ⟨hstate, hcharge⟩, .self hwhole⟩

/-- Other slots stay, and the one that is filled anew holds a value of its own. -/
theorem own (h : f.Sound lies c p lent) (hcharge : ∀ id, f'.charge? c p id = f.charge? c p id)
    (hother : ∀ o, o ≠ s → f'.state o = f.state o) (hs : f'.state s = .owned)
    (hacc : Acc p.Feeds s) (howns : p.Owns c s) : f'.Sound lies c p lent := by
  have howned : ∀ k, f.state k = .owned → f'.state k = .owned := by
    intro k hk
    by_cases hne : k = s
    · rw [hne, hs]
    · rw [hother k hne, hk]
  refine ⟨fun o place type ho htype => ?_, fun o ho => ?_, fun o ho => ?_⟩
  · have hne : o ≠ s := by
      rintro rfl
      rw [hs] at ho
      cases ho
    rw [hother o hne] at ho
    refine (h.refers o place type ho htype).imp id ?_
    rintro ⟨k, v, hk, hheld, hhas⟩
    exact ⟨k, v, hk, held_eq_of_state hcharge hheld (howned k (held_eq_some.mp hheld).1), hhas⟩
  · by_cases hne : o = s
    · exact hne ▸ hacc
    · exact h.grounded o (by rwa [← hother o hne])
  · by_cases hne : o = s
    · exact hne ▸ howns
    · exact h.owns o (by rwa [← hother o hne])

/-- Other slots stay, and the one that is filled anew holds none: a reference that leads somewhere, or
nothing. -/
theorem refer (h : f.Sound lies c p lent) (hcharge : ∀ id, f'.charge? c p id = f.charge? c p id)
    (hother : ∀ o, o ≠ s → f'.state o = f.state o) (hs : f'.state s ≠ .owned)
    (hfree : ¬ p.Owns c s) (hacc : Acc p.Feeds s)
    (hleads : ∀ place type, f'.state s = .borrowed place → p.typeOf c s = some type →
      Lent lies lent place type ∨
        ∃ k v, TransGen p.Feeds k s ∧ f.held c p k = some v ∧ v.Has lies place type) :
    f'.Sound lies c p lent := by
  have hkeep : ∀ k v, f.held c p k = some v → f'.held c p k = some v := by
    intro k v hheld
    have hk := (held_eq_some.mp hheld).1
    have hne : k ≠ s := by
      rintro rfl
      exact hfree (h.owns k hk)
    exact held_eq_of_state hcharge hheld ((hother k hne).trans hk)
  have hlift : ∀ o place type, (Lent lies lent place type ∨
        ∃ k v, TransGen p.Feeds k o ∧ f.held c p k = some v ∧ v.Has lies place type) →
      Lent lies lent place type ∨
        ∃ k v, TransGen p.Feeds k o ∧ f'.held c p k = some v ∧ v.Has lies place type := by
    rintro o place type (hlent | ⟨k, v, hk, hheld, hhas⟩)
    · exact .inl hlent
    · exact .inr ⟨k, v, hk, hkeep k v hheld, hhas⟩
  refine ⟨fun o place type ho htype => ?_, fun o ho => ?_, fun o ho => ?_⟩
  · by_cases hne : o = s
    · subst hne
      exact hlift o place type (hleads place type ho htype)
    · rw [hother o hne] at ho
      exact hlift o place type (h.refers o place type ho htype)
  · by_cases hne : o = s
    · exact hne ▸ hacc
    · exact h.grounded o (by rwa [← hother o hne])
  · have hne : o ≠ s := fun he => hs (he ▸ ho)
    exact h.owns o (by rwa [← hother o hne])

/-- What is read for a slot that holds a value does not lie in the slot itself. -/
theorem not_leads_self (h : f.Sound lies c p lent) {k o : PinId} {v : Charge}
    (hheld : f.held c p k = some v) (hk : ReflTransGen p.Feeds k s) (hs : p.Feeds s o) : k ≠ o := by
  rintro rfl
  have hfilled : f.state k ≠ .empty := by
    rw [(held_eq_some.mp hheld).1]
    simp
  exact not_transGen_self_of_acc (h.grounded k hfilled) (.tail' hk hs)

end Sound

theorem Sound.of_empty (h : ∀ o, f.state o = .empty) : f.Sound lies c p lent := by
  refine ⟨fun o place type ho => ?_, fun o ho => absurd (h o) ho, fun o ho => ?_⟩
  · rw [h o] at ho
    cases ho
  · rw [h o] at ho
    cases ho

end Frame

end Flowscript
