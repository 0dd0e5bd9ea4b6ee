import Flowscript.Proofs.Machine.DeterminedComputations
import Flowscript.Proofs.Run.ReferenceLineage

/-! # What inputs are meant to be given

At the beginning of a statement it is settled what each input is meant to be given until the statement
changes something: a settled output is read from the frame, and an expression has the meaning of what is
done for it, worked out from what its own inputs are meant to be given. Nothing is stored on the way, so
this is the evaluation without a cache.

A datum is a place together with what its block is meant to hold. It lies outside of the storage that
expressions fill, or in the storage of a pin further up; so an expression never works on the storage that
its own result goes to.
-/
namespace Flowscript

open Relation

structure Datum where
  place : Place
  held : Block

/-- What a pin is meant to hold: a null pointer, a value of its own, or a reference. -/
inductive Content where
  | null
  | own (held : Block)
  | elsewhere (d : Datum)

/-- What an input that is linked with a pin is given. -/
def Content.datum (slot : Option Place) : Content → Option Datum
  | null => none
  | own held => slot.map (⟨·, held⟩)
  | elsewhere d => some d

inductive Given (D : Type) where
  | null
  | copy (data : D)
  | shared (d : Datum)

def Given.sight (N : Notion) (p : Param) : Given N.Data → Sight N.Data
  | null => ⟨p.type, p.form, none, none⟩
  | copy data => ⟨p.type, p.form, none, some data⟩
  | shared d => ⟨p.type, p.form, some d.place, some (N.look p.type d.held d.place.offset)⟩

open Classical in
noncomputable def Notion.sample (N : Notion) (type : TypeId) (data : N.Data) : Block :=
  if h : ∃ b, N.look type b 0 = data then h.choose else {}

theorem Notion.look_sample {N : Notion} {type : TypeId} {data : N.Data} {b : Block}
    (h : N.look type b 0 = data) : N.look type (N.sample type data) 0 = data := by
  have hex : ∃ b, N.look type b 0 = data := ⟨b, h⟩
  rw [sample, dif_pos hex]
  exact hex.choose_spec

namespace Program

/-- A pin whose storage is filled anew: an output of an expression, or an input. -/
def Volatile (p : Program) (id : PinId) : Prop :=
  ∃ q n, p.pin? id = some q ∧ p.node? q.node = some n ∧ (id ∈ n.dataOut → n.pure = true)

/-- An output that holds what it was given when its node ran. -/
def Settled (p : Program) (id : PinId) : Prop :=
  ∃ q n, p.pin? id = some q ∧ p.node? q.node = some n ∧ id ∈ n.dataOut ∧ n.pure = false

/-- A pin whose storage an input may be given: its own, or that of an output it pulls. -/
def Obtains (p : Program) (i r : PinId) : Prop :=
  ∃ k q, ReflTransGen p.Pulls i k ∧ p.pin? k = some q ∧
    (q.source = some r ∨ q.source = none ∧ r = k)

theorem Volatile.not_settled {p : Program} {id : PinId} (h : p.Volatile id) : ¬ p.Settled id := by
  obtain ⟨q, n, hq, hn, hpure⟩ := h
  rintro ⟨q', n', hq', hn', hout, himpure⟩
  rw [hq] at hq'
  cases hq'
  rw [hn] at hn'
  cases hn'
  rw [hpure hout] at himpure
  cases himpure

theorem Obtains.of_pulls {p : Program} {i j r : PinId} (h : p.Obtains j r) (hij : p.Pulls i j) :
    p.Obtains i r := by
  obtain ⟨k, q, hjk, hq, hr⟩ := h
  exact ⟨k, q, .head hij hjk, hq, hr⟩

end Program

structure Juncture where
  notion : Notion
  invoke : Invoke
  scope : Scope
  start : Activation

def Activation.vol (sc : Scope) (a : Activation) (b : Nat) : Prop :=
  ∃ id, sc.program.Volatile id ∧ b = a.frame.firstBlock + (id.val - 1)

/-- The place exists, and is not in storage that is filled anew. -/
def Activation.Outside (sc : Scope) (a : Activation) (place : Place) : Prop :=
  place.block < a.machine.memory.next ∧ ¬ a.vol sc place.block

/-- No settled output holds a reference into storage that is filled anew. -/
def Activation.Detached (sc : Scope) (a : Activation) : Prop :=
  ∀ id place, sc.program.Settled id → a.frame.state id = .borrowed place → a.Outside sc place

namespace Juncture

variable (K : Juncture)

abbrev program : Program := K.scope.program

abbrev info (h : Handle) : TypeInfo := K.scope.context.catalogue.info h

abbrev memory : Memory := K.start.machine.memory

def slot (id : PinId) : Option Place := K.start.frame.storage? K.program id

noncomputable def meaning (d : Chore) (fits : Option Place → Prop) (sights : List (Sight K.notion.Data)) :
    Option (Yield K.notion.Data) :=
  d.meaning K.notion K.scope.context K.invoke (K.start.vol K.scope) K.start.machine fits sights

/-- A datum as a constructor that copies it sees it. -/
def glance (h : Handle) (d : Datum) : Sight K.notion.Data :=
  ⟨(K.info h).id, .constRef, some d.place, some (K.notion.look (K.info h).id d.held d.place.offset)⟩

/-- What is constructed or read without arguments in the storage of a pin, or from one. -/
noncomputable def built (d : Chore) (fits : Option Place → Prop) (sights : List (Sight K.notion.Data)) :
    Option K.notion.Data :=
  match K.meaning d fits sights with
  | some (.built data) => some data
  | _ => none

noncomputable def filled (d : Chore) (id : PinId) (sights : List (Sight K.notion.Data)) : Option Content :=
  (K.built d (· = K.slot id) sights).map fun data =>
    .own (K.notion.sample (d.type K.scope.context.catalogue) data)

def OnStack (h : Handle) (ret : Option Place) : Prop :=
  ∃ target, ret = some target ∧ target.Rounded (K.info h).layout.align

variable (pull : PinId → Option (Option Datum))

noncomputable def argument (p : Param) (id : PinId) : Option (Given K.notion.Data) :=
  match pull id with
  | none => none
  | some none => if p.form.isPointer then some .null else none
  | some (some d) =>
    if p.form.isOwning then
      match (K.program.pin? id).bind (·.type) with
      | some h => (K.built (.construct h) (K.OnStack h) [K.glance h d]).map .copy
      | none => none
    else some (.shared d)

noncomputable def arguments : List (Param × PinId) → Option (List (Param × Given K.notion.Data))
  | [] => some []
  | (p, id) :: rest =>
    match K.argument pull p id, arguments rest with
    | some given, some givens => some ((p, given) :: givens)
    | _, _ => none

/-- A reference leads into the block of an argument, if there is one there. -/
def refer (givens : List (Param × Given K.notion.Data)) (place : Place) : Datum :=
  ⟨place, (givens.findSome? fun g =>
    match g.2 with
    | .shared d => if d.place.block = place.block then some d.held else none
    | _ => none).getD (K.memory.block place.block)⟩

noncomputable def result (type : TypeId) (givens : List (Param × Given K.notion.Data)) :
    Yield K.notion.Data → Option Content
  | .built data | .moved data => some (.own (K.notion.sample type data))
  | .reference place => some (.elsewhere (K.refer givens place))
  | .null => some .null
  | .nothing => none

def ret (r : Param) (o : PinId) : Option Place := if r.form.isOwning then K.slot o else none

noncomputable def called (f : Function) (n : ProgramNode) (o : PinId) : Option Content :=
  match f.result, K.arguments pull (f.params.zip n.dataIn) with
  | some r, some givens =>
    (K.meaning (.call f r.type) (· = K.ret r o)
      (givens.map fun g => g.2.sight K.notion g.1)).bind (K.result r.type givens)
  | _, _ => none

noncomputable def field (n : ProgramNode) (offset : Nat) (type : Handle) (o : PinId) : Option Content :=
  match (n.dataIn[0]?).bind pull with
  | some (some d) => K.filled (.construct type) o [K.glance type ⟨d.place.shift offset, d.held⟩]
  | _ => none

def settled (o : PinId) : Option Content :=
  if K.start.frame.isFilled o then
    match K.start.frame.value? K.program o with
    | none => some .null
    | some place => some (.elsewhere ⟨place, K.memory.block place.block⟩)
  else none

noncomputable def fallback (id : PinId) (q : ProgramPin) : Option Content :=
  match q.type with
  | none => none
  | some h =>
    match q.default with
    | some j => K.filled (.decode h j) id []
    | none =>
      match K.scope.this with
      | some this =>
        if K.program.thisType = some (K.info h).id then
          some (.elsewhere ⟨this, K.memory.block this.block⟩)
        else constructed h
      | none => constructed h
where
  constructed (h : Handle) : Option Content :=
    match (K.start.machine.interpreter K.scope.seat).world.filter (·.1 == (K.info h).id) with
    | some (_, place) => some (.elsewhere ⟨place, K.memory.block place.block⟩)
    | none =>
      if (K.info h).traits.default then K.filled (.construct h) id []
      else if q.form.isPointer then some .null else none

noncomputable def content (id : PinId) : Option Content :=
  match K.program.pin? id with
  | none => none
  | some q =>
    match K.program.node? q.node with
    | none => none
    | some n =>
      if id ∈ n.dataOut then
        if n.pure then
          match n.op with
          | .call f => K.called pull f n id
          | .fieldGet offset type => K.field pull n offset type id
          | _ => none
        else K.settled id
      else K.fallback id q

/-- What an input is meant to be given, where `pull` says so of the inputs further up. -/
noncomputable def step (id : PinId) : Option (Option Datum) :=
  match K.program.pin? id with
  | none => none
  | some q =>
    match q.source with
    | none => (K.fallback id q).map (·.datum (K.slot id))
    | some o =>
      match (K.program.pin? o).bind fun r => K.program.node? r.node with
      | none => none
      | some n =>
        match n.op with
        | .reroute => (n.dataIn[0]?).bind pull
        | _ => (K.content pull o).map (·.datum (K.slot o))

noncomputable def senseWithin : Nat → PinId → Option (Option Datum)
  | 0 => fun _ => none
  | depth + 1 => K.step (senseWithin depth)

noncomputable def sense : PinId → Option (Option Datum) := K.senseWithin (K.program.pins.size + 1)

variable {K} {pull} {pull' : PinId → Option (Option Datum)} {id o : PinId} {q : ProgramPin} {n : ProgramNode}

theorem arguments_congr {pins : List (Param × PinId)} (h : ∀ x ∈ pins, pull x.2 = pull' x.2) :
    K.arguments pull pins = K.arguments pull' pins := by
  induction pins with
  | nil => rfl
  | cons x rest ih =>
    obtain ⟨hx, hrest⟩ := List.forall_mem_cons.mp h
    rw [arguments, arguments, ih hrest, argument, argument, hx]

theorem content_congr (hq : K.program.pin? id = some q) (hn : K.program.node? q.node = some n)
    (h : id ∈ n.dataOut → n.pure = true → ∀ j ∈ n.dataIn, pull j = pull' j) :
    K.content pull id = K.content pull' id := by
  unfold content
  simp only [hq, hn]
  split
  · rename_i hout
    split
    · rename_i hpure
      have h := h hout hpure
      cases hop : n.op with
      | call f =>
        have hargs : K.arguments pull (f.params.zip n.dataIn) =
            K.arguments pull' (f.params.zip n.dataIn) :=
          arguments_congr fun x hx => h x.2 (List.of_mem_zip hx).2
        simp only [called, hargs]
      | fieldGet offset type =>
        cases hj : n.dataIn[0]? with
        | none => simp only [field, hj, Option.bind_none]
        | some j => simp only [field, hj, Option.bind_some, h j (List.mem_of_getElem? hj)]
      | _ => rfl
    · rfl
  · rfl

theorem pulls_reroute {c : Catalogue} (h : K.program.WellFormed c) (hq : K.program.pin? id = some q)
    (hsource : q.source = some o) {r : ProgramPin} (hr : K.program.pin? o = some r)
    (hn : K.program.node? r.node = some n) (hop : n.op = .reroute) {j : PinId} (hj : j ∈ n.dataIn) :
    K.program.Pulls id j := by
  obtain ⟨r', n', hr', hn', hout⟩ := h.source id q o hq hsource
  rw [hr] at hr'
  cases hr'
  rw [hn] at hn'
  cases hn'
  have hsuits := h.suits r.node n hn
  rw [Program.Suits, hop] at hsuits
  exact ⟨q, o, r, n, hq, hsource, hr, hn, (hsuits.1 (List.ne_nil_of_mem hout)).1, hj⟩

theorem step_congr {c : Catalogue} (h : K.program.WellFormed c)
    (hpull : ∀ j, K.program.Pulls id j → pull j = pull' j) : K.step pull id = K.step pull' id := by
  unfold step
  cases hq : K.program.pin? id with
  | none => rfl
  | some q =>
    dsimp only
    cases hsource : q.source with
    | none => rfl
    | some o =>
      obtain ⟨r, n, hr, hn, hout⟩ := h.source id q o hq hsource
      simp only [hr, Option.bind_some, hn]
      by_cases hop : n.op = .reroute
      · simp only [hop]
        cases hj : n.dataIn[0]? with
        | none => rfl
        | some j => exact hpull j (pulls_reroute h hq hsource hr hn hop (List.mem_of_getElem? hj))
      · rw [content_congr hr hn fun _ hpure j hj => hpull j ⟨q, o, r, n, hq, hsource, hr, hn, hpure, hj⟩]
        split
        · exact absurd ‹_› hop
        · rfl

open Program.WellFormed (height height_lt height_le)

theorem senseWithin_eq {c : Catalogue} (h : K.program.WellFormed c) {depth depth' : Nat}
    (hdepth : height K.program id < depth) (hdepth' : height K.program id < depth') :
    K.senseWithin depth id = K.senseWithin depth' id := by
  induction depth generalizing depth' id with
  | zero => cases hdepth
  | succ depth ih =>
    obtain ⟨depth', rfl⟩ := Nat.exists_eq_add_of_lt hdepth'
    refine step_congr h fun j hj => ?_
    have hlt := h.height_lt hj
    exact ih (by omega) (by omega)

/-- What an input is given is worked out from what the inputs further up are given. -/
theorem sense_eq {c : Catalogue} (h : K.program.WellFormed c) (id : PinId) :
    K.sense id = K.step K.sense id := by
  refine step_congr h fun j hj => ?_
  have hlt := h.height_lt hj
  have hle := height_le K.program id
  exact senseWithin_eq h (by omega) (by omega)

end Juncture

namespace Frame

theorem block_of_storage? {f : Frame} {p : Program} {id : PinId} {place : Place}
    (h : f.storage? p id = some place) :
    place.block = f.firstBlock + (id.val - 1) ∧ place.offset = 0 ∧ 0 < id.val ∧
      id.val ≤ p.pins.size := by
  unfold storage? at h
  cases hpin : p.pin? id with
  | none =>
    rw [hpin] at h
    cases h
  | some pin =>
    simp only [hpin] at h
    split at h
    · cases h
      exact ⟨rfl, rfl, slot?_bound hpin⟩
    · cases h

end Frame

/-- What is done for the expressions of a typed program is determined. -/
structure Program.Determinate (N : Notion) (w : Context) (invoke : Invoke) (p : Program) : Prop where
  formed : p.WellFormed w.catalogue
  typed : p.Typed N.lies w.catalogue
  calls : ∀ id n f r, p.node? id = some n → n.pure = true → n.op = .call f → f.result = some r →
    (Chore.call f r.type).Determined N w invoke
  constructs : ∀ h, (Chore.construct h).Determined N w invoke
  decodes : ∀ id q h j, p.pin? id = some q → q.type = some h → q.default = some j →
    (Chore.decode h j).Determined N w invoke

/-- A statement begins. The storage of the frame exists, and none that is filled anew was filled in this
statement. -/
structure Juncture.Ready (K : Juncture) : Prop extends
    Program.Determinate K.notion K.scope.context K.invoke K.scope.program where
  detached : K.start.Detached K.scope
  this : ∀ place, K.scope.this = some place → K.start.Outside K.scope place
  world : ∀ type place, (K.start.machine.interpreter K.scope.seat).world = some (type, place) →
    K.start.Outside K.scope place
  stale : ∀ id, K.program.Volatile id → Run.isFresh K.start.frame id = false
  size : K.start.frame.slots.size = K.program.pins.size
  room : K.start.frame.firstBlock + K.program.pins.size ≤ K.memory.next

namespace Juncture

variable {K : Juncture} {id o r i j : PinId} {place place' : Place} {q : ProgramPin} {n : ProgramNode}

theorem slot_inj (h : K.slot r = some place) (h' : K.slot o = some place')
    (hblock : place.block = place'.block) : r = o := by
  obtain ⟨hr, -, hpos, -⟩ := Frame.block_of_storage? h
  obtain ⟨ho, -, hpos', -⟩ := Frame.block_of_storage? h'
  exact PinId.ext (by omega)

/-- A block that an input may be given: one outside, or that of a pin further up. -/
def Roots (K : Juncture) (i : PinId) (block : Nat) : Prop :=
  block < K.memory.next ∧ ¬ K.start.vol K.scope block ∨
    ∃ r slot, K.program.Obtains i r ∧ K.slot r = some slot ∧ slot.block = block

theorem Roots.of_pulls {block : Nat} (h : K.Roots j block) (hij : K.program.Pulls i j) :
    K.Roots i block :=
  h.imp_right fun ⟨r, slot, hr, hslot, hblock⟩ => ⟨r, slot, hr.of_pulls hij, hslot, hblock⟩

def Rooted (K : Juncture) (i : PinId) (c : Content) : Prop :=
  ∀ d, c = .elsewhere d → K.Roots i d.place.block

namespace Ready

variable (h : K.Ready)
include h

theorem slot_lt (hslot : K.slot r = some place) : place.block < K.memory.next := by
  obtain ⟨hblock, -, hpos, hle⟩ := Frame.block_of_storage? hslot
  have := h.room
  omega

omit h in
theorem vol_of_slot (hr : K.program.Volatile r) (hslot : K.slot r = some place) :
    K.start.vol K.scope place.block := ⟨r, hr, (Frame.block_of_storage? hslot).1⟩

omit h in
theorem not_vol_of_settled (ho : K.program.Settled o) (hslot : K.slot o = some place) :
    ¬ K.start.vol K.scope place.block := by
  rintro ⟨r, hr, hblock⟩
  obtain ⟨ho', -, hpos, -⟩ := Frame.block_of_storage? hslot
  obtain ⟨_, _, hq, -⟩ := id hr
  have hpos' := (slot?_bound hq).1
  obtain rfl : r = o := PinId.ext (by omega)
  exact hr.not_settled ho

theorem outside_settled (ho : K.program.Settled o) {d : Datum}
    (hd : K.settled o = some (.elsewhere d)) : K.start.Outside K.scope d.place := by
  unfold settled at hd
  split at hd
  · cases hvalue : K.start.frame.value? K.program o with
    | none =>
      rw [hvalue] at hd
      cases hd
    | some place =>
      rw [hvalue] at hd
      cases hd
      unfold Frame.value? at hvalue
      cases hstate : K.start.frame.state o with
      | owned =>
        rw [hstate] at hvalue
        exact ⟨h.slot_lt hvalue, not_vol_of_settled ho hvalue⟩
      | borrowed source =>
        rw [hstate] at hvalue
        cases hvalue
        exact h.detached o _ ho hstate
      | empty => rw [hstate] at hvalue; cases hvalue
      | null => rw [hstate] at hvalue; cases hvalue
  · cases hd

omit h in
theorem rooted_filled {d : Chore} {sights : List (Sight K.notion.Data)} {c : Content}
    (hc : K.filled d o sights = some c) : K.Rooted i c := by
  rintro _ rfl
  obtain ⟨_, -, hown⟩ := Option.map_eq_some_iff.mp hc
  cases hown

theorem rooted_fallback {c : Content} (hc : K.fallback id q = some c) : K.Rooted i c := by
  have hconstructed : ∀ handle, fallback.constructed K id q handle = some c → K.Rooted i c := by
    rintro handle hc
    unfold fallback.constructed at hc
    split at hc
    · rename_i type place hfilter
      rintro _ rfl
      cases hc
      exact .inl (h.world _ _ (Option.filter_eq_some_iff.mp hfilter).1)
    · split at hc
      · exact rooted_filled hc
      · split at hc
        · cases hc
          exact fun _ hd => nomatch hd
        · cases hc
  unfold fallback at hc
  split at hc
  · cases hc
  · split at hc
    · exact rooted_filled hc
    · split at hc
      · rename_i this hthis
        split at hc
        · cases hc
          rintro _ ⟨⟩
          exact .inl (h.this _ hthis)
        · exact hconstructed _ hc
      · exact hconstructed _ hc

omit h in
theorem shared_of_arguments {pull : PinId → Option (Option Datum)} {pins : List (Param × PinId)}
    {givens : List (Param × Given K.notion.Data)} (hg : K.arguments pull pins = some givens)
    {g : Param × Given K.notion.Data} (hmem : g ∈ givens) {d : Datum} (hd : g.2 = .shared d) :
    ∃ x ∈ pins, pull x.2 = some (some d) := by
  induction pins generalizing givens with
  | nil =>
    cases hg
    cases hmem
  | cons x rest ih =>
    obtain ⟨p, id⟩ := x
    unfold arguments at hg
    split at hg
    · rename_i given givens' hgiven hgivens
      cases hg
      rcases List.mem_cons.mp hmem with rfl | hmem
      · refine ⟨_, List.mem_cons_self, ?_⟩
        unfold argument at hgiven
        dsimp only at hd
        subst hd
        split at hgiven
        · cases hgiven
        · split at hgiven <;> cases hgiven
        · rename_i d' hpull
          split at hgiven
          · split at hgiven
            · obtain ⟨_, -, hcopy⟩ := Option.map_eq_some_iff.mp hgiven
              cases hcopy
            · cases hgiven
          · cases hgiven
            exact hpull
      · obtain ⟨y, hy, hpull⟩ := ih hgivens hmem
        exact ⟨y, List.mem_cons_of_mem _ hy, hpull⟩
    · cases hg

theorem rooted_called {pull : PinId → Option (Option Datum)} {nid : NodeId} {f : Function}
    (hn : K.program.node? nid = some n) (hpure : n.pure = true) (hop : n.op = .call f) {c : Content}
    (hpull : ∀ j ∈ n.dataIn, ∀ d, pull j = some (some d) → K.Roots i d.place.block)
    (hc : K.called pull f n o = some c) : K.Rooted i c := by
  rintro d rfl
  unfold called at hc
  split at hc
  · rename_i r givens hr hgivens
    obtain ⟨y, hy, hresult⟩ := Option.bind_eq_some_iff.mp hc
    unfold result at hresult
    split at hresult
    · cases hresult
    · cases hresult
    · rename_i place
      cases hresult
      rcases (h.calls nid n f r hn hpure hop hr).reference hy with hout | ⟨s, hs, source, hsource, hblock⟩
      · exact .inl hout
      · obtain ⟨g, hg, rfl⟩ := List.mem_map.mp hs
        change K.Roots i place.block
        rw [hblock]
        cases hd : g.2 with
        | null =>
          rw [hd] at hsource
          cases hsource
        | copy data =>
          rw [hd] at hsource
          cases hsource
        | shared d =>
          rw [hd] at hsource
          cases hsource
          obtain ⟨x, hx, hgiven⟩ := shared_of_arguments hgivens hg hd
          exact hpull x.2 (List.of_mem_zip hx).2 d hgiven
    · cases hresult
    · cases hresult
  · cases hc

/-- Whatever an input is given lies outside, or in the storage of a pin further up. -/
theorem roots_of_sense {d : Datum} (hd : K.sense i = some (some d)) : K.Roots i d.place.block := by
  induction hk : Program.WellFormed.height K.program i using Nat.strong_induction_on
    generalizing i d with
  | _ k ih =>
    subst hk
    have hup : ∀ j, K.program.Pulls i j → ∀ d, K.sense j = some (some d) → K.Roots i d.place.block :=
      fun j hj d hd => (ih _ (h.formed.height_lt hj) hd rfl).of_pulls hj
    rw [sense_eq h.formed] at hd
    unfold step at hd
    cases hq : K.program.pin? i with
    | none =>
      rw [hq] at hd
      cases hd
    | some q =>
      simp only [hq] at hd
      -- What a slot is meant to hold leads to its own storage or elsewhere.
      have hdatum : ∀ {o : PinId} {c : Option Content}, K.program.Obtains i o →
          (∀ c', c = some c' → K.Rooted i c') → c.map (·.datum (K.slot o)) = some (some d) →
          K.Roots i d.place.block := by
        intro o c ho hc hsome
        obtain ⟨c, rfl, hdatum⟩ := Option.map_eq_some_iff.mp hsome
        cases c with
        | null => cases hdatum
        | own held =>
          obtain ⟨slot, hslot, rfl⟩ := Option.map_eq_some_iff.mp hdatum
          exact .inr ⟨o, slot, ho, hslot, rfl⟩
        | elsewhere d' =>
          cases hdatum
          exact hc _ rfl d rfl
      cases hsource : q.source with
      | none =>
        rw [hsource] at hd
        exact hdatum ⟨i, q, .refl, hq, .inr ⟨hsource, rfl⟩⟩ (fun c hc => h.rooted_fallback hc) hd
      | some o =>
        obtain ⟨r, n, hr, hn, hout⟩ := h.formed.source i q o hq hsource
        simp only [hsource, hr, Option.bind_some, hn] at hd
        by_cases hop : n.op = .reroute
        · simp only [hop] at hd
          obtain ⟨j, hj, hd⟩ := Option.bind_eq_some_iff.mp hd
          exact hup j (pulls_reroute h.formed hq hsource hr hn hop (List.mem_of_getElem? hj)) d hd
        · refine hdatum (o := o) (c := K.content K.sense o) ⟨i, q, .refl, hq, .inl hsource⟩
            (fun c hc => ?_) ?_
          · unfold content at hc
            simp only [hr, hn, hout, if_true] at hc
            split at hc
            · rename_i hpure
              have hpulls : ∀ j ∈ n.dataIn, K.program.Pulls i j := fun j hj =>
                ⟨q, o, r, n, hq, hsource, hr, hn, hpure, hj⟩
              split at hc
              · rename_i f hcall
                exact h.rooted_called hn hpure hcall (fun j hj d hd => hup j (hpulls j hj) d hd) hc
              · unfold field at hc
                split at hc
                · exact rooted_filled hc
                · cases hc
              · cases hc
            · rename_i himpure
              rintro _ rfl
              exact .inl (h.outside_settled ⟨r, n, hr, hn, hout, Bool.not_eq_true _ ▸ himpure⟩ hc)
          · split at hd
            · exact absurd ‹_› hop
            · exact hd

/-- What an expression is given does not lie in the storage of its own result. -/
theorem apart_of_sense (hq : K.program.pin? o = some q) (hn : K.program.node? q.node = some n)
    (hout : o ∈ n.dataOut) (hpure : n.pure = true) (hi : i ∈ n.dataIn) {d : Datum}
    (hd : K.sense i = some (some d)) (hslot : K.slot o = some place) :
    d.place.block ≠ place.block := by
  intro hsame
  have hvol : K.start.vol K.scope place.block := vol_of_slot ⟨q, n, hq, hn, fun _ => hpure⟩ hslot
  rcases h.roots_of_sense hd with ⟨-, hout⟩ | ⟨r, slot, ⟨k, qk, hik, hqk, hr⟩, hroot, hblock⟩
  · exact hout (hsame ▸ hvol)
  obtain rfl : r = o := slot_inj hroot hslot (hblock.trans hsame)
  rcases hr with hsource | ⟨-, rfl⟩
  · exact h.formed.acyclic i (.tail' hik ⟨qk, r, q, n, hqk, hsource, hq, hn, hpure, hi⟩)
  · have hin : ∃ nid m, K.program.node? nid = some m ∧ r ∈ m.dataIn := by
      rcases ReflTransGen.cases_tail hik with rfl | ⟨j, -, _, _, s, m, -, -, -, hm, -, hrm⟩
      · exact ⟨q.node, n, hn, hi⟩
      · exact ⟨s.node, m, hm, hrm⟩
    obtain ⟨nid, m, hm, hrm⟩ := hin
    obtain ⟨hnot, q', hq', rfl⟩ := h.typed.input nid m hm r hrm
    rw [hq] at hq'
    cases hq'
    rw [hn] at hm
    cases hm
    exact hnot hout

end Ready

end Juncture

end Flowscript
