import Flowscript.Program
import Flowscript.Proofs.CollectionLemmas
import Flowscript.Proofs.Graph.EditedGraphs

/-! # Assembled programs

A program has a pin for every pin of its graph and a node for every node, under the same numbers. Its
links are the graph's: a data input knows the output that feeds it, a flow output the input it leads
to.
-/
namespace Flowscript

namespace Graph

variable {g : Graph}

theorem collect?_eq_some_iff {c : Catalogue} {script : Option String} {es : List ScriptError} :
    g.collect? c script = some es ↔ g.overflows = false ∧ g.errors c script = es := by
  unfold collect?
  cases g.overflows <;> simp

theorem overflows_eq_false (h : ∀ n ∈ g.liveNodes, n.overflows = false) : g.overflows = false := by
  have hpins : ∀ id, g.pinsOverflow id = false := by
    intro id
    unfold pinsOverflow
    cases hn : g.node? id with
    | none => rfl
    | some n => exact h n (mem_live_iff.mpr ⟨id.val, hn⟩)
  have hpurity : ∀ id, g.purityOverflows id = false := by
    intro id
    unfold purityOverflows
    cases hn : g.node? id with
    | none => rfl
    | some n => rw [Option.any_some, h n (mem_live_iff.mpr ⟨id.val, hn⟩), Bool.and_false]
  have hlink : ∀ l, g.linkOverflows l = false := by
    intro l
    unfold linkOverflows
    cases g.pin? l.output with
    | none => rfl
    | some output => simp [hpurity]
  simp [overflows, hpins, hpurity, hlink]

theorem Edited.overflows_eq_false (h : g.Edited) : g.overflows = false := by
  refine Graph.overflows_eq_false fun n hn => ?_
  obtain ⟨id, hid⟩ := mem_live_iff.mp hn
  have hrange := (h.consistent.range ⟨id⟩ n hid).2
  have hnumbered : g.pins.size + 1 < 0x100000000 := h.numbered
  exact decide_eq_false (by omega)

end Graph

namespace Program

variable {g : Graph} {c : Catalogue}

theorem orFail_eq_ok_iff {α : Type} {x : Except ScriptError α} {a : α} :
    orFail x = .ok a ↔ x = .ok a := by
  cases x <;> simp [orFail]

theorem store_eq_ok_iff {α : Type} {slots slots' : Array (Option α)} {number : Nat} {a : α} :
    store slots number a = .ok slots' ↔
      (0 < number ∧ number ≤ slots.size) ∧ slots' = setSlot slots number (some a) := by
  unfold store
  split
  · simp [*, eq_comm]
  · simp [*]

theorem fieldAccess_eq_ok {type field : String} {offset : Nat} {h : Handle}
    (haccess : fieldAccess c type field = .ok (offset, h)) :
    ∃ owner info, c.lookupName? type = some owner ∧ owner.field? field = some info ∧
      c.handle? info.type = some h ∧ info.offset = offset := by
  unfold fieldAccess at haccess
  cases howner : c.lookupName? type with
  | none =>
    rw [howner] at haccess
    cases haccess
  | some owner =>
    rw [howner] at haccess
    dsimp only at haccess
    cases hfield : owner.field? field with
    | none =>
      rw [hfield] at haccess
      cases haccess
    | some info =>
      rw [hfield] at haccess
      dsimp only at haccess
      cases hhandle : c.handle? info.type with
      | none =>
        rw [hhandle] at haccess
        cases haccess
      | some h' =>
        rw [hhandle] at haccess
        cases haccess
        exact ⟨owner, info, rfl, hfield, hhandle, rfl⟩

theorem resolveField_eq_ok {type field name : String} {info : FieldInfo}
    (hresolve : NodeKind.resolveField c type field = .ok (info, name)) :
    ∃ owner, c.lookupName? type = some owner ∧ owner.field? field = some info ∧
      NodeKind.typeName c info.type = .ok name := by
  unfold NodeKind.resolveField at hresolve
  cases howner : c.lookupName? type with
  | none =>
    rw [howner] at hresolve
    cases hresolve
  | some owner =>
    rw [howner] at hresolve
    dsimp only at hresolve
    cases hfield : owner.field? field with
    | none =>
      rw [hfield] at hresolve
      cases hresolve
    | some info' =>
      rw [hfield] at hresolve
      obtain ⟨name', hname, heq⟩ := bind_eq_ok_iff.mp hresolve
      cases heq
      exact ⟨owner, rfl, hfield, hname⟩

inductive Becomes (c : Catalogue) : NodeKind → Op → Prop where
  | entry : Becomes c .entry .entry
  | ret : Becomes c .ret .ret
  | call {type function : String} {signature : SignatureId} {f : Function}
      (hresolve : NodeKind.resolveCall c type function signature = .ok f) :
      Becomes c (.call type function signature) (.call f)
  | fieldGet {type field : String} {offset : Nat} {h : Handle} (haccess : fieldAccess c type field = .ok (offset, h)) :
      Becomes c (.fieldGet type field) (.fieldGet offset h)
  | fieldSet {type field : String} {offset : Nat} {h : Handle} (haccess : fieldAccess c type field = .ok (offset, h)) :
      Becomes c (.fieldSet type field) (.fieldSet offset h)
  | branch : Becomes c .branch .branch
  | forLoop : Becomes c .forLoop .forLoop
  | whileLoop : Becomes c .whileLoop .whileLoop
  | comment {text : String} : Becomes c (.comment text) .comment
  | reroute {type : PinType} : Becomes c (.reroute type) .reroute

theorem opOf_eq_ok_iff {n : Node} {op : Op} : opOf c n = .ok op ↔ Becomes c n.kind op := by
  unfold opOf
  constructor
  · intro h
    cases hk : n.kind with
    | call type function signature =>
      simp only [hk] at h
      split at h
      · next f hresolve =>
        cases h
        exact .call hresolve
      · cases h
    | fieldGet type field | fieldSet type field =>
      rw [hk] at h
      cases haccess : fieldAccess c type field <;> simp only [haccess] at h <;> cases h
      constructor
      exact haccess
    | _ =>
      rw [hk] at h
      cases h
      constructor
  · intro h
    generalize n.kind = kind at h ⊢
    cases h with
    | call hresolve => simp only [hresolve]
    | fieldGet haccess | fieldSet haccess =>
      simp only [haccess]
      rfl
    | _ => rfl

structure StandsFor (c : Catalogue) (p : Pin) (pp : ProgramPin) : Prop where
  node : pp.node = p.node
  flow : p.type = .flow → pp.type = none
  data : ∀ type form, p.type = .data type form →
    ∃ h, c.handleNamed? type = some h ∧ pp.type = some h
  form : ∀ type form, p.type = .data type form → pp.form = form

/-- A pin is placed in one of two ways: a flow pin needs no storage, and the value of a data pin lies where the
storage is extended for it. -/
theorem placePin_cases {storage storage' : Layout} {p : Pin} {pp : ProgramPin}
    (h : placePin c storage p = .ok (storage', pp)) :
    (p.type = .flow ∧ storage' = storage ∧
      pp = { node := p.node, type := none, form := .value, default := p.default, storage := 0 }) ∨
    ∃ type form handle offset, p.type = .data type form ∧ c.handleNamed? type = some handle ∧
      storage.extend? (c.info handle).layout = some (storage', offset) ∧
      pp = { node := p.node, type := some handle, form, default := p.default, storage := offset } := by
  unfold placePin at h
  cases ht : p.type with
  | flow =>
    rw [ht] at h
    cases h
    exact .inl ⟨rfl, rfl, rfl⟩
  | data type form =>
    rw [ht] at h
    dsimp only at h
    cases hh : c.handleNamed? type with
    | none => rw [hh] at h; cases h
    | some handle =>
      rw [hh] at h
      dsimp only at h
      cases hextend : storage.extend? (c.info handle).layout with
      | none => rw [hextend] at h; cases h
      | some larger =>
        rw [hextend] at h
        cases h
        exact .inr ⟨type, form, handle, larger.2, rfl, hh, hextend, rfl⟩

theorem standsFor_of_placePin {storage storage' : Layout} {p : Pin} {pp : ProgramPin}
    (h : placePin c storage p = .ok (storage', pp)) :
    StandsFor c p pp ∧ pp.source = none ∧ pp.target = none := by
  rcases placePin_cases h with ⟨ht, -, rfl⟩ | ⟨type, form, handle, offset, ht, hh, -, rfl⟩
  · refine ⟨⟨rfl, fun _ => rfl, fun _ _ hd => ?_, fun _ _ hd => ?_⟩, rfl, rfl⟩ <;>
      · rw [ht] at hd
        cases hd
  · refine ⟨⟨rfl, fun hf => ?_, fun _ _ hd => ?_, fun _ _ hd => ?_⟩, rfl, rfl⟩
    · rw [ht] at hf
      cases hf
    · rw [ht] at hd
      cases hd
      exact ⟨handle, hh, rfl⟩
    · rw [ht] at hd
      cases hd
      rfl

theorem placePins_spec {ps : List Pin} {storage storage' : Layout}
    {slots slots' : Array (Option ProgramPin)}
    (h : placePins c storage slots ps = .ok (storage', slots')) :
    slots'.size = slots.size ∧
    (∀ number pp, slot? slots' number = some pp → slot? slots number = some pp ∨
      ∃ p ∈ ps, p.id.val = number ∧ StandsFor c p pp ∧ pp.source = none ∧ pp.target = none) ∧
    ∀ number, (slot? slots number).isSome ∨ 0 < number ∧ number ≤ slots.size ∧
      (∃ p ∈ ps, p.id.val = number) → (slot? slots' number).isSome := by
  induction ps generalizing storage slots with
  | nil =>
    cases h
    exact ⟨rfl, fun _ _ hp => .inl hp, fun number hn => hn.elim id fun ⟨_, _, p, hp, _⟩ => by cases hp⟩
  | cons p ps ih =>
    obtain ⟨⟨storage₁, pp⟩, hp, h⟩ := bind_eq_ok_iff.mp h
    obtain ⟨slots₁, hs, h⟩ := bind_eq_ok_iff.mp h
    obtain ⟨-, rfl⟩ := store_eq_ok_iff.mp hs
    obtain ⟨hsize, hfrom, hto⟩ := ih h
    rw [size_setSlot] at hsize hto
    refine ⟨hsize, fun number qq hq => ?_, fun number hn => hto number ?_⟩
    · rcases hfrom number qq hq with hq | ⟨q, hq, hrest⟩
      · rcases slot?_setSlot hq with ⟨rfl, hs⟩ | ⟨-, hq⟩
        · cases hs
          exact .inr ⟨p, List.mem_cons_self, rfl, standsFor_of_placePin (orFail_eq_ok_iff.mp hp)⟩
        · exact .inl hq
      · exact .inr ⟨q, List.mem_cons_of_mem p hq, hrest⟩
    · rcases hn with hn | ⟨hpos, hle, q, hq, rfl⟩
      · exact .inl (isSome_slot?_setSlot pp (.inl hn))
      · rcases List.mem_cons.mp hq with rfl | hq
        · exact .inl (isSome_slot?_setSlot pp (.inr ⟨rfl, hpos, hle⟩))
        · exact .inr ⟨hpos, hle, q, hq, rfl⟩

/-- A pin keeps everything but where its links lead. -/
def SamePin (a b : ProgramPin) : Prop :=
  b.node = a.node ∧ b.type = a.type ∧ b.form = a.form

structure LinkedBy (g : Graph) (links : List Link) (number : Nat) (pp : ProgramPin) : Prop where
  source : ∀ o, pp.source = some o →
    ∃ l ∈ links, l.input.val = number ∧ l.output = o ∧ (g.pin? o).any Pin.isFlow = false
  target : ∀ t, pp.target = some t →
    ∃ l ∈ links, l.output.val = number ∧ l.input = t ∧ (g.pin? l.output).any Pin.isFlow = true

theorem LinkedBy.mono {links links' : List Link} {number : Nat} {pp : ProgramPin}
    (h : LinkedBy g links number pp) (hl : ∀ l ∈ links, l ∈ links') :
    LinkedBy g links' number pp :=
  ⟨fun o ho => (h.source o ho).imp fun l hl' => ⟨hl l hl'.1, hl'.2⟩,
    fun t ht => (h.target t ht).imp fun l hl' => ⟨hl l hl'.1, hl'.2⟩⟩

theorem connect_spec {slots : Array (Option ProgramPin)} {done : List Link} {l : Link}
    (h : ∀ number pp, slot? slots number = some pp → LinkedBy g done number pp) (number : Nat) :
    (∀ pp, slot? (connect g slots l) number = some pp →
      (∃ qq, slot? slots number = some qq ∧ SamePin qq pp) ∧ LinkedBy g (l :: done) number pp) ∧
    ((slot? slots number).isSome → (slot? (connect g slots l) number).isSome) := by
  have hold : ∀ pp, slot? slots number = some pp →
      (∃ qq, slot? slots number = some qq ∧ SamePin qq pp) ∧ LinkedBy g (l :: done) number pp :=
    fun pp hp => ⟨⟨pp, hp, rfl, rfl, rfl⟩, (h number pp hp).mono fun _ => List.mem_cons_of_mem l⟩
  unfold connect
  cases hflow : (g.pin? l.output).any Pin.isFlow with
  | true =>
    rw [if_pos rfl]
    cases hs : slot? slots l.output.val with
    | none => exact ⟨hold, fun hn => hn⟩
    | some q =>
      refine ⟨fun pp hp => ?_, fun hn => isSome_slot?_setSlot _ (.inl hn)⟩
      rcases slot?_setSlot hp with ⟨rfl, he⟩ | ⟨-, hp⟩
      · cases he
        have hq := (h _ q hs).mono fun _ => List.mem_cons_of_mem l
        refine ⟨⟨q, hs, rfl, rfl, rfl⟩, ⟨hq.source, fun t ht => ?_⟩⟩
        cases ht
        exact ⟨l, List.mem_cons_self, rfl, rfl, hflow⟩
      · exact hold pp hp
  | false =>
    rw [if_neg (by simp)]
    cases hs : slot? slots l.input.val with
    | none => exact ⟨hold, fun hn => hn⟩
    | some q =>
      refine ⟨fun pp hp => ?_, fun hn => isSome_slot?_setSlot _ (.inl hn)⟩
      rcases slot?_setSlot hp with ⟨rfl, he⟩ | ⟨-, hp⟩
      · cases he
        have hq := (h _ q hs).mono fun _ => List.mem_cons_of_mem l
        refine ⟨⟨q, hs, rfl, rfl, rfl⟩, ⟨fun o ho => ?_, hq.target⟩⟩
        cases ho
        exact ⟨l, List.mem_cons_self, rfl, rfl, hflow⟩
      · exact hold pp hp

/-- Recording links changes nothing of pins but where their links lead. -/
theorem connectAll_spec (links : List Link) {slots : Array (Option ProgramPin)} {done : List Link}
    (h : ∀ number pp, slot? slots number = some pp → LinkedBy g done number pp) (number : Nat) :
    (∀ pp, slot? (links.foldl (connect g) slots) number = some pp →
      (∃ qq, slot? slots number = some qq ∧ SamePin qq pp) ∧
        LinkedBy g (links ++ done) number pp) ∧
    ((slot? slots number).isSome → (slot? (links.foldl (connect g) slots) number).isSome) := by
  induction links generalizing slots done with
  | nil => exact ⟨fun pp hp => ⟨⟨pp, hp, rfl, rfl, rfl⟩, h number pp hp⟩, fun hn => hn⟩
  | cons l links ih =>
    have hone := fun number => connect_spec (l := l) h number
    have hstep := ih fun number pp hp => ((hone number).1 pp hp).2
    refine ⟨fun pp hp => ?_, fun hn => hstep.2 ((hone number).2 hn)⟩
    obtain ⟨⟨qq, hq, hsame⟩, hlinked⟩ := hstep.1 pp hp
    obtain ⟨⟨rr, hr, hsame'⟩, -⟩ := (hone number).1 qq hq
    refine ⟨⟨rr, hr, hsame.1.trans hsame'.1, hsame.2.1.trans hsame'.2.1,
      hsame.2.2.trans hsame'.2.2⟩, hlinked.mono fun k hk => ?_⟩
    rcases List.mem_append.mp hk with hk | hk
    · exact List.mem_append_left _ (List.mem_cons_of_mem l hk)
    · rcases List.mem_cons.mp hk with rfl | hk
      · exact List.mem_append_left _ List.mem_cons_self
      · exact List.mem_append_right _ hk

theorem compileNodes_spec {ns : List Node} {slots slots' : Array (Option ProgramNode)}
    (h : compileNodes g c slots ns = .ok slots') :
    (∀ number pn, slot? slots' number = some pn → slot? slots number = some pn ∨
      ∃ n ∈ ns, n.id.val = number ∧ compileNode g c n = .ok pn) ∧
    ∀ number, (slot? slots number).isSome ∨ 0 < number ∧ number ≤ slots.size ∧
      (∃ n ∈ ns, n.id.val = number) → (slot? slots' number).isSome := by
  induction ns generalizing slots with
  | nil =>
    cases h
    exact ⟨fun _ _ hp => .inl hp, fun number hn => hn.elim id fun ⟨_, _, n, hn, _⟩ => by cases hn⟩
  | cons n ns ih =>
    obtain ⟨pn, hn, h⟩ := bind_eq_ok_iff.mp h
    obtain ⟨slots₁, hs, h⟩ := bind_eq_ok_iff.mp h
    obtain ⟨-, rfl⟩ := store_eq_ok_iff.mp hs
    obtain ⟨hfrom, hto⟩ := ih h
    rw [size_setSlot] at hto
    refine ⟨fun number qn hq => ?_, fun number hm => hto number ?_⟩
    · rcases hfrom number qn hq with hq | ⟨k, hk, hrest⟩
      · rcases slot?_setSlot hq with ⟨rfl, hs⟩ | ⟨-, hq⟩
        · cases hs
          exact .inr ⟨n, List.mem_cons_self, rfl, orFail_eq_ok_iff.mp hn⟩
        · exact .inl hq
      · exact .inr ⟨k, List.mem_cons_of_mem n hk, hrest⟩
    · rcases hm with hm | ⟨hpos, hle, k, hk, rfl⟩
      · exact .inl (isSome_slot?_setSlot pn (.inl hm))
      · rcases List.mem_cons.mp hk with rfl | hk
        · exact .inl (isSome_slot?_setSlot pn (.inr ⟨rfl, hpos, hle⟩))
        · exact .inr ⟨hpos, hle, k, hk, rfl⟩

structure Assembled (g : Graph) (c : Catalogue) (p : Program) : Prop where
  pin_of : ∀ id pp, p.pin? id = some pp →
    ∃ q, g.pin? id = some q ∧ StandsFor c q pp ∧ LinkedBy g g.liveLinks id.val pp
  pin_exists : ∀ id q, g.pin? id = some q → ∃ pp, p.pin? id = some pp
  node_of : ∀ id pn, p.node? id = some pn → ∃ n, g.node? id = some n ∧ compileNode g c n = .ok pn
  node_exists : ∀ id n, g.node? id = some n → ∃ pn, p.node? id = some pn
  entry : ∃ n ∈ g.entries, p.entry = n.id
  returnNode : p.returnNode = g.returns.head?.map (·.id)
  result : p.result.isSome → g.signature.result.isSome
  pure : p.pure = g.signature.pure
  resultType : ∀ h form, p.result = some (h, form) →
    ∃ r, g.signature.result = some r ∧ c.handleNamed? r.type = some h ∧ r.form = form

theorem Assembled.exists_pin {g : Graph} {c : Catalogue} {p : Program} (ha : Assembled g c p) {id : PinId} {q : Pin}
    (hq : g.pin? id = some q) : ∃ pp, p.pin? id = some pp ∧ StandsFor c q pp := by
  obtain ⟨pp, hpp⟩ := ha.pin_exists id q hq
  obtain ⟨q', hq', hstands, -⟩ := ha.pin_of id pp hpp
  rw [hq] at hq'
  cases hq'
  exact ⟨pp, hpp, hstands⟩

/-- What a program takes from its graph and from what that is compiled for, once the pins are placed and the
nodes compiled. -/
structure Assembles (g : Graph) (c : Catalogue) (s : Setting) (p : Program) : Prop where
  pins : ∃ storage slots, placePins c .empty (Array.replicate g.pins.size none) g.livePins = .ok (storage, slots) ∧
    p.pins = g.liveLinks.foldl (connect g) slots ∧ p.storage = storage.pad
  nodes : compileNodes g c (Array.replicate g.nodes.size none) g.liveNodes = .ok p.nodes
  entry : ∃ n ∈ g.entries, p.entry = n.id
  returnNode : p.returnNode = g.returns.head?.map (·.id)
  result : match g.signature.result with
    | none => p.result = none
    | some r => ∃ handle, c.handleNamed? r.type = some handle ∧ p.result = some (handle, r.form)
  pure : p.pure = g.signature.pure
  params : p.params = g.signature.params.length
  hasWorld : p.hasWorld = s.hasWorld
  thisType : p.thisType = s.thisType

theorem assembles_of_assemble {s : Setting} {p : Program} (h : assemble g c s = .ok p) : Assembles g c s p := by
  unfold assemble at h
  obtain ⟨⟨storage, slots⟩, hplace, h⟩ := bind_eq_ok_iff.mp h
  obtain ⟨nodes, hcompile, h⟩ := bind_eq_ok_iff.mp h
  cases hentry : g.entries.head? with
  | none => rw [hentry] at h; cases h
  | some entry =>
    rw [hentry] at h
    have hmem : ∃ n ∈ g.entries, entry.id = n.id := ⟨entry, List.mem_of_mem_head? hentry, rfl⟩
    cases hresult : g.signature.result with
    | none =>
      rw [hresult] at h
      cases h
      exact ⟨⟨storage, slots, hplace, rfl, rfl⟩, hcompile, hmem, rfl, by rw [hresult], rfl, rfl, rfl, rfl⟩
    | some r =>
      rw [hresult] at h
      cases hh : c.handleNamed? r.type with
      | none => simp only [hh] at h; cases h
      | some handle =>
        simp only [hh] at h
        cases h
        exact ⟨⟨storage, slots, hplace, rfl, rfl⟩, hcompile, hmem,
          rfl, by rw [hresult]; exact ⟨handle, hh, rfl⟩,
          rfl, rfl, rfl, rfl⟩

section Live

variable (hnode : ∀ id n, g.node? id = some n → n.id = id) (hpin : ∀ id q, g.pin? id = some q → q.id = id)

include hpin in
theorem pin?_of_pin_id {q : Pin} (hq : q ∈ g.livePins) : g.pin? q.id = some q := by
  obtain ⟨number, hn⟩ := mem_live_iff.mp hq
  have hid : q.id = ⟨number⟩ := hpin ⟨number⟩ q hn
  rw [hid]
  exact hn

include hnode in
theorem node?_of_node_id {n : Node} (hn : n ∈ g.liveNodes) : g.node? n.id = some n := by
  obtain ⟨number, hn⟩ := mem_live_iff.mp hn
  have hid : n.id = ⟨number⟩ := hnode ⟨number⟩ n hn
  rw [hid]
  exact hn

theorem node?_of_mem_live (hg : g.Consistent) {n : Node} (hn : n ∈ g.liveNodes) : g.node? n.id = some n :=
  node?_of_node_id hg.node_id hn

include hpin in
theorem pins_of_placePins {storage : Layout} {slots : Array (Option ProgramPin)}
    (h : placePins c .empty (Array.replicate g.pins.size none) g.livePins = .ok (storage, slots)) :
    (∀ id pp, slot? (g.liveLinks.foldl (connect g) slots) id = some pp →
      ∃ q, g.pin? ⟨id⟩ = some q ∧ StandsFor c q pp ∧ LinkedBy g g.liveLinks id pp) ∧
    ∀ id q, g.pin? id = some q →
      ∃ pp, slot? (g.liveLinks.foldl (connect g) slots) id.val = some pp := by
  obtain ⟨-, hfrom, hto⟩ := placePins_spec h
  simp only [slot?_replicate, Option.isSome_none, Bool.false_eq_true, false_or, reduceCtorEq,
    Array.size_replicate] at hfrom hto
  have hfresh : ∀ number pp, slot? slots number = some pp → LinkedBy g [] number pp := by
    intro number pp hp
    obtain ⟨q, -, -, -, hs, ht⟩ := hfrom number pp hp
    refine ⟨fun o ho => ?_, fun t ht' => ?_⟩
    · rw [hs] at ho
      cases ho
    · rw [ht] at ht'
      cases ht'
  have hall := fun number => connectAll_spec g.liveLinks hfresh number
  refine ⟨fun id pp hp => ?_, fun id q hq => ?_⟩
  · obtain ⟨⟨qq, hq, hsame⟩, hlinked⟩ := (hall id).1 pp hp
    obtain ⟨q, hlive, rfl, hstands, -, -⟩ := hfrom id qq hq
    rw [List.append_nil] at hlinked
    refine ⟨q, pin?_of_pin_id hpin hlive, ⟨hsame.1.trans hstands.node, fun hf => ?_,
      fun type form hd => ?_, fun type form hd => ?_⟩, hlinked⟩
    · exact hsame.2.1.trans (hstands.flow hf)
    · obtain ⟨handle, hh, ht⟩ := hstands.data type form hd
      exact ⟨handle, hh, hsame.2.1.trans ht⟩
    · exact hsame.2.2.trans (hstands.form type form hd)
  · have hb := slot?_bound hq
    refine Option.isSome_iff_exists.mp ((hall id.val).2 (hto id.val ⟨hb.1, hb.2, q, ?_, ?_⟩))
    · exact mem_live_iff.mpr ⟨id.val, hq⟩
    · exact congrArg PinId.val (hpin id q hq)

include hnode in
theorem nodes_of_compileNodes {nodes : Array (Option ProgramNode)}
    (h : compileNodes g c (Array.replicate g.nodes.size none) g.liveNodes = .ok nodes) :
    (∀ id pn, slot? nodes id = some pn → ∃ n, g.node? ⟨id⟩ = some n ∧ compileNode g c n = .ok pn) ∧
      ∀ id n, g.node? id = some n → ∃ pn, slot? nodes id.val = some pn := by
  obtain ⟨hfrom, hto⟩ := compileNodes_spec h
  simp only [slot?_replicate, Option.isSome_none, Bool.false_eq_true, false_or, reduceCtorEq,
    Array.size_replicate] at hfrom hto
  refine ⟨fun id pn hp => ?_, fun id n hn => ?_⟩
  · obtain ⟨n, hn, rfl, hc⟩ := hfrom id pn hp
    exact ⟨n, node?_of_node_id hnode hn, hc⟩
  · have hb := slot?_bound hn
    refine Option.isSome_iff_exists.mp (hto id.val ⟨hb.1, hb.2, n, ?_, ?_⟩)
    · exact mem_live_iff.mpr ⟨id.val, hn⟩
    · exact congrArg NodeId.val (hnode id n hn)

include hnode hpin in
theorem assembled_of_assemble {s : Setting} {p : Program} (h : assemble g c s = .ok p) : Assembled g c p := by
  have ha := assembles_of_assemble h
  obtain ⟨storage, slots, hplace, hpins, -⟩ := ha.pins
  obtain ⟨hof, hexists⟩ := pins_of_placePins hpin hplace
  obtain ⟨hnodes, hnodes'⟩ := nodes_of_compileNodes hnode ha.nodes
  rw [← hpins] at hof hexists
  have hresult := ha.result
  cases hr : g.signature.result with
  | none =>
    rw [hr] at hresult
    exact ⟨fun id => hof id.val, hexists, fun id => hnodes id.val, hnodes', ha.entry, ha.returnNode,
      (fun hs => by rw [hresult] at hs; cases hs), ha.pure, fun h form hs => by rw [hresult] at hs; cases hs⟩
  | some r =>
    rw [hr] at hresult
    obtain ⟨handle, hhandle, hresult⟩ := hresult
    refine ⟨fun id => hof id.val, hexists, fun id => hnodes id.val, hnodes', ha.entry, ha.returnNode,
      fun _ => by rw [hr]; rfl, ha.pure, fun h form hs => ?_⟩
    rw [hresult] at hs
    cases hs
    exact ⟨r, hr, hhandle, rfl⟩

end Live

section Compile

variable {s : Setting} {p : Program}

theorem compile_eq_ok_iff : compile g c s = .ok p ↔
    g.overflows = false ∧ g.errors c s.script = [] ∧ assemble g c s = .ok p := by
  unfold compile Graph.collect?
  cases g.overflows with
  | true => simp
  | false =>
    cases g.errors c s.script with
    | cons e es => simp
    | nil => cases assemble g c s <;> simp

theorem findings_of_compile (h : compile g c s = .ok p) : g.findings c = [] :=
  List.map_eq_nil_iff.mp (compile_eq_ok_iff.mp h).2.1

theorem assemble_of_compile (h : compile g c s = .ok p) : assemble g c s = .ok p :=
  (compile_eq_ok_iff.mp h).2.2

theorem assembled_of_compile (hg : g.Consistent) (h : compile g c s = .ok p) :
    g.findings c = [] ∧ Assembled g c p :=
  ⟨findings_of_compile h, assembled_of_assemble hg.node_id hg.pin_id (assemble_of_compile h)⟩

end Compile

end Program

end Flowscript
