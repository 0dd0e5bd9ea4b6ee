import Flowscript.Proofs.CollectionLemmas
import Flowscript.Proofs.Documents.RecordReading

/-! # What is loaded

Whatever a graph or script was read from, in which order and with which entries left out or passed
over, its numbers fit 32 bits, and the values of its pins and fields are not null, have their keys in
order and would be written no deeper than they stood.
-/
namespace Flowscript

namespace Draft

def holds : Draft → Bool
  | .arr _ _ => true
  | .obj _ _ => true
  | _ => false

/-- Lists and objects below the depth limit are marked. -/
inductive Limited : Nat → Draft → Prop
  | scalar {depth : Nat} {d : Draft} (h : d.holds = false) : Limited depth d
  | arr {depth : Nat} {items : List Draft} {ending : Option ReadFault} (h : depth < maxDepth)
    (inner : ∀ d ∈ items, Limited (depth + 1) d) : Limited depth (.arr items ending)
  | obj {depth : Nat} {entries : List (EntryKey × Draft)} {ending : Option ReadFault}
    (h : depth < maxDepth) (inner : ∀ e ∈ entries, Limited (depth + 1) e.2) :
    Limited depth (.obj entries ending)

theorem limited_bounded {depth : Nat} {d : Draft} (h : depth < maxDepth → Limited depth d) :
    Limited depth (bounded depth d) := by
  unfold bounded
  split
  · rename_i hdepth
    exact h hdepth
  · exact .scalar rfl

theorem limited_readWord {depth : Nat} {d : Draft} (h : d.holds = false) (word cs : List Char) :
    Limited depth (readWord d word cs).1 := by
  induction word generalizing cs with
  | nil => exact .scalar h
  | cons w word ih =>
    cases cs with
    | nil => exact .scalar rfl
    | cons c cs =>
      unfold readWord
      split
      · exact ih cs
      · exact .scalar rfl

theorem limited_readQuoted (depth fuel : Nat) (cs : List Char) : Limited depth (readQuoted fuel cs).1 := by
  unfold readQuoted
  split
  · exact .scalar rfl
  · split <;> exact .scalar rfl

theorem limited_readNumeral (depth : Nat) (cs : List Char) : Limited depth (readNumeral cs).1 := by
  unfold readNumeral
  split
  · exact .scalar rfl
  · split <;> exact .scalar rfl

theorem limited_read (fuel : Nat) :
    (∀ depth cs, Limited depth (readValue fuel depth cs).1) ∧
      (∀ depth first cs, ∀ d ∈ (readItems fuel depth first cs).1, Limited depth d) ∧
      (∀ depth first cs, ∀ e ∈ (readEntries fuel depth first cs).1, Limited depth e.2) := by
  induction fuel with
  | zero =>
    refine ⟨fun depth cs => .scalar rfl, fun depth first cs d hd => ?_, fun depth first cs e he => ?_⟩
    · cases hd
    · cases he
  | succ fuel ih =>
    obtain ⟨ihvalue, ihitems, ihentries⟩ := ih
    refine ⟨fun depth cs => ?_, fun depth first cs => ?_, fun depth first cs => ?_⟩
    · unfold readValue
      split
      · exact .scalar rfl
      · exact limited_readWord rfl _ _
      · exact limited_readWord rfl _ _
      · exact limited_readWord rfl _ _
      · exact limited_readQuoted _ _ _
      · exact limited_bounded fun h => .arr h (ihitems (depth + 1) true _)
      · exact limited_bounded fun h => .obj h (ihentries (depth + 1) true _)
      · split
        · exact limited_readNumeral _ _
        · exact .scalar rfl
    · have hitem : ∀ cs, ∀ d ∈ (readValue fuel depth cs).1 ::
          (readItems fuel depth false (readValue fuel depth cs).2).1, Limited depth d := by
        intro cs
        exact List.forall_mem_cons.mpr ⟨ihvalue depth cs, ihitems depth false _⟩
      rw [readItems]
      split
      · exact List.forall_mem_nil _
      · exact List.forall_mem_nil _
      · split
        · exact hitem _
        · split
          · split
            · exact List.forall_mem_singleton.mpr (.scalar rfl)
            · exact List.forall_mem_nil _
            · exact hitem _
          · exact List.forall_mem_nil _
    · have hbreak : ∀ (key : EntryKey) (fault : ReadFault), ∀ e ∈ [(key, breakOff fault)], Limited depth e.2 :=
        fun key fault => List.forall_mem_singleton.mpr (.scalar rfl)
      have hentry : ∀ (key : EntryKey) (cs : List Char), ∀ e ∈ (key, (readValue fuel depth cs).1) ::
          (readEntries fuel depth false (readValue fuel depth cs).2).1, Limited depth e.2 := by
        intro key cs
        exact List.forall_mem_cons.mpr ⟨ihvalue depth cs, ihentries depth false _⟩
      rw [readEntries]
      split
      · exact List.forall_mem_nil _
      · exact List.forall_mem_nil _
      · split
        · dsimp only
          split
          · exact hbreak _ _
          · exact hentry _ _
          · exact hbreak _ _
        · exact List.forall_mem_nil _
      · split
        · exact hbreak _ _
        · split
          · split
            · exact hbreak _ _
            · dsimp only
              split
              · exact hbreak _ _
              · exact hentry _ _
              · exact hbreak _ _
            · exact List.forall_mem_nil _
          · exact List.forall_mem_nil _

theorem mem_itemsToJson {items : List Draft} {out : List Json} (h : itemsToJson items = .ok out) {j : Json}
    (hj : j ∈ out) : ∃ d ∈ items, d.toJson = .ok j := by
  induction items generalizing out with
  | nil =>
    cases h
    cases hj
  | cons d items ih =>
    obtain ⟨first, hfirst, h⟩ := bind_eq_ok_iff.mp h
    obtain ⟨rest, hrest, h⟩ := bind_eq_ok_iff.mp h
    cases h
    rcases List.mem_cons.mp hj with rfl | hj
    · exact ⟨d, List.mem_cons_self, hfirst⟩
    · obtain ⟨d', hd', hj'⟩ := ih hrest hj
      exact ⟨d', List.mem_cons_of_mem _ hd', hj'⟩

theorem mem_entriesToJson {entries : List (EntryKey × Draft)} {out : List (String × Json)}
    (h : entriesToJson entries = .ok out) {e : String × Json} (he : e ∈ out) :
    ∃ e' ∈ entries, e'.2.toJson = .ok e.2 := by
  induction entries generalizing out with
  | nil =>
    cases h
    cases he
  | cons first entries ih =>
    obtain ⟨key, -, h⟩ := bind_eq_ok_iff.mp h
    obtain ⟨j, hj, h⟩ := bind_eq_ok_iff.mp h
    obtain ⟨rest, hrest, h⟩ := bind_eq_ok_iff.mp h
    cases h
    rcases List.mem_cons.mp he with rfl | he
    · exact ⟨first, List.mem_cons_self, hj⟩
    · obtain ⟨e', he', hj'⟩ := ih hrest he
      exact ⟨e', List.mem_cons_of_mem _ he', hj'⟩

end Draft

namespace Json

theorem mem_sortEntries {entries : List (String × Json)} {e : String × Json} (h : e ∈ sortEntries entries) :
    e ∈ entries := by
  have hfold : ∀ (sorted : List (String × Json)),
      e ∈ entries.foldl (fun sorted e => insertEntry e.1 e.2 sorted) sorted → e ∈ sorted ∨ e ∈ entries := by
    clear h
    induction entries with
    | nil => exact fun sorted h => .inl h
    | cons first entries ih =>
      intro sorted h
      rcases ih _ h with h | h
      · rcases mem_insertEntry h with rfl | h
        · exact .inr List.mem_cons_self
        · exact .inl h
      · exact .inr (List.mem_cons_of_mem _ h)
  rcases hfold [] h with h | h
  · cases h
  · exact h

/-- Keys in order, and nothing below the depth limit. -/
structure Orderly (depth : Nat) (j : Json) : Prop where
  sorted : j.Sorted
  within : j.Within depth

theorem orderly_scalar {depth : Nat} {j : Json} (h : j.holds = false) : Orderly depth j := by
  refine ⟨fun level entries hpart => ?_, fun level part hpart hholds => ?_⟩
  · cases hpart <;> cases h
  · cases hpart with
    | whole =>
      rw [h] at hholds
      cases hholds
    | item mem inner => cases h
    | entry mem inner => cases h

theorem orderly_arr {depth : Nat} {items : List Json} (hdepth : depth < Draft.maxDepth)
    (h : ∀ j ∈ items, Orderly (depth + 1) j) : Orderly depth (.arr items) := by
  refine ⟨fun level entries hpart => ?_, fun level part hpart hholds => ?_⟩
  · cases hpart with
    | item mem inner => exact (h _ mem).sorted _ entries inner
  · cases hpart with
    | whole => exact hdepth
    | item mem inner =>
      have := (h _ mem).within _ part inner hholds
      omega

theorem orderly_obj {depth : Nat} {entries : List (String × Json)} (hdepth : depth < Draft.maxDepth)
    (hordered : Ordered entries) (h : ∀ e ∈ entries, Orderly (depth + 1) e.2) :
    Orderly depth (.obj entries) := by
  refine ⟨fun level inner hpart => ?_, fun level part hpart hholds => ?_⟩
  · cases hpart with
    | whole => exact hordered
    | entry mem inner' => exact (h _ mem).sorted _ inner inner'
  · cases hpart with
    | whole => exact hdepth
    | entry mem inner =>
      have := (h _ mem).within _ part inner hholds
      omega

end Json

namespace Draft

theorem Limited.orderly {depth : Nat} {d : Draft} (hd : d.Limited depth) {j : Json} (h : d.toJson = .ok j) :
    j.Orderly depth := by
  induction hd generalizing j with
  | @scalar depth d hd =>
    have hj : j.holds = false := by
      cases d with
      | arr => cases hd
      | obj => cases hd
      | broken => cases h
      | tooDeep => cases h
      | _ =>
        cases h
        rfl
    exact Json.orderly_scalar hj
  | @arr depth items ending hdepth inner ih =>
    obtain ⟨out, hout, h⟩ := bind_eq_ok_iff.mp h
    cases ending with
    | some fault => cases h
    | none =>
      cases h
      refine Json.orderly_arr hdepth fun j hj => ?_
      obtain ⟨d, hd, hj⟩ := mem_itemsToJson hout hj
      exact ih d hd hj
  | @obj depth entries ending hdepth inner ih =>
    obtain ⟨out, hout, h⟩ := bind_eq_ok_iff.mp h
    cases ending with
    | some fault => cases h
    | none =>
      cases h
      refine Json.orderly_obj hdepth (Json.ordered_sortEntries out) fun e he => ?_
      obtain ⟨e', he', hj⟩ := mem_entriesToJson hout (Json.mem_sortEntries he)
      exact ih e' he' hj

end Draft

def Json.Sound (depth : Nat) (value : Option Json) : Prop := ∀ j ∈ value, j ≠ .null ∧ j.Orderly depth

namespace Draft

section Walks

variable {σ : Type} {P : σ → Prop} {depth : Nat} {names : List String} {step other : Step σ}

theorem walkEntries_keeps
    (hstep : ∀ key d s s', d.Limited depth → P s → step key d s = .ok s' → P s')
    (hother : ∀ key d s s', d.Limited depth → P s → other key d s = .ok s' → P s')
    {entries : List (EntryKey × Draft)} (hentries : ∀ e ∈ entries, e.2.Limited depth) {seen : List String}
    {s s' : σ} (hs : P s) (h : walkEntries names step other seen entries s = .ok s') : P s' := by
  induction entries generalizing seen s with
  | nil =>
    cases h
    exact hs
  | cons e entries ih =>
    obtain ⟨key, d⟩ := e
    have ⟨hd, hrest⟩ := List.forall_mem_cons.mp hentries
    cases key with
    | broken b => cases h
    | text key =>
      rw [walkEntries] at h
      split at h
      · split at h
        · cases h
        · obtain ⟨next, hnext, h⟩ := bind_eq_ok_iff.mp h
          exact ih hrest (hstep key d s next hd hs hnext) h
      · obtain ⟨next, hnext, h⟩ := bind_eq_ok_iff.mp h
        exact ih hrest (hother key d s next hd hs hnext) h

theorem walkItems_keeps
    (hstep : ∀ key d s s', d.Limited depth → P s → step key d s = .ok s' → P s')
    {items : List Draft} (hitems : ∀ d ∈ items, d.Limited depth) {origin : Origin}
    {ending : Option ReadFault} {s s' : σ} (hs : P s)
    (h : walkItems origin step ending names items s = .ok s') : P s' := by
  induction items generalizing names s with
  | nil =>
    cases ending <;> cases names <;> cases h
    · exact hs
    · exact hs
  | cons d items ih =>
    obtain ⟨hd, hitems⟩ := List.forall_mem_cons.mp hitems
    cases names with
    | nil => cases h
    | cons name names =>
      obtain ⟨next, hnext, h⟩ := bind_eq_ok_iff.mp h
      exact ih hitems (hstep name d s next hd hs hnext) h

theorem asRecord_keeps {d : Draft} (hd : d.Limited depth)
    (hstep : ∀ key d s s', d.Limited (depth + 1) → P s → step key d s = .ok s' → P s')
    {origin : Origin} {start s : σ} (hs : P start) (h : asRecord origin names step start d = .ok s) : P s := by
  have hignore : ∀ key (d : Draft) (s s' : σ), d.Limited (depth + 1) → P s → ignore key d s = .ok s' →
    P s' := by
    intro key d s s' _ hs h
    obtain ⟨_, -, h⟩ := bind_eq_ok_iff.mp h
    cases h
    exact hs
  cases hd with
  | scalar hd =>
    cases d with
    | arr => cases hd
    | obj => cases hd
    | _ => cases h
  | arr _ inner => exact walkItems_keeps hstep inner hs h
  | @obj _ entries ending _ inner =>
    obtain ⟨out, hout, h⟩ := bind_eq_ok_iff.mp h
    cases ending with
    | some fault => cases h
    | none =>
      cases h
      exact walkEntries_keeps hstep hignore inner hs hout

end Walks

variable {depth : Nat} {d : Draft}

theorem asNode_fits {id : NodeId} (h : d.asNode = .ok id) : id.val < 0x100000000 := by
  obtain ⟨u, -, h⟩ := bind_eq_ok_iff.mp h
  cases h
  exact u.toNat_lt

theorem asPin_fits {id : PinId} (h : d.asPin = .ok id) : id.val < 0x100000000 := by
  obtain ⟨u, -, h⟩ := bind_eq_ok_iff.mp h
  cases h
  exact u.toNat_lt

theorem asLink_fits {id : LinkId} (h : d.asLink = .ok id) : id.val < 0x100000000 := by
  obtain ⟨u, -, h⟩ := bind_eq_ok_iff.mp h
  cases h
  exact u.toNat_lt

theorem need_eq_ok {α : Type} {a : Option α} {out : α} (h : need a = .ok out) : a = some out := by
  cases a with
  | none => cases h
  | some a =>
    cases h
    rfl

theorem asDocument_sound (hd : d.Limited depth) {value : Option Json} (h : d.asDocument = .ok value) :
    Json.Sound depth value := by
  rintro j rfl
  unfold asDocument asOption at h
  split at h
  · cases h
  · rename_i hne
    cases hj : d.toJson with
    | error fault =>
      rw [hj] at h
      cases h
    | ok out =>
      rw [hj] at h
      cases h
      refine ⟨?_, hd.orderly hj⟩
      rintro rfl
      exact hne (eq_of_toJson rfl hj)

theorem mem_mapM {α β : Type} {f : α → Except ReadFault β} {items : List α} {out : List β}
    (h : items.mapM f = .ok out) {b : β} (hb : b ∈ out) : ∃ a ∈ items, f a = .ok b := by
  induction items generalizing out with
  | nil =>
    cases h
    cases hb
  | cons a items ih =>
    rw [List.mapM_cons] at h
    obtain ⟨first, hfirst, h⟩ := bind_eq_ok_iff.mp h
    obtain ⟨rest, hrest, h⟩ := bind_eq_ok_iff.mp h
    cases h
    rcases List.mem_cons.mp hb with rfl | hb
    · exact ⟨a, List.mem_cons_self, hfirst⟩
    · obtain ⟨a', ha', hb'⟩ := ih hrest hb
      exact ⟨a', List.mem_cons_of_mem _ ha', hb'⟩

theorem mem_asList {α : Type} {decode : Draft → Except ReadFault α} (hd : d.Limited depth) {out : List α}
    (h : asList decode d = .ok out) {a : α} (ha : a ∈ out) :
    ∃ d', d'.Limited (depth + 1) ∧ decode d' = .ok a := by
  cases hd with
  | scalar hd =>
    cases d with
    | arr => cases hd
    | obj => cases hd
    | tooDeep inner => cases inner <;> cases h
    | _ => cases h
  | @arr _ items ending _ inner =>
    obtain ⟨items', hitems, h⟩ := bind_eq_ok_iff.mp h
    cases ending with
    | some fault => cases h
    | none =>
      cases h
      obtain ⟨d', hd', hdecode⟩ := mem_mapM hitems ha
      exact ⟨d', inner d' hd', hdecode⟩
  | obj _ _ => cases h

theorem asOption_eq_some {α : Type} {decode : Draft → Except ReadFault α} {a : α}
    (h : asOption decode d = .ok (some a)) : decode d = .ok a := by
  unfold asOption at h
  split at h
  · cases h
  · cases hd : decode d with
    | error fault =>
      rw [hd] at h
      cases h
    | ok out =>
      rw [hd] at h
      cases h
      rfl

end Draft

open Draft

variable {depth : Nat} {d : Draft} {origin : Origin}

theorem Link.fits_of_ofDraft (hd : d.Limited depth) {l : Link} (h : Link.ofDraft origin d = .ok l) :
    l.Fits := by
  let P : Option LinkId × Option PinId × Option PinId → Prop := fun s =>
    (∀ id ∈ s.1, id.val < 0x100000000) ∧ (∀ id ∈ s.2.1, id.val < 0x100000000) ∧
      ∀ id ∈ s.2.2, id.val < 0x100000000
  obtain ⟨⟨id, input, output⟩, hfound, h⟩ := bind_eq_ok_iff.mp h
  have hP : P (id, input, output) := by
    refine asRecord_keeps hd (P := P) (fun key d s s' _ hs hstep => ?_) (by simp [P]) hfound
    obtain ⟨id, input, output⟩ := s
    obtain ⟨hid, hinput, houtput⟩ := hs
    dsimp only at hstep
    split at hstep
    · obtain ⟨v, hv, hstep⟩ := bind_eq_ok_iff.mp hstep
      cases hstep
      exact ⟨by rintro _ ⟨⟩; exact asLink_fits hv, hinput, houtput⟩
    · obtain ⟨v, hv, hstep⟩ := bind_eq_ok_iff.mp hstep
      cases hstep
      exact ⟨hid, by rintro _ ⟨⟩; exact asPin_fits hv, houtput⟩
    · obtain ⟨v, hv, hstep⟩ := bind_eq_ok_iff.mp hstep
      cases hstep
      exact ⟨hid, hinput, by rintro _ ⟨⟩; exact asPin_fits hv⟩
  obtain ⟨id', hid, h⟩ := bind_eq_ok_iff.mp h
  obtain ⟨input', hinput, h⟩ := bind_eq_ok_iff.mp h
  obtain ⟨output', houtput, h⟩ := bind_eq_ok_iff.mp h
  cases h
  exact ⟨hP.1 _ (need_eq_ok hid), hP.2.1 _ (need_eq_ok hinput), hP.2.2 _ (need_eq_ok houtput)⟩

theorem Pin.sound_of_ofDraft (hd : d.Limited depth) {p : Pin} (h : Pin.ofDraft origin d = .ok p) :
    p.Fits ∧ Json.Sound (depth + 1) p.default := by
  let P : Pin.Found → Prop := fun s => (∀ id ∈ s.id, id.val < 0x100000000) ∧
    (∀ id ∈ s.node, id.val < 0x100000000) ∧ Json.Sound (depth + 1) s.default
  obtain ⟨found, hfound, h⟩ := bind_eq_ok_iff.mp h
  have hP : P found := by
    refine asRecord_keeps hd (P := P) (fun key d s s' hd hs hstep => ?_) (by simp [P, Json.Sound]) hfound
    obtain ⟨hid, hnode, hdefault⟩ := hs
    split at hstep
    · obtain ⟨v, hv, hstep⟩ := bind_eq_ok_iff.mp hstep
      cases hstep
      exact ⟨by rintro _ ⟨⟩; exact asPin_fits hv, hnode, hdefault⟩
    · obtain ⟨v, hv, hstep⟩ := bind_eq_ok_iff.mp hstep
      cases hstep
      exact ⟨hid, by rintro _ ⟨⟩; exact asNode_fits hv, hdefault⟩
    · obtain ⟨v, -, hstep⟩ := bind_eq_ok_iff.mp hstep
      cases hstep
      exact ⟨hid, hnode, hdefault⟩
    · obtain ⟨v, -, hstep⟩ := bind_eq_ok_iff.mp hstep
      cases hstep
      exact ⟨hid, hnode, hdefault⟩
    · obtain ⟨v, -, hstep⟩ := bind_eq_ok_iff.mp hstep
      cases hstep
      exact ⟨hid, hnode, hdefault⟩
    · obtain ⟨v, hv, hstep⟩ := bind_eq_ok_iff.mp hstep
      cases hstep
      exact ⟨hid, hnode, asDocument_sound hd hv⟩
  obtain ⟨id, hid, h⟩ := bind_eq_ok_iff.mp h
  obtain ⟨node, hnode, h⟩ := bind_eq_ok_iff.mp h
  obtain ⟨direction, -, h⟩ := bind_eq_ok_iff.mp h
  obtain ⟨name, -, h⟩ := bind_eq_ok_iff.mp h
  obtain ⟨type, -, h⟩ := bind_eq_ok_iff.mp h
  cases h
  exact ⟨⟨hP.1 _ (need_eq_ok hid), hP.2.1 _ (need_eq_ok hnode)⟩, hP.2.2⟩

theorem Node.fits_of_ofDraft (hd : d.Limited depth) {n : Node} (h : Node.ofDraft origin d = .ok n) :
    n.Fits := by
  let P : Node.Found → Prop := fun s =>
    (∀ id ∈ s.id, id.val < 0x100000000) ∧ ∀ id ∈ s.firstPin, id.val < 0x100000000
  cases hd with
  | scalar hd =>
    cases d with
    | arr => cases hd
    | obj => cases hd
    | _ => cases h
  | arr _ _ => cases h
  | @obj _ entries ending _ inner =>
    obtain ⟨found, hfound, h⟩ := bind_eq_ok_iff.mp h
    have hP : P found := by
      refine walkEntries_keeps (P := P) (fun key d s s' _ hs hstep => ?_) (fun key d s s' _ hs hstep => ?_) inner
        (by simp [P]) hfound
      · obtain ⟨hid, hfirst⟩ := hs
        split at hstep
        · obtain ⟨v, hv, hstep⟩ := bind_eq_ok_iff.mp hstep
          cases hstep
          exact ⟨by rintro _ ⟨⟩; exact asNode_fits hv, hfirst⟩
        · obtain ⟨v, hv, hstep⟩ := bind_eq_ok_iff.mp hstep
          cases hstep
          exact ⟨hid, by rintro _ ⟨⟩; exact asPin_fits hv⟩
        · obtain ⟨v, -, hstep⟩ := bind_eq_ok_iff.mp hstep
          cases hstep
          exact ⟨hid, hfirst⟩
        · obtain ⟨v, -, hstep⟩ := bind_eq_ok_iff.mp hstep
          cases hstep
          exact ⟨hid, hfirst⟩
      · obtain ⟨v, -, hstep⟩ := bind_eq_ok_iff.mp hstep
        cases hstep
        exact hs
    cases ending with
    | some fault => cases h
    | none =>
      obtain ⟨id, hid, h⟩ := bind_eq_ok_iff.mp h
      obtain ⟨kind, -, h⟩ := bind_eq_ok_iff.mp h
      obtain ⟨firstPin, hfirst, h⟩ := bind_eq_ok_iff.mp h
      obtain ⟨pinCount, -, h⟩ := bind_eq_ok_iff.mp h
      cases h
      exact ⟨hP.1 _ (need_eq_ok hid), hP.2 _ (need_eq_ok hfirst), pinCount.toNat_lt⟩

structure Graph.Sound (depth : Nat) (g : Graph) : Prop where
  fits : g.Fits
  default : ∀ p ∈ g.livePins, Json.Sound (depth + 3) p.default

theorem Graph.sound_of_ofDraft (hd : d.Limited depth) {g : Graph} (h : Graph.ofDraft origin d = .ok g) :
    g.Sound depth := by
  let P : Graph.Found → Prop := fun s => (∀ n, some n ∈ s.nodes → n.Fits) ∧
    (∀ p, some p ∈ s.pins → p.Fits ∧ Json.Sound (depth + 3) p.default) ∧ ∀ l, some l ∈ s.links → l.Fits
  cases hd with
  | scalar hd =>
    cases d with
    | arr => cases hd
    | obj => cases hd
    | _ => cases h
  | arr _ _ => cases h
  | @obj _ entries ending _ inner =>
    obtain ⟨found, hfound, h⟩ := bind_eq_ok_iff.mp h
    have hP : P found := by
      refine walkEntries_keeps (P := P) (fun key d s s' hd hs hstep => ?_) (fun key d s s' _ hs hstep => ?_)
        inner (by simp [P]) hfound
      · obtain ⟨hnodes, hpins, hlinks⟩ := hs
        split at hstep
        · obtain ⟨v, -, hstep⟩ := bind_eq_ok_iff.mp hstep
          cases hstep
          exact ⟨hnodes, hpins, hlinks⟩
        · obtain ⟨v, hv, hstep⟩ := bind_eq_ok_iff.mp hstep
          cases hstep
          refine ⟨fun n hn => ?_, hpins, hlinks⟩
          obtain ⟨d', hd', hdecode⟩ := mem_asList hd hv hn
          exact Node.fits_of_ofDraft hd' (asOption_eq_some hdecode)
        · obtain ⟨v, hv, hstep⟩ := bind_eq_ok_iff.mp hstep
          cases hstep
          refine ⟨hnodes, fun p hp => ?_, hlinks⟩
          obtain ⟨d', hd', hdecode⟩ := mem_asList hd hv hp
          exact Pin.sound_of_ofDraft hd' (asOption_eq_some hdecode)
        · obtain ⟨v, hv, hstep⟩ := bind_eq_ok_iff.mp hstep
          cases hstep
          refine ⟨hnodes, hpins, fun l hl => ?_⟩
          obtain ⟨d', hd', hdecode⟩ := mem_asList hd hv hl
          exact Link.fits_of_ofDraft hd' (asOption_eq_some hdecode)
      · obtain ⟨v, -, hstep⟩ := bind_eq_ok_iff.mp hstep
        cases hstep
        exact hs
    cases ending with
    | some fault => cases h
    | none =>
      obtain ⟨name, -, h⟩ := bind_eq_ok_iff.mp h
      obtain ⟨signature, -, h⟩ := bind_eq_ok_iff.mp h
      cases h
      have hlive : ∀ {α : Type} (slots : List (Option α)) {a : α},
        a ∈ live slots.toArray → some a ∈ slots := by
        intro α slots a ha
        obtain ⟨slot, hslot, rfl⟩ := List.mem_filterMap.mp ha
        exact hslot
      exact ⟨⟨fun n hn => hP.1 n (hlive _ hn), fun p hp => (hP.2.1 p (hlive _ hp)).1,
        fun l hl => hP.2.2 l (hlive _ hl)⟩, fun p hp => (hP.2.1 p (hlive _ hp)).2⟩

theorem FieldDecl.sound_of_ofDraft (hd : d.Limited depth) {f : FieldDecl}
    (h : FieldDecl.ofDraft origin d = .ok f) : Json.Sound (depth + 1) f.default := by
  let P : Option String × Option String × Option Json → Prop := fun s => Json.Sound (depth + 1) s.2.2
  obtain ⟨⟨name, type, value⟩, hfound, h⟩ := bind_eq_ok_iff.mp h
  have hP : P (name, type, value) := by
    refine asRecord_keeps hd (P := P) (fun key d s s' hd hs hstep => ?_) (by simp [P, Json.Sound]) hfound
    obtain ⟨name, type, value⟩ := s
    dsimp only at hstep
    split at hstep
    · obtain ⟨v, -, hstep⟩ := bind_eq_ok_iff.mp hstep
      cases hstep
      exact hs
    · obtain ⟨v, -, hstep⟩ := bind_eq_ok_iff.mp hstep
      cases hstep
      exact hs
    · obtain ⟨v, hv, hstep⟩ := bind_eq_ok_iff.mp hstep
      cases hstep
      exact asDocument_sound hd hv
  obtain ⟨name', -, h⟩ := bind_eq_ok_iff.mp h
  obtain ⟨type', -, h⟩ := bind_eq_ok_iff.mp h
  cases h
  exact hP

structure Script.Sound (depth : Nat) (s : Script) : Prop where
  field : ∀ f ∈ s.fields, Json.Sound (depth + 3) f.default
  function : ∀ g ∈ s.functions, g.Sound (depth + 2)

theorem Script.sound_of_ofDraft (hd : d.Limited depth) {s : Script} (h : Script.ofDraft origin d = .ok s) :
    s.Sound depth := by
  let P : Option String × Script → Prop := fun s => s.2.Sound depth
  obtain ⟨⟨name, found⟩, hfound, h⟩ := bind_eq_ok_iff.mp h
  have hP : P (name, found) := by
    refine asRecord_keeps hd (P := P) (fun key d s s' hd hs hstep => ?_) ⟨by simp, by simp⟩ hfound
    obtain ⟨name, found⟩ := s
    dsimp only at hstep
    split at hstep
    · obtain ⟨v, -, hstep⟩ := bind_eq_ok_iff.mp hstep
      cases hstep
      exact hs
    · obtain ⟨v, hv, hstep⟩ := bind_eq_ok_iff.mp hstep
      cases hstep
      refine ⟨fun f hf => ?_, hs.function⟩
      obtain ⟨d', hd', hdecode⟩ := mem_asList hd hv hf
      exact FieldDecl.sound_of_ofDraft hd' hdecode
    · obtain ⟨v, hv, hstep⟩ := bind_eq_ok_iff.mp hstep
      cases hstep
      refine ⟨hs.field, fun g hg => ?_⟩
      obtain ⟨d', hd', hdecode⟩ := mem_asList hd hv hg
      exact Graph.sound_of_ofDraft hd' hdecode
  obtain ⟨name', -, h⟩ := bind_eq_ok_iff.mp h
  cases h
  exact ⟨hP.field, hP.function⟩

theorem Draft.exists_of_interpret {α : Type} {decode : Draft → Except ReadFault α} {text : String} {a : α}
    (h : interpret decode text = .ok a) : ∃ d : Draft, d.Limited 0 ∧ decode d = .ok a := by
  have hread : (read text).1.Limited 0 := by
    rw [read]
    exact (limited_read _).1 0 _
  unfold interpret at h
  generalize read text = r at h hread
  obtain ⟨d, after⟩ := r
  obtain ⟨a', hdecode, h⟩ := bind_eq_ok_iff.mp h
  cases after with
  | some fault => cases h
  | none =>
    cases h
    exact ⟨d, hread, hdecode⟩

end Flowscript
