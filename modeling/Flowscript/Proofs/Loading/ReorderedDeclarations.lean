import Flowscript.Proofs.Loading.DeclarationOrder

/-! # Declarations in another order

Where no circle is among their fields, scripts can be declared in any order in which each comes after those
that its fields name. A script then finds the types that its fields name, and what these mention; others may
be registered or not. So it becomes the same type, provided that what is called to construct values for its
defaults does not ask for types that may not be registered yet.
-/
namespace Flowscript.Loader

variable {k₀ : Context} {σ : Renumbering} {done done' scripts : List Script}

/-- A script comes before two places in two orders; its type has this handle in the first one. -/
def Precedes (k₀ : Context) (done done' : List Script) (i j : Nat) (t : Script) (h : Handle) : Prop :=
  ∃ a b, h = k₀.catalogue.infos.size + a ∧ a < i ∧ b < j ∧ done[a]? = some t ∧ done'[b]? = some t

/-- Types with which defaults are read at two places in two orders: registered ones whose values may be
constructed for that, and those of scripts that come before. -/
def Available (k₀ : Context) (scripts done done' : List Script) (i j : Nat) (h : Handle) : Prop :=
  Constructs k₀.catalogue scripts h ∨
    ∃ t : Script, Reads k₀.catalogue scripts t.name ∧ Precedes k₀ done done' i j t h

theorem Available.mono {i j i' j' : Nat} (hi : i ≤ i') (hj : j ≤ j') {h : Handle}
    (hh : Available k₀ scripts done done' i j h) : Available k₀ scripts done done' i' j' h :=
  hh.imp_right fun ⟨t, hread, a, b, heq, ha, hb, hrest⟩ =>
    ⟨t, hread, a, b, heq, Nat.lt_of_lt_of_le ha hi, Nat.lt_of_lt_of_le hb hj, hrest⟩

structure Reorders (k₀ : Context) (σ : Renumbering) (done done' : List Script) : Prop where
  handle : ∀ j < k₀.catalogue.infos.size, σ.handle j = j
  number : ∀ n < k₀.bodies.size, σ.number n = n
  moves : ∀ i j s, done[i]? = some s → done'[j]? = some s →
    σ.handle (k₀.catalogue.infos.size + i) = k₀.catalogue.infos.size + j
  ordered : Ordered done
  ordered' : Ordered done'
  perm : done.Perm done'

theorem Laid.context_outgrows {d : Catalogue} (h : Laid k₀.catalogue done d) :
    k₀.Outgrows { k₀ with catalogue := d } := ⟨h.outgrows, le_rfl, fun _ _ => rfl⟩

theorem getElem?_take_iff {i a : Nat} {t : Script} : (done.take i)[a]? = some t ↔ a < i ∧ done[a]? = some t := by
  rw [List.getElem?_take, Option.ite_none_right_eq_some]

theorem exists_of_mem_take {i : Nat} {t : Script} (h : t ∈ done.take i) : ∃ a < i, done[a]? = some t := by
  obtain ⟨a, ha⟩ := List.mem_iff_getElem?.mp h
  exact ⟨a, getElem?_take_iff.mp ha⟩

theorem type_of_closed (hclosed : k₀.Closed) (hr : Reorders k₀ σ done done') {h : Handle}
    (hh : h < k₀.catalogue.infos.size) : σ.type (k₀.catalogue.info h) = k₀.catalogue.info h :=
  Renumbering.type_of_within hr.handle hr.number (hclosed h hh)

section Names

variable {d d' : Catalogue} {i j : Nat} {s : Script} {f : FieldDecl} (hfiled : k₀.catalogue.Filed)
  (hr : Reorders k₀ σ done done') (hi : done[i]? = some s) (hj : done'[j]? = some s)
  (hd : Laid k₀.catalogue (done.take i) d) (hf : f ∈ s.fields)
include hfiled hr hi hj hd hf

omit hi in
/-- Where a script is declared, the name of a type in its fields leads to a type from before, or to one of a
script that comes before in both orders. -/
theorem handleNamed?_of_placed {x : Handle} (hx : d.handleNamed? f.type = some x) :
    k₀.catalogue.handleNamed? f.type = some x ∨
      ∃ t : Script, t.name = f.type ∧ Precedes k₀ done done' i j t x := by
  refine ((hd.handleNamed?_iff hfiled).mp hx).imp_right fun ⟨a, t, ha, hname, heq⟩ => ?_
  obtain ⟨ha, hat⟩ := getElem?_take_iff.mp ha
  obtain ⟨b, hb, hbt⟩ := exists_of_mem_take
    (hr.ordered' j s hj f hf t (hr.perm.mem_iff.mp (List.mem_of_getElem? hat)) hname)
  exact ⟨t, hname, a, b, heq, ha, hb, hat, hbt⟩

theorem handleNamed?_reordered (hd' : Laid k₀.catalogue (done'.take j) d') :
    d'.handleNamed? f.type = (d.handleNamed? f.type).map σ.handle := by
  refine Option.ext fun x => ?_
  rw [hd'.handleNamed?_iff hfiled, Option.map_eq_some_iff]
  constructor
  · rintro (hold | ⟨b, t, hb, hname, rfl⟩)
    · have hlt := hfiled.lt_size (Catalogue.handle?_of_handleNamed? hold)
      exact ⟨x, (hd.handleNamed?_iff hfiled).mpr (.inl hold), hr.handle x hlt⟩
    · obtain ⟨-, hbt⟩ := getElem?_take_iff.mp hb
      obtain ⟨a, ha, hat⟩ := exists_of_mem_take
        (hr.ordered i s hi f hf t (hr.perm.mem_iff.mpr (List.mem_of_getElem? hbt)) hname)
      exact ⟨_, (hd.handleNamed?_iff hfiled).mpr (.inr ⟨a, t, getElem?_take_iff.mpr ⟨ha, hat⟩, hname, rfl⟩),
        hr.moves a b t hat hbt⟩
  · rintro ⟨y, hy, rfl⟩
    rcases handleNamed?_of_placed hfiled hr hj hd hf hy with hold | ⟨t, hname, a, b, rfl, -, hb, hat, hbt⟩
    · have hlt := hfiled.lt_size (Catalogue.handle?_of_handleNamed? hold)
      exact .inl (by rwa [hr.handle y hlt])
    · exact .inr ⟨b, t, getElem?_take_iff.mpr ⟨hb, hbt⟩, hname, hr.moves a b t hat hbt⟩

end Names

theorem Placed.body_of_mem {m₀ : Machine} {c : Catalogue} {i : Nat} {s : Script} {es : List ScriptError}
    (hi : done[i]? = some s) (h : Placed k₀ m₀ c (done.take i) s es) {key : FunctionKey} {f : Function}
    (hf : f ∈ (c.info (k₀.catalogue.infos.size + i)).overloads key) :
    ∃ op whole, f.body = .aggregate op whole := by
  cases h with
  | @intro d es ms _ _ hlaid hkept _ hfound hinfo =>
    rw [hlaid.size, List.length_take_of_le (List.getElem?_eq_some_iff.mp hi).choose.le] at hinfo
    rw [hinfo, Catalogue.withHeirs_eq] at hf
    obtain ⟨entry, hentry, hf⟩ := TypeInfo.mem_functions_of_overloads hf
    obtain ⟨op, whole, hbody, -⟩ := body_of_mem_typeOf hentry hf
    exact ⟨op, whole, hbody⟩

/-- The catalogues that a script finds at two places in two orders. -/
structure Meets (w : Workspace) (scripts : List Script) (σ : Renumbering) (done done' : List Script) (i j : Nat)
    (d d' : Catalogue) : Prop where
  laid : Laid w.catalogue (done.take i) d
  laid' : Laid w.catalogue (done'.take j) d'
  same : ∀ t h, Precedes w.context done done' i j t h → d.SameAt σ d' h
  composed : ∀ t h, Precedes w.context done done' i j t h → ∀ key, ∀ f ∈ (d.info h).overloads key,
    ¬ f.body.IsForeign
  within : ∀ t h, Precedes w.context done done' i j t h → Reads w.catalogue scripts t.name →
    (d.info h).Within (Available w.context scripts done done' i j) fun _ => True

namespace Meets

variable {w : Workspace} {d d' : Catalogue} {i j : Nat} (hw : w.Reliable scripts)
  (hr : Reorders w.context σ done done') (h : Meets w scripts σ done done' i j d d')
include hw h

omit hw in
theorem info_old {k : Handle} (hk : k < w.context.catalogue.infos.size) : d.info k = w.catalogue.info k :=
  h.laid.outgrows.info_of_lt hk

theorem within_old {k : Handle} (hk : Involves w.catalogue scripts k) :
    (d.info k).Within (Available w.context scripts done done' i j) fun _ => True := by
  rw [h.info_old (hk.lt_size hw.filed hw.closed)]
  exact hk.within.mono (fun _ => .inl) fun _ => id

theorem constructs_of_foreign {k : Handle} (hk : Available w.context scripts done done' i j k) {f : Function}
    (hf : (d.info k).resolve (.operator .construct) [] = .ok f) (hbody : f.body.IsForeign) :
    Constructs w.catalogue scripts k ∧ (w.catalogue.info k).resolve (.operator .construct) [] = .ok f := by
  rcases hk with hk | ⟨t, -, ht⟩
  · exact ⟨hk, h.info_old (hk.involves.lt_size hw.filed hw.closed) ▸ hf⟩
  · exact absurd hbody (h.composed t k ht _ f (TypeInfo.mem_of_resolve hf))

include hr

theorem same_old {k : Handle} (hk : k < w.context.catalogue.infos.size) : d.SameAt σ d' k := by
  rw [Catalogue.SameAt, hr.handle k hk, h.info_old hk, h.laid'.outgrows.info_of_lt hk]
  exact (type_of_closed hw.closed hr hk).symm

theorem agrees : d.Agrees (Available w.context scripts done done' i j) σ d' where
  within k hk := by
    rcases hk with hk | ⟨t, hread, ht⟩
    · exact h.within_old hw hk.involves
    · exact h.within t k ht hread
  same k hk := by
    rcases hk with hk | ⟨t, -, ht⟩
    · exact h.same_old hw hr (hk.involves.lt_size hw.filed hw.closed)
    · exact h.same t k ht

theorem repeats (depth : Nat) : (invokeWithin depth).Repeats w.machine
    (Available w.context scripts done done' i j) σ { w.context with catalogue := d }
    { w.context with catalogue := d' } := by
  refine repeats_of_steady h.laid.context_outgrows h.laid'.context_outgrows (h.agrees hw hr)
    (fun k hk f hf hbody => ?_) (fun k f hk hf hbody => ?_) depth
  · obtain ⟨hconstructs, hf⟩ := h.constructs_of_foreign hw hk hf hbody
    exact hw.steady k hconstructs f hf hbody
  · obtain ⟨hconstructs, hf⟩ := h.constructs_of_foreign hw hk hf hbody
    have hlt := hconstructs.involves.lt_size hw.filed hw.closed
    exact Renumbering.function_of_within hr.handle hr.number
      ((hw.closed k hlt).overloads (TypeInfo.mem_of_resolve hf))

variable {s : Script} (hi : done[i]? = some s) (hj : done'[j]? = some s) {f : FieldDecl} (hf : f ∈ s.fields)
include hj hf

theorem same_named {k : Handle} (hk : d.handleNamed? f.type = some k) : d.SameAt σ d' k := by
  rcases handleNamed?_of_placed hw.filed hr hj h.laid hf hk with hold | ⟨t, -, ht⟩
  · exact h.same_old hw hr (hw.filed.lt_size (Catalogue.handle?_of_handleNamed? hold))
  · exact h.same t k ht

theorem sameField (hi : done[i]? = some s) (hs : s ∈ scripts) (hnew : w.catalogue.contains s.type = false) :
    SameField { w.context with catalogue := d } { w.context with catalogue := d' }
      (Available w.context scripts done done' i j) σ f where
  handle := handleNamed?_reordered hw.filed hr hi hj h.laid hf h.laid'
  same k hk := h.same_named hw hr hj hf hk
  read hdefault k hk := by
    have hread : Reads w.catalogue scripts f.type := .default hs hnew hf hdefault
    rcases handleNamed?_of_placed hw.filed hr hj h.laid hf hk with hold | ⟨t, hname, ht⟩
    · exact (h.within_old hw (.named hread hold)).codec
    · exact (h.within t k ht (hname ▸ hread)).codec

theorem available (hs : s ∈ scripts) (hnew : w.catalogue.contains s.type = false)
    (hread : Reads w.catalogue scripts s.name) {k : Handle} (hk : d.handleNamed? f.type = some k) :
    Available w.context scripts done done' i j k := by
  rcases handleNamed?_of_placed hw.filed hr hj h.laid hf hk with hold | ⟨t, hname, ht⟩
  · exact .inl (.member hs hnew hread hf hold)
  · exact .inr ⟨t, hname ▸ .field hs hnew hread hf, ht⟩

end Meets

section Alike

variable {w : Workspace} {c c' : Catalogue} {errors errors' : TypeId → List ScriptError} (hw : w.Reliable scripts)
  (hr : Reorders w.context σ done done')
  (hnew : ∀ s ∈ done, s ∈ scripts ∧ w.catalogue.contains s.type = false)
  (hplaced : ∀ i s, done[i]? = some s → Placed w.context w.machine c (done.take i) s (errors s.type))
  (hplaced' : ∀ i s, done'[i]? = some s → Placed w.context w.machine c' (done'.take i) s (errors' s.type))

include hw hr hnew hplaced hplaced'

theorem placed_alike {i j : Nat} {s : Script} (hi : done[i]? = some s) (hj : done'[j]? = some s) :
    errors' s.type = errors s.type ∧ c.SameAt σ c' (w.context.catalogue.infos.size + i) ∧
      (Reads w.catalogue scripts s.name → (c.info (w.context.catalogue.infos.size + i)).Within
        (Available w.context scripts done done' i j) fun _ => True) := by
  induction i using Nat.strong_induction_on generalizing j s with
  | _ i ih =>
    have hfirst := hplaced i s hi
    have hsecond := hplaced' j s hj
    generalize errors s.type = es at hfirst
    generalize errors' s.type = es' at hsecond
    cases hfirst with
    | @intro d es ms m _ hlaid hkept hm hfound hinfo =>
      cases hsecond with
      | @intro d' es' ms' m' _ hlaid' hkept' hm' hfound' hinfo' =>
        have hsize := hlaid.size
        have hsize' := hlaid'.size
        rw [List.length_take_of_le (List.getElem?_eq_some_iff.mp hi).choose.le] at hsize
        rw [List.length_take_of_le (List.getElem?_eq_some_iff.mp hj).choose.le] at hsize'
        have hearlier : ∀ a < i, d.info (w.context.catalogue.infos.size + a) =
            c.info (w.context.catalogue.infos.size + a) := fun a ha => (hkept _ (by omega)).symm
        have hmeets : Meets w scripts σ done done' i j d d' := by
          refine ⟨hlaid, hlaid', ?_, ?_, ?_⟩
          · rintro t h ⟨a, b, rfl, ha, hb, hat, hbt⟩
            have hsame := (ih a ha hat hbt).2.1
            rw [Catalogue.SameAt, hr.moves a b t hat hbt] at hsame ⊢
            rw [hearlier a ha, ← hsame]
            exact (hkept' _ (by omega)).symm
          · rintro t h ⟨a, b, rfl, ha, -, hat, -⟩ key f hf hbody
            rw [hearlier a ha] at hf
            obtain ⟨op, whole, haggregate⟩ := (hplaced a t hat).body_of_mem hat hf
            rw [haggregate] at hbody
            exact hbody
          · rintro t h ⟨a, b, rfl, ha, hb, hat, hbt⟩ hread
            rw [hearlier a ha]
            exact ((ih a ha hat hbt).2.2 hread).mono (fun _ => Available.mono ha.le hb.le) fun _ => id
        obtain ⟨hs, hfresh⟩ := hnew s (List.mem_of_getElem? hi)
        have ha := hmeets.agrees hw hr
        obtain ⟨rfl, rfl, hms⟩ := hfound.alike ha (hmeets.repeats hw hr callDepth) hm hm'
          (fun f hf => hmeets.sameField hw hr hj hf hi hs hfresh) hfound'
        have htype := typeOf_renumbered s.name fun y hy => by
          obtain ⟨f, hf, hnamed⟩ := hms y hy
          exact hmeets.same_named hw hr hj hf hnamed
        rw [hsize] at hinfo
        rw [hsize', htype, Renumbering.withHeirs_type, ← hinfo] at hinfo'
        refine ⟨by rw [htype], ?_, fun hread => ?_⟩
        · rw [Catalogue.SameAt, hr.moves i j s hi hj, hinfo']
        · rw [hinfo]
          refine (within_typeOf s.name fun y hy => ?_).withHeirs _
          obtain ⟨f, hf, hnamed⟩ := hms y hy
          have havailable := hmeets.available hw hr hj hf hs hfresh hread hnamed
          exact ⟨havailable, (ha.within y.type havailable).codec⟩

end Alike

end Flowscript.Loader
