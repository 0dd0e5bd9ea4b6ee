import Mathlib
import Flowscript.Proofs.Loading.CompileOverruns
import Flowscript.Proofs.Machine.StorageRanges
import Flowscript.Proofs.Run.CountingLoops
import Flowscript.Proofs.Run.OutlivingReferences
import Flowscript.Proofs.Types.DeclaredComposition

/-! # Values side by side

The members of an aggregate and the values of a function's data pins are placed in the same way: one after
another, each at the next multiple of its alignment. So none reaches into another one, all lie within the whole,
and the whole, which is as aligned as the most aligned of them, may be followed by another one like it.
-/
namespace Flowscript

namespace Layout

/-- A layout has room for others at some offsets, apart from one another and in order. -/
structure Spaces (whole : Layout) (entries : List (Layout × Nat)) : Prop where
  aligned : ∀ e ∈ entries, e.1.align ∣ e.2
  ordered : entries.Pairwise fun e e' => e.2 ≤ e'.2
  apart : entries.Pairwise fun e e' => Disjoint (Set.Ico e.2 (e.2 + e.1.size)) (Set.Ico e'.2 (e'.2 + e'.1.size))
  inside : ∀ e ∈ entries, e.2 + e.1.size ≤ whole.size
  padded : whole.align ∣ whole.size
  align : whole.align = (entries.map (·.1.align)).foldl max 1

variable {whole whole' : Layout} {ls : List Layout} {offsets : List Nat}

theorem align_go (h : place?.go whole ls = some (whole', offsets)) :
    whole'.align = (ls.map (·.align)).foldl max whole.align := by
  induction ls generalizing whole offsets with
  | nil =>
    cases h
    rfl
  | cons l ls ih =>
    obtain ⟨larger, offset, rest, hextend, hrest, rfl⟩ := go_cons_eq_some_iff.mp h
    obtain ⟨rfl, rfl, -⟩ := extend?_eq_some_iff.mp hextend
    exact ih hrest

theorem isPowerOfTwo_two_pow (k : Nat) : isPowerOfTwo (2 ^ k) = true := by
  simp [isPowerOfTwo, Nat.and_two_pow_sub_one_eq_mod]

/-- Layouts are in a row at some offsets, within a size that all of their alignments divide. -/
structure Row (ls : List Layout) (offsets : List Nat) (size : Nat) : Prop where
  length : offsets.length = ls.length
  aligned : ∀ e ∈ ls.zip offsets, e.1.align ∣ e.2
  padded : ∀ l ∈ ls, l.align ∣ size
  follow : Follow 0 ((ls.zip offsets).map fun e => (e.2, e.1.size)) size

/-- Where there is room for a row of layouts, they are placed: none of them starts later than in the row. -/
theorem exists_go_of_follow {size : Nat} (hsize : size ≤ maxSize) (hlength : offsets.length = ls.length)
    (hwhole : isPowerOfTwo whole.align = true ∧ whole.align ∣ size)
    (hls : ∀ l ∈ ls, isPowerOfTwo l.align = true ∧ l.align ∣ size)
    (haligned : ∀ e ∈ ls.zip offsets, e.1.align ∣ e.2)
    (hfollow : Follow whole.size ((ls.zip offsets).map fun e => (e.2, e.1.size)) size) :
    ∃ r, place?.go whole ls = some r := by
  induction ls generalizing whole offsets with
  | nil => exact ⟨_, rfl⟩
  | cons l ls ih =>
    obtain ⟨o, offsets, rfl⟩ := List.exists_cons_of_length_eq_add_one hlength
    rw [List.zip_cons_cons] at haligned hfollow
    obtain ⟨hdvd, haligned⟩ := List.forall_mem_cons.mp haligned
    obtain ⟨hstart, hfollow⟩ := hfollow
    obtain ⟨hl, hls⟩ := List.forall_mem_cons.mp hls
    have hle : roundUp whole.size l.align + l.size ≤ o + l.size :=
      Nat.add_le_add_right (roundUp_le hstart hdvd) _
    have hlarger : isPowerOfTwo (max whole.align l.align) = true ∧ max whole.align l.align ∣ size := by
      rcases max_choice whole.align l.align with hmax | hmax
      · rwa [hmax]
      · rwa [hmax]
    have hpadded := (roundUp_le (hle.trans hfollow.le) hlarger.2).trans hsize
    have hextend := extend?_eq_some_iff.mpr ⟨rfl, rfl, hlarger.1, hpadded⟩
    have hrest : ∃ r, place?.go ⟨roundUp whole.size l.align + l.size, max whole.align l.align⟩ ls = some r :=
      ih (Nat.succ.inj hlength) hlarger hls haligned (hfollow.of_le hle)
    obtain ⟨r, hr⟩ := hrest
    exact ⟨_, go_cons_eq_some_iff.mpr ⟨_, _, _, hextend, hr, rfl⟩⟩

/-- What is placed is not too large, even when it is padded. -/
theorem size_pad_go_le (h : place?.go whole ls = some (whole', offsets)) (hwhole : whole.pad.size ≤ maxSize) :
    whole'.pad.size ≤ maxSize := by
  induction ls generalizing whole offsets with
  | nil =>
    cases h
    exact hwhole
  | cons l ls ih =>
    obtain ⟨larger, offset, rest, hextend, hrest, rfl⟩ := go_cons_eq_some_iff.mp h
    obtain ⟨rfl, rfl, -, hsize⟩ := extend?_eq_some_iff.mp hextend
    exact ih hrest hsize

theorem row_of_place (h : place? ls = some (whole, offsets)) (hls : ∀ l ∈ ls, ∃ k, l.align = 2 ^ k) :
    Row ls offsets whole.size ∧ whole.align ∣ whole.size ∧ whole.align = (ls.map (·.align)).foldl max 1 := by
  obtain ⟨⟨bare, offsets'⟩, hgo, hpad⟩ := Option.map_eq_some_iff.mp h
  obtain ⟨rfl, rfl⟩ := Prod.mk.inj hpad
  have hlength := length_place hgo
  have hfollow := follow_go hgo
  obtain ⟨⟨k, hpower⟩, -, haligned⟩ := aligned_go hgo ⟨0, rfl⟩ hls
  have hranges : offsets'.zip (ls.map (·.size)) = (ls.zip offsets').map fun e => (e.2, e.1.size) := by
    rw [List.zip_map_right, ← List.zip_swap, List.map_map]
    rfl
  rw [hranges] at hfollow
  have hpadded : bare.pad.align ∣ bare.pad.size := dvd_roundUp _ (hpower.trans_ne (Nat.two_pow_pos k).ne')
  refine ⟨⟨hlength, fun e he => (haligned e he).1, fun l hl => ?_, hfollow.mono (le_roundUp _ _)⟩, hpadded,
    align_go hgo⟩
  rw [← List.map_fst_zip hlength.ge] at hl
  obtain ⟨e, he, rfl⟩ := List.mem_map.mp hl
  exact (haligned e he).2.trans hpadded

theorem exists_place_iff (hls : ∀ l ∈ ls, ∃ k, l.align = 2 ^ k) :
    (∃ whole offsets, place? ls = some (whole, offsets)) ↔
      ∃ offsets size, size ≤ maxSize ∧ Row ls offsets size := by
  constructor
  · rintro ⟨whole, offsets, h⟩
    refine ⟨offsets, whole.size, ?_, (row_of_place h hls).1⟩
    obtain ⟨⟨bare, offsets'⟩, hgo, hpad⟩ := Option.map_eq_some_iff.mp h
    obtain ⟨rfl, rfl⟩ := Prod.mk.inj hpad
    exact size_pad_go_le hgo (Nat.zero_le _)
  · rintro ⟨offsets, size, hsize, hrow⟩
    have hpowers : ∀ l ∈ ls, isPowerOfTwo l.align = true ∧ l.align ∣ size := fun l hl => by
      obtain ⟨k, hk⟩ := hls l hl
      exact ⟨hk ▸ isPowerOfTwo_two_pow k, hrow.padded l hl⟩
    have hgo : ∃ r, place?.go empty ls = some r :=
      exists_go_of_follow hsize hrow.length ⟨rfl, Nat.one_dvd _⟩ hpowers hrow.aligned hrow.follow
    obtain ⟨r, hr⟩ := hgo
    exact ⟨r.1.pad, r.2, by rw [place?, hr]; rfl⟩

theorem spaces_place (h : place? ls = some (whole, offsets)) (hls : ∀ l ∈ ls, ∃ k, l.align = 2 ^ k) :
    whole.Spaces (ls.zip offsets) := by
  obtain ⟨hrow, hpadded, halign⟩ := row_of_place h hls
  have hafter := List.pairwise_map.mp hrow.follow.pairwise
  have haligns : (ls.zip offsets).map (·.1.align) = ls.map (·.align) := by
    have hfst := congrArg (List.map align) (List.map_fst_zip hrow.length.ge)
    rwa [List.map_map] at hfst
  refine ⟨hrow.aligned, ?_, ?_, fun e he => ?_, hpadded, haligns ▸ halign⟩
  · exact hafter.imp fun hle => (Nat.le_add_right _ _).trans hle
  · exact hafter.imp fun hle => Set.Ico_disjoint_Ico.mpr (min_le_of_left_le (hle.trans (le_max_right _ _)))
  · exact hrow.follow.end_le (List.mem_map_of_mem he)

end Layout

namespace Aggregate

variable {c : Catalogue} {ms : List Member} {layout : Layout} {parts : List Part}

theorem exists_place_iff (hms : ∀ m ∈ ms, ∃ k, (c.info m.type).layout.align = 2 ^ k) :
    (∃ layout parts, place? c ms = some (layout, parts)) ↔ ∃ offsets size, size ≤ Layout.maxSize ∧
      Layout.Row (ms.map fun m => (c.info m.type).layout) offsets size := by
  rw [← Layout.exists_place_iff (List.forall_mem_map.mpr hms)]
  constructor
  · rintro ⟨layout, parts, h⟩
    obtain ⟨placed, hplace, -⟩ := Option.map_eq_some_iff.mp h
    exact ⟨placed.1, placed.2, hplace⟩
  · rintro ⟨whole, offsets, hplace⟩
    exact ⟨_, _, by rw [place?, hplace]; rfl⟩

theorem spaces_parts (h : place? c ms = some (layout, parts))
    (hms : ∀ m ∈ ms, ∃ k, (c.info m.type).layout.align = 2 ^ k) :
    layout.Spaces (parts.map fun p => ((c.info p.type).layout, p.offset)) := by
  obtain ⟨⟨whole, offsets⟩, hplace, heq⟩ := Option.map_eq_some_iff.mp h
  obtain ⟨rfl, rfl⟩ := Prod.mk.inj heq
  have hspaces := Layout.spaces_place hplace (List.forall_mem_map.mpr hms)
  rw [List.zip_map_left] at hspaces
  rw [List.map_map]
  exact hspaces

end Aggregate

namespace Program

/-- A data pin of a graph, the type that it is found to have, and where its value is kept. -/
structure Berth where
  pin : Pin
  type : Handle
  offset : Nat

variable {g : Graph} {c : Catalogue} {s : Setting} {p : Program}

def Berth.Typed (c : Catalogue) (berth : Berth) : Prop :=
  ∃ name form, berth.pin.type = .data name form ∧ c.handleNamed? name = some berth.type

def Berth.layout (c : Catalogue) (berth : Berth) : Layout := (c.info berth.type).layout

theorem exists_berths {ps : List Pin} {storage storage' : Layout} {slots slots' : Array (Option ProgramPin)}
    (h : placePins c storage slots ps = .ok (storage', slots')) : ∃ berths : List Berth,
      berths.map Berth.pin = ps.filter (fun q => !q.isFlow) ∧ (∀ berth ∈ berths, berth.Typed c) ∧
      Layout.place?.go storage (berths.map (Berth.layout c)) = some (storage', berths.map Berth.offset) ∧
      ∀ number q t, slot? slots' number = some q → q.type = some t → slot? slots number = some q ∨
        ∃ berth ∈ berths, berth.pin.id.val = number ∧ berth.type = t ∧ berth.offset = q.storage := by
  induction ps generalizing storage slots with
  | nil =>
    cases h
    exact ⟨[], rfl, List.forall_mem_nil _, rfl, fun _ _ _ hq _ => .inl hq⟩
  | cons first ps ih =>
    obtain ⟨⟨storage₁, placed⟩, hplace, h⟩ := bind_eq_ok_iff.mp h
    obtain ⟨slots₁, hstore, h⟩ := bind_eq_ok_iff.mp h
    obtain ⟨-, rfl⟩ := store_eq_ok_iff.mp hstore
    obtain ⟨berths, hpins, htyped, hgo, hslots⟩ := ih h
    rcases placePin_cases (orFail_eq_ok_iff.mp hplace) with ⟨htype, rfl, rfl⟩ |
      ⟨name, form, handle, offset, htype, hhandle, hextend, rfl⟩
    · refine ⟨berths, ?_, htyped, hgo, fun number q t hq ht => ?_⟩
      · rw [hpins, List.filter_cons_of_neg]
        simp [Pin.isFlow, htype, PinType.isFlow]
      · rcases hslots number q t hq ht with hq | hberth
        · rcases slot?_setSlot hq with ⟨-, heq⟩ | ⟨-, hq⟩
          · cases heq
            cases ht
          · exact .inl hq
        · exact .inr hberth
    · refine ⟨⟨first, handle, offset⟩ :: berths, ?_, ?_, ?_, fun number q t hq ht => ?_⟩
      · rw [List.map_cons, hpins, List.filter_cons_of_pos]
        simp [Pin.isFlow, htype, PinType.isFlow]
      · exact List.forall_mem_cons.mpr ⟨⟨name, form, htype, hhandle⟩, htyped⟩
      · exact Layout.go_cons_eq_some_iff.mpr ⟨_, offset, _, hextend, hgo, rfl⟩
      · rcases hslots number q t hq ht with hq | ⟨berth, hberth, hrest⟩
        · rcases slot?_setSlot hq with ⟨rfl, heq⟩ | ⟨-, hq⟩
          · cases heq
            cases ht
            exact .inr ⟨_, List.mem_cons_self, rfl, rfl, rfl⟩
          · exact .inl hq
        · exact .inr ⟨berth, List.mem_cons_of_mem _ hberth, hrest⟩

/-- What a program keeps for its data pins is placed like the members of an aggregate. -/
theorem exists_berths_of_compile (h : compile g c s = .ok p) : ∃ berths : List Berth,
    berths.map Berth.pin = g.livePins.filter (fun q => !q.isFlow) ∧ (∀ berth ∈ berths, berth.Typed c) ∧
    Layout.place? (berths.map (Berth.layout c)) = some (p.storage, berths.map Berth.offset) ∧
    ∀ id q t, p.pin? id = some q → q.type = some t →
      ∃ berth ∈ berths, berth.pin.id = id ∧ berth.type = t ∧ berth.offset = q.storage := by
  obtain ⟨storage, slots, hplace, hpins, hstorage⟩ := (assembles_of_assemble (assemble_of_compile h)).pins
  obtain ⟨berths, hberths, htyped, hgo, hslots⟩ := exists_berths hplace
  refine ⟨berths, hberths, htyped, ?_, fun id q t hq ht => ?_⟩
  · rw [Layout.place?, hgo, hstorage]
    rfl
  · rw [pin?, hpins] at hq
    refine forall_connectAll (P := fun number q => ∀ t, q.type = some t →
      ∃ berth ∈ berths, berth.pin.id = ⟨number⟩ ∧ berth.type = t ∧ berth.offset = q.storage)
      (fun _ _ _ _ hold => hold) g.liveLinks (fun number q hq t ht => ?_) id.val q hq t ht
    rcases hslots number q t hq ht with hempty | ⟨berth, hberth, hid, hrest⟩
    · rw [slot?_replicate] at hempty
      cases hempty
    · exact ⟨berth, hberth, PinId.ext hid, hrest⟩

theorem exists_standsFor_of_compile (h : compile g c s = .ok p) {id : PinId} {q : ProgramPin}
    (hq : p.pin? id = some q) : ∃ pin ∈ g.livePins, pin.id = id ∧ StandsFor c pin q := by
  obtain ⟨storage, slots, hplace, hpins, -⟩ := (assembles_of_assemble (assemble_of_compile h)).pins
  obtain ⟨-, hslots, -⟩ := placePins_spec hplace
  rw [pin?, hpins] at hq
  refine forall_connectAll (P := fun number q => ∃ pin ∈ g.livePins, pin.id = ⟨number⟩ ∧ StandsFor c pin q)
    (fun number q source target hold => ?_) g.liveLinks (fun number q hq => ?_) id.val q hq
  · obtain ⟨pin, hpin, hid, hstands⟩ := hold
    exact ⟨pin, hpin, hid, hstands.node, hstands.flow, hstands.data, hstands.form⟩
  · rcases hslots number q hq with hempty | ⟨pin, hpin, hid, hstands, -⟩
    · rw [slot?_replicate] at hempty
      cases hempty
    · exact ⟨pin, hpin, PinId.ext hid, hstands⟩

theorem pin?_of_berth (h : compile g c s = .ok p) (hids : (g.livePins.map (·.id.val)).Nodup) {berths : List Berth}
    (hberths : berths.map Berth.pin = g.livePins.filter (fun q => !q.isFlow))
    (htyped : ∀ berth ∈ berths, berth.Typed c)
    (hfound : ∀ id q t, p.pin? id = some q → q.type = some t →
      ∃ berth ∈ berths, berth.pin.id = id ∧ berth.type = t ∧ berth.offset = q.storage)
    {berth : Berth} (hberth : berth ∈ berths) :
    ∃ q, p.pin? berth.pin.id = some q ∧ q.type = some berth.type ∧ q.storage = berth.offset := by
  have hlive : ∀ berth ∈ berths, berth.pin ∈ g.livePins := fun berth hberth =>
    List.mem_of_mem_filter (hberths ▸ List.mem_map_of_mem hberth)
  have hinj := List.inj_on_of_nodup_map hids
  have hpins : (berths.map Berth.pin).Nodup := hberths ▸ (List.Nodup.of_map _ hids).filter _
  have hsome : (p.pin? berth.pin.id).isSome = true :=
    ((filled_of_compile h).1 _).mpr (List.mem_map_of_mem (hlive berth hberth))
  obtain ⟨q, hq⟩ := Option.isSome_iff_exists.mp hsome
  obtain ⟨pin, hpin, hid, hstands⟩ := exists_standsFor_of_compile h hq
  obtain rfl : pin = berth.pin := hinj hpin (hlive berth hberth) (congrArg PinId.val hid)
  obtain ⟨name, form, htype, -⟩ := htyped berth hberth
  obtain ⟨t, -, ht⟩ := hstands.data name form htype
  obtain ⟨berth', hberth', hid', rfl, hoffset⟩ := hfound _ q t hq ht
  have hsame : berth'.pin = berth.pin := hinj (hlive berth' hberth') (hlive berth hberth) (congrArg PinId.val hid')
  obtain rfl := List.inj_on_of_nodup_map hpins hberth' hberth hsame
  exact ⟨q, hq, ht, hoffset.symm⟩

/-- A program keeps the values of the data pins of its graph at some berths, and those of its own pins nowhere else. -/
structure Berthed (g : Graph) (c : Catalogue) (p : Program) (berths : List Berth) : Prop where
  pins : berths.map Berth.pin = g.livePins.filter (fun q => !q.isFlow)
  typed : ∀ berth ∈ berths, berth.Typed c
  found : ∀ id q t, p.pin? id = some q → q.type = some t →
    ∃ berth ∈ berths, berth.pin.id = id ∧ berth.type = t ∧ berth.offset = q.storage
  /-- Where no number comes twice, each pin is found at its own berth. -/
  own : (g.livePins.map (·.id.val)).Nodup → ∀ berth ∈ berths, ∃ q, p.pin? berth.pin.id = some q ∧
    q.type = some berth.type ∧ q.storage = berth.offset

theorem exists_berthed_of_compile (h : compile g c s = .ok p)
    (hpins : ∀ pin ∈ g.livePins, ∀ name form t, pin.type = .data name form → c.handleNamed? name = some t →
      ∃ k, (c.info t).layout.align = 2 ^ k) : ∃ berths, Berthed g c p berths ∧
    p.storage.Spaces (berths.map fun berth => (berth.layout c, berth.offset)) := by
  obtain ⟨berths, hberths, htyped, hplace, hfound⟩ := exists_berths_of_compile h
  refine ⟨berths, ⟨hberths, htyped, hfound, fun hids berth => pin?_of_berth h hids hberths htyped hfound⟩, ?_⟩
  have haligned : ∀ berth ∈ berths, ∃ k, (berth.layout c).align = 2 ^ k := fun berth hberth => by
    obtain ⟨name, form, htype, hhandle⟩ := htyped berth hberth
    have hlive : berth.pin ∈ g.livePins := List.mem_of_mem_filter (hberths ▸ List.mem_map_of_mem hberth)
    exact hpins berth.pin hlive name form berth.type htype hhandle
  have hspaces := Layout.spaces_place hplace (List.forall_mem_map.mpr haligned)
  rwa [List.zip_map'] at hspaces

end Program

open Program

/-- The parts of an aggregate and the values of a function's data pins lie at multiples of their alignments, in order
and apart from one another, and within a whole that is as aligned as the most aligned of them and ends at a multiple
of that. All members of the aggregate have a part, and it has a layout unless there is no room for them. All data pins
of the graph have a value, and a program keeps the value of a pin nowhere but there: where no number comes twice, each
pin has its own. -/
theorem spaces_of_place_of_compile (c : Catalogue) :
    (∀ ms, (∀ m ∈ ms, ∃ k, (c.info m.type).layout.align = 2 ^ k) →
      ((∃ layout parts, Aggregate.place? c ms = some (layout, parts)) ↔
        ∃ offsets size, size ≤ Layout.maxSize ∧
        Layout.Row (ms.map fun m => (c.info m.type).layout) offsets size) ∧
      ∀ layout parts, Aggregate.place? c ms = some (layout, parts) →
        (parts.map fun p => (⟨p.name, p.type, p.default⟩ : Member)) = ms ∧
        layout.Spaces (parts.map fun p => ((c.info p.type).layout, p.offset))) ∧
    ∀ g s p, (∀ pin ∈ g.livePins, ∀ name form t, pin.type = .data name form → c.handleNamed? name = some t →
        ∃ k, (c.info t).layout.align = 2 ^ k) →
      compile g c s = .ok p → ∃ berths, Berthed g c p berths ∧
        p.storage.Spaces (berths.map fun berth => (berth.layout c, berth.offset)) := by
  refine ⟨fun ms hms => ⟨Aggregate.exists_place_iff hms, fun layout parts h => ?_⟩,
    fun g s p hpins h => exists_berthed_of_compile h hpins⟩
  exact ⟨Aggregate.map_members h, Aggregate.spaces_parts h hms⟩

/-- Two members, and a program with four loops. -/
theorem spaces_gridding :
    (∃ layout parts, Aggregate.place? numbers [⟨"x", 0, none⟩, ⟨"y", 0, none⟩] = some (layout, parts) ∧
      layout.Spaces (parts.map fun p => ((numbers.info p.type).layout, p.offset))) ∧
    ∃ berths, Berthed gridding numbers griddingProgram berths ∧
      griddingProgram.storage.Spaces (berths.map fun berth => (berth.layout numbers, berth.offset)) := by
  have halign : ∃ k, (numbers.info 0).layout.align = 2 ^ k := ⟨2, rfl⟩
  have hnames : ∀ pin ∈ gridding.livePins, ∀ name form, pin.type = .data name form → name = "i32" := by
    rw [livePins_gridding]
    simp [loopPins, eq_comm]
  obtain ⟨hmembers, hprograms⟩ := spaces_of_place_of_compile numbers
  refine ⟨⟨_, _, rfl, ((hmembers [⟨"x", 0, none⟩, ⟨"y", 0, none⟩] ?_).2 _ _ rfl).2⟩, ?_⟩
  · simp only [List.forall_mem_cons]
    exact ⟨halign, halign, List.forall_mem_nil _⟩
  · refine hprograms _ _ _ (fun pin hpin name form t htype hhandle => ?_) compile_gridding
    obtain rfl := hnames pin hpin name form htype
    cases handleNamed?_numbers.symm.trans hhandle
    exact halign

end Flowscript
