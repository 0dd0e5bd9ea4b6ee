import Flowscript.Proofs.Documents.RecordReading
import Flowscript.Proofs.Machine.StorageRanges
import Flowscript.Proofs.Types.DeclaredComposition
import Flowscript.Proofs.Types.FailedConstruction

/-! # Values and their documents

The document of an aggregate has an entry for each of its parts. Read again, anywhere in storage, it gives a value
with the same data, as long as the data of primitive types come back from their own documents.
-/
namespace Flowscript

namespace Json

variable {α : Type} {entries : List (String × α)}

theorem lookup_insertEntry (key key' : String) (value : α) (entries : List (String × α)) :
    (insertEntry key value entries).lookup key' = if key' = key then some value else entries.lookup key' := by
  induction entries with
  | nil => exact lookup_cons_eq_ite key' (key, value) []
  | cons e entries ih =>
    unfold insertEntry
    split
    · exact lookup_cons_eq_ite key' (key, value) (e :: entries)
    · rw [lookup_cons_eq_ite key' e]
      split
      · next heq =>
        rw [lookup_cons_eq_ite, ← heq]
        split <;> rfl
      · next hne =>
        rw [lookup_cons_eq_ite, ih]
        by_cases hkey : key' = key
        · rw [if_pos hkey, if_pos hkey, if_neg (hkey ▸ hne)]
        · rw [if_neg hkey, if_neg hkey]

theorem lookup_sortEntries (h : (entries.map (·.1)).Nodup) (key : String) :
    (sortEntries entries).lookup key = entries.lookup key := by
  have hfold : ∀ sorted : List (String × α),
      (entries.foldl (fun sorted e => insertEntry e.1 e.2 sorted) sorted).lookup key =
        (entries.lookup key).or (sorted.lookup key) := by
    induction entries with
    | nil => exact fun sorted => rfl
    | cons e entries ih =>
      intro sorted
      obtain ⟨hfirst, hrest⟩ := List.nodup_cons.mp h
      rw [List.foldl_cons, ih hrest, lookup_insertEntry, lookup_cons_eq_ite]
      by_cases hkey : key = e.1
      · have hnone : entries.lookup key = none := List.lookup_eq_none_iff.mpr fun e' he' =>
          bne_iff_ne.mpr fun heq => hfirst (List.mem_map.mpr ⟨e', he', heq.symm.trans hkey⟩)
        rw [if_pos hkey, if_pos hkey, hnone]
        rfl
      · rw [if_neg hkey, if_neg hkey]
  exact (hfold []).trans Option.or_none

theorem nodup_keys_of_ordered (h : Ordered entries) : (entries.map (·.1)).Nodup := by
  refine List.pairwise_map.mpr (h.imp fun {a b} hlt heq => ?_)
  exact String.lt_irrefl _ (heq ▸ hlt)

end Json

/-- Data come back from their own document, wherever it is read. -/
def NativeCodec.RoundTrips (m : Memory) (p : Place) (c : NativeCodec) : Prop :=
  ∃ data, c.decode (c.encode m p) = .ok data ∧
    ∀ (m' : Memory) (q : Place), (m'.writeLeaves q c.leaves data).readLeaves q c.leaves = m.readLeaves p c.leaves

namespace Codec

mutual

/-- Values have room in so many bytes, parts lie apart from each other and have different names. -/
def Fits : Codec → Nat → Prop
  | .native c, n => ∀ l ∈ c.leaves, l.1 + l.2.layout.size ≤ n
  | .aggregate parts, n => (parts.map (·.1.name)).Nodup ∧ FitParts parts 0 n

def FitParts : List (Part × Codec) → Nat → Nat → Prop
  | [], lo, hi => lo ≤ hi
  | (part, codec) :: rest, lo, hi => lo ≤ part.offset ∧ ∃ n, codec.Fits n ∧ FitParts rest (part.offset + n) hi

end

mutual

/-- The primitive data of a value, in the order of its parts. -/
def data (m : Memory) : Codec → Place → List Atom
  | .native c, p => m.readLeaves p c.leaves
  | .aggregate parts, p => partsData m parts p

def partsData (m : Memory) : List (Part × Codec) → Place → List Atom
  | [], _ => []
  | (part, codec) :: rest, p => data m codec (p.shift part.offset) ++ partsData m rest p

end

mutual

/-- All data of a value that have a document of their own come back from it. -/
def RoundTrips (m : Memory) : Codec → Place → Prop
  | .native c, p => c.RoundTrips m p
  | .aggregate parts, p => PartsRoundTrip m parts p

def PartsRoundTrip (m : Memory) : List (Part × Codec) → Place → Prop
  | [], _ => True
  | (part, codec) :: rest, p => RoundTrips m codec (p.shift part.offset) ∧ PartsRoundTrip m rest p

end

theorem encodeParts_eq_map (m : Memory) (parts : List (Part × Codec)) (p : Place) :
    encodeParts m parts p = parts.map fun q => (q.1.name, q.2.encode m (p.shift q.1.offset)) := by
  induction parts with
  | nil => rw [encodeParts, List.map_nil]
  | cons q parts ih => rw [encodeParts, List.map_cons, ih]

theorem nodup_encodeParts {parts : List (Part × Codec)} (h : (parts.map (·.1.name)).Nodup) (m : Memory) (p : Place) :
    ((encodeParts m parts p).map (·.1)).Nodup := by
  rwa [encodeParts_eq_map, List.map_map]

theorem lookup_encodeParts {parts : List (Part × Codec)} (h : (parts.map (·.1.name)).Nodup) (m : Memory) (p : Place)
    {q : Part × Codec} (hq : q ∈ parts) : (Json.sortEntries (encodeParts m parts p)).lookup q.1.name =
      some (q.2.encode m (p.shift q.1.offset)) := by
  have hkeys := nodup_encodeParts h m p
  rw [Json.lookup_sortEntries hkeys]
  refine lookup_of_mem (e := (q.1.name, q.2.encode m (p.shift q.1.offset))) hkeys ?_
  rw [encodeParts_eq_map]
  exact List.mem_map_of_mem hq

theorem partsData_eq_flatMap (m : Memory) (parts : List (Part × Codec)) (p : Place) :
    partsData m parts p = parts.flatMap fun q => q.2.data m (p.shift q.1.offset) := by
  induction parts with
  | nil => rw [partsData, List.flatMap_nil]
  | cons q parts ih => rw [partsData, List.flatMap_cons, ih]

theorem FitParts.le {parts : List (Part × Codec)} {lo hi : Nat} (h : FitParts parts lo hi) : lo ≤ hi := by
  induction parts generalizing lo with
  | nil =>
    rw [FitParts] at h
    exact h
  | cons q parts ih =>
    rw [FitParts] at h
    obtain ⟨hlo, n, -, hrest⟩ := h
    have := ih hrest
    omega

variable {m m' : Memory}

mutual

theorem data_congr (codec : Codec) {n : Nat} {p : Place} (hfits : codec.Fits n) (h : m.Agrees m' p n) :
    codec.data m p = codec.data m' p := by
  match codec with
  | .native c =>
    rw [Fits] at hfits
    rw [data, data]
    exact h.readLeaves hfits
  | .aggregate parts =>
    rw [Fits] at hfits
    rw [data, data]
    exact partsData_congr parts hfits.2 h

theorem partsData_congr (parts : List (Part × Codec)) {lo n : Nat} {p : Place} (hfits : FitParts parts lo n)
    (h : m.Agrees m' p n) : partsData m parts p = partsData m' parts p := by
  match parts with
  | [] => rw [partsData, partsData]
  | (part, codec) :: rest =>
    rw [FitParts] at hfits
    obtain ⟨-, k, hcodec, hrest⟩ := hfits
    have hpart : codec.data m (p.shift part.offset) = codec.data m' (p.shift part.offset) :=
      data_congr codec hcodec (h.shift hrest.le)
    rw [partsData, partsData, hpart, partsData_congr rest hrest h]

end

end Codec

namespace Invoke

open Exec

variable {invoke : Invoke} {w : Context}

mutual

/-- A value that is read from the document of another one has the same data, wherever it is put. Nothing else
changes. -/
theorem decode_encode (codec : Codec) {size : Nat} {m : Memory} {p : Place} (hfits : codec.Fits size)
    (htrips : codec.RoundTrips m p) (n : Machine) (target : Place) :
    ∃ memory, decode invoke codec (codec.encode m p) target w n = .ok () { n with memory } ∧
      codec.data memory target = codec.data m p ∧ n.memory.ChangesOnly memory target size := by
  match codec with
  | .native c =>
    rw [Codec.Fits] at hfits
    rw [Codec.RoundTrips] at htrips
    obtain ⟨data, hdata, hread⟩ := htrips
    refine ⟨n.memory.writeLeaves target c.leaves data, ?_, ?_, Memory.changesOnly_writeLeaves _ _ _ hfits⟩
    · rw [decode, Codec.encode, hdata]
      rfl
    · rw [Codec.data, Codec.data]
      exact hread n.memory target
  | .aggregate parts =>
    rw [Codec.Fits] at hfits
    rw [Codec.RoundTrips] at htrips
    obtain ⟨hnodup, hparts⟩ := hfits
    have hentries := fun q hq => Codec.lookup_encodeParts hnodup m p (q := q) hq
    obtain ⟨memory, hrun, hdata, hchanges⟩ := decodeParts_encode parts hparts htrips hentries n target
    refine ⟨memory, ?_, ?_, hchanges⟩
    · rw [Codec.encode, Json.ofEntries, decode]
      exact hrun
    · rw [Codec.data, Codec.data, Codec.partsData_eq_flatMap, Codec.partsData_eq_flatMap]
      exact List.flatMap_congr hdata

theorem decodeParts_encode (parts : List (Part × Codec)) {lo hi : Nat} {m : Memory} {p : Place}
    {entries : List (String × Json)} (hfits : Codec.FitParts parts lo hi) (htrips : Codec.PartsRoundTrip m parts p)
    (hentries : ∀ q ∈ parts, entries.lookup q.1.name = some (q.2.encode m (p.shift q.1.offset))) (n : Machine)
    (target : Place) :
    ∃ memory, decodeParts invoke parts entries target w n = .ok () { n with memory } ∧
      (∀ q ∈ parts, q.2.data memory (target.shift q.1.offset) = q.2.data m (p.shift q.1.offset)) ∧
      n.memory.ChangesOnly memory (target.shift lo) (hi - lo) := by
  match parts with
  | [] =>
    refine ⟨n.memory, ?_, List.forall_mem_nil _, .refl _ _ _⟩
    rw [decodeParts]
    rfl
  | (part, codec) :: rest =>
    rw [Codec.FitParts] at hfits
    rw [Codec.PartsRoundTrip] at htrips
    obtain ⟨hlo, size, hcodec, hrest⟩ := hfits
    obtain ⟨hfirst, hothers⟩ := List.forall_mem_cons.mp hentries
    obtain ⟨memory, hrun, hdata, hchanges⟩ := decode_encode codec hcodec htrips.1 n (target.shift part.offset)
    obtain ⟨memory', hrun', hdata', hchanges'⟩ :=
      decodeParts_encode rest hrest htrips.2 hothers { n with memory } target
    have hle := hrest.le
    refine ⟨memory', ?_, ?_, ?_⟩
    · have hpart : (mapError (.inField part.name) (decode invoke codec (codec.encode m (p.shift part.offset))
          (target.shift part.offset)) : Exec CallError Unit) w n = .ok () { n with memory } := by
        rw [mapError, hrun]
      rw [decodeParts, hfirst]
      exact (bind_of_ok hpart).trans (orEnd_of_ok hrun')
    · -- The parts that follow lie apart from this one, whose data are therefore as they were read.
      have hkept : memory.Agrees memory' (target.shift part.offset) size :=
        hchanges' _ _ (Place.apart_of_le target (Nat.le_refl _))
      exact List.forall_mem_cons.mpr ⟨(Codec.data_congr codec hcodec hkept).symm.trans hdata, hdata'⟩
    · have hthis : n.memory.ChangesOnly memory (target.shift lo) (hi - lo) :=
        hchanges.widen rfl (Nat.add_le_add_left hlo _)
          (show target.offset + part.offset + size ≤ target.offset + lo + (hi - lo) by omega)
      have hnext : memory.ChangesOnly memory' (target.shift lo) (hi - lo) :=
        hchanges'.widen rfl (show target.offset + lo ≤ target.offset + (part.offset + size) by omega)
          (show target.offset + (part.offset + size) + (hi - (part.offset + size)) ≤ target.offset + lo + (hi - lo)
            by omega)
      exact hthis.trans hnext

end

end Invoke

namespace Aggregate

variable {c : Catalogue}

theorem fitParts_of_follow {qs : List (Part × Codec)} {lo hi : Nat}
    (hfits : ∀ q ∈ qs, q.2.Fits (c.info q.1.type).layout.size)
    (hfollow : Layout.Follow lo (qs.map fun q => (q.1.offset, (c.info q.1.type).layout.size)) hi) :
    Codec.FitParts qs lo hi := by
  induction qs generalizing lo with
  | nil =>
    rw [Codec.FitParts]
    exact hfollow
  | cons q qs ih =>
    obtain ⟨hfirst, hrest⟩ := List.forall_mem_cons.mp hfits
    rw [Codec.FitParts]
    exact ⟨hfollow.1, _, hfirst, ih hrest hfollow.2⟩

theorem fits_codecOf? {ms : List Member} {layout : Layout} {parts : List Part} {codec : Codec}
    (hplace : place? c ms = some (layout, parts)) (hnames : (ms.map (·.name)).Nodup)
    (hfits : ∀ p ∈ parts, ∀ codec, (c.info p.type).codec = some codec → codec.Fits (c.info p.type).layout.size)
    (hcodec : codecOf? c parts = some codec) : codec.Fits layout.size := by
  obtain ⟨qs, rfl, rfl, hqs⟩ := codecs_of_codecOf? hcodec
  have hfollow := follow_place hplace
  rw [← map_members hplace] at hnames
  simp only [List.map_map] at hnames hfollow
  rw [Codec.Fits]
  exact ⟨hnames, fitParts_of_follow (fun q hq => hfits q.1 (List.mem_map_of_mem hq) q.2 (hqs q hq)) hfollow⟩

end Aggregate

namespace TypeInfo

def document? (t : TypeInfo) (m : Memory) (p : Place) : Option Json := t.codec.map (·.encode m p)

/-- The primitive data of a value, if values of the type have a document. -/
def data? (t : TypeInfo) (m : Memory) (p : Place) : Option (List Atom) := t.codec.map (·.data m p)

/-- The primitive data of a value come back from their own documents. -/
def RoundTrips (t : TypeInfo) (m : Memory) (p : Place) : Prop :=
  ∀ codec, t.codec = some codec → codec.RoundTrips m p

/-- Values have room for the data that their codec writes. -/
def Roomy (t : TypeInfo) : Prop := ∀ codec, t.codec = some codec → codec.Fits t.layout.size

end TypeInfo

theorem Loader.establishes_roomy (declared : Script → Prop) : Establishes declared fun _ t => t.Roomy := by
  intro c s ms _ hms hold
  obtain ⟨ms', layout, parts, hms', hplace, htype⟩ := exists_placed s.name hms
  rw [htype, Aggregate.makeup_info]
  refine fun codec hcodec => Aggregate.fits_codecOf? hplace hms'.nodup (fun p hp => ?_) hcodec
  obtain ⟨m, hm, hpm⟩ := Aggregate.type_of_mem hplace hp
  exact hold.info (h := p.type) (hpm ▸ hms'.registered m hm)

namespace Invoke

section BuildParts

variable {α : Type} {w : Context} {m k : Machine} {place : α → Place} {destructor : α → Option Destructor}
  {init : α → Exec CallError Unit}

theorem exists_of_forM_error {as : List α} {e : CallError}
    (h : (forM as init : Exec CallError Unit) w m = .error e k) :
    ∃ built a rest t, as = built ++ a :: rest ∧ (forM built init : Exec CallError Unit) w m = .ok () t ∧
      init a w t = .error e k := by
  induction as generalizing m with
  | nil => cases h
  | cons a as ih =>
    rw [List.forM_cons] at h
    cases ha : init a w m with
    | error e' t =>
      rw [bind_of_error ha] at h
      cases h
      exact ⟨[], a, as, m, rfl, rfl, ha⟩
    | ok _ t =>
      rw [bind_of_ok ha] at h
      obtain ⟨built, b, rest, u, rfl, hbuilt, hfail⟩ := ih h
      refine ⟨a :: built, b, rest, u, rfl, ?_, hfail⟩
      rw [List.forM_cons, bind_of_ok ha]
      exact hbuilt

theorem buildParts_ok_iff (as : List α) : buildParts place destructor init as w m = .ok () k ↔
    (forM as init : Exec CallError Unit) w m = .ok () k := by
  refine ⟨fun h => ?_, buildParts_of_ok⟩
  cases hrun : (forM as init : Exec CallError Unit) w m with
  | ok _ k' => exact (buildParts_of_ok hrun).symm.trans h
  | error e k' =>
    obtain ⟨built, a, rest, t, rfl, hbuilt, hfail⟩ := exists_of_forM_error hrun
    rw [buildParts_of_error hbuilt hfail] at h
    cases h

end BuildParts

end Invoke

namespace TypeInfo

/-- Nothing of a type without a default constructor is made from nothing. -/
theorem defaultAt_fails {t : TypeInfo} (h : ∀ f, t.resolve (.operator .construct) [] ≠ .ok f) (invoke : Invoke)
    (target : Place) (w : Context) (m : Machine) : ∃ e, invoke.defaultAt t target w m = .error e m := by
  rw [Invoke.defaultAt, Invoke.constructAt]
  split
  · cases hresolve : t.resolve (.operator .construct) [] with
    | ok f => exact absurd hresolve (h f)
    | error e =>
      refine ⟨e, bind_of_error ?_⟩
      rw [Invoke.callKey, List.map_nil, hresolve]
      rfl
  · exact ⟨_, rfl⟩

end TypeInfo

namespace Aggregate

variable {c : Catalogue} {invoke : Invoke} {t : TypeInfo} {parts : List Part}

/-- What documents are to the values of an aggregate `t`, whose parts have the types that `c` has of them. -/
structure SurvivesJson (invoke : Invoke) (c : Catalogue) (t : TypeInfo) (parts : List Part) : Prop where
  /-- The parts are the fields. -/
  fields : t.fields = parts.map fun p => ⟨p.name, (c.info p.type).id, p.offset⟩
  /-- The keys of a document are the names of the fields, each with the document of the field. -/
  keys : ∀ m p, ∃ entries, t.document? m p = some (.obj entries) ∧ (entries.map (·.1)).Nodup ∧
    (∀ key, key ∈ entries.map (·.1) ↔ key ∈ t.fields.map (·.name)) ∧
    ∀ part ∈ parts, entries.lookup part.name = (c.info part.type).document? m (p.shift part.offset)
  /-- A document can be read anywhere, and then each field has the data that it had. -/
  restores : ∀ m p j, t.RoundTrips m p → t.document? m p = some j → ∀ w n target, ∃ memory,
    invoke.decodeAt t j target w n = .ok () { n with memory } ∧
    (∀ part ∈ parts, (c.info part.type).data? memory (target.shift part.offset) =
      (c.info part.type).data? m (p.shift part.offset)) ∧
    n.memory.ChangesOnly memory target t.layout.size
  /-- Entries that are no fields are not looked at. -/
  drops : ∀ entries, invoke.decodeAt t (.obj entries) =
    invoke.decodeAt t (.obj (entries.filter fun e => (t.field? e.1).isSome))
  /-- An object can be read just if each part can be initialised, and then it is. -/
  reads : ∀ entries target w n k, invoke.decodeAt t (.obj entries) target w n = .ok () k ↔
    (forM parts fun part => invoke.decodePart c entries part (target.shift part.offset) : Exec CallError Unit) w n =
      .ok () k
  /-- A part cannot be left out that has no default and whose type has no default either. -/
  lacks : ∀ (w : Context) (entries : List (String × Json)), ∀ part ∈ parts,
    entries.lookup part.name = none → part.default = none →
    (∀ f, (w.catalogue.info part.type).resolve (.operator .construct) [] ≠ .ok f) →
    ∀ target n k, invoke.decodeAt t (.obj entries) target w n ≠ .ok () k

theorem isSome_codecOf? (h : ∀ p ∈ parts, (c.info p.type).codec.isSome) : (codecOf? c parts).isSome := by
  rw [codecOf?, Option.isSome_map]
  induction parts with
  | nil => rfl
  | cons p parts ih =>
    obtain ⟨hfirst, hrest⟩ := List.forall_mem_cons.mp h
    obtain ⟨codec, hcodec⟩ := Option.isSome_iff_exists.mp hfirst
    obtain ⟨qs, hqs⟩ := Option.isSome_iff_exists.mp (ih hrest)
    rw [List.mapM_cons, hcodec, hqs]
    rfl

theorem survivesJson_of_codecOf? {codec : Codec} (hcodec : codecOf? c parts = some codec) (ht : t.codec = some codec)
    (hfields : t.fields = parts.map fun p => ⟨p.name, (c.info p.type).id, p.offset⟩) (hroomy : t.Roomy) :
    SurvivesJson invoke c t parts := by
  obtain ⟨qs, rfl, hqs, hcodecs⟩ := codecs_of_codecOf? hcodec
  have hfits := hroomy _ ht
  rw [Codec.Fits] at hfits
  have hnames : t.fields.map (·.name) = qs.map (·.1.name) := by
    rw [hfields, ← hqs, List.map_map, List.map_map]
    rfl
  have hread (entries : List (String × Json)) (target : Place) : invoke.decodeAt t (.obj entries) target =
      Invoke.buildParts (fun part => target.shift part.offset) (·.destructor)
        (fun part => invoke.decodePart c entries part (target.shift part.offset)) parts := by
    rw [Invoke.decodeAt, ht]
    dsimp only
    rw [Invoke.decode, Invoke.decodeParts_eq hcodecs, hqs]
  have hforM (entries : List (String × Json)) (target : Place) (w : Context) (n k : Machine) :
      invoke.decodeAt t (.obj entries) target w n = .ok () k ↔
        (forM parts fun part => invoke.decodePart c entries part (target.shift part.offset) : Exec CallError Unit) w n =
          .ok () k := by
    rw [hread]
    exact Invoke.buildParts_ok_iff parts
  refine ⟨hfields, ?_, ?_, ?_, hforM, ?_⟩
  · intro m p
    refine ⟨Json.sortEntries (Codec.encodeParts m qs p), ?_, ?_, ?_, ?_⟩
    · rw [TypeInfo.document?, ht, Option.map_some, Codec.encode, Json.ofEntries]
    · exact Json.nodup_keys_of_ordered (Json.ordered_sortEntries _)
    · intro key
      rw [mem_keys_iff, Json.lookup_sortEntries (Codec.nodup_encodeParts hfits.1 m p), ← mem_keys_iff,
        Codec.encodeParts_eq_map, List.map_map, hnames]
      rfl
    · intro part hpart
      obtain ⟨q, hq, rfl⟩ := List.mem_map.mp (hqs ▸ hpart)
      rw [TypeInfo.document?, hcodecs q hq, Option.map_some]
      exact Codec.lookup_encodeParts hfits.1 m p hq
  · intro m p j htrips hj w n target
    rw [TypeInfo.document?, ht, Option.map_some, Codec.encode, Json.ofEntries, Option.some.injEq] at hj
    have hparts := htrips _ ht
    rw [Codec.RoundTrips] at hparts
    obtain ⟨memory, hrun, hdata, hchanges⟩ := Invoke.decodeParts_encode qs hfits.2 hparts
      (fun q hq => Codec.lookup_encodeParts hfits.1 m p hq) n target
    refine ⟨memory, ?_, fun part hpart => ?_, hchanges⟩
    · rw [← hj, Invoke.decodeAt, ht]
      dsimp only
      rwa [Invoke.decode]
    · obtain ⟨q, hq, rfl⟩ := List.mem_map.mp (hqs ▸ hpart)
      rw [TypeInfo.data?, TypeInfo.data?, hcodecs q hq, Option.map_some, Option.map_some, hdata q hq]
  · intro entries
    funext target
    rw [hread, hread]
    refine Invoke.buildParts_congr fun part hpart => ?_
    have hfield : (t.field? part.name).isSome := by
      rw [TypeInfo.field?, List.find?_isSome, hfields]
      exact ⟨_, List.mem_map_of_mem hpart, beq_self_eq_true _⟩
    rw [Invoke.decodePart, Invoke.decodePart, lookup_filter (fun key => (t.field? key).isSome) hfield]
  · intro w entries part hpart hmissing hdefault hnone target n k hok
    obtain ⟨built, rest, rfl⟩ := List.append_of_mem hpart
    rw [hforM, List.forM_append] at hok
    cases hbuilt : (forM built fun part => invoke.decodePart c entries part (target.shift part.offset) :
        Exec CallError Unit) w n with
    | error e l =>
      rw [bind_of_error hbuilt] at hok
      cases hok
    | ok _ l =>
      obtain ⟨e, hfails⟩ := TypeInfo.defaultAt_fails hnone invoke (target.shift part.offset) w l
      have hpart : invoke.decodePart c entries part (target.shift part.offset) w l = .error e l := by
        rw [Invoke.decodePart, hmissing, hdefault]
        exact hfails
      rw [bind_of_ok hbuilt, List.forM_cons, bind_of_error hpart] at hok
      cases hok

end Aggregate

/-- What a host registers: no types of scripts, and values have room for their data. -/
structure TypeInfo.Hosted (t : TypeInfo) : Prop where
  named : t.Named
  native : t.isScripted = false
  roomy : t.Roomy

namespace Loader

theorem establishes_codec (declared : Script → Prop) : Establishes declared fun _ t => t.codec.isSome := by
  intro c s ms _ hms hold
  obtain ⟨ms', layout, parts, hms', hplace, htype⟩ := exists_placed s.name hms
  rw [htype, Aggregate.makeup_info]
  refine Aggregate.isSome_codecOf? fun p hp => ?_
  obtain ⟨m, hm, hpm⟩ := Aggregate.type_of_mem hplace hp
  exact hold.info (h := p.type) (hpm ▸ hms'.registered m hm)

end Loader

namespace Shared

open Catalogue

variable {s s' : Shared} {hs : List Happening}

/-- Whatever a host and a loader do, each type of a script is composed of fields, and if the types of these have
documents, its values survive being written as documents and read again. -/
theorem survivesJson_run (hstart : ({} : Catalogue).Evolves TypeInfo.Hosted s.catalogue)
    (hhs : ∀ h ∈ hs, h.Registers TypeInfo.Hosted) (hrun : run hs s = some s') {h : Handle}
    (hh : h < s'.catalogue.infos.size) (hscripted : (s'.catalogue.info h).isScripted) :
    ∃ script ms layout parts, (∃ scripts, .loader (.load scripts) ∈ hs ∧ script ∈ scripts) ∧
      s'.catalogue.Composes h script ms layout parts ∧
      ((∀ p ∈ parts, (s'.catalogue.info p.type).codec.isSome) →
        ∀ invoke, Aggregate.SurvivesJson invoke s'.catalogue (s'.catalogue.info h) parts) := by
  have hroomy := run_layered_of_evolves (fun _ _ ht => ht.roomy) (fun _ ht => ht.named)
    (Loader.establishes_roomy fun _ => True) hstart hhs (fun h _ => h.brings_any) hrun
  obtain ⟨script, ms, layout, parts, hloaded, hcomposes⟩ :=
    composes_run (fun t ht => ⟨ht.named, ht.native⟩) hstart hhs hrun hh hscripted
  refine ⟨script, ms, layout, parts, hloaded, hcomposes, fun hcodecs invoke => ?_⟩
  obtain ⟨codec, hcodec⟩ := Option.isSome_iff_exists.mp (Aggregate.isSome_codecOf? hcodecs)
  have hmakeup := hcomposes.makeup
  rw [Aggregate.makeup_info] at hmakeup
  exact Aggregate.survivesJson_of_codecOf? hcodec ((congrArg TypeInfo.codec hmakeup).trans hcodec)
    (congrArg TypeInfo.fields hmakeup) (hroomy.info hh)

theorem codec_digits : digits.info.codec = some (.native (.scalar (.int .i32))) := by
  rw [NativeType.info, TypeInfo.addFunctions_eq]
  rfl

theorem hosted_digits : digits.info.Hosted := by
  refine ⟨digits.id_info, ?_, fun codec hcodec => ?_⟩
  · rw [NativeType.info, TypeInfo.addFunctions_eq]
    rfl
  · cases codec_digits.symm.trans hcodec
    rw [digital_digits.layout, Codec.Fits]
    exact List.forall_mem_singleton.mpr (Nat.le_refl 4)

/-- Points survive, with both of their numbers. -/
theorem survivesJson_run_point : ∃ s h parts, ({} : Catalogue).Evolves TypeInfo.Hosted unladen.catalogue ∧
    run [.host (.register digits.info digits.id_info), .loader (.load [point])] unladen = some s ∧
    (s.catalogue.info h).fields.map (·.name) = ["x", "y"] ∧
    ∀ invoke, Aggregate.SurvivesJson invoke s.catalogue (s.catalogue.info h) parts := by
  have hnone : ({} : Catalogue).Evolves TypeInfo.Hosted unladen.catalogue := .refl _
  obtain ⟨s, h, hrun, hh, hscripted, hfields⟩ := exists_charting digital_digits
  have hhs (P : TypeInfo → Prop) (hP : P digits.info) :
      ∀ h ∈ [Happening.host (.register digits.info digits.id_info), .loader (.load [point])], h.Registers P :=
    List.forall_mem_cons.mpr ⟨hP, List.forall_mem_singleton.mpr trivial⟩
  have hcodecs : Layered (fun _ t => t.codec.isSome) s.catalogue.makeups :=
    run_layered_of_evolves (s := unladen) (P := fun t => t.Named ∧ t.codec.isSome) (fun _ _ ht => ht.2)
      (fun _ ht => ht.1) (Loader.establishes_codec fun _ => True) (.refl _)
      (hhs _ ⟨digits.id_info, by rw [codec_digits]; rfl⟩) (fun h _ => h.brings_any) hrun
  obtain ⟨script, ms, layout, parts, -, hcomposes, hsurvives⟩ :=
    survivesJson_run hnone (hhs _ hosted_digits) hrun hh hscripted
  refine ⟨s, h, parts, hnone, hrun, hfields, hsurvives fun p hp => ?_⟩
  obtain ⟨m, hm, hpm⟩ := Aggregate.type_of_mem hcomposes.placed hp
  exact hcodecs.info (h := p.type) (hpm ▸ hcomposes.membership.registered m hm)

end Shared

end Flowscript
