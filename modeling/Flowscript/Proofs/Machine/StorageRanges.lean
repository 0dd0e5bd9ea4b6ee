import Mathlib.Data.List.Zip
import Flowscript.Proofs.CollectionLemmas
import Flowscript.Proofs.Loading.DeclarationPlans
import Flowscript.Proofs.Machine.SealedBlocks
import Flowscript.Proofs.Run.StoredIntegers

/-! # Ranges of storage

What is written into a range of storage leaves all other ranges as they are, and what is read in a range depends
on nothing else. The parts of an aggregate are given ranges that follow each other.
-/
namespace Flowscript

theorem Prim.size_pos (prim : Prim) : 0 < prim.layout.size := by
  cases prim with
  | int kind => cases kind <;> decide
  | _ => decide

namespace Block

variable {b b' b'' : Block} {start size start' size' o n v i : Nat} {bytes : Array UInt8} {prim : Prim} {a : Atom}

theorem getD_putNumber_of_le (h : o + n ≤ i) : (putNumber o n v bytes).getD i 0 = bytes.getD i 0 := by
  induction n generalizing o v bytes with
  | zero => rfl
  | succ n ih => rw [putNumber, ih (by omega), getD_set_of_ne (by omega)]

theorem getD_grow (bytes : Array UInt8) (size i : Nat) : (grow bytes size).getD i 0 = bytes.getD i 0 := by
  unfold grow
  split
  · rfl
  · simp only [Array.getD_eq_getD_getElem?, Array.getElem?_append]
    split
    · rfl
    · next h =>
      rw [Array.getElem?_eq_none (Nat.le_of_not_lt h), Array.getElem?_replicate]
      split <;> rfl

def Agrees (b b' : Block) (start size : Nat) : Prop :=
  ∀ i, start ≤ i → i < start + size → b.byte i = b'.byte i ∧ b.texts.lookup i = b'.texts.lookup i

namespace Agrees

theorem refl (b : Block) (start size : Nat) : b.Agrees b start size := fun _ _ _ => ⟨rfl, rfl⟩

theorem trans (h : b.Agrees b' start size) (h' : b'.Agrees b'' start size) : b.Agrees b'' start size := fun i hlo hhi =>
  ⟨(h i hlo hhi).1.trans (h' i hlo hhi).1, (h i hlo hhi).2.trans (h' i hlo hhi).2⟩

theorem mono (h : b.Agrees b' start size) (hlo : start ≤ start') (hhi : start' + size' ≤ start + size) :
    b.Agrees b' start' size' := fun i hi hi' => h i (by omega) (by omega)

theorem read (h : b.Agrees b' start size) (hlo : start ≤ o) (hhi : o + prim.layout.size ≤ start + size) :
    b.read o prim = b'.read o prim := by
  have hpos := prim.size_pos
  by_cases hprim : prim = .text
  · subst hprim
    rw [Block.read, Block.read, (h o hlo (by omega)).2]
  · rw [read_eq_number hprim, read_eq_number hprim]
    exact congrArg _ (number_congr fun d hd => (h (o + d) (by omega) (by omega)).1)

end Agrees

/-- Writing a datum leaves ranges alone in which it does not lie. -/
theorem agrees_write (h : o + prim.layout.size ≤ start ∨ start + size ≤ o) :
    b.Agrees (b.write o prim a) start size := by
  have hpos := prim.size_pos
  intro i hlo hhi
  unfold write
  split
  · next s =>
    have hne : i ≠ o := by omega
    refine ⟨rfl, ?_⟩
    dsimp only
    rw [List.lookup_cons, beq_false_of_ne hne, lookup_filter (· != o) (bne_iff_ne.mpr hne)]
  · refine ⟨?_, rfl⟩
    rw [byte, byte]
    dsimp only
    rcases h with h | h
    · rw [getD_putNumber_of_le (by omega), getD_grow]
    · rw [getD_putNumber_of_lt (by omega), getD_grow]

end Block

namespace Place

/-- Two ranges have nothing in common. -/
def Apart (p : Place) (n : Nat) (q : Place) (k : Nat) : Prop :=
  p.block ≠ q.block ∨ p.offset + n ≤ q.offset ∨ q.offset + k ≤ p.offset

variable {p q : Place} {n k n' k' o o' : Nat}

theorem Apart.symm (h : p.Apart n q k) : q.Apart k p n := by
  rcases h with h | h | h
  · exact .inl h.symm
  · exact .inr (.inr h)
  · exact .inr (.inl h)

/-- Parts of ranges that have nothing in common have nothing in common. -/
theorem Apart.shift (h : p.Apart n q k) (hn : o + n' ≤ n) (hk : o' + k' ≤ k) :
    (p.shift o).Apart n' (q.shift o') k' := by
  rcases h with h | h | h
  · exact .inl h
  · exact .inr (.inl (show p.offset + o + n' ≤ q.offset + o' by omega))
  · exact .inr (.inr (show q.offset + o' + k' ≤ p.offset + o by omega))

theorem apart_of_le (p : Place) (h : o + n ≤ o') : (p.shift o).Apart n (p.shift o') k :=
  .inr (.inl (show p.offset + o + n ≤ p.offset + o' by omega))

end Place

namespace Memory

variable {m m' m'' : Memory} {p q : Place} {n k o : Nat} {prim : Prim}

def Agrees (m m' : Memory) (p : Place) (n : Nat) : Prop := (m.block p.block).Agrees (m'.block p.block) p.offset n

namespace Agrees

theorem trans (h : m.Agrees m' p n) (h' : m'.Agrees m'' p n) : m.Agrees m'' p n := Block.Agrees.trans h h'

theorem shift (h : m.Agrees m' p n) (hk : o + k ≤ n) : m.Agrees m' (p.shift o) k :=
  h.mono (Nat.le_add_right _ _) (show p.offset + o + k ≤ p.offset + n by omega)

theorem read (h : m.Agrees m' p n) (ho : o + prim.layout.size ≤ n) :
    m.read (p.shift o) prim = m'.read (p.shift o) prim :=
  Block.Agrees.read h (Nat.le_add_right _ _) (show p.offset + o + prim.layout.size ≤ p.offset + n by omega)

theorem readLeaves {leaves : List (Nat × Prim)} (h : m.Agrees m' p n)
    (hleaves : ∀ l ∈ leaves, l.1 + l.2.layout.size ≤ n) : m.readLeaves p leaves = m'.readLeaves p leaves :=
  List.map_congr_left fun l hl => h.read (hleaves l hl)

end Agrees

def ChangesOnly (m m' : Memory) (q : Place) (k : Nat) : Prop := ∀ p n, p.Apart n q k → m.Agrees m' p n

namespace ChangesOnly

theorem refl (m : Memory) (q : Place) (k : Nat) : m.ChangesOnly m q k := fun p n _ => Block.Agrees.refl _ p.offset n

theorem trans (h : m.ChangesOnly m' q k) (h' : m'.ChangesOnly m'' q k) : m.ChangesOnly m'' q k :=
  fun p n hp => (h p n hp).trans (h' p n hp)

theorem widen {r : Place} {j : Nat} (h : m.ChangesOnly m' r j) (hblock : r.block = q.block)
    (hlo : q.offset ≤ r.offset) (hhi : r.offset + j ≤ q.offset + k) : m.ChangesOnly m' q k := by
  refine fun p n hp => h p n ?_
  rcases hp with hp | hp | hp
  · exact .inl fun heq => hp (heq.trans hblock)
  · exact .inr (.inl (by omega))
  · exact .inr (.inr (by omega))

end ChangesOnly

theorem changesOnly_write (m : Memory) (q : Place) (prim : Prim) (a : Atom) :
    m.ChangesOnly (m.write q prim a) q prim.layout.size := by
  intro p n hp
  rw [Agrees, write]
  by_cases hblock : q.block = p.block
  · rw [← hblock, block_modifyBlock]
    refine Block.agrees_write ?_
    rcases hp with hp | hp | hp
    · exact absurd hblock.symm hp
    · exact .inr hp
    · exact .inl hp
  · rw [block_modifyBlock_of_ne _ _ hblock]
    exact Block.Agrees.refl _ p.offset n

theorem changesOnly_writeLeaves (m : Memory) (q : Place) {leaves : List (Nat × Prim)} (data : List Atom)
    (hleaves : ∀ l ∈ leaves, l.1 + l.2.layout.size ≤ k) : m.ChangesOnly (m.writeLeaves q leaves data) q k := by
  unfold writeLeaves
  have hzip : ∀ e ∈ leaves.zip data, e.1.1 + e.1.2.layout.size ≤ k := fun e he => hleaves _ (List.of_mem_zip he).1
  generalize leaves.zip data = entries at hzip
  induction entries generalizing m with
  | nil => exact .refl m q k
  | cons e entries ih =>
    obtain ⟨hfirst, hrest⟩ := List.forall_mem_cons.mp hzip
    have hwrite : m.ChangesOnly (m.write (q.shift e.1.1) e.1.2 e.2) q k :=
      (changesOnly_write m (q.shift e.1.1) e.1.2 e.2).widen rfl (Nat.le_add_right _ _)
        (show q.offset + e.1.1 + e.1.2.layout.size ≤ q.offset + k by omega)
    exact hwrite.trans (ih _ hrest)

end Memory

namespace Layout

/-- Ranges, given by where they start and how large they are, follow each other from one offset to another. -/
def Follow : Nat → List (Nat × Nat) → Nat → Prop
  | lo, [], hi => lo ≤ hi
  | lo, (start, size) :: rest, hi => lo ≤ start ∧ Follow (start + size) rest hi

theorem Follow.le {lo hi : Nat} {ranges : List (Nat × Nat)} (h : Follow lo ranges hi) : lo ≤ hi := by
  induction ranges generalizing lo with
  | nil => exact h
  | cons r ranges ih =>
    have := ih h.2
    have := h.1
    omega

theorem Follow.mono {lo hi hi' : Nat} {ranges : List (Nat × Nat)} (h : Follow lo ranges hi) (hhi : hi ≤ hi') :
    Follow lo ranges hi' := by
  induction ranges generalizing lo with
  | nil => exact Nat.le_trans h hhi
  | cons r ranges ih => exact ⟨h.1, ih h.2⟩

theorem Follow.end_le {lo hi : Nat} {ranges : List (Nat × Nat)} (h : Follow lo ranges hi) {r : Nat × Nat}
    (hr : r ∈ ranges) : r.1 + r.2 ≤ hi := by
  induction ranges generalizing lo with
  | nil => cases hr
  | cons first ranges ih =>
    rcases List.mem_cons.mp hr with rfl | hr
    · exact h.2.le
    · exact ih h.2 hr

theorem Follow.le_start {lo hi : Nat} {ranges : List (Nat × Nat)} (h : Follow lo ranges hi) {r : Nat × Nat}
    (hr : r ∈ ranges) : lo ≤ r.1 := by
  induction ranges generalizing lo with
  | nil => cases hr
  | cons first ranges ih =>
    rcases List.mem_cons.mp hr with rfl | hr
    · exact h.1
    · exact h.1.trans ((Nat.le_add_right _ _).trans (ih h.2 hr))

theorem Follow.pairwise {lo hi : Nat} {ranges : List (Nat × Nat)} (h : Follow lo ranges hi) :
    ranges.Pairwise fun r r' => r.1 + r.2 ≤ r'.1 := by
  induction ranges generalizing lo with
  | nil => exact .nil
  | cons first ranges ih => exact .cons (fun r hr => h.2.le_start hr) (ih h.2)

theorem Follow.of_le {lo lo' hi : Nat} {ranges : List (Nat × Nat)} (h : Follow lo ranges hi) (hle : lo' ≤ lo) :
    Follow lo' ranges hi := by
  cases ranges with
  | nil => exact hle.trans h
  | cons first ranges => exact ⟨hle.trans h.1, h.2⟩

theorem follow_go {whole whole' : Layout} {ls : List Layout} {offsets : List Nat}
    (h : place?.go whole ls = some (whole', offsets)) :
    Follow whole.size (offsets.zip (ls.map (·.size))) whole'.size := by
  induction ls generalizing whole offsets with
  | nil =>
    cases h
    exact Nat.le_refl _
  | cons l ls ih =>
    obtain ⟨larger, offset, rest, hextend, hrest, rfl⟩ := go_cons_eq_some_iff.mp h
    obtain ⟨rfl, rfl, -⟩ := extend?_eq_some_iff.mp hextend
    exact ⟨le_roundUp _ _, ih hrest⟩

end Layout

namespace Aggregate

theorem follow_place {c : Catalogue} {members : List Member} {layout : Layout} {parts : List Part}
    (h : place? c members = some (layout, parts)) :
    Layout.Follow 0 (parts.map fun p => (p.offset, (c.info p.type).layout.size)) layout.size := by
  obtain ⟨⟨whole, offsets⟩, hplace, heq⟩ := Option.map_eq_some_iff.mp h
  obtain ⟨rfl, rfl⟩ := Prod.mk.inj heq
  obtain ⟨⟨bare, offsets'⟩, hgo, hpad⟩ := Option.map_eq_some_iff.mp hplace
  obtain ⟨rfl, rfl⟩ := Prod.mk.inj hpad
  have hranges : ((members.zip offsets').map fun q =>
      ({ name := q.1.name, type := q.1.type, offset := q.2, default := q.1.default
         destructor := (c.info q.1.type).destructor } : Part)).map
        (fun p => (p.offset, (c.info p.type).layout.size)) =
      offsets'.zip ((members.map fun m => (c.info m.type).layout).map (·.size)) := by
    rw [List.map_map, List.map_map, List.zip_map_right, ← List.zip_swap, List.map_map]
    rfl
  rw [hranges]
  exact (Layout.follow_go hgo).mono (le_roundUp _ _)

end Aggregate

namespace Memory

variable {m m' m'' : Memory} {p : Place} {n : Nat} {ranges ranges' : List (Place × Nat)}

structure Touches (m : Memory) (ranges : List (Place × Nat)) (m' : Memory) : Prop where
  next : m.next ≤ m'.next
  kept : ∀ p n, p.block < m.next → (∀ r ∈ ranges, p.Apart n r.1 r.2) → m.Agrees m' p n

namespace Touches

theorem refl (m : Memory) (ranges : List (Place × Nat)) : m.Touches ranges m :=
  ⟨Nat.le_refl _, fun p n _ _ => Block.Agrees.refl _ p.offset n⟩

theorem trans (h : m.Touches ranges m') (h' : m'.Touches ranges m'') : m.Touches ranges m'' :=
  ⟨h.next.trans h'.next, fun p n hp hn => (h.kept p n hp hn).trans (h'.kept p n (hp.trans_le h.next) hn)⟩

theorem widen (h : m.Touches ranges m') (hranges : ∀ r ∈ ranges, ∃ r' ∈ ranges', r.1.block = r'.1.block ∧
    r'.1.offset ≤ r.1.offset ∧ r.1.offset + r.2 ≤ r'.1.offset + r'.2) : m.Touches ranges' m' := by
  refine ⟨h.next, fun p n hp hn => h.kept p n hp fun r hr => ?_⟩
  obtain ⟨r', hr', hblock, hlo, hhi⟩ := hranges r hr
  rcases hn r' hr' with h | h | h
  · exact .inl (hblock ▸ h)
  · exact .inr (.inl (h.trans hlo))
  · exact .inr (.inr (hhi.trans h))

theorem widen_map {places : List Place} {o k o' k' : Nat} (h : m.Touches (places.map fun p => (p.shift o, k)) m')
    (hlo : o' ≤ o) (hhi : o + k ≤ o' + k') : m.Touches (places.map fun p => (p.shift o', k')) m' := by
  refine h.widen (List.forall_mem_map.mpr fun p hp => ⟨_, List.mem_map_of_mem hp, rfl, ?_, ?_⟩)
  · exact Nat.add_le_add_left hlo _
  · show p.offset + o + k ≤ p.offset + o' + k'
    omega

end Touches

theorem ChangesOnly.touches {q : Place} {k : Nat} (h : m.ChangesOnly m' q k) (hnext : m.next ≤ m'.next) :
    m.Touches [(q, k)] m' :=
  ⟨hnext, fun p n _ hn => h p n (hn _ List.mem_cons_self)⟩

end Memory

theorem dvd_roundUp (n : Nat) {align : Nat} (h : align ≠ 0) : align ∣ roundUp n align := by
  rw [roundUp, if_neg h]
  exact Nat.dvd_mul_left _ _

theorem roundUp_le {n m align : Nat} (hle : n ≤ m) (hdvd : align ∣ m) : roundUp n align ≤ m := by
  unfold roundUp
  split
  · exact hle
  · next hne =>
    obtain ⟨k, rfl⟩ := hdvd
    have hpos := Nat.pos_of_ne_zero hne
    have hk : (n + align - 1) / align < k + 1 := by
      rw [Nat.div_lt_iff_lt_mul hpos, Nat.add_mul, Nat.one_mul, Nat.mul_comm k]
      omega
    rw [Nat.mul_comm align]
    exact Nat.mul_le_mul_right align (Nat.le_of_lt_succ hk)

namespace Layout

/-- Layouts with powers of two as alignments are placed at multiples of these, and none is greater than that of the
whole, which is a power of two. -/
theorem aligned_go {whole whole' : Layout} {ls : List Layout} {offsets : List Nat}
    (h : place?.go whole ls = some (whole', offsets)) (hwhole : ∃ k, whole.align = 2 ^ k)
    (hls : ∀ l ∈ ls, ∃ k, l.align = 2 ^ k) : (∃ k, whole'.align = 2 ^ k) ∧ whole.align ∣ whole'.align ∧
      ∀ q ∈ ls.zip offsets, q.1.align ∣ q.2 ∧ q.1.align ∣ whole'.align := by
  induction ls generalizing whole offsets with
  | nil =>
    cases h
    exact ⟨hwhole, Nat.dvd_refl _, List.forall_mem_nil _⟩
  | cons l ls ih =>
    obtain ⟨hl, hrest⟩ := List.forall_mem_cons.mp hls
    obtain ⟨larger, offset, offsets, hextend, hgo, rfl⟩ := go_cons_eq_some_iff.mp h
    obtain ⟨rfl, rfl, -⟩ := extend?_eq_some_iff.mp hextend
    obtain ⟨i, hi⟩ := hwhole
    obtain ⟨j, hj⟩ := hl
    have hlarger : max whole.align l.align = 2 ^ max i j := by
      rw [hi, hj]
      rcases Nat.le_total i j with hij | hij
      · rw [Nat.max_eq_right hij, Nat.max_eq_right (Nat.pow_le_pow_right Nat.two_pos hij)]
      · rw [Nat.max_eq_left hij, Nat.max_eq_left (Nat.pow_le_pow_right Nat.two_pos hij)]
    obtain ⟨hpower, hdvd, hall⟩ := ih hgo ⟨_, hlarger⟩ hrest
    rw [hlarger] at hdvd
    refine ⟨hpower, ?_, List.forall_mem_cons.mpr ⟨⟨?_, ?_⟩, hall⟩⟩
    · rw [hi]
      exact (Nat.pow_dvd_pow 2 (Nat.le_max_left i j)).trans hdvd
    · refine dvd_roundUp _ ?_
      rw [hj]
      exact (Nat.two_pow_pos j).ne'
    · rw [hj]
      exact (Nat.pow_dvd_pow 2 (Nat.le_max_right i j)).trans hdvd

end Layout

namespace Aggregate

theorem aligned_place {c : Catalogue} {members : List Member} {layout : Layout} {parts : List Part}
    (h : place? c members = some (layout, parts))
    (hmembers : ∀ m ∈ members, ∃ k, (c.info m.type).layout.align = 2 ^ k) :
    (∃ k, layout.align = 2 ^ k) ∧
      ∀ p ∈ parts, (c.info p.type).layout.align ∣ p.offset ∧ (c.info p.type).layout.align ∣ layout.align := by
  obtain ⟨⟨whole, offsets⟩, hplace, heq⟩ := Option.map_eq_some_iff.mp h
  obtain ⟨rfl, rfl⟩ := Prod.mk.inj heq
  obtain ⟨⟨bare, offsets'⟩, hgo, hpad⟩ := Option.map_eq_some_iff.mp hplace
  obtain ⟨rfl, rfl⟩ := Prod.mk.inj hpad
  obtain ⟨hpower, -, hall⟩ := Layout.aligned_go hgo ⟨0, rfl⟩ (List.forall_mem_map.mpr hmembers)
  refine ⟨hpower, List.forall_mem_map.mpr fun q hq => ?_⟩
  rw [List.zip_map_left] at hall
  exact hall _ (List.mem_map_of_mem (f := Prod.map (fun m : Member => (c.info m.type).layout) id) hq)

end Aggregate

theorem Place.isAligned_shift {p : Place} {align whole offset : Nat} (h : p.isAligned whole = true)
    (hwhole : align ∣ whole) (hoffset : align ∣ offset) : (p.shift offset).isAligned align = true := by
  rw [isAligned, beq_iff_eq] at h ⊢
  have haddress : (p.address.shift offset).offset = p.address.offset + offset := by
    cases p.address <;> rfl
  rw [shift, haddress]
  exact Nat.mod_eq_zero_of_dvd (Nat.dvd_add (hwhole.trans (Nat.dvd_of_mod_eq_zero h)) hoffset)

end Flowscript
