import Flowscript.Json.Printer
import Flowscript.Json.Reader

/-! # Numbers as they are written

The text of a finite number is a numeral: a sign, a whole part without leading zeros, and perhaps a
fraction and an exponent. A reader that meets a numeral takes all of it and nothing else, whatever
follows, so what becomes of a number when it is read back depends on its own text alone. It need not
be the same number: digits are read with a limited precision.
-/
namespace Flowscript

namespace Draft

def Stops (rest : List Char) : Prop :=
  ∀ c ∈ rest.head?, isDigit c = false ∧ c ≠ '.' ∧ c ≠ 'e' ∧ c ≠ 'E'

theorem stops_nil : Stops [] := by
  intro c hc
  cases hc

theorem stops_cons {c : Char} {rest : List Char}
    (h : isDigit c = false ∧ c ≠ '.' ∧ c ≠ 'e' ∧ c ≠ 'E') : Stops (c :: rest) := by
  intro d hd
  cases hd
  exact h

theorem span_digits {digits rest : List Char} (h : ∀ c ∈ digits, isDigit c = true)
    (hrest : ∀ c ∈ rest.head?, isDigit c = false) :
    (digits ++ rest).takeWhile isDigit = digits ∧ (digits ++ rest).dropWhile isDigit = rest := by
  rw [List.takeWhile_append_of_pos h, List.dropWhile_append_of_pos h]
  cases rest with
  | nil => simp
  | cons c rest => simp [hrest c rfl]

def readUnsigned (negative : Bool) (cs : List Char) : Except ReadFault (Number × List Char) :=
  match cs with
  | [] => .error .truncated
  | '0' :: rest =>
    match rest with
    | c :: _ => if isDigit c then .error .malformed else readFraction negative ⟨0, 1, 0⟩ rest
    | [] => readFraction negative ⟨0, 1, 0⟩ rest
  | c :: _ =>
    if isDigit c then
      readFraction negative (Digits.collect ⟨0, 0, 0⟩ (cs.takeWhile isDigit)) (cs.dropWhile isDigit)
    else .error .malformed

theorem readNumber_minus (cs : List Char) : readNumber ('-' :: cs) = readUnsigned true cs := rfl

theorem readNumber_digit {c : Char} (h : isDigit c = true) (cs : List Char) :
    readNumber (c :: cs) = readUnsigned false (c :: cs) := by
  have hc : c ≠ '-' := by
    rintro rfl
    cases h
  unfold readNumber
  split
  rename_i heq
  split at heq
  · rename_i heq'
    exact absurd (List.cons.inj heq').1 hc
  · cases heq
    rfl

/-- A reader takes a text and leaves what follows it. -/
def Takes {α : Type} (read : List Char → Except ReadFault (α × List Char)) (text : List Char)
    (v : Except ReadFault α) : Prop :=
  ∀ rest, Stops rest → read (text ++ rest) = v.map (·, rest)

end Draft

structure Numeral where
  negative : Bool := false
  whole : List Char
  /-- The digits after the point, which is left out with them. -/
  fraction : List Char := []
  /-- Whether the exponent is negative, and its digits. -/
  exponent : Option (Bool × List Char) := none

namespace Numeral

open Draft

def exponentChars (n : Numeral) : List Char :=
  match n.exponent with
  | none => []
  | some (down, digits) => 'e' :: (if down then '-' else '+') :: digits

def tail (n : Numeral) : List Char :=
  (if n.fraction = [] then [] else '.' :: n.fraction) ++ n.exponentChars

def chars (n : Numeral) : List Char :=
  (if n.negative then ['-'] else []) ++ (n.whole ++ n.tail)

structure WellFormed (n : Numeral) : Prop where
  whole : ∀ c ∈ n.whole, isDigit c = true
  leading : n.whole = ['0'] ∨ ∃ c cs, n.whole = c :: cs ∧ c ≠ '0'
  fraction : ∀ c ∈ n.fraction, isDigit c = true
  exponent : ∀ e ∈ n.exponent, e.2 ≠ [] ∧ ∀ c ∈ e.2, isDigit c = true

variable {n : Numeral}

theorem WellFormed.whole_ne_nil (h : n.WellFormed) : n.whole ≠ [] := by
  rcases h.leading with hz | ⟨c, cs, hc, -⟩
  · rw [hz]
    simp
  · rw [hc]
    simp

/-- What is made of a result is made of it before what follows is put beside it. -/
theorem bind_pair (x : Except ReadFault Number) (rest : List Char) :
    (x >>= fun n => .ok (n, rest)) = x.map (·, rest) := by cases x <;> rfl

theorem takes_exponent {digits : List Char} (hne : digits ≠ [])
    (hd : ∀ c ∈ digits, isDigit c = true) (negative : Bool) (significand : Nat) (start : Int)
    (down : Bool) :
    ∃ v, Takes (readExponent negative significand start) ((if down then '-' else '+') :: digits) v := by
  refine ⟨(exponentValue digits).elim
      (if significand ≠ 0 ∧ !down then .error .malformed
        else .ok (.double ⟨if negative then 0x8000000000000000 else 0⟩))
      fun e => floating negative significand (if down then start - e else start + e),
    fun rest hrest => ?_⟩
  have hspan := span_digits hd fun c hc => (hrest c hc).1
  have hempty : digits.isEmpty = false := by simpa using hne
  cases down
  all_goals
    simp only [readExponent, List.cons_append, if_true, Bool.false_eq_true, if_false, hspan.1, hspan.2,
      hempty]
    cases exponentValue digits with
    | none =>
      dsimp only [Option.elim]
      split <;> rfl
    | some e =>
      dsimp only [Option.elim]
      cases floating negative significand _ <;> rfl

def wholeNumber (negative : Bool) (whole : Digits) : Except ReadFault Number :=
  let n : Int := if negative then -whole.significand else whole.significand
  if whole.dropped ≠ 0 ∨ (negative ∧ (whole.significand = 0 ∨ n < -0x8000000000000000)) then
    floating negative whole.significand whole.dropped
  else .ok (.int n)

theorem takes_nothing (negative : Bool) (whole : Digits) :
    Takes (readFraction negative whole) [] (wholeNumber negative whole) := by
  intro rest hrest
  rw [List.nil_append, wholeNumber, apply_ite (Except.map fun x => (x, rest)), ← bind_pair]
  unfold readFraction
  split
  · exact absurd rfl (hrest _ rfl).2.1
  · exact absurd rfl (hrest _ rfl).2.2.1
  · exact absurd rfl (hrest _ rfl).2.2.2
  · rfl

theorem stops_exponent (n : Numeral) {rest : List Char} (hrest : Stops rest) :
    ∀ c ∈ (n.exponentChars ++ rest).head?, isDigit c = false := by
  intro c hc
  unfold exponentChars at hc
  cases he : n.exponent with
  | none =>
    rw [he] at hc
    exact (hrest c hc).1
  | some e =>
    rw [he] at hc
    cases hc
    rfl

theorem takes_tail (h : n.WellFormed) (negative : Bool) (whole : Digits) :
    ∃ v, Takes (readFraction negative whole) n.tail v := by
  have hexponent := h.exponent
  by_cases hfraction : n.fraction = []
  · simp only [tail, hfraction, if_true, List.nil_append, exponentChars]
    cases he : n.exponent with
    | none => exact ⟨_, takes_nothing negative whole⟩
    | some e =>
      obtain ⟨hne, hd⟩ := hexponent e he
      exact takes_exponent hne hd negative whole.significand whole.dropped e.1
  · have hempty : n.fraction.isEmpty = false := by simpa using hfraction
    have hspan := fun (rest : List Char) (hrest : Stops rest) =>
      span_digits h.fraction (stops_exponent n hrest)
    simp only [tail, hfraction, if_false, Takes, List.cons_append, List.append_assoc, readFraction]
    let all := Digits.collect ⟨whole.significand, 0, 0⟩ n.fraction
    cases he : n.exponent with
    | none =>
      refine ⟨floating negative all.significand (whole.dropped - all.taken), fun rest hrest => ?_⟩
      have hs := hspan rest hrest
      simp only [exponentChars, he, List.nil_append] at hs ⊢
      simp only [hs.1, hs.2, hempty, Bool.false_eq_true, if_false]
      split
      · exact absurd rfl (hrest _ rfl).2.2.1
      · exact absurd rfl (hrest _ rfl).2.2.2
      · cases floating negative all.significand (whole.dropped - all.taken) <;> rfl
    | some e =>
      obtain ⟨hne, hd⟩ := hexponent e he
      obtain ⟨v, hv⟩ := takes_exponent hne hd negative all.significand (whole.dropped - all.taken) e.1
      refine ⟨v, fun rest hrest => ?_⟩
      have hs := hspan rest hrest
      simp only [exponentChars, he, List.cons_append] at hs ⊢
      simp only [hs.1, hs.2, hempty, Bool.false_eq_true, if_false]
      exact hv rest hrest

/-- The whole part ends where the fraction, the exponent or something else starts. -/
theorem stops_tail (n : Numeral) {rest : List Char} (hrest : Stops rest) :
    ∀ c ∈ (n.tail ++ rest).head?, isDigit c = false := by
  by_cases hfraction : n.fraction = []
  · simp only [tail, hfraction, if_true, List.nil_append]
    exact stops_exponent n hrest
  · simp only [tail, hfraction, if_false]
    intro c hc
    cases hc
    rfl

def wholeDigits (n : Numeral) : Digits :=
  if n.whole = ['0'] then ⟨0, 1, 0⟩ else Digits.collect ⟨0, 0, 0⟩ n.whole

theorem readUnsigned_chars (h : n.WellFormed) {v : Except ReadFault Number}
    (hv : Takes (readFraction n.negative n.wholeDigits) n.tail v) {rest : List Char}
    (hrest : Stops rest) :
    readUnsigned n.negative (n.whole ++ (n.tail ++ rest)) = v.map (·, rest) := by
  have hstop := stops_tail n hrest
  have hv := hv rest hrest
  rcases h.leading with hzero | ⟨c, cs, hwhole, hne⟩
  · rw [wholeDigits, if_pos hzero] at hv
    rw [hzero]
    cases htail : n.tail ++ rest with
    | nil =>
      rw [htail] at hv
      exact hv
    | cons d ds =>
      rw [htail] at hv hstop
      simp only [List.cons_append, List.nil_append, readUnsigned, hstop d rfl, Bool.false_eq_true,
        if_false]
      exact hv
  · have hzero : n.whole ≠ ['0'] := by
      rw [hwhole]
      intro he
      exact hne (List.cons.inj he).1
    rw [wholeDigits, if_neg hzero] at hv
    have hdigit : isDigit c = true := h.whole c (by rw [hwhole]; exact List.mem_cons_self)
    have hspan := span_digits h.whole hstop
    rw [← hv]
    unfold readUnsigned
    split
    · rename_i heq
      rw [hwhole] at heq
      cases heq
    · rename_i heq
      rw [hwhole] at heq
      exact absurd (List.cons.inj heq).1 hne
    · rename_i d ds _ heq
      rw [hwhole] at heq
      rw [← (List.cons.inj heq).1, if_pos hdigit, hspan.1, hspan.2]

/-- Reading a numeral comes to reading what follows its whole part. -/
theorem takes_of_tail (h : n.WellFormed) {v : Except ReadFault Number}
    (hv : Takes (readFraction n.negative n.wholeDigits) n.tail v) : Takes readNumber n.chars v := by
  intro rest hrest
  have hunsigned := readUnsigned_chars h hv hrest
  cases hneg : n.negative with
  | true =>
    rw [hneg] at hunsigned
    simpa only [chars, hneg, if_true, List.cons_append, List.nil_append, List.append_assoc,
      readNumber_minus] using hunsigned
  | false =>
    obtain ⟨c, cs, hwhole⟩ := List.exists_cons_of_ne_nil h.whole_ne_nil
    have hdigit : isDigit c = true := h.whole c (by rw [hwhole]; exact List.mem_cons_self)
    rw [hneg, hwhole, List.cons_append] at hunsigned
    simpa only [chars, hneg, Bool.false_eq_true, if_false, List.nil_append, List.append_assoc, hwhole,
      List.cons_append, readNumber_digit hdigit] using hunsigned

theorem takes_chars (h : n.WellFormed) : ∃ v, Takes readNumber n.chars v := by
  obtain ⟨v, hv⟩ := takes_tail h n.negative n.wholeDigits
  exact ⟨v, takes_of_tail h hv⟩

theorem passDigits_append {digits rest : List Char} (hne : digits ≠ [])
    (hd : ∀ c ∈ digits, isDigit c = true) (hrest : ∀ c ∈ rest.head?, isDigit c = false) :
    passDigits (digits ++ rest) = some rest := by
  obtain ⟨c, cs, rfl⟩ := List.exists_cons_of_ne_nil hne
  have hspan := span_digits (fun d hd' => hd d (List.mem_cons_of_mem c hd')) hrest
  simp only [List.cons_append, passDigits, hd c List.mem_cons_self, if_true, hspan.2]

theorem passExponent_append (h : n.WellFormed) {rest : List Char} (hrest : Stops rest) :
    passExponent (n.exponentChars ++ rest) = some rest := by
  cases he : n.exponent with
  | none =>
    simp only [exponentChars, he, List.nil_append]
    cases rest with
    | nil => rfl
    | cons c rest =>
      obtain ⟨-, -, hlow, hup⟩ := hrest c rfl
      simp [passExponent, hlow, hup]
  | some e =>
    obtain ⟨down, digits⟩ := e
    obtain ⟨hne, hd⟩ := h.exponent _ he
    have hpass := passDigits_append hne hd fun c hc => (hrest c hc).1
    cases down <;>
      simpa only [exponentChars, he, List.cons_append, passExponent, decide_true, Bool.true_or,
        Bool.false_eq_true, if_true, if_false] using hpass

/-- Walks past the whole part of a number. -/
def passWhole : List Char → Option (List Char)
  | '0' :: rest => if rest.head?.any isDigit then none else some rest
  | cs => passDigits cs

/-- Walks past what follows the whole part. -/
def passTail : List Char → Option (List Char)
  | '.' :: rest => (passDigits rest).bind passExponent
  | rest => passExponent rest

theorem passWhole_append (h : n.WellFormed) {rest : List Char}
    (hrest : ∀ c ∈ rest.head?, isDigit c = false) : passWhole (n.whole ++ rest) = some rest := by
  rcases h.leading with hzero | ⟨c, cs, hwhole, hne⟩
  · rw [hzero]
    have hany : rest.head?.any isDigit = false := by
      cases rest with
      | nil => rfl
      | cons d ds => exact hrest d rfl
    simp only [List.cons_append, List.nil_append, passWhole, hany, Bool.false_eq_true, if_false]
  · rw [← passDigits_append h.whole_ne_nil h.whole hrest]
    unfold passWhole
    split
    · rename_i heq
      rw [hwhole] at heq
      exact absurd (List.cons.inj heq).1 hne
    · rfl

theorem passTail_append (h : n.WellFormed) {rest : List Char} (hrest : Stops rest) :
    passTail (n.tail ++ rest) = some rest := by
  have hexponent := passExponent_append h hrest
  by_cases hfraction : n.fraction = []
  · have hpoint : ∀ c ∈ (n.exponentChars ++ rest).head?, c ≠ '.' := by
      intro c hc
      unfold exponentChars at hc
      cases he : n.exponent with
      | none =>
        rw [he] at hc
        exact (hrest c hc).2.1
      | some e =>
        rw [he] at hc
        cases hc
        decide
    simp only [tail, hfraction, if_true, List.nil_append]
    unfold passTail
    split
    · rename_i heq
      rw [heq] at hpoint
      exact absurd rfl (hpoint _ rfl)
    · exact hexponent
  · have hdigits := passDigits_append hfraction h.fraction (stops_exponent n hrest)
    simp only [tail, hfraction, if_false, List.cons_append, List.append_assoc, passTail, hdigits,
      Option.bind_some, hexponent]

def dropMinus : List Char → List Char
  | '-' :: rest => rest
  | cs => cs

theorem dropMinus_of_ne {c : Char} (h : c ≠ '-') (cs : List Char) : dropMinus (c :: cs) = c :: cs := by
  unfold dropMinus
  split
  · rename_i heq
    exact absurd (List.cons.inj heq).1 h
  · rfl

theorem passNumber_eq (cs : List Char) : passNumber cs = (passWhole (dropMinus cs)).bind passTail := by
  unfold passNumber
  extract_lets unsigned tail
  have htail : tail = passTail := by
    funext rest
    unfold tail passTail
    rfl
  have hunsigned : unsigned = dropMinus cs := rfl
  rw [htail, hunsigned]
  cases dropMinus cs with
  | nil => rfl
  | cons c rest =>
    by_cases hc : c = '0'
    · subst hc
      by_cases hd : rest.head?.any isDigit = true <;> simp [passWhole, hd]
    · simp [passWhole, hc]

theorem dropMinus_chars (h : n.WellFormed) (rest : List Char) :
    dropMinus (n.chars ++ rest) = n.whole ++ (n.tail ++ rest) := by
  cases hneg : n.negative with
  | true =>
    simp only [chars, hneg, if_true, List.cons_append, List.nil_append, List.append_assoc, dropMinus]
  | false =>
    obtain ⟨c, cs, hwhole⟩ := List.exists_cons_of_ne_nil h.whole_ne_nil
    have hdigit : isDigit c = true := h.whole c (by rw [hwhole]; exact List.mem_cons_self)
    have hc : c ≠ '-' := by
      rintro rfl
      cases hdigit
    simp only [chars, hneg, Bool.false_eq_true, if_false, List.nil_append, List.append_assoc, hwhole,
      List.cons_append, dropMinus_of_ne hc]

/-- Walking past a numeral takes its characters and leaves what follows. -/
theorem passNumber_chars (h : n.WellFormed) {rest : List Char} (hrest : Stops rest) :
    passNumber (n.chars ++ rest) = some rest := by
  rw [passNumber_eq, dropMinus_chars h, passWhole_append h (stops_tail n hrest), Option.bind_some,
    passTail_append h hrest]

/-! ## Written integers -/

theorem isDigit_toDigits (m : Nat) : ∀ c ∈ Nat.toDigits 10 m, isDigit c = true := by
  intro c hc
  exact Nat.isDigit_of_mem_toDigits (by decide) (by decide) hc

theorem digitChar_ne_zero : ∀ d < 10, d ≠ 0 → Nat.digitChar d ≠ '0' := by decide

theorem toDigits_leading {m : Nat} (h : m ≠ 0) : ∃ c cs, Nat.toDigits 10 m = c :: cs ∧ c ≠ '0' := by
  induction m using Nat.strongRecOn with
  | ind m ih =>
    rw [Nat.toDigits_eq_if (by decide)]
    split
    · rename_i hlt
      exact ⟨_, [], rfl, digitChar_ne_zero m hlt h⟩
    · obtain ⟨c, cs, hcs, hne⟩ := ih (m / 10) (by omega) (by omega)
      exact ⟨c, cs ++ [Nat.digitChar (m % 10)], by rw [hcs, List.cons_append], hne⟩

def ofInt (n : Int) : Numeral := { negative := decide (n < 0), whole := Nat.toDigits 10 n.natAbs }

theorem wellFormed_ofInt (n : Int) : (ofInt n).WellFormed where
  whole := isDigit_toDigits n.natAbs
  leading := by
    by_cases h : n.natAbs = 0
    · left
      simp [ofInt, h]
    · exact .inr (toDigits_leading h)
  fraction := by simp [ofInt]
  exponent := by simp [ofInt]

theorem chars_ofInt (n : Int) : (ofInt n).chars = (toString n).toList := by
  have hrepr : toString n = n.repr := rfl
  rw [hrepr, Int.repr_eq_if]
  by_cases h : 0 ≤ n
  · have hneg : ¬ n < 0 := by omega
    have habs : n.toNat = n.natAbs := by omega
    simp [ofInt, chars, tail, exponentChars, h, hneg, habs, Nat.toList_repr]
  · have hneg : n < 0 := by omega
    have habs : (-n).toNat = n.natAbs := by omega
    simp [ofInt, chars, tail, exponentChars, h, hneg, habs, Nat.toList_repr]

theorem le_ofDigitChars (cs : List Char) (m : Nat) : m ≤ Nat.ofDigitChars 10 cs m := by
  induction cs generalizing m with
  | nil => exact Nat.le_refl m
  | cons c cs ih =>
    rw [Nat.ofDigitChars_cons]
    exact Nat.le_trans (by omega) (ih _)

theorem collect_digits (cs : List Char) (m taken : Nat)
    (h : Nat.ofDigitChars 10 cs m < 0x10000000000000000) :
    Digits.collect ⟨m, taken, 0⟩ cs = ⟨Nat.ofDigitChars 10 cs m, taken + cs.length, 0⟩ := by
  induction cs generalizing m taken with
  | nil => rfl
  | cons c cs ih =>
    rw [Nat.ofDigitChars_cons] at h ⊢
    have hnext : m * 10 + (c.toNat - '0'.toNat) = 10 * m + (c.toNat - '0'.toNat) := by
      rw [Nat.mul_comm]
    have hfits := Nat.lt_of_le_of_lt (le_ofDigitChars cs _) h
    simp only [Digits.collect, hnext, hfits, and_self, if_true]
    rw [ih _ _ h, List.length_cons, Nat.add_assoc, Nat.add_comm 1]

theorem wholeDigits_ofInt {n : Int} (h : n.natAbs < 0x10000000000000000) :
    (ofInt n).wholeDigits.significand = n.natAbs ∧ (ofInt n).wholeDigits.dropped = 0 := by
  have hvalue : Nat.ofDigitChars 10 (Nat.toDigits 10 n.natAbs) 0 = n.natAbs :=
    Nat.ofDigitChars_toDigits (by decide) (by decide)
  unfold wholeDigits
  split
  · rename_i hzero
    rw [show (ofInt n).whole = Nat.toDigits 10 n.natAbs from rfl] at hzero
    rw [hzero] at hvalue
    exact ⟨hvalue, rfl⟩
  · rw [show (ofInt n).whole = Nat.toDigits 10 n.natAbs from rfl, collect_digits _ _ _ (by rw [hvalue]; exact h)]
    exact ⟨hvalue, rfl⟩

theorem takes_ofInt {n : Int} (hlow : -0x8000000000000000 ≤ n) (hhigh : n < 0x10000000000000000) :
    Takes readNumber (ofInt n).chars (.ok (.int n)) := by
  apply takes_of_tail (wellFormed_ofInt n)
  have htail : (ofInt n).tail = [] := rfl
  obtain ⟨hsignificand, hdropped⟩ := wholeDigits_ofInt (n := n) (by omega)
  have hwhole : wholeNumber (ofInt n).negative (ofInt n).wholeDigits = .ok (.int n) := by
    have hnegative : (ofInt n).negative = decide (n < 0) := rfl
    simp only [wholeNumber, hsignificand, hdropped, hnegative]
    by_cases hneg : n < 0
    · have hnat : -(n.natAbs : Int) = n := by omega
      have hne : n.natAbs ≠ 0 := by omega
      have hnot : ¬ n < -0x8000000000000000 := by omega
      simp only [hneg, decide_true, if_true, hnat, hne, hnot, ne_eq, not_true_eq_false, or_self,
        and_false, if_false]
    · have hnat : (n.natAbs : Int) = n := by omega
      simp [hneg, hnat]
  rw [htail, ← hwhole]
  exact takes_nothing _ _

/-! ## Written floating-point numbers -/

theorem zeros_toList (m : Nat) : (Number.zeros m).toList = List.replicate m '0' := by
  simp [Number.zeros]

theorem isDigit_replicate (m : Nat) : ∀ c ∈ List.replicate m '0', isDigit c = true := by
  intro c hc
  rw [List.eq_of_mem_replicate hc]
  rfl

/-- The numeral of a laid-out decimal, with the digits `text` and the leading one at `lead`. -/
def ofLayout (style : DecimalLayout) (text : List Char) (exponent : Int) : Numeral :=
  let lead := (text.length : Int) - 1 + exponent
  if style.leastPositional ≤ lead ∧ lead < style.firstScientific then
    if 0 ≤ exponent then { whole := text ++ List.replicate exponent.toNat '0', fraction := ['0'] }
    else if 0 ≤ lead then
      { whole := text.take (text.length + exponent).toNat
        fraction := text.drop (text.length + exponent).toNat }
    else { whole := ['0'], fraction := List.replicate (-lead - 1).toNat '0' ++ text }
  else
    { whole := text.take 1, fraction := text.drop 1,
      exponent := some (decide (lead < 0), Nat.toDigits 10 lead.natAbs) }

theorem wellFormed_ofLayout (style : DecimalLayout) {text : List Char} {exponent : Int}
    (hd : ∀ c ∈ text, isDigit c = true)
    (hlead : (text = ['0'] ∧ exponent = 0) ∨ ∃ c cs, text = c :: cs ∧ c ≠ '0') :
    (ofLayout style text exponent).WellFormed := by
  have htake : ∀ m, ∀ c ∈ text.take m, isDigit c = true := fun m c hc => hd c (List.mem_of_mem_take hc)
  have hdrop : ∀ m, ∀ c ∈ text.drop m, isDigit c = true := fun m c hc => hd c (List.mem_of_mem_drop hc)
  have hzeros := isDigit_replicate
  unfold ofLayout
  extract_lets lead
  split
  · split
    · refine ⟨?_, ?_, ?_, by simp⟩
      · intro c hc
        rcases List.mem_append.mp hc with hc | hc
        · exact hd c hc
        · exact hzeros _ c hc
      · rcases hlead with ⟨rfl, rfl⟩ | ⟨c, cs, rfl, hne⟩
        · exact .inl rfl
        · exact .inr ⟨c, _, rfl, hne⟩
      · simp [isDigit]
    · rename_i hneg
      split
      · refine ⟨htake _, ?_, hdrop _, by simp⟩
        rcases hlead with ⟨rfl, rfl⟩ | ⟨c, cs, rfl, hne⟩
        · exact absurd (Int.le_refl 0) hneg
        · have hpos : ((c :: cs).length + exponent).toNat = (((c :: cs).length + exponent).toNat - 1) + 1 := by
            omega
          rw [hpos]
          exact .inr ⟨c, _, rfl, hne⟩
      · refine ⟨by simp [isDigit], .inl rfl, ?_, by simp⟩
        intro c hc
        rcases List.mem_append.mp hc with hc | hc
        · exact hzeros _ c hc
        · exact hd c hc
  · refine ⟨htake 1, ?_, hdrop 1, ?_⟩
    · rcases hlead with ⟨rfl, rfl⟩ | ⟨c, cs, rfl, hne⟩
      · exact .inl rfl
      · exact .inr ⟨c, _, rfl, hne⟩
    · rintro e ⟨⟩
      exact ⟨Nat.toDigits_ne_nil, isDigit_toDigits _⟩

theorem chars_ofLayout {style : DecimalLayout} (hplus : style.exponentPlus = "+") (d : Decimal) :
    (ofLayout style (Nat.toDigits 10 d.digits) d.exponent).chars = (Number.layOut style d).toList := by
  have htext : (toString d.digits).toList = Nat.toDigits 10 d.digits := Nat.toList_repr
  have hne : Nat.toDigits 10 d.digits ≠ [] := Nat.toDigits_ne_nil
  have hlength : (toString d.digits).length = (Nat.toDigits 10 d.digits).length := by
    rw [← String.length_toList, htext]
  unfold ofLayout Number.layOut
  simp only [hlength]
  generalize hlead : ((Nat.toDigits 10 d.digits).length : Int) - 1 + d.exponent = lead
  split
  · split
    · simp [chars, tail, exponentChars, zeros_toList]
    · split
      · have hdrop : (Nat.toDigits 10 d.digits).drop ((Nat.toDigits 10 d.digits).length + d.exponent).toNat
            ≠ [] := by
          rw [ne_eq, List.drop_eq_nil_iff]
          omega
        simp only [chars, tail, exponentChars, hdrop, htext]
        simp
      · simp [chars, tail, exponentChars, zeros_toList, hne]
  · have hexponent : (if 0 ≤ lead then style.exponentPlus ++ toString lead.toNat
        else "-" ++ toString (-lead).toNat).toList
          = (if decide (lead < 0) = true then '-' else '+') :: Nat.toDigits 10 lead.natAbs := by
      by_cases h : 0 ≤ lead
      · have hnot : ¬ lead < 0 := by omega
        have habs : lead.toNat = lead.natAbs := by omega
        simp [h, hnot, hplus, habs, Nat.toList_repr]
      · have hneg : lead < 0 := by omega
        have habs : (-lead).toNat = lead.natAbs := by omega
        simp [h, hneg, habs, Nat.toList_repr]
    rw [String.toList_append, String.toList_append, hexponent, htext]
    cases hdigits : Nat.toDigits 10 d.digits with
    | nil => exact absurd hdigits hne
    | cons c cs =>
      cases cs with
      | nil => simp [chars, tail, exponentChars]
      | cons c' cs => simp [chars, tail, exponentChars]

theorem chars_signed (n : Numeral) (h : n.negative = false) (negative : Bool) :
    ({ n with negative } : Numeral).chars = (Number.signed negative (String.ofList n.chars)).toList := by
  cases negative <;> simp [chars, h, Number.signed, tail, exponentChars]

/-- Digits that are laid out make up a numeral, unless zero is moved to the left. -/
theorem exists_layOut {style : DecimalLayout} (hplus : style.exponentPlus = "+") {d : Decimal}
    (hd : d.digits = 0 → d.exponent = 0) (negative : Bool) :
    ∃ n : Numeral, n.WellFormed ∧ n.chars = (Number.signed negative (Number.layOut style d)).toList := by
  let n := ofLayout style (Nat.toDigits 10 d.digits) d.exponent
  have hlead : (Nat.toDigits 10 d.digits = ['0'] ∧ d.exponent = 0) ∨
      ∃ c cs, Nat.toDigits 10 d.digits = c :: cs ∧ c ≠ '0' := by
    by_cases h : d.digits = 0
    · exact .inl ⟨by rw [h, Nat.toDigits_zero], hd h⟩
    · exact .inr (toDigits_leading h)
  have hn : n.WellFormed := wellFormed_ofLayout style (isDigit_toDigits d.digits) hlead
  have hneg : n.negative = false := by
    simp only [n, ofLayout]
    split
    · split
      · rfl
      · split <;> rfl
    · rfl
  refine ⟨{ n with negative }, ⟨hn.whole, hn.leading, hn.fraction, hn.exponent⟩, ?_⟩
  rw [chars_signed n hneg, chars_ofLayout hplus, String.ofList_toList]

end Numeral

namespace Shortest

theorem interval_low_pos {significand : Nat} (h : significand ≠ 0) (exponent least : Int) (hidden : Nat) :
    0 < (interval significand exponent least hidden).low := by
  have hscale : 0 < Nat.pow 2 (exponent - 2).toNat := Nat.pow_pos (by decide)
  unfold interval
  refine Nat.mul_pos ?_ hscale
  split <;> omega

theorem onGrid_digits_ne_zero {i : Interval} (h : 0 < i.low) {exponent : Int} {d : Decimal}
    (hd : i.onGrid? exponent = some d) : d.digits ≠ 0 := by
  have hzero : ∀ k, k = 0 →
      i.contains (k * Nat.pow 10 exponent.toNat) (Nat.pow 10 (-exponent).toNat) = false := by
    rintro k rfl
    have hpos : 0 < i.low * Nat.pow 10 (-exponent).toNat := Nat.mul_pos h (Nat.pow_pos (by decide))
    unfold Interval.contains
    split
    all_goals
      simp only [Nat.zero_mul, Bool.and_eq_false_iff, decide_eq_false_iff_not]
      omega
  unfold Interval.onGrid? at hd
  extract_lets up down below above fits twice middle first second at hd
  intro hdigits
  split at hd
  · rename_i hfits
    cases hd
    exact absurd hfits (by rw [Bool.not_eq_true]; exact hzero first hdigits)
  · split at hd
    · rename_i hfits
      cases hd
      exact absurd hfits (by rw [Bool.not_eq_true]; exact hzero second hdigits)
    · cases hd

theorem trim_digits_ne_zero (fuel : Nat) (d : Decimal) (h : d.digits ≠ 0) : (trim fuel d).digits ≠ 0 := by
  induction fuel generalizing d with
  | zero => exact h
  | succ fuel ih =>
    unfold trim
    split
    · exact ih _ (by simp only; omega)
    · exact h

theorem search_digits {i : Interval} (h : 0 < i.low) (lead : Int) (fuel count : Nat) :
    (search i lead fuel count).digits = 0 → (search i lead fuel count).exponent = 0 := by
  induction fuel generalizing count with
  | zero => exact fun _ => rfl
  | succ fuel ih =>
    unfold search
    cases hgrid : i.onGrid? (lead - count + 1) with
    | none => exact ih (count + 1)
    | some d => exact fun hzero => absurd hzero (trim_digits_ne_zero 20 d (onGrid_digits_ne_zero h hgrid))

end Shortest

namespace Draft

theorem skipBlanks_cons {c : Char} (h : isBlank c = false) (cs : List Char) :
    skipBlanks (c :: cs) = c :: cs := by
  simp [skipBlanks, h]

theorem ne_of_numeral {c : Char} (h : c = '-' ∨ isDigit c = true) {d : Char} (hd : isDigit d = false)
    (hne : d ≠ '-') : c ≠ d := by
  rintro rfl
  rcases h with h | h
  · exact hne h
  · rw [hd] at h
    cases h

theorem not_blank_of_numeral {c : Char} (h : c = '-' ∨ isDigit c = true) : isBlank c = false := by
  have hblank := ne_of_numeral h (d := ' ') rfl (by decide)
  have hline := ne_of_numeral h (d := '\n') rfl (by decide)
  have htab := ne_of_numeral h (d := '\t') rfl (by decide)
  have hreturn := ne_of_numeral h (d := '\r') rfl (by decide)
  simp [isBlank, hblank, hline, htab, hreturn]

theorem readValue_numeral {c : Char} (h : c = '-' ∨ isDigit c = true) (fuel depth : Nat)
    (cs : List Char) : readValue (fuel + 1) depth (c :: cs) = readNumeral (c :: cs) := by
  have hnumber : (c = '-' || isDigit c) = true := by simpa using h
  unfold readValue
  rw [skipBlanks_cons (not_blank_of_numeral h)]
  split
  · rename_i heq
    cases heq
  · rename_i heq
    exact absurd (List.cons.inj heq).1 (ne_of_numeral h rfl (by decide))
  · rename_i heq
    exact absurd (List.cons.inj heq).1 (ne_of_numeral h rfl (by decide))
  · rename_i heq
    exact absurd (List.cons.inj heq).1 (ne_of_numeral h rfl (by decide))
  · rename_i heq
    exact absurd (List.cons.inj heq).1 (ne_of_numeral h rfl (by decide))
  · rename_i heq
    exact absurd (List.cons.inj heq).1 (ne_of_numeral h rfl (by decide))
  · rename_i heq
    exact absurd (List.cons.inj heq).1 (ne_of_numeral h rfl (by decide))
  · rename_i heq
    cases heq
    rw [if_pos hnumber]

end Draft

namespace Numeral

open Draft

variable {n : Numeral}

theorem chars_head (h : n.WellFormed) : ∃ c cs, n.chars = c :: cs ∧ (c = '-' ∨ isDigit c = true) := by
  cases hneg : n.negative with
  | true => exact ⟨'-', _, by rw [chars, hneg]; rfl, .inl rfl⟩
  | false =>
    obtain ⟨c, cs, hwhole⟩ := List.exists_cons_of_ne_nil h.whole_ne_nil
    refine ⟨c, cs ++ n.tail, ?_, .inr (h.whole c (by rw [hwhole]; exact List.mem_cons_self))⟩
    simp [chars, hneg, hwhole]

/-- What a numeral is read as: a number, or a break that can be walked past. -/
def draft : Except ReadFault Number → Draft
  | .ok n => .num n
  | .error fault => .broken ⟨fault, .malformed, none⟩

theorem readValue_chars (h : n.WellFormed) {v : Except ReadFault Number}
    (hv : Takes readNumber n.chars v) (fuel depth : Nat) {rest : List Char} (hrest : Stops rest) :
    readValue (fuel + 1) depth (n.chars ++ rest) = (draft v, rest) := by
  obtain ⟨c, cs, hchars, hc⟩ := chars_head h
  have hread := hv rest hrest
  have hpass := passNumber_chars h hrest
  rw [hchars, List.cons_append] at hread hpass ⊢
  rw [readValue_numeral hc, readNumeral, hread]
  cases v with
  | ok m => rfl
  | error fault =>
    simp only [Except.map, hpass]
    rfl

end Numeral

namespace Number

open Draft

theorem exists_numeral (style : DecimalLayout) (hplus : style.exponentPlus = "+")
    (hzero : Number.layOut style ⟨0, 0⟩ = "0.0") (negative : Bool) {significand : Nat} {d : Decimal}
    (hd : significand ≠ 0 → d.digits = 0 → d.exponent = 0) :
    ∃ m : Numeral, m.WellFormed ∧ m.chars
      = (signed negative (if significand = 0 then "0.0" else layOut style d)).toList := by
  split
  · rw [← hzero]
    exact Numeral.exists_layOut hplus (fun _ => rfl) negative
  · rename_i hne
    exact Numeral.exists_layOut hplus (hd hne) negative

theorem text_cases (n : Number) :
    n.text.toList = "null".toList ∨ ∃ m : Numeral, m.WellFormed ∧ m.chars = n.text.toList := by
  cases n with
  | int n => exact .inr ⟨.ofInt n, Numeral.wellFormed_ofInt n, Numeral.chars_ofInt n⟩
  | double x =>
    rw [text]
    split
    · refine .inr (exists_numeral doubleLayout rfl (by decide) _ fun hne => ?_)
      rw [F64.shortest, if_neg hne]
      exact Shortest.search_digits (Shortest.interval_low_pos hne _ _ _) _ _ _
    · exact .inl rfl
  | single x =>
    rw [text]
    split
    · refine .inr (exists_numeral singleLayout rfl (by decide) _ fun hne => ?_)
      rw [F32.shortest, if_neg hne]
      exact Shortest.search_digits (Shortest.interval_low_pos hne _ _ _) _ _ _
    · exact .inl rfl

def reread (n : Number) : Draft := (Draft.read n.text).1

theorem exists_reread (n : Number) : ∃ d, ∀ fuel depth rest, Stops rest →
    readValue (fuel + 1) depth (n.text.toList ++ rest) = (d, rest) := by
  rcases n.text_cases with hnull | ⟨m, hm, htext⟩
  · exact ⟨.null, fun fuel depth rest _ => by rw [hnull]; rfl⟩
  · obtain ⟨v, hv⟩ := Numeral.takes_chars hm
    exact ⟨Numeral.draft v, fun fuel depth rest hrest => by
      rw [← htext, Numeral.readValue_chars hm hv fuel depth hrest]⟩

theorem readValue_text (n : Number) (fuel depth : Nat) {rest : List Char} (hrest : Stops rest) :
    readValue (fuel + 1) depth (n.text.toList ++ rest) = (n.reread, rest) := by
  obtain ⟨d, hd⟩ := n.exists_reread
  have halone := hd (2 * n.text.toList.length + 1) 0 [] stops_nil
  rw [List.append_nil] at halone
  rw [hd fuel depth rest hrest, reread, Draft.read, halone]

def Rereads (n : Number) : Prop := n.reread = .num n

theorem rereads_int {n : Int} (hlow : -0x8000000000000000 ≤ n) (hhigh : n < 0x10000000000000000) :
    (int n).Rereads := by
  have htakes := Numeral.takes_ofInt hlow hhigh
  have hread := Numeral.readValue_chars (Numeral.wellFormed_ofInt n) htakes 0 0 stops_nil
  rw [Numeral.chars_ofInt, show toString n = (int n).text from rfl, readValue_text _ _ _ stops_nil] at hread
  exact congrArg Prod.fst hread

end Number

end Flowscript
